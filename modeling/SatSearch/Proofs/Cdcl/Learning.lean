import SatSearch.Proofs.Cdcl.Lifetime
import SatSearch.Proofs.Store.Vector

/-!
# Learning — what happens to the clauses in the lifetime of a search

The vector of the clauses of a search grows in two ways. A clause that is added is inserted after
the given ones, and one that is learned is appended; it is entailed by the clauses given by then,
and it is a resolvent over different variables or a copy of a given clause, as the analyser has it.
Nothing is ever removed or rewritten, whichever calls are made.
-/

namespace SatSearch

/-- What the clauses look like that an analyser of the kind learns over the formula. -/
def AnalyserKind.Learns (f : Formula) (c : Clause) : AnalyserKind → Prop
  | .firstUip => (∀ l ∈ c.literals, l.var < f.numVars) ∧ (c.literals.map Literal.var).Nodup
  | .levelScan => ∃ g ∈ f.given, c.literals = g.literals

theorem AnalyserKind.Learns.mono {kind : AnalyserKind} {f f' : Formula} {c c' : Clause}
    (h : kind.Learns f c) (hliterals : c'.literals = c.literals) (hvars : f'.numVars = f.numVars)
    (hgiven : ∀ g ∈ f.given, g ∈ f'.given) : kind.Learns f' c' := by
  cases kind with
  | firstUip => simpa only [Learns, hliterals, hvars] using h
  | levelScan =>
      rcases h with ⟨g, hg, hcopy⟩
      exact ⟨g, hgiven g hg, hliterals.trans hcopy⟩

namespace Formula

variable {kind : AnalyserKind} {f f' f'' : Formula} {accepted accepted' : List (List Literal)}
variable {c : Clause}

/-- How a formula grows: its vector takes in learned clauses that are entailed by what is given at
that time, and clauses that are added. The list tells what was added, in order. -/
inductive Grown (kind : AnalyserKind) (f : Formula) : List (List Literal) → Formula → Prop
  | refl : Grown kind f [] f
  | learned {accepted : List (List Literal)} {f' f'' : Formula} {c : Clause} {i : Nat} :
      Grown kind f accepted f' → kind.Learns f' c → f'.Entails c →
      f'.vector.learn c = (i, f''.vector) → Grown kind f accepted f''
  | added {accepted : List (List Literal)} {f' f'' : Formula} {ls : List Literal} {i : Nat} :
      Grown kind f accepted f' → f'.vector.add ls = .ok (i, f''.vector) →
      Grown kind f (accepted ++ [ls]) f''

/-- Every learned clause is marked so, looks as the analyser has it, and is entailed. -/
def Taught (kind : AnalyserKind) (f : Formula) : Prop :=
  ∀ c ∈ f.learnts, c.learnt = true ∧ kind.Learns f c ∧ f.Entails c

namespace Grown

theorem trans (h : Grown kind f accepted f') (h' : Grown kind f' accepted' f'') :
    Grown kind f (accepted ++ accepted') f'' := by
  induction h' with
  | refl =>
      rw [List.append_nil]
      exact h
  | learned _ hlearns hentails hlearn ih => exact ih.learned hlearns hentails hlearn
  | added _ hadd ih =>
      rw [← List.append_assoc]
      exact ih.added hadd

/-- In front of the split nothing is new but what was added. -/
theorem originals_eq (h : Grown kind f accepted f') :
    f'.vector.originals = f.vector.originals ++ accepted.map Clause.given := by
  induction h with
  | refl => simp
  | learned _ _ _ hlearn ih =>
      rcases ClauseVector.learn_eq hlearn with ⟨_, hvector⟩
      rw [hvector, (ClauseVector.sides_append _ _).1, ih]
  | added _ hadd ih =>
      rcases ClauseVector.add_eq_ok hadd with ⟨_, hvector, _⟩
      rw [hvector, (ClauseVector.sides_insert _ _).1, ih]
      simp

/-- Behind the split nothing changes but what comes last. -/
theorem learnts_prefix (h : Grown kind f accepted f') :
    f.vector.learnts <+: f'.vector.learnts := by
  induction h with
  | refl => exact List.prefix_rfl
  | learned _ _ _ hlearn ih =>
      rcases ClauseVector.learn_eq hlearn with ⟨_, hvector⟩
      rw [hvector, (ClauseVector.sides_append _ _).2]
      exact ih.trans (List.prefix_append _ _)
  | added _ hadd ih =>
      rcases ClauseVector.add_eq_ok hadd with ⟨_, hvector, _⟩
      rwa [hvector, (ClauseVector.sides_insert _ _).2]

/-- A learned clause stays what it is, and what is given later does not take its reasons away. -/
theorem taught (h : Grown kind f accepted f') (hf : f.Taught kind) : f'.Taught kind := by
  induction h with
  | refl => exact hf
  | @learned accepted f' f'' c i _ hlearns hentails hlearn ih =>
      obtain rfl : f'' = (f'.learn c).2 := eq_learn_of_vector hlearn
      intro c' hc'
      have hmem : c' ∈ f'.learnts ∨ c' = .learned c.literals := by
        simpa [learn] using hc'
      rcases hmem with hmem | rfl
      · rcases ih c' hmem with ⟨hlearnt, hlearns', hentails'⟩
        exact ⟨hlearnt, hlearns'.mono rfl rfl fun _ => id, hentails'⟩
      · exact ⟨rfl, hlearns.mono rfl rfl fun _ => id, hentails⟩
  | @added accepted f' f'' ls i _ hadd ih =>
      obtain rfl : f'' = f'.extended ls := eq_extended_of_vector hadd
      intro c' hc'
      rcases ih c' hc' with ⟨hlearnt, hlearns', hentails'⟩
      exact ⟨hlearnt, hlearns'.mono rfl rfl fun g hg => mem_given_extended.2 (.inl hg),
        fun v hv => hentails' v (holds_of_holds_extended hv)⟩

end Grown

theorem Pristine.taught (h : f.Pristine) : f.Taught kind := by
  intro c hc
  simp [h.learnts_eq] at hc

end Formula

/-! ## Rounds and calls -/

namespace Cdcl

variable {σ : Type} {n : Nat} {P : σ → Prop} {kind : AnalyserKind} {s s' : Cdcl σ} {q : Position}
variable {move : Move} {answer : Option Verdict}

/-- Adding keeps the formula if the clause is refused, and otherwise adds the clause. -/
theorem Regular.add_grown (h : s.Regular n P kind) (ls : List Literal) :
    ∃ answer s', s.add ls = .ok (answer, s') ∧ s'.Regular n P kind ∧
      Formula.Grown kind s.position.formula (if answer.isOk then [ls] else [])
        s'.position.formula := by
  rcases add_spec h ls with ⟨answer, s', hok, hs', _⟩
  refine ⟨answer, s', hok, hs', ?_⟩
  rcases add_eq_ok hok with ⟨p', hadd, rfl⟩
  rcases Position.formula_of_add hadd with ⟨e, _, rfl, hkept⟩ | ⟨i, hformula, rfl⟩
  · show Formula.Grown kind s.position.formula [] p'.formula
    rw [hkept]
    exact .refl
  · exact Formula.Grown.refl.added (Formula.add_vector_of_ok hformula)

section Rounds

variable [Selector σ]

/-- A round learns nothing, or one clause. -/
theorem Rounded.grown (h : Rounded P kind s q move s')
    (htaught : s.position.formula.Taught kind) :
    Formula.Grown kind s.position.formula [] s'.position.formula := by
  rw [← h.formula_eq] at htaught ⊢
  rcases h.made.formula_eq_or_learned with hformula | ⟨i, c, learned, hfailed, hformula, hlearned⟩
  · rw [hformula]
    exact .refl
  · rw [hformula]
    rcases hlearned with ⟨hmove, level, hasserting⟩ | ⟨hmove, rfl⟩
    · have hlearns : kind.Learns q.formula learned := by
        cases kind with
        | firstUip => exact ⟨hasserting.inRange, hasserting.nodup_vars⟩
        | levelScan => exact absurd hmove (h.not_isAsserted rfl)
      exact Formula.Grown.refl.learned hlearns hasserting.entailed (Formula.learn_vector _ _)
    · have hc := Formula.mem_of_clause? hfailed.clause
      have hlearns : kind.Learns q.formula (.learned c.literals) := by
        cases kind with
        | firstUip => exact absurd hmove (h.not_isRetry rfl)
        | levelScan =>
            -- The failed clause is a given one, or was learned as a copy of one.
            rcases Formula.mem_clauses.1 hc with hc | hc
            · exact ⟨c, hc, rfl⟩
            · exact (htaught c hc).2.1
      have hentails : q.formula.Entails (.learned c.literals) :=
        fun v hv => hfailed.sound.holds_clauses hv c hc
      exact Formula.Grown.refl.learned hlearns hentails (Formula.learn_vector _ _)

theorem Ran.grown {conflicts decisions : Nat} (h : Ran P kind conflicts decisions s answer s')
    (htaught : s.position.formula.Taught kind) :
    Formula.Grown kind s.position.formula [] s'.position.formula :=
  Ran.keeps (I := fun x => Formula.Grown kind s.position.formula [] x.position.formula) h
    (fun _ _ _ _ hI hrounded => hI.trans (hrounded.grown (hI.taught htaught))) .refl

/-- A call adds learned clauses only. -/
theorem Regular.solve_grown (hP : Selector.Lawful n P) (h : s.Regular n P kind)
    (htaught : s.position.formula.Taught kind) (fuel : Nat) :
    ∃ answer s', s.solve fuel = .ok (answer, s') ∧ s'.Regular n P kind ∧
      Formula.Grown kind s.position.formula [] s'.position.formula := by
  rcases solve_spec hP h fuel with ⟨answer, s', hok, hran⟩
  exact ⟨answer, s', hok, Ran.regular hran h.clear, Ran.grown (s := s.clear) hran htaught⟩

/-- Learned clauses are as they should be all the lifetime of a search. -/
theorem Lifetime.taught {fit Q : Nat → σ → Prop} (hQ : ∀ n, Selector.Lawful n (Q n))
    (hfit : ∀ n selector, fit n selector → Q n selector) (h : Lifetime fit kind s) :
    s.position.formula.Taught kind := by
  induction h with
  | @started f propagator p selector schedule hf hp _ =>
      rcases Position.ofFormula_spec propagator hf.pristine with ⟨p', hp', _, hformula, _⟩
      obtain rfl : p = p' := Except.ok.inj (hp.symm.trans hp')
      rw [start, hformula]
      exact hf.pristine.taught
  | added hs hadd ih =>
      rcases hs.regular hQ hfit with ⟨n, hregular⟩
      rcases hregular.add_grown _ with ⟨_, _, hok, _, hgrown⟩
      cases hadd.symm.trans hok
      exact hgrown.taught ih
  | budgeted _ ih => exact ih
  | solved hs hsolve ih =>
      rcases hs.regular hQ hfit with ⟨n, hregular⟩
      rcases hregular.solve_grown (hQ n) ih _ with ⟨_, _, hok, _, hgrown⟩
      cases hsolve.symm.trans hok
      exact hgrown.taught ih

end Rounds

/-- What can be asked of a search between rounds. -/
inductive Call
  | add (ls : List Literal)
  | setBudget (budget : Budget)
  | solve (fuel : Nat)

variable [Selector σ]

/-- Makes the calls, one after the other, and tells which clauses were accepted. -/
def perform : List Call → Cdcl σ → Except Fault (List (List Literal) × Cdcl σ)
  | [], s => .ok ([], s)
  | .add ls :: calls, s =>
    match s.add ls with
    | .error e => .error e
    | .ok (.error _, s) => perform calls s
    | .ok (.ok _, s) =>
      match perform calls s with
      | .error e => .error e
      | .ok (accepted, s) => .ok (ls :: accepted, s)
  | .setBudget budget :: calls, s => perform calls (s.setBudget budget)
  | .solve fuel :: calls, s =>
    match s.solve fuel with
    | .error e => .error e
    | .ok (_, s) => perform calls s

/-- Calls are made without faults, and the formula grows by what they learn and accept. -/
theorem perform_spec (hP : Selector.Lawful n P) (calls : List Call) : ∀ s : Cdcl σ,
    s.Regular n P kind → s.position.formula.Taught kind →
    ∃ accepted s', perform calls s = .ok (accepted, s') ∧
      Formula.Grown kind s.position.formula accepted s'.position.formula := by
  induction calls with
  | nil =>
      intro s _ _
      exact ⟨[], s, rfl, .refl⟩
  | cons call calls ih =>
      intro s hs htaught
      cases call with
      | add ls =>
          rcases hs.add_grown ls with ⟨answer, s₁, hok, hs₁, hadded⟩
          rcases ih s₁ hs₁ (hadded.taught htaught) with ⟨accepted, s', hok', hgrown⟩
          cases answer with
          | error e => exact ⟨accepted, s', by simp only [perform, hok, hok'], hadded.trans hgrown⟩
          | ok i =>
              exact ⟨ls :: accepted, s', by simp only [perform, hok, hok'], hadded.trans hgrown⟩
      | setBudget budget => exact ih (s.setBudget budget) (regular_setBudget hs budget) htaught
      | solve fuel =>
          rcases hs.solve_grown hP htaught fuel with ⟨answer, s₁, hok, hs₁, hlearned⟩
          rcases ih s₁ hs₁ (hlearned.taught htaught) with ⟨accepted, s', hok', hgrown⟩
          exact ⟨accepted, s', by simp only [perform, hok, hok'], hlearned.trans hgrown⟩

/-- A search over two clauses that refute the first variable, by watching literals and learning from
implication points. -/
def refuting : Cdcl Branching :=
  .start ⟨.refuting, .watch ⟨#[#[], #[0, 1], #[0], #[1]], #[(0, 1), (0, 1)], #[], #[]⟩,
    .empty 2, 0⟩ (.fixedOrder ⟨2⟩) (.build .firstUip 2) (.start (.fixed 1))

theorem lifetime_refuting : refuting.Lifetime Branching.Fresh .firstUip :=
  have hp : Position.ofFormula .watch .refuting = .ok refuting.position := by decide +kernel
  .started Formula.built_refuting hp .fixedOrder

/-- At any time in the lifetime of a search that learns, and whatever is asked of it from then on,
the vector of its clauses is inserted into and appended to: in front of the split the given clauses
are continued by the ones accepted, in order, and behind it the learned ones are continued. Each
learned clause was entailed by what was given when it was learned, and still is; it consists of
literals in range over different variables if implication points are learned from, and is a copy of
a given clause if the failed clause itself is learned. -/
theorem perform_grown {s : Cdcl Branching} (h : s.Lifetime Branching.Fresh kind)
    (calls : List Call) :
    ∃ accepted s', s.perform calls = .ok (accepted, s') ∧
      Formula.Grown kind s.position.formula accepted s'.position.formula ∧
      s'.position.formula.vector.originals =
        s.position.formula.vector.originals ++ accepted.map Clause.given ∧
      s.position.formula.vector.learnts <+: s'.position.formula.vector.learnts ∧
      s'.position.formula.Taught kind := by
  have htaught := h.taught Branching.lawful fun _ _ => Branching.Fresh.suits
  rcases h.regular Branching.lawful fun _ _ => Branching.Fresh.suits with ⟨n, hs⟩
  rcases perform_spec (Branching.lawful n) calls s hs htaught with ⟨accepted, s', hok, hgrown⟩
  exact ⟨accepted, s', hok, hgrown, hgrown.originals_eq, hgrown.learnts_prefix,
    hgrown.taught htaught⟩

/-- Two rounds learn that the first variable is false. Of the two clauses added then, one is out of
range, and the other one goes in front of the learned one. -/
theorem perform_grown_sample : ∃ s', refuting.perform
      [.solve 2, .add [⟨2, true⟩], .add [⟨1, true⟩, ⟨1, true⟩], .solve 4] =
        .ok ([[⟨1, true⟩, ⟨1, true⟩]], s') ∧
      s'.position.formula.vector.clauses =
        Formula.refuting.given ++ #[⟨[⟨1, true⟩], false⟩, ⟨[⟨0, false⟩], true⟩] ∧
      s'.position.formula.vector.originals =
        Formula.refuting.vector.originals ++ [⟨[⟨1, true⟩], false⟩] ∧
      Formula.refuting.vector.learnts <+: s'.position.formula.vector.learnts ∧
      s'.position.formula.Entails ⟨[⟨0, false⟩], true⟩ := by
  have hrun : (refuting.perform
      [.solve 2, .add [⟨2, true⟩], .add [⟨1, true⟩, ⟨1, true⟩], .solve 4]).map
        (fun r => (r.1, r.2.position.formula)) =
      .ok ([[⟨1, true⟩, ⟨1, true⟩]], ⟨2, Formula.refuting.given ++ #[⟨[⟨1, true⟩], false⟩],
        #[⟨[⟨0, false⟩], true⟩]⟩) := by decide +kernel
  rcases perform_grown lifetime_refuting
      [.solve 2, .add [⟨2, true⟩], .add [⟨1, true⟩, ⟨1, true⟩], .solve 4] with
    ⟨accepted, s', hok, _, hgiven, hlearnts, htaught⟩
  rw [hok] at hrun
  obtain ⟨rfl, hformula⟩ : accepted = [[⟨1, true⟩, ⟨1, true⟩]] ∧ s'.position.formula = _ := by
    simpa only [Except.map, Except.ok.injEq, Prod.mk.injEq] using hrun
  refine ⟨s', hok, by rw [hformula]; rfl, hgiven, hlearnts, ?_⟩
  exact (htaught ⟨[⟨0, false⟩], true⟩ (by simp [hformula])).2.2

end Cdcl
end SatSearch
