import SatSearch.Proofs.Cdcl.Rounds
import SatSearch.Proofs.Search.Run

/-!
# Lifetime — calls of the search that learns, and what happens between them

A call takes every assignment back and makes rounds until one of them ends it, or its budget is
reached, or it is stopped. The lifetime of a search starts over a formula without learned clauses
and goes on by adding clauses, setting budgets and making calls, in any order. Throughout, the
search stays regular; so every call ends without a fault, and its verdict is right for the given
clauses as they are then.
-/

namespace SatSearch

open Trail

namespace Cdcl

variable {σ : Type} {n : Nat} {P : σ → Prop} {kind : AnalyserKind}
variable {s s' : Cdcl σ} {answer : Option Verdict} {verdict : Verdict}

/-! ## Between calls -/

theorem regular_start {f : Formula} {propagator : PropagatorKind} {p : Position} {selector : σ}
    {restarter : Restarter} (hf : f.Pristine) (hp : Position.ofFormula propagator f = .ok p)
    (hselector : P selector) (hrestarter : restarter.Live) :
    (start p selector (.build kind f.numVars) restarter).Regular f.numVars P kind := by
  rcases Position.ofFormula_spec propagator hf with ⟨p', hp', hready, hformula, _⟩
  obtain rfl : p = p' := Except.ok.inj (hp.symm.trans hp')
  exact ⟨hready.left, by rw [start, hformula], hselector, Analyser.fresh_build kind f.numVars,
    hrestarter⟩

theorem Regular.clear (h : s.Regular n P kind) : s.clear.Regular n P kind :=
  ⟨h.position.clear.left, h.numVars_eq, h.selector, h.analyser, h.restarter⟩

theorem Regular.ready_clear (h : s.Regular n P kind) : s.clear.position.Ready :=
  h.position.clear

/-- A clause is refused, or becomes the last given one. -/
theorem add_spec (h : s.Regular n P kind) (ls : List Literal) :
    ∃ answer s', s.add ls = .ok (answer, s') ∧ s'.Regular n P kind ∧ s'.budget = s.budget ∧
      ((∃ e, answer = .error e) ∧ s'.position.formula = s.position.formula ∨
        (∃ i, answer = .ok i) ∧ s'.position.formula = s.position.formula.extended ls) := by
  rcases s with ⟨p, selector, analyser, restarter, conflicts, decisions, budget⟩
  have hposition : p.Left := h.position
  -- Indices shift only if something was learned, and then the propagator starts anew.
  have hshift : (!p.formula.learnts.isEmpty) = true ∨ p.formula.learnts = #[] := by
    cases hempty : p.formula.learnts.isEmpty with
    | true => exact .inr (Array.isEmpty_iff.1 hempty)
    | false => exact .inl rfl
  rcases hposition.add (!p.formula.learnts.isEmpty) ls hshift with
    ⟨answer, p', hok, hready, _, hformula⟩
  refine ⟨answer, ⟨p', selector, analyser, restarter, conflicts, decisions, budget⟩,
    by simp only [add, hok], ⟨hready.left, ?_, h.selector, h.analyser, h.restarter⟩, rfl, ?_⟩
  · have hvars : p.formula.numVars = n := h.numVars_eq
    rcases hformula with ⟨_, hformula⟩ | ⟨_, hformula⟩
    · rw [hformula, hvars]
    · rw [hformula, Formula.numVars_extended, hvars]
  · rcases hformula with hrefused | ⟨hanswer, hformula⟩
    · exact .inl hrefused
    · exact .inr ⟨⟨_, hanswer⟩, hformula⟩

/-- Adding concerns the position only. -/
theorem add_eq_ok {ls : List Literal} {added : Except FormulaError Nat}
    (h : s.add ls = .ok (added, s')) :
    ∃ p', s.position.add (!s.position.formula.learnts.isEmpty) ls = .ok (added, p') ∧
      s' = { s with position := p' } := by
  rcases s with ⟨p, selector, analyser, restarter, conflicts, decisions, budget⟩
  simp only [add] at h
  split at h
  · cases h
  · rename_i answer p' hadd
    cases h
    exact ⟨p', hadd, rfl⟩

theorem regular_setBudget (h : s.Regular n P kind) (budget : Budget) :
    (s.setBudget budget).Regular n P kind :=
  ⟨h.position, h.numVars_eq, h.selector, h.analyser, h.restarter⟩

variable [Selector σ]

/-! ## Rounds, one after the other -/

/-- A round that does not end the search. -/
def Next (P : σ → Prop) (kind : AnalyserKind) (s s' : Cdcl σ) : Prop :=
  ∃ q move, Rounded P kind s q move s' ∧ move.verdict? = none

/-- A round that ends the search with a verdict. -/
def Ends (P : σ → Prop) (kind : AnalyserKind) (s : Cdcl σ) (verdict : Verdict) (s' : Cdcl σ) :
    Prop :=
  ∃ q move, Rounded P kind s q move s' ∧ move.verdict? = some verdict

/-- How the rounds of a call go that began when the counters stood as given. -/
abbrev Ran (P : σ → Prop) (kind : AnalyserKind) (conflicts decisions : Nat) :
    Cdcl σ → Option Verdict → Cdcl σ → Prop :=
  SatSearch.Ran (Next P kind) (Ends P kind) fun s => s.isExhausted conflicts decisions = true

/-- Rounds are made without faults. -/
theorem run_spec (hP : Selector.Lawful n P) (conflicts decisions fuel : Nat) : ∀ s : Cdcl σ,
    s.Regular n P kind → s.position.Ready →
    ∃ answer s', run conflicts decisions fuel s = .ok (answer, s') ∧
      Ran P kind conflicts decisions s answer s' := by
  induction fuel with
  | zero =>
      intro s _ _
      exact ⟨none, s, rfl, .stopped .refl⟩
  | succ fuel ih =>
      intro s hs hready
      cases hexhausted : s.isExhausted conflicts decisions with
      | true => exact ⟨some .unknown, s, by simp [run, hexhausted], .exhausted .refl hexhausted⟩
      | false =>
          -- A round that goes on leaves what the next one needs.
          rcases round_spec hP hs hready with ⟨q, move, s₁, hround, hrounded⟩
          cases hverdict : move.verdict? with
          | some verdict =>
              exact ⟨some verdict, s₁, by simp [run, hexhausted, hround, hverdict],
                .ended .refl ⟨q, move, hrounded, hverdict⟩⟩
          | none =>
              rcases ih s₁ (hrounded.regular hs) (hrounded.ready hverdict) with
                ⟨answer, s', hrun, hran⟩
              exact ⟨answer, s', by simp [run, hexhausted, hround, hverdict, hrun],
                hran.head ⟨q, move, hrounded, hverdict⟩⟩

/-! ## Calls -/

/-- A call is made without faults, starting with nothing assigned. -/
theorem solve_spec (hP : Selector.Lawful n P) (h : s.Regular n P kind) (fuel : Nat) :
    ∃ answer s', s.solve fuel = .ok (answer, s') ∧
      Ran P kind s.conflicts s.decisions s.clear answer s' :=
  run_spec hP s.conflicts s.decisions fuel s.clear h.clear h.ready_clear

/-- What every round keeps, the rounds of a call keep. -/
theorem Ran.keeps {I : Cdcl σ → Prop} {conflicts decisions : Nat}
    (h : Ran P kind conflicts decisions s answer s')
    (hround : ∀ s q move s', I s → Rounded P kind s q move s' → I s') (hs : I s) : I s' :=
  h.invariant (fun _ _ hI ⟨_, _, hrounded, _⟩ => hround _ _ _ _ hI hrounded)
    (fun _ _ _ hI ⟨_, _, hrounded, _⟩ => hround _ _ _ _ hI hrounded) hs

/-- The given clauses and the variables are those the rounds began with. -/
def SameGiven (s s' : Cdcl σ) : Prop :=
  s'.position.formula.given = s.position.formula.given ∧
    s'.position.formula.numVars = s.position.formula.numVars

theorem Rounded.sameGiven {s₁ : Cdcl σ} {q : Position} {move : Move} (h : SameGiven s s₁)
    (hrounded : Rounded P kind s₁ q move s') : SameGiven s s' :=
  ⟨by rw [hrounded.made.given_eq.1, hrounded.formula_eq, h.1],
    by rw [hrounded.made.given_eq.2, hrounded.formula_eq, h.2]⟩

theorem sameGiven_of_reaches (h : Reaches (Next P kind) s s') : SameGiven s s' :=
  h.invariant (I := SameGiven s) (fun _ _ hI ⟨_, _, hrounded, _⟩ => hrounded.sameGiven hI)
    ⟨rfl, rfl⟩

section Ran

variable {conflicts decisions : Nat}

theorem Ran.regular (h : Ran P kind conflicts decisions s answer s') (hs : s.Regular n P kind) :
    s'.Regular n P kind :=
  Ran.keeps h (fun _ _ _ _ hI hrounded => hrounded.regular hI) hs

theorem Ran.sameGiven (h : Ran P kind conflicts decisions s answer s') : SameGiven s s' :=
  Ran.keeps h (fun _ _ _ _ hI hrounded => hrounded.sameGiven hI) ⟨rfl, rfl⟩

theorem Ran.budget_eq (h : Ran P kind conflicts decisions s answer s') : s'.budget = s.budget :=
  Ran.keeps (I := fun x => x.budget = s.budget) h
    (fun _ _ _ _ hI hrounded => hrounded.budget_eq.trans hI) rfl

/-- A verdict is right for the clauses the call began with. -/
theorem Ran.rightFor (h : Ran P kind conflicts decisions s (some verdict) s') :
    verdict.RightFor s.position.formula := by
  cases h with
  | exhausted _ _ => trivial
  | ended hreaches hends =>
      rcases hends with ⟨q, move, hrounded, hverdict⟩
      have hright := hrounded.made.rightFor hverdict
      rcases sameGiven_of_reaches hreaches with ⟨hgiven, hvars⟩
      rw [hrounded.formula_eq] at hright
      exact hright.congr hgiven hvars

end Ran

/-- Rounds that go on leave a position that is ready for the next one. -/
theorem Regular.ready_of_solve {fuel : Nat} (hP : Selector.Lawful n P) (h : s.Regular n P kind)
    (hsolve : s.solve fuel = .ok (none, s')) : s'.position.Ready := by
  rcases solve_spec hP h fuel with ⟨answer, s₁, hok, hran⟩
  cases hsolve.symm.trans hok
  cases hran with
  | stopped hreaches =>
      exact hreaches.invariant (I := fun s => s.position.Ready)
        (fun _ _ _ ⟨_, _, hrounded, hverdict⟩ => hrounded.ready hverdict) h.ready_clear

/-! ## Lifetimes -/

/-- What a search can become that is started over a formula without learned clauses, with a selector
that is fit for its variables. A call may be stopped after any number of rounds. -/
inductive Lifetime (fit : Nat → σ → Prop) (kind : AnalyserKind) : Cdcl σ → Prop
  | started {f : Formula} {propagator : PropagatorKind} {p : Position} {selector : σ}
      {schedule : Schedule} :
      f.Built → Position.ofFormula propagator f = .ok p → fit f.numVars selector →
      Lifetime fit kind (.start p selector (.build kind f.numVars) (.start schedule))
  | added {s s' : Cdcl σ} {ls : List Literal} {answer : Except FormulaError Nat} :
      Lifetime fit kind s → s.add ls = .ok (answer, s') → Lifetime fit kind s'
  | budgeted {s : Cdcl σ} {budget : Budget} :
      Lifetime fit kind s → Lifetime fit kind (s.setBudget budget)
  | solved {s s' : Cdcl σ} {fuel : Nat} {answer : Option Verdict} :
      Lifetime fit kind s → s.solve fuel = .ok (answer, s') → Lifetime fit kind s'

/-- A search is regular all its lifetime. -/
theorem Lifetime.regular {fit Q : Nat → σ → Prop} (hQ : ∀ n, Selector.Lawful n (Q n))
    (hfit : ∀ n selector, fit n selector → Q n selector) (h : Lifetime fit kind s) :
    ∃ n, s.Regular n (Q n) kind := by
  induction h with
  | @started f propagator p selector schedule hf hp hselector =>
      exact ⟨f.numVars, regular_start hf.pristine hp (hfit _ _ hselector)
        (Restarter.live_start schedule)⟩
  -- The operations are functions, so the answer they gave is the one that is specified.
  | added _ hadd ih =>
      rcases ih with ⟨n, hs⟩
      rcases add_spec hs _ with ⟨_, _, hok, hregular, _⟩
      cases hadd.symm.trans hok
      exact ⟨n, hregular⟩
  | budgeted _ ih =>
      rcases ih with ⟨n, hs⟩
      exact ⟨n, regular_setBudget hs _⟩
  | solved _ hsolve ih =>
      rcases ih with ⟨n, hs⟩
      rcases solve_spec (hQ n) hs _ with ⟨_, _, hok, hran⟩
      cases hsolve.symm.trans hok
      exact ⟨n, Ran.regular hran hs.clear⟩

/-- With either selector a search is regular all its lifetime, for some number of variables. -/
theorem Lifetime.exists_regular {s : Cdcl Branching} (h : s.Lifetime Branching.Fresh kind) :
    ∃ n, s.Regular n (Branching.Suits n) kind :=
  h.regular Branching.lawful fun _ _ => Branching.Fresh.suits

/-- Between the rounds of a call the position is ready to propagate. -/
theorem Lifetime.ready_of_solve {s s' : Cdcl Branching} {fuel : Nat}
    (h : s.Lifetime Branching.Fresh kind) (hsolve : s.solve fuel = .ok (none, s')) :
    s'.position.Ready := by
  rcases h.exists_regular with ⟨n, hregular⟩
  exact hregular.ready_of_solve (Branching.lawful n) hsolve

/-- A search over the sample formula, with watched literals and a restart after every conflict. -/
def sample : Cdcl Branching :=
  .start ⟨.sample, .watch ⟨#[#[0], #[1], #[0], #[], #[1], #[]], #[(0, 1), (0, 1)], #[], #[]⟩,
    .empty 3, 0⟩ (.fixedOrder ⟨3⟩) (.build .firstUip 3) (.start (.fixed 1))

theorem lifetime_sample {fit : Nat → Branching → Prop} (hfit : fit 3 (.fixedOrder ⟨3⟩)) :
    sample.Lifetime fit .firstUip :=
  have hp : Position.ofFormula .watch .sample = .ok sample.position := by decide +kernel
  .started Formula.built_sample hp hfit

/-- A search that has found a model after a conflict, and was given one more clause then. -/
def revised : Except Fault (Cdcl Branching) :=
  (Position.ofFormula .watch .staged).bind fun p =>
    ((start p (.fixedOrder ⟨4⟩) (.build .firstUip 4) (.start (.fixed 1))).solve 8).bind fun r =>
      (r.2.add [⟨2, false⟩, ⟨3, false⟩]).map Prod.snd

theorem exists_revised {fit : Nat → Branching → Prop} (hfit : fit 4 (.fixedOrder ⟨4⟩)) :
    ∃ s : Cdcl Branching, revised = .ok s ∧ s.Lifetime fit .firstUip ∧
      s.position.formula = .revised ∧ s.conflicts = 1 ∧ s.budget = .unlimited := by
  have hrun : revised.map (fun s => (s.position.formula, s.conflicts, s.budget)) =
      .ok (.revised, 1, .unlimited) := by decide +kernel
  rcases exists_of_map_eq_ok hrun with ⟨s, hok, heq⟩
  rcases exists_of_bind_eq_ok hok with ⟨p, hp, hsolved⟩
  rcases exists_of_bind_eq_ok hsolved with ⟨⟨answer, s₁⟩, hsolve, hadded⟩
  rcases exists_of_map_eq_ok hadded with ⟨⟨added, s₂⟩, hadd, rfl⟩
  have hstarted : Lifetime fit .firstUip
      (start p (.fixedOrder ⟨4⟩) (.build .firstUip 4) (.start (.fixed 1))) :=
    .started Formula.built_staged hp hfit
  simp only [Prod.mk.injEq] at heq
  exact ⟨_, hok, (hstarted.solved hsolve).added hadd, heq⟩

/-- There is a second conflict, with what was learned from the first one, and another model. -/
theorem solve_revised {s : Cdcl Branching} (h : revised = .ok s) :
    ∃ s', s.solve 8 = .ok (some (.satisfiable ⟨#[false, true, false, true]⟩), s') ∧
      s'.conflicts = 2 := by
  have hrun : revised.bind (fun s => (s.solve 8).map fun r => (r.1, r.2.conflicts)) =
      .ok (some (.satisfiable ⟨#[false, true, false, true]⟩), 2) := by decide +kernel
  rw [h] at hrun
  rcases exists_of_map_eq_ok hrun with ⟨⟨answer, s'⟩, hok, heq⟩
  obtain ⟨rfl, hconflicts⟩ := Prod.mk.inj heq
  exact ⟨s', hok, hconflicts⟩

/-- All its lifetime, with either propagator, selector and analyser and any restarts, the calls of
the search that learns end without faults, and their verdicts are right: a model gives every
variable one value and satisfies every given clause, and an unsatisfiable formula has no model. The
given clauses stay what they are. -/
theorem solve_rightFor {s : Cdcl Branching} (h : s.Lifetime Branching.Fresh kind) (fuel : Nat) :
    ∃ answer s', s.solve fuel = .ok (answer, s') ∧
      s'.position.formula.given = s.position.formula.given ∧
      ∀ verdict, answer = some verdict → verdict.RightFor s.position.formula := by
  rcases h.regular Branching.lawful fun _ _ => Branching.Fresh.suits with ⟨n, hs⟩
  rcases solve_spec (Branching.lawful n) hs fuel with ⟨answer, s', hok, hran⟩
  refine ⟨answer, s', hok, (Ran.sameGiven hran).1, ?_⟩
  rintro verdict rfl
  show verdict.RightFor s.clear.position.formula
  exact Ran.rightFor hran

/-- In a call after the clause was added, the search runs into a conflict before it finds a model
that satisfies all clauses given by then. -/
theorem solve_rightFor_sample :
    ∃ s s', revised = .ok s ∧ s.position.formula = .revised ∧
      s.solve 8 = .ok (some (.satisfiable ⟨#[false, true, false, true]⟩), s') ∧
      s.conflicts = 1 ∧ s'.conflicts = 2 ∧
      (Verdict.satisfiable ⟨#[false, true, false, true]⟩).RightFor .revised := by
  rcases @exists_revised Branching.Fresh .fixedOrder with
    ⟨s, hs, hlifetime, hformula, hconflicts, _⟩
  rcases solve_revised hs with ⟨s', hsolve, hconflicts'⟩
  rcases solve_rightFor hlifetime 8 with ⟨answer, s₁, hok, _, hright⟩
  cases hsolve.symm.trans hok
  exact ⟨s, _, hs, hformula, hsolve, hconflicts, hconflicts', hformula ▸ hright _ rfl⟩

end Cdcl
end SatSearch
