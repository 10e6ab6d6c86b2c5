import SatSearch.Proofs.Cdcl.Subsumption
import SatSearch.Proofs.Search.Head

/-!
# ImplicationGraph — the reasons of a trail, and where they lead

A step that was forced points at a clause whose other literals were falsified earlier, so the
reasons of a trail form a graph without cycles. Propagation is completed at a level before the next
one is opened. A clause that forces a literal was therefore quiet below the current level, and
another one of its literals was falsified at the current level: above level zero, every forced step
has an antecedent of its own level, and through it a way back to the branch the level starts with.
-/

namespace SatSearch

open Trail

namespace Trail

variable {n k : Nat} {f : Formula} {t t' u : Trail} {c : Clause} {l : Literal} {r : Reason}

/-! ## Antecedents of the same level -/

/-- The clause that explains a step above level zero has another literal that was falsified at the
level of the step. -/
def Anchored (f : Formula) (t : Trail) : Prop :=
  ∀ s ∈ t.steps, ∀ index, s.reason = .clause index → 0 < s.level →
    ∃ c, f.clause? index = some c ∧ ∃ a ∈ c.literals, a ≠ s.literal ∧
      ∃ s' ∈ t.steps, s'.literal = a.negate ∧ s'.level = s.level

/-- A clause that was quiet by a level and forces a literal has another one that was falsified
above that level. -/
theorem Forces.exists_above (h : t.Forces c l) (ht : t.Recorded n) (hquiet : t.Quiet k c) :
    ∃ a ∈ c.literals, a ≠ l ∧ ∃ s ∈ t.steps, s.literal = a.negate ∧ k < s.level := by
  have habove : ∀ a ∈ c.literals, a ≠ l → ¬ t.TrueBy k a.negate →
      ∃ s ∈ t.steps, s.literal = a.negate ∧ k < s.level := by
    intro a ha hal hna
    rcases h.others a ha hal with ⟨s, hs, hsa⟩
    exact ⟨s, hs, hsa, Nat.lt_of_not_le fun hle => hna ⟨s, hs, hsa, hle⟩⟩
  rcases hquiet with ⟨a, ha, htrue⟩ | ⟨a, ha, b, hb, hab, hna, hnb⟩
  · -- No literal is true: the forced one is free, and all others are false.
    rcases htrue.assigns with ⟨s, hs, hsa⟩
    have hal : a ≠ l := by
      rintro rfl
      exact h.free s hs (by rw [hsa])
    exact absurd (h.others a ha hal) (ht.not_assigns_negate ⟨s, hs, hsa⟩)
  · by_cases hal : a = l
    · have hbl : b ≠ l := fun hbl => hab (hal.trans hbl.symm)
      exact ⟨b, hb, hbl, habove b hb hbl hnb⟩
    · exact ⟨a, ha, hal, habove a ha hal hna⟩

namespace Anchored

theorem empty : Anchored f (.empty n) := by
  simp [Anchored, Trail.empty]

/-- A step that is pushed has to be anchored itself, unless it is a branch or of level zero. -/
theorem pushed (h : Anchored f t)
    (hnew : ∀ index, r = .clause index → 0 < t.level → ∃ c, f.clause? index = some c ∧
      ∃ a ∈ c.literals, a ≠ l ∧ ∃ s ∈ t.steps, s.literal = a.negate ∧ s.level = t.level) :
    Anchored f (t.pushed l r) := by
  intro s hs index hreason hpos
  have hkept : ∀ s' ∈ t.steps, s' ∈ (t.pushed l r).steps := fun s' hs' => mem_pushed.2 (.inl hs')
  rcases mem_pushed.1 hs with hs | rfl
  · rcases h s hs index hreason hpos with ⟨c, hc, a, ha, hne, s', hs', rest⟩
    exact ⟨c, hc, a, ha, hne, s', hkept s' hs', rest⟩
  · rcases hnew index hreason hpos with ⟨c, hc, a, ha, hne, s', hs', rest⟩
    exact ⟨c, hc, a, ha, hne, s', hkept s' hs', rest⟩

theorem branch (h : Anchored f t) (hr : r.IsBranch) : Anchored f (t.newLevel.pushed l r) := by
  refine pushed (t := t.newLevel) h ?_
  rintro index rfl _
  exact hr.elim

/-- Steps of one level are stepped back together. -/
theorem steppedBack (h : Anchored f t) (hback : SteppedBack k t t') : Anchored f t' := by
  intro s hs index hreason hpos
  rcases hback.mem_iff.1 hs with ⟨hs, hle⟩
  rcases h s hs index hreason hpos with ⟨c, hc, a, ha, hne, s', hs', hsa, hlevel⟩
  exact ⟨c, hc, a, ha, hne, s', hback.mem_iff.2 ⟨hs', hlevel.le.trans hle⟩, hsa, hlevel⟩

theorem learn (h : Anchored f t) (c : Clause) : Anchored (f.learn c).2 t := by
  intro s hs index hreason hpos
  rcases h s hs index hreason hpos with ⟨c', hc', rest⟩
  exact ⟨c', Formula.clause?_learn hc', rest⟩

/-- With all clauses quiet below the current level, forced literals are anchored. -/
theorem forced (h : Anchored f t) (hu : Forced f t u) (hf : f.Proper) (ht : t.WellFormed f.numVars)
    (hquiet : ∀ k < t.level, ∀ c ∈ f.clauses, t.Quiet k c) : Anchored f u := by
  induction hu with
  | refl => exact h
  | moved head _ ih => exact ih h ht.withHead hquiet
  | @pushed t u i c l hc hforces _ ih =>
      have hmem := Formula.mem_of_clause? hc
      refine ih (h.pushed ?_) (ht.pushed ((hf c hmem).inRange l hforces.mem) hforces.free) ?_
      · intro index hindex hpos
        obtain rfl : i = index := by simpa using hindex
        rcases hforces.exists_above ht.toRecorded (hquiet (t.level - 1) (by omega) c hmem) with
          ⟨a, ha, hal, s, hs, hsa, hlt⟩
        have hle := ht.le_level s hs
        exact ⟨c, hc, a, ha, hal, s, hs, hsa, by omega⟩
      · intro k hk c' hc'
        have hk : k < t.level := hk
        exact (agreeBy_pushed hk).quiet (hquiet k hk c' hc')

end Anchored

/-! ## The graph -/

/-- The trail is a well-formed implication graph over the clauses of the formula. -/
structure ImplicationGraph (f : Formula) (t : Trail) : Prop where
  /-- Every level from one to the current one starts with a branch, and has no other. -/
  branch : ∀ k, 0 < k → k ≤ t.level → ∃ i s, t.levelStarts[k - 1]? = some i ∧
    t.steps[i]? = some s ∧ s.level = k ∧ s.reason.IsBranch ∧
    ∀ (j : Nat) (s' : Step), t.steps[j]? = some s' → s'.level = k →
      i ≤ j ∧ (s'.reason.IsBranch → j = i)
  ground : ∀ s ∈ t.steps, s.level = 0 → ¬ s.reason.IsBranch
  /-- The clause a step was forced by contains its literal. All others were falsified earlier, and
  one of them at the level of the step, unless that is zero. -/
  explained : ∀ (i index : Nat) (s : Step), t.steps[i]? = some s → s.reason = .clause index →
    ∃ c, f.clause? index = some c ∧ c.literals.Nodup ∧ s.literal ∈ c.literals ∧
      (∀ a ∈ c.literals, a ≠ s.literal → t.values.literal? a = some false ∧
        ∃ j < i, ∃ s', t.steps[j]? = some s' ∧ s'.literal = a.negate) ∧
      (0 < s.level → ∃ a ∈ c.literals, a ≠ s.literal ∧
        ∃ j < i, ∃ s', t.steps[j]? = some s' ∧ s'.literal = a.negate ∧ s'.level = s.level)

/-- Every level of a justified trail starts with its only branch. -/
theorem Justified.exists_branch (h : Justified f t) (hlev : t.Levelled) (hpos : 0 < k)
    (hk : k ≤ t.level) : ∃ i s, t.levelStarts[k - 1]? = some i ∧
      t.steps[i]? = some s ∧ s.level = k ∧ s.reason.IsBranch ∧
      ∀ (j : Nat) (s' : Step), t.steps[j]? = some s' → s'.level = k →
        i ≤ j ∧ (s'.reason.IsBranch → j = i) := by
  have hlt : k - 1 < t.levelStarts.size := by
    change k - 1 < t.level
    omega
  have hstart := Array.getElem?_eq_getElem hlt
  rcases h.start_branch _ _ hstart with ⟨s, hs, hlevel, hbranch⟩
  refine ⟨_, s, hstart, hs, by omega, hbranch, ?_⟩
  intro j s' hj hs'
  constructor
  · -- What lies before the start belongs to the levels below.
    by_contra hbefore
    have := (hlev.level_le_iff _ _ hstart j s' hj).2 (by omega)
    omega
  · intro hbranch'
    have hstart' := (h.branch_start j s' hj hbranch').2
    rw [hs', hstart] at hstart'
    exact (Option.some.inj hstart').symm

/-- A justified trail whose forced steps are anchored is an implication graph. -/
theorem Justified.implicationGraph (h : Justified f t) (hf : f.Proper)
    (ht : t.WellFormed f.numVars) (hanchored : Anchored f t) : ImplicationGraph f t where
  branch := fun _ => h.exists_branch ht.toLevelled
  ground := by
    intro s hs hzero hbranch
    rcases Array.mem_iff_getElem?.1 hs with ⟨i, hi⟩
    have := (h.branch_start i s hi hbranch).1
    omega
  explained := by
    intro i index s hi hreason
    rcases h.explained i index s hi hreason with ⟨c, hc, hmem, hothers⟩
    refine ⟨c, hc, (hf c (Formula.mem_of_clause? hc)).nodup, hmem, ?_, ?_⟩
    · intro a ha hne
      rcases hothers a ha hne with ⟨j, hj, s', hs', hsa⟩
      exact ⟨ht.literal?_eq_false.2 ⟨s', Array.mem_of_getElem? hs', hsa⟩, j, hj, s', hs', hsa⟩
    · intro hpos
      rcases hanchored s (Array.mem_of_getElem? hi) index hreason hpos with
        ⟨c', hc', a, ha, hne, s₁, hs₁, hsa₁, hlevel⟩
      obtain rfl : c' = c := Option.some.inj (hc'.symm.trans hc)
      -- The step that falsified the literal is the one found before this step.
      rcases hothers a ha hne with ⟨j, hj, s₂, hs₂, hsa₂⟩
      obtain rfl : s₁ = s₂ :=
        ht.step_unique hs₁ (Array.mem_of_getElem? hs₂) (by rw [hsa₁, hsa₂])
      exact ⟨a, ha, hne, j, hj, s₁, hs₂, hsa₁, hlevel⟩

end Trail

/-! ## Along the rounds of a call -/

/-- Propagating keeps the steps anchored. -/
theorem Position.Ready.anchored {p q : Position} (h : p.Ready) (hq : p.Leads q)
    (hanchored : Anchored p.formula p.trail) : Anchored q.formula q.trail := by
  rw [hq.formula_eq]
  exact hanchored.forced hq.forced h.proper h.wellFormed h.quiet

namespace Cdcl

variable {σ : Type} [Selector σ] {n : Nat} {P : σ → Prop} {kind : AnalyserKind} {s s' : Cdcl σ}
variable {q : Position} {move : Move} {fuel : Nat}

/-- A learned clause that is asserted has its second literal falsified at the level it is asserted
at, if that is above zero. -/
theorem anchored_of_asserting {f : Formula} {t t' : Trail} {d level : Nat} {learned : Clause}
    {l : Literal} {rest : List Literal} (h : Asserting f t d learned level)
    (hsplit : learned.literals = l :: rest) (hback : SteppedBack level t t') (hpos : 0 < t'.level) :
    ∃ a ∈ learned.literals, a ≠ l ∧ ∃ s ∈ t'.steps, s.literal = a.negate ∧ s.level = level := by
  rcases h.split with ⟨l', rest', hsplit', _, _, hnil, hhead⟩
  obtain ⟨rfl, rfl⟩ : l = l' ∧ rest = rest' := by
    simpa using hsplit.symm.trans hsplit'
  have hlevel := hback.level_eq
  cases rest with
  | nil =>
      have := hnil rfl
      omega
  | cons b bs =>
      rcases hhead b rfl with ⟨s, hs, hsb, heq⟩
      have hnodup := h.proper.nodup
      rw [hsplit, List.nodup_cons] at hnodup
      have hne : b ≠ l := by
        rintro rfl
        exact hnodup.1 List.mem_cons_self
      exact ⟨b, by simp [hsplit], hne, s, hback.mem_iff.2 ⟨hs, heq.le⟩, hsb, heq⟩

/-- Every move keeps the steps anchored. -/
theorem Rounded.anchored (h : Rounded P kind s q move s') (hready : s.position.Ready)
    (hanchored : Anchored s.position.formula s.position.trail) :
    Anchored s'.position.formula s'.position.trail := by
  have hq : Anchored q.formula q.trail := hready.anchored h.leads hanchored
  have hmade := h.made
  cases move with
  | refuted i => exact hmade.1 ▸ hq
  | closed i analysis => exact hmade.1 ▸ hq
  | completed m => exact hmade.1 ▸ hq
  | undecided m => exact hmade.elim
  | asserted i learned level =>
      rcases hmade with ⟨_, l, rest, t', _, hasserting, hsplit, hback, hformula, htrail⟩
      rw [hformula, htrail]
      -- The asserted literal hangs on another literal of its level in the clause just learned.
      refine ((hq.steppedBack hback).learn learned).pushed ?_
      rintro index hindex hpos
      obtain rfl : q.formula.clauses.length = index := by simpa using hindex
      rcases anchored_of_asserting hasserting hsplit hback hpos with ⟨a, ha, hne, s₁, hs₁, hsa, heq⟩
      have hlevel := hback.level_eq
      have hlt := hasserting.lt
      exact ⟨_, Formula.clause?_learn_self, a, ha, hne, s₁, hs₁, hsa, by omega⟩
  | flipped i learned level branch =>
      rcases hmade with ⟨_, t', _, _, _, _, hback, hformula, htrail⟩
      rw [hformula, htrail]
      exact ((hq.steppedBack hback).learn learned).branch trivial
  | restarted =>
      rcases hmade with ⟨hclear, hsettled, _⟩
      rw [hclear, hsettled.left.trail_clear]
      exact .empty
  | decided l =>
      rcases hmade with ⟨_, _, _, _, _, _, hformula, htrail⟩
      rw [hformula, htrail]
      exact hq.branch trivial

/-- Rounds that go on keep the steps anchored. -/
theorem anchored_of_reaches (h : Reaches (Next P kind) s s') (hready : s.position.Ready)
    (hanchored : Anchored s.position.formula s.position.trail) :
    s'.position.Ready ∧ Anchored s'.position.formula s'.position.trail := by
  refine h.invariant (I := fun s => s.position.Ready ∧
    Anchored s.position.formula s.position.trail) ?_ ⟨hready, hanchored⟩
  rintro s s' ⟨hready, hanchored⟩ ⟨q, move, hrounded, hverdict⟩
  exact ⟨hrounded.ready hverdict, hrounded.anchored hready hanchored⟩

/-- However a call goes, all forced steps are anchored. -/
theorem Ran.anchored {conflicts decisions : Nat} {answer : Option Verdict}
    (h : Ran P kind conflicts decisions s answer s') (hready : s.position.Ready)
    (hanchored : Anchored s.position.formula s.position.trail) :
    Anchored s'.position.formula s'.position.trail := by
  cases h with
  | stopped hreaches => exact (anchored_of_reaches hreaches hready hanchored).2
  | exhausted hreaches _ => exact (anchored_of_reaches hreaches hready hanchored).2
  | ended hreaches hends =>
      rcases anchored_of_reaches hreaches hready hanchored with ⟨hready₁, hanchored₁⟩
      rcases hends with ⟨q, move, hrounded, _⟩
      exact hrounded.anchored hready₁ hanchored₁

/-- Whenever a call ends, or is stopped, all forced steps are anchored. -/
theorem Regular.anchored_of_solve {answer : Option Verdict} (hP : Selector.Lawful n P)
    (h : s.Regular n P kind) (hsolve : s.solve fuel = .ok (answer, s')) :
    Anchored s'.position.formula s'.position.trail := by
  rcases solve_spec hP h fuel with ⟨_, _, hok, hran⟩
  cases hsolve.symm.trans hok
  refine Ran.anchored hran h.ready_clear ?_
  have htrail : s.clear.position.trail = _ := h.position.trail_clear
  rw [htrail]
  exact .empty

/-- All its lifetime the forced steps of a search are anchored. -/
theorem Lifetime.anchored {s : Cdcl Branching} (h : s.Lifetime Branching.Fresh kind) :
    Anchored s.position.formula s.position.trail := by
  induction h with
  | @started f propagator p selector schedule hf hp _ =>
      rcases Position.ofFormula_spec propagator hf.pristine with ⟨p', hp', _, _, htrail⟩
      obtain rfl : p = p' := Except.ok.inj (hp.symm.trans hp')
      show Anchored p.formula p.trail
      rw [htrail]
      exact .empty
  | added hs hadd _ =>
      rcases hs.exists_regular with ⟨n, hs⟩
      rcases add_eq_ok hadd with ⟨p', hp', rfl⟩
      show Anchored p'.formula p'.trail
      rw [Position.trail_of_add hp', hs.position.trail_clear]
      exact .empty
  | budgeted _ ih => exact ih
  | solved hs hsolve _ =>
      rcases hs.exists_regular with ⟨n, hs⟩
      exact hs.anchored_of_solve (Branching.lawful n) hsolve

end Cdcl

namespace Dpll

variable {σ : Type} [Selector σ] {n : Nat} {P : σ → Prop} {s s' : Dpll σ}
variable {q : Position} {move : Move} {fuel : Nat}

/-- Every move keeps the steps anchored. -/
theorem Rounded.anchored (h : Rounded s q move s') (hready : s.position.Ready)
    (hanchored : Anchored s.position.formula s.position.trail) :
    Anchored s'.position.formula s'.position.trail := by
  have hq : Anchored q.formula q.trail := hready.anchored h.leads hanchored
  have hmade := h.made
  cases move with
  | refuted i => exact hmade.1 ▸ hq
  | satisfied m => exact hmade.1 ▸ hq
  | undecided => exact hmade.elim
  | flipped i branch =>
      rcases hmade with ⟨_, t', _, _, hback, hformula, htrail⟩
      rw [hformula, htrail]
      exact (hq.steppedBack hback).branch trivial
  | decided l =>
      rcases hmade with ⟨_, _, _, _, _, _, hformula, htrail⟩
      rw [hformula, htrail]
      exact hq.branch trivial

/-- Between the rounds of a call all forced steps are anchored. -/
theorem Regular.anchored_of_solve (hP : Selector.Lawful n P) (h : s.Regular n P)
    (hsolve : s.solve fuel = .ok (none, s')) : Anchored s'.position.formula s'.position.trail := by
  rcases solve_spec hP h fuel with ⟨answer, s₁, hok, hran⟩
  cases hsolve.symm.trans hok
  cases hran with
  | stopped hreaches =>
      refine (hreaches.invariant (I := fun s => s.position.Ready ∧
        Anchored s.position.formula s.position.trail) ?_ ⟨h.ready_clear, ?_⟩).2
      · rintro s s' ⟨hready, hanchored⟩ ⟨q, move, hrounded, hverdict⟩
        exact ⟨hrounded.ready hverdict, hrounded.anchored hready hanchored⟩
      · rw [h.trail_clear]
        exact .empty

end Dpll

/-! ## At the head -/

namespace Position

variable {p q : Position}

theorem AtHead.anchored (h : p.AtHead) : Anchored p.formula p.trail := by
  cases h with
  | learning hs hsolve => exact (hs.solved hsolve).anchored
  | backtracking hs hsolve =>
      rcases hs.exists_regular with ⟨n, hregular⟩
      exact hregular.anchored_of_solve (Branching.lawful n) hsolve

theorem Consistent.implicationGraph (h : p.Consistent) (hanchored : Anchored p.formula p.trail) :
    ImplicationGraph p.formula p.trail :=
  h.justified.implicationGraph h.proper h.wellFormed hanchored

/-- At the head of the loop of either search, whatever its configuration and history, and again when
it has propagated, the trail is a well-formed implication graph. -/
theorem AtHead.trail_implicationGraph (h : p.AtHead) :
    ImplicationGraph p.formula p.trail ∧
      ∃ o q, p.propagate = .ok (o, q) ∧ ImplicationGraph q.formula q.trail := by
  have hready := h.ready
  refine ⟨hready.toConsistent.implicationGraph h.anchored, ?_⟩
  rcases hready.propagate with ⟨o, q, hok, hformula, hforced, hend⟩
  have hanchored := hready.anchored ⟨hformula, hforced⟩ h.anchored
  refine ⟨o, q, hok, ?_⟩
  cases o with
  | fixpoint => exact hend.toConsistent.implicationGraph hanchored
  | conflict i => exact hend.1.toConsistent.implicationGraph hanchored

/-- Of two decisions the second one has failed: its complement is forced at level one by the learned
clause, whose other literal was falsified at this level. Propagating fails again. -/
theorem AtHead.trail_implicationGraph_sample : ∃ p q : Position, p.AtHead ∧
    p.trail.steps = #[⟨⟨0, true⟩, 1, .decision⟩, ⟨⟨1, false⟩, 1, .clause 4⟩] ∧
    p.formula.clause? 4 = some ⟨[⟨1, false⟩, ⟨0, false⟩], true⟩ ∧
    ImplicationGraph p.formula p.trail ∧ p.propagate = .ok (.conflict 3, q) ∧
    ImplicationGraph q.formula q.trail := by
  have hrun : (Cdcl.narrowing.solve 3).map (fun r =>
      (r.1, r.2.position.trail.steps, r.2.position.formula.clause? 4)) =
      .ok (none, #[⟨⟨0, true⟩, 1, .decision⟩, ⟨⟨1, false⟩, 1, .clause 4⟩],
        some ⟨[⟨1, false⟩, ⟨0, false⟩], true⟩) := by decide +kernel
  have hfails : (Cdcl.narrowing.solve 3).bind (fun r => r.2.position.propagate.map Prod.fst) =
      .ok (.conflict 3) := by decide +kernel
  rcases hsolve : Cdcl.narrowing.solve 3 with _ | ⟨answer, s⟩
  · rw [hsolve] at hrun
    cases hrun
  rw [hsolve] at hrun hfails
  obtain ⟨rfl, hsteps, hclause⟩ : answer = none ∧ s.position.trail.steps = _ ∧
      s.position.formula.clause? 4 = _ := by
    simpa [Except.map] using hrun
  have hhead := AtHead.learning Cdcl.lifetime_narrowing hsolve
  rcases hhead.trail_implicationGraph with ⟨hgraph, o, q, hok, hgraph'⟩
  obtain rfl : o = .conflict 3 := by
    simpa [Except.bind, Except.map, hok] using hfails
  exact ⟨s.position, q, hhead, hsteps, hclause, hgraph, hok, hgraph'⟩

end Position
end SatSearch
