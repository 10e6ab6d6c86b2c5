import SatSearch.Proofs.Cdcl.Canonical
import SatSearch.Proofs.Cdcl.Filling
import SatSearch.Proofs.Dpll.Accounting
import SatSearch.Proofs.Search.Twins

/-!
# Backtracking — without restarts, learning copies is backtracking

A search that retries and never restarts flips the same branches as one that backtracks over the
same given clauses: what it learns are copies, which force nothing that the originals do not. With
variables picked in fixed order the trails of both stay twins, round after round, until the search
that backtracks ends. If it has satisfied the clauses before every variable has a value, the other
search makes the variables that are left true, one decision for each.
-/

namespace SatSearch

open Trail

/-- The variables without a value. -/
def Assignment.unassigned (a : Assignment) : Finset Nat :=
  (Finset.range a.values.size).filter fun v => a.values[v]? = some none

theorem Trail.Recorded.mem_unassigned {n v : Nat} {t : Trail} (h : t.Recorded n) :
    v ∈ t.values.unassigned ↔ v < n ∧ t.Free v := by
  rw [Assignment.unassigned, Finset.mem_filter, Finset.mem_range, h.values_size]
  exact and_congr_right fun hv => (h.free_var_iff hv).symm

theorem Trail.Recorded.card_unassigned {n : Nat} {t : Trail} (h : t.Recorded n) :
    t.values.unassigned.card + t.steps.size = n := by
  have heq : t.values.unassigned = Finset.range n \ t.assigned := by
    ext v
    rw [h.mem_unassigned, Finset.mem_sdiff, Finset.mem_range, mem_assigned, not_not]
  rw [heq, Finset.card_sdiff_of_subset h.assigned_subset, Finset.card_range, h.card_assigned]
  exact Nat.sub_add_cancel h.size_le

/-- A search that learns copies only has the clauses of the formula that was given, and copies. -/
theorem Formula.Taught.copiedIn {f g : Formula} (h : f.Taught .levelScan)
    (hgiven : f.given = g.given) : f.CopiedIn g := by
  intro c hc
  rcases Formula.mem_clauses.1 hc with hc | hc
  · exact ⟨c, Formula.mem_clauses.2 (.inl (hgiven ▸ hc)), rfl⟩
  · rcases (h c hc).2.1 with ⟨c', hc', hcopy⟩
    exact ⟨c', Formula.mem_clauses.2 (.inl (hgiven ▸ hc')), hcopy.symm⟩

theorem Formula.copiedIn_of_given_eq {f g : Formula} (hlearnts : g.learnts = #[])
    (hgiven : f.given = g.given) : g.CopiedIn f := by
  intro c hc
  rw [Formula.mem_clauses, hlearnts, ← hgiven] at hc
  exact ⟨c, Formula.mem_clauses.2 (.inl (hc.resolve_right (by simp))), rfl⟩

theorem Trail.Satisfies.of_copiedIn {f g : Formula} {t : Trail} (h : t.Satisfies g)
    (hcopied : f.CopiedIn g) : t.Satisfies f := by
  intro c hc
  rcases hcopied c hc with ⟨c', hc', hliterals⟩
  rcases h c' hc' with ⟨l, hl, htrue⟩
  exact ⟨l, hliterals ▸ hl, htrue⟩

/-- If nothing was learned, the given clauses are all clauses. -/
theorem Trail.Recorded.isSatisfied_iff_satisfies {n : Nat} {f : Formula} {t : Trail}
    (h : t.Recorded n) (hlearnts : f.learnts = #[]) :
    f.isSatisfied t.values = true ↔ t.Satisfies f := by
  have hmem : ∀ c, c ∈ f.given ↔ c ∈ f.clauses := by simp [Formula.mem_clauses, hlearnts]
  simp only [h.isSatisfied_iff, hmem, Trail.Satisfies]

variable {n : Nat} {c c' c₁ : Cdcl Branching} {d d' d₁ : Dpll Branching} {q q' : Position}
variable {move : Cdcl.Move} {move' : Dpll.Move} {v v' : Option Verdict} {i j : Nat}

/-! ## Two searches -/

/-- A search that retries without restarts, and one that backtracks, over the same given clauses,
both in fixed order. -/
structure Mirrors (n : Nat) (c : Cdcl Branching) (d : Dpll Branching) : Prop where
  left : c.Regular n (Branching.IsFixedOrder n) .levelScan
  right : d.Regular n (Branching.IsFixedOrder n)
  given_eq : c.position.formula.given = d.position.formula.given
  taught : c.position.formula.Taught .levelScan
  never : c.restarter.schedule = .never

/-- Each search has made that many conflicts and decisions more. -/
structure Spend (c c' : Cdcl Branching) (d d' : Dpll Branching) (conflicts decisions : Nat) :
    Prop where
  left_conflicts : c'.conflicts = c.conflicts + conflicts
  left_decisions : c'.decisions = c.decisions + decisions
  right_conflicts : d'.conflicts = d.conflicts + conflicts
  right_decisions : d'.decisions = d.decisions + decisions

/-- What a round of each search comes to if their trails were twins: both find the formula refuted,
or both go on as twins, or the search that backtracks has satisfied the formula, at the same values
as the other one. -/
inductive Together (c : Cdcl Branching) (d : Dpll Branching) (q : Position)
    (v v' : Option Verdict) (c' : Cdcl Branching) (d' : Dpll Branching) : Prop
  | refuted : v = some .unsatisfiable → v' = some .unsatisfiable → Spend c c' d d' 1 0 →
      Together c d q v v' c' d'
  | went {conflicts decisions : Nat} : v = none → v' = none → Spend c c' d d' conflicts decisions →
      c'.position.trail.Twins d'.position.trail → Together c d q v v' c' d'
  | satisfied : v' = some (.satisfiable (.ofAssignment d'.position.trail.values)) →
      d'.conflicts = d.conflicts → d'.decisions = d.decisions → q.Settled →
      q.trail.Satisfies q.formula → q.trail.values = d'.position.trail.values →
      Together c d q v v' c' d'

namespace Mirrors

theorem rounded (h : Mirrors n c d)
    (hc : Cdcl.Rounded (Branching.IsFixedOrder n) .levelScan c q move c')
    (hd : Dpll.Rounded d q' move' d') : Mirrors n c' d' where
  left := hc.regular h.left
  right := hd.regular h.right
  given_eq := by
    rw [hd.formula_same, ← h.given_eq, hc.made.given_eq.1, hc.formula_eq]
  taught := (hc.grown h.taught).taught h.taught
  never := hc.never h.never

/-- Neither formula has a clause that the other one has not. -/
theorem copiedIn (h : Mirrors n c d) : c.position.formula.CopiedIn d.position.formula ∧
    d.position.formula.CopiedIn c.position.formula :=
  ⟨h.taught.copiedIn h.given_eq, Formula.copiedIn_of_given_eq h.right.learnts_eq h.given_eq⟩

section Round

variable (h : Mirrors n c d) (htwins : c.position.trail.Twins d.position.trail)
  (hc : Cdcl.Rounded (Branching.IsFixedOrder n) .levelScan c q move c')
  (hd : Dpll.Rounded d q' move' d')
include htwins hc hd

/-- After failed clauses both flip the same branch, or neither has one to flip. -/
theorem together_of_failed {cl cl' : Clause} (hq : q.Failed i cl) (hq' : q'.Failed j cl') :
    Together c d q move.verdict? move'.verdict? c' d' := by
  rcases hc.of_failed hq with ⟨hconflicts, hdecisions, hback⟩
  rcases hd.of_failed hq' with ⟨hconflicts', hdecisions', hback'⟩
  have hspend : Spend c c' d d' 1 0 := ⟨hconflicts, hdecisions, hconflicts', hdecisions'⟩
  rcases Position.backtracked_twins htwins hc.leads hd.leads
    hq.toLeft hq'.toLeft hback hback' with ⟨hverdict, hnext⟩
  rcases hback with ⟨hrefuted, _⟩ | ⟨hgoes, _⟩
  · exact .refuted hrefuted (hverdict.trans hrefuted) hspend
  · exact .went hgoes (hverdict.trans hgoes) hspend (hnext hgoes)

include h

/-- At fixpoints both decide the same variable, unless the clauses are satisfied. -/
theorem together_of_settled (hq : q.Settled) (hq' : q'.Settled) :
    Together c d q move.verdict? move'.verdict? c' d' := by
  rcases hc.of_settled hq (Cdcl.isDue_of_never h.never) with ⟨hconflicts, _, hend⟩
  rcases hd.of_settled hq' with ⟨hconflicts', hend'⟩
  rcases h.copiedIn with ⟨hcopied, hcopied'⟩
  have hvars : q.formula.numVars = n := by rw [hc.formula_eq, h.left.numVars_eq]
  have hvars' : q'.formula.numVars = n := by rw [hd.formula_eq, h.right.numVars_eq]
  have hrec : q.trail.Recorded n := hvars ▸ hq.wellFormed.toRecorded
  have hfixed : q.trail.Twins q'.trail := Position.twins_of_settled htwins hc.leads hd.leads
    (h.left.numVars_eq.trans h.right.numVars_eq.symm) hcopied hcopied' hq hq'
  have hvalues : q.trail.values = q'.trail.values :=
    hfixed.values_eq hrec (hvars' ▸ hq'.wellFormed.toRecorded)
  -- Copies are satisfied when the given clauses are.
  have hsatisfied :
      q'.formula.isSatisfied q'.trail.values = true ↔ q.trail.Satisfies q.formula := by
    rw [← hvalues, hd.formula_eq, hc.formula_eq,
      hrec.isSatisfied_iff_satisfies h.right.learnts_eq]
    exact ⟨fun hsat => hsat.of_copiedIn hcopied, fun hsat => hsat.of_copiedIn hcopied'⟩
  rcases hend' with ⟨hsat, hposition, hdecisions', hverdict'⟩ |
    ⟨hunsat, hdecisions', hgoes', u', hpick', _, _, htrail'⟩
  · rw [← hposition] at hverdict' hvalues
    exact .satisfied hverdict' hconflicts' hdecisions' hq (hsatisfied.1 hsat) hvalues
  · rcases hend with ⟨hfull, _⟩ | ⟨hdecisions, hgoes, u, hpick, _, _, htrail⟩
    · have hsat := hsatisfied.2 fun cl hcl => hq.exists_assigns hfull hcl
      rw [hunsat] at hsat
      cases hsat
    · rw [h.right.selector, ← hvalues, ← h.left.selector, hpick] at hpick'
      cases hpick'
      have hspend : Spend c c' d d' 0 1 := ⟨hconflicts, hdecisions, hconflicts', hdecisions'⟩
      refine .went hgoes hgoes' hspend ?_
      rw [htrail, htrail']
      exact hfixed.branch _ _

theorem together : Together c d q move.verdict? move'.verdict? c' d' := by
  rcases h.copiedIn with ⟨hcopied, hcopied'⟩
  rcases Position.failed_or_settled htwins hc.leads hd.leads hcopied hcopied' hc.failed_or_settled
    hd.failed_or_settled with ⟨⟨i, cl, hq⟩, j, cl', hq'⟩ | ⟨hq, hq'⟩
  · exact together_of_failed htwins hc hd hq hq'
  · exact h.together_of_settled htwins hc hd hq hq'

end Round

end Mirrors

/-! ## Calls -/

/-- How two calls compare that return these verdicts. Either both find the formula unsatisfiable,
after as many conflicts and decisions; or both find a model, after as many conflicts, and the search
that learns has decided once more for every variable that the other one left without a value. The
models agree on the variables with a value, and the first one makes all others true. -/
inductive Tally (c : Cdcl Branching) (d : Dpll Branching) :
    Verdict → Cdcl Branching → Verdict → Dpll Branching → Prop
  | unsatisfiable {c' : Cdcl Branching} {d' : Dpll Branching} {conflicts decisions : Nat} :
      Spend c c' d d' conflicts decisions → Tally c d .unsatisfiable c' .unsatisfiable d'
  | satisfiable {c' : Cdcl Branching} {d' : Dpll Branching} {conflicts decisions : Nat}
      {m m' : Model} :
      c'.conflicts = c.conflicts + conflicts → d'.conflicts = d.conflicts + conflicts →
      d'.decisions = d.decisions + decisions →
      c'.decisions = c.decisions + decisions + d'.position.trail.values.unassigned.card →
      (∀ v b, d'.position.trail.values.value? v = some b →
        m.value? v = some b ∧ m'.value? v = some b) →
      (∀ v ∈ d'.position.trail.values.unassigned, m.value? v = some true) →
      Tally c d (.satisfiable m) c' (.satisfiable m') d'

variable {verdict verdict' : Verdict}

theorem Tally.head (h : Spend c c₁ d d₁ i j) (ht : Tally c₁ d₁ verdict c' verdict' d') :
    Tally c d verdict c' verdict' d' := by
  rcases h with ⟨hconflicts, hdecisions, hconflicts', hdecisions'⟩
  cases ht with
  | @unsatisfiable _ _ conflicts decisions hspend =>
      rcases hspend with ⟨h1, h2, h3, h4⟩
      have hspend : Spend c c' d d' (i + conflicts) (j + decisions) :=
        ⟨by omega, by omega, by omega, by omega⟩
      exact .unsatisfiable hspend
  | @satisfiable _ _ conflicts decisions m m' h1 h2 h3 h4 hvalues hfree =>
      exact .satisfiable (by omega : _ = c.conflicts + (i + conflicts)) (by omega)
        (by omega : _ = d.decisions + (j + decisions)) (by omega) hvalues hfree

/-- At the end the search that learns has filled up what the other one left. -/
theorem tally_of_filled (h : Cdcl.Filled n q.trail c verdict c') (hrec : q.trail.Recorded n)
    (hvalues : q.trail.values = d'.position.trail.values) (hconflicts : d'.conflicts = d.conflicts)
    (hdecisions : d'.decisions = d.decisions) :
    Tally c d verdict c' (.satisfiable (.ofAssignment d'.position.trail.values)) d' := by
  rcases h with ⟨hconflicts', hdecisions', m, rfl, hassigned, hfree⟩
  have hcard := hrec.card_unassigned
  refine .satisfiable (show c'.conflicts = c.conflicts + 0 from hconflicts') hconflicts
    (show d'.decisions = d.decisions + 0 from hdecisions) ?_ ?_ ?_
  · rw [← hvalues]
    omega
  · rw [← hvalues]
    intro v b hv
    have hstep := hrec.value?_eq_some_iff.1 hv
    exact ⟨hassigned ⟨v, b⟩ hstep, Model.value?_ofAssignment ((hrec.value_iff v b).2 hstep)⟩
  · rw [← hvalues]
    intro v hv
    rcases hrec.mem_unassigned.1 hv with ⟨hlt, hv⟩
    exact hfree v hlt hv

/-- Calls that end, from positions whose trails are twins. -/
theorem tally_of_reaches (hreaches : Reaches Dpll.Next d d₁) (hends : Dpll.Ends d₁ verdict' d') :
    ∀ c, Mirrors n c d → c.position.trail.Twins d.position.trail →
      Reaches (Cdcl.Next (Branching.IsFixedOrder n) .levelScan) c c₁ →
      Cdcl.Ends (Branching.IsFixedOrder n) .levelScan c₁ verdict c' →
      Tally c d verdict c' verdict' d' := by
  -- By induction on the rounds that are left of the search that backtracks.
  induction hreaches using Relation.ReflTransGen.head_induction_on with
  | refl =>
      intro c h htwins hreaches hends'
      rcases hends with ⟨q', move', hd, hverdict'⟩
      rcases hreaches.cases_head with rfl | ⟨c₂, ⟨q, move, hc, hgoes⟩, hrest⟩
      · rcases hends' with ⟨q, move, hc, hverdict⟩
        have htogether := h.together htwins hc hd
        rw [hverdict, hverdict'] at htogether
        cases htogether with
        | refuted hv hv' hspend =>
            cases hv
            cases hv'
            exact .unsatisfiable hspend
        | went hv _ _ _ => cases hv
        | satisfied hv' hconflicts hdecisions hq hsat hvalues =>
            cases hv'
            have hvars : q.formula.numVars = n := by rw [hc.formula_eq, h.left.numVars_eq]
            exact tally_of_filled (hc.filled hq h.never hvars hverdict)
              (hvars ▸ hq.wellFormed.toRecorded) hvalues hconflicts hdecisions
      · have htogether := h.together htwins hc hd
        rw [hgoes, hverdict'] at htogether
        cases htogether with
        | refuted hv _ _ => cases hv
        | went _ hv' _ _ => cases hv'
        | satisfied hv' hconflicts hdecisions hq hsat hvalues =>
            cases hv'
            have hvars : q.formula.numVars = n := by rw [hc.formula_eq, h.left.numVars_eq]
            exact tally_of_filled (hc.filled_of_goes hq h.never hsat hgoes
                (Cdcl.filled_of_reaches hrest hends' (hc.regular h.left) (hc.never h.never)))
              (hvars ▸ hq.wellFormed.toRecorded) hvalues hconflicts hdecisions
  | head hnext _ ih =>
      intro c h htwins hreaches hends'
      rcases hnext with ⟨q', move', hd, hgoes'⟩
      rcases hreaches.cases_head with rfl | ⟨c₂, ⟨q, move, hc, hgoes⟩, hrest⟩
      · rcases hends' with ⟨q, move, hc, hverdict⟩
        have htogether := h.together htwins hc hd
        rw [hverdict, hgoes'] at htogether
        cases htogether with
        | refuted _ hv' _ => cases hv'
        | went hv _ _ _ => cases hv
        | satisfied hv' _ _ _ _ _ => cases hv'
      · have htogether := h.together htwins hc hd
        rw [hgoes, hgoes'] at htogether
        cases htogether with
        | refuted hv _ _ => cases hv
        | went _ _ hspend htwins₂ =>
            exact (ih c₂ (h.rounded hc hd) htwins₂ hrest hends').head hspend
        | satisfied hv' _ _ _ _ _ => cases hv'

/-! ## Pairs of searches -/

/-- Two searches over the same formula without learned clauses, both in fixed order, one that
retries and never restarts, and one that backtracks; and what becomes of them when the same clauses
are added to both and both are called without limits, time after time. -/
inductive Paired : Cdcl Branching → Dpll Branching → Prop
  | started {f : Formula} {propagator propagator' : PropagatorKind} {p p' : Position} :
      f.Built → Position.ofFormula propagator f = .ok p →
      Position.ofFormula propagator' f = .ok p' →
      Paired
        (.start p (.fixedOrder ⟨f.numVars⟩) (.build .levelScan f.numVars) (.start .never))
        (.start p' (.fixedOrder ⟨f.numVars⟩))
  | added {c c' : Cdcl Branching} {d d' : Dpll Branching} {ls : List Literal}
      {answer answer' : Except FormulaError Nat} :
      Paired c d → c.add ls = .ok (answer, c') → d.add ls = .ok (answer', d') → Paired c' d'
  | solved {c c' : Cdcl Branching} {d d' : Dpll Branching} {verdict verdict' : Verdict} :
      Paired c d → c.Returns verdict c' → d.Returns verdict' d' → Paired c' d'

theorem Mirrors.clear (h : Mirrors n c d) : Mirrors n c.clear d.clear :=
  ⟨h.left.clear, h.right.clear, h.given_eq, h.taught, h.never⟩

/-- Both accept the same clauses. -/
theorem Mirrors.added {ls : List Literal} {answer answer' : Except FormulaError Nat}
    (h : Mirrors n c d) (hc : c.add ls = .ok (answer, c')) (hd : d.add ls = .ok (answer', d')) :
    Mirrors n c' d' := by
  rcases h.left.add_grown ls with ⟨_, _, hok, hleft, hgrown⟩
  cases hc.symm.trans hok
  rcases Dpll.add_spec h.right ls with ⟨_, _, hok', hright⟩
  cases hd.symm.trans hok'
  have htaught := hgrown.taught h.taught
  have hvars := h.left.numVars_eq.trans h.right.numVars_eq.symm
  rcases Cdcl.add_eq_ok hc with ⟨p, hadd, rfl⟩
  rcases Dpll.add_eq_ok hd with ⟨p', hadd', rfl⟩
  refine ⟨hleft, hright, ?_, htaught, h.never⟩
  show p.formula.given = p'.formula.given
  rcases Position.add_agree hadd hadd' hvars (congrArg Array.size h.given_eq) with
    ⟨_, ⟨hp, hp'⟩ | ⟨hp, hp'⟩⟩
  · rw [hp, hp', h.given_eq]
  · rw [hp, hp', Formula.extended, Formula.extended, h.given_eq]

theorem Mirrors.solved (h : Mirrors n c d) (hc : c.Returns verdict c')
    (hd : d.Returns verdict' d') :
    Mirrors n c' d' ∧ c'.budget = c.budget ∧ d'.budget = d.budget := by
  rcases hc with ⟨bound, hbound⟩
  rcases hd with ⟨bound', hbound'⟩
  rcases Cdcl.solve_spec (Branching.lawful_isFixedOrder n) h.left bound with ⟨_, _, hok, hran⟩
  cases (hbound bound le_rfl).symm.trans hok
  rcases Dpll.solve_spec (Branching.lawful_isFixedOrder n) h.right bound' with ⟨_, _, hok', hran'⟩
  cases (hbound' bound' le_rfl).symm.trans hok'
  have hbudget : c'.budget = c.clear.budget := Cdcl.Ran.budget_eq hran
  have hbudget' : d'.budget = d.clear.budget := Dpll.Ran.budget_eq hran'
  refine ⟨⟨Cdcl.Ran.regular hran h.left.clear, Dpll.Ran.regular hran' h.right.clear, ?_,
    (Cdcl.Ran.grown hran h.taught).taught h.taught, ?_⟩, hbudget, hbudget'⟩
  · rw [(Cdcl.Ran.sameGiven hran).1, Dpll.Ran.formula_eq hran']
    exact h.given_eq
  · rw [Cdcl.Ran.restarter_of_never hran h.never]
    exact h.never

/-- Paired searches mirror each other, whatever has been added and asked, and have no limits. -/
theorem Paired.mirrors (h : Paired c d) :
    ∃ n, Mirrors n c d ∧ c.budget = .unlimited ∧ d.budget = .unlimited := by
  induction h with
  | @started f propagator propagator' p p' hf hp hp' =>
      rcases Position.ofFormula_spec propagator hf.pristine with ⟨_, hok, _, hformula, _⟩
      cases hp.symm.trans hok
      rcases Position.ofFormula_spec propagator' hf.pristine with ⟨_, hok', _, hformula', _⟩
      cases hp'.symm.trans hok'
      refine ⟨f.numVars, ⟨Cdcl.regular_start hf.pristine hp rfl (Restarter.live_start .never),
        Dpll.regular_start hf.pristine hp' rfl, hformula.trans hformula'.symm ▸ rfl, ?_, rfl⟩, rfl,
        rfl⟩
      show p.formula.Taught .levelScan
      rw [hformula]
      exact hf.pristine.taught
  | added _ hc hd ih =>
      rcases ih with ⟨n, h, hbudget, hbudget'⟩
      refine ⟨n, h.added hc hd, ?_, ?_⟩
      · rcases Cdcl.add_eq_ok hc with ⟨_, _, rfl⟩
        exact hbudget
      · rcases Dpll.add_eq_ok hd with ⟨_, _, rfl⟩
        exact hbudget'
  | solved _ hc hd ih =>
      rcases ih with ⟨n, h, hbudget, hbudget'⟩
      rcases h.solved hc hd with ⟨h', heq, heq'⟩
      exact ⟨n, h', heq.trans hbudget, heq'.trans hbudget'⟩

/-- Calls of paired searches return verdicts that tally. -/
theorem Paired.solve_tally (h : Paired c d) :
    ∃ verdict c' verdict' d', c.Returns verdict c' ∧ d.Returns verdict' d' ∧
      Tally c d verdict c' verdict' d' := by
  rcases h.mirrors with ⟨n, hmirrors, hbudget, hbudget'⟩
  have hlawful := Branching.lawful_isFixedOrder n
  have hendless : c.restarter.Endless := Restarter.endless_of_never hmirrors.left.restarter
    hmirrors.never
  rcases hmirrors.left.returns_of_endless hlawful hendless with ⟨verdict, c', hreturns, hran⟩
  rcases hmirrors.right.returns hlawful with ⟨verdict', d', hreturns', hran'⟩
  rcases Cdcl.Ran.exists_ends hran hbudget with ⟨c₁, hreaches, hends⟩
  rcases Dpll.Ran.exists_ends hran' hbudget' with ⟨d₁, hreaches', hends'⟩
  refine ⟨verdict, c', verdict', d', hreturns, hreturns', ?_⟩
  have hspend : Spend c c.clear d d.clear 0 0 := ⟨rfl, rfl, rfl, rfl⟩
  have htwins : c.clear.position.trail.Twins d.clear.position.trail := Position.twins_clear
    hmirrors.left.position hmirrors.right.position
    (hmirrors.left.numVars_eq.trans hmirrors.right.numVars_eq.symm)
  exact (tally_of_reaches hreaches' hends' c.clear hmirrors.clear htwins hreaches hends).head hspend

/-- A search over the sample formula that watches literals, retries and never restarts. -/
def Cdcl.backtracking : Cdcl Branching :=
  .start sample.position (.fixedOrder ⟨3⟩) (.build .levelScan 3) (.start .never)

theorem paired_sample : Paired Cdcl.backtracking Dpll.sample :=
  have hp : Position.ofFormula .watch .sample = .ok Cdcl.backtracking.position := by
    decide +kernel
  have hp' : Position.ofFormula .scan .sample = .ok Dpll.sample.position := rfl
  .started Formula.built_sample hp hp'

/-- Over the sample formula the search that backtracks stops with the second variable left without a
value, which the other one makes true by a second decision. -/
theorem Paired.solve_tally_sample : ∃ c' d',
    Cdcl.backtracking.Returns (.satisfiable ⟨#[true, true, true]⟩) c' ∧
    Dpll.sample.Returns (.satisfiable ⟨#[true, false, true]⟩) d' ∧
    Tally Cdcl.backtracking Dpll.sample (.satisfiable ⟨#[true, true, true]⟩) c'
      (.satisfiable ⟨#[true, false, true]⟩) d' ∧ c'.decisions = 2 ∧ d'.decisions = 1 := by
  have hrun : (Cdcl.backtracking.solve 4).map (fun r => (r.1, r.2.decisions)) =
      .ok (some (.satisfiable ⟨#[true, true, true]⟩), 2) := by decide +kernel
  have hrun' : (Dpll.sample.solve 4).map (fun r => (r.1, r.2.decisions)) =
      .ok (some (.satisfiable ⟨#[true, false, true]⟩), 1) := by decide +kernel
  rcases paired_sample.solve_tally with ⟨verdict, c', verdict', d', hc, hd, htally⟩
  rcases exists_of_map_eq_ok hrun with ⟨⟨answer, c''⟩, hsolve, hread⟩
  rcases exists_of_map_eq_ok hrun' with ⟨⟨answer', d''⟩, hsolve', hread'⟩
  rcases Prod.mk.inj hread with ⟨rfl, hdecisions⟩
  rcases Prod.mk.inj hread' with ⟨rfl, hdecisions'⟩
  -- A call ends in one way only, so these are the calls that tally.
  rcases (Cdcl.returns_of_solve hsolve).unique hc with ⟨rfl, rfl⟩
  rcases (Dpll.returns_of_solve hsolve').unique hd with ⟨rfl, rfl⟩
  exact ⟨c', d', hc, hd, htally, hdecisions, hdecisions'⟩

end SatSearch
