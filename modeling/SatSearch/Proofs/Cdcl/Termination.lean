import SatSearch.Proofs.Cdcl.Lifetime
import SatSearch.Proofs.Conflict.Novelty

/-!
# Termination — how many rounds are left

With the analyser that never retries, every conflict that does not end the search asserts a clause
that is new, and so leaves fewer sets of literals that contain no clause. Between two conflicts
there is at most one restart, which makes none due, and every decision assigns one more variable.
So a call without limits ends with a verdict, whatever the restarts; and calls with a limit on
conflicts that are repeated come to a verdict, since each of them learns something.
-/

namespace SatSearch

open Trail

namespace Cdcl

variable {σ : Type} {n : Nat} {P : σ → Prop} {kind : AnalyserKind} {s s' : Cdcl σ} {q : Position}
variable {move : Move} {verdict : Verdict} {conflicts decisions fuel : Nat}

/-! ## Calls that end -/

section Returns

variable [Selector σ]

/-- A call ends with the verdict, as long as it may make that many rounds or more. -/
def Returns (s : Cdcl σ) (verdict : Verdict) (s' : Cdcl σ) : Prop :=
  ∃ bound, ∀ fuel, bound ≤ fuel → s.solve fuel = .ok (some verdict, s')

/-- Repeated calls come to a verdict. -/
inductive Decides : Cdcl σ → Prop
  | now {s s' : Cdcl σ} {verdict : Verdict} : s.Returns verdict s' → verdict ≠ .unknown → Decides s
  | later {s s' : Cdcl σ} : s.Returns .unknown s' → Decides s' → Decides s

/-- Rounds that are allowed after the last one are not made. -/
theorem run_add {s s' : Cdcl σ} (h : run conflicts decisions fuel s = .ok (some verdict, s'))
    (more : Nat) : run conflicts decisions (fuel + more) s = .ok (some verdict, s') := by
  induction fuel generalizing s with
  | zero => cases h
  | succ fuel ih =>
      -- Both runs make the same first round and end with it, or go on from the same search.
      rw [Nat.succ_add]
      rw [run] at h ⊢
      split
      · rename_i hexhausted
        rwa [if_pos hexhausted] at h
      · rename_i hexhausted
        rw [if_neg hexhausted] at h
        cases hround : s.round with
        | error e =>
            rw [hround] at h
            cases h
        | ok result =>
            rcases result with ⟨move, s₁⟩
            rw [hround] at h
            dsimp only at h ⊢
            cases hverdict : move.verdict? with
            | some v => rwa [hverdict] at h
            | none =>
                rw [hverdict] at h
                exact ih h

/-- A run that was stopped goes on as one that begins where it stopped. -/
theorem run_split {s s₁ : Cdcl σ} (h : run conflicts decisions fuel s = .ok (none, s₁))
    (more : Nat) : run conflicts decisions (fuel + more) s = run conflicts decisions more s₁ := by
  induction fuel generalizing s with
  | zero =>
      cases h
      rw [Nat.zero_add]
  | succ fuel ih =>
      -- Neither the budget nor a verdict ended the first part, so each of its rounds is made again.
      rw [Nat.succ_add]
      rw [run] at h ⊢
      split
      · rename_i hexhausted
        rw [if_pos hexhausted] at h
        cases h
      · rename_i hexhausted
        rw [if_neg hexhausted] at h
        cases hround : s.round with
        | error e =>
            rw [hround] at h
            cases h
        | ok result =>
            rcases result with ⟨move, s₂⟩
            rw [hround] at h
            dsimp only at h ⊢
            cases hverdict : move.verdict? with
            | some v =>
                rw [hverdict] at h
                cases h
            | none =>
                rw [hverdict] at h
                exact ih h

theorem returns_of_solve (h : s.solve fuel = .ok (some verdict, s')) : s.Returns verdict s' := by
  refine ⟨fuel, ?_⟩
  intro fuel' hle
  rcases Nat.exists_eq_add_of_le hle with ⟨more, rfl⟩
  exact run_add h more

/-- A call ends in one way only. -/
theorem Returns.unique {verdict' : Verdict} {s'' : Cdcl σ} (h : s.Returns verdict s')
    (h' : s.Returns verdict' s'') : verdict' = verdict ∧ s'' = s' := by
  rcases h with ⟨bound, hbound⟩
  rcases h' with ⟨bound', hbound'⟩
  have heq := (hbound _ (le_max_left bound bound')).symm.trans
    (hbound' _ (le_max_right bound bound'))
  cases heq
  exact ⟨rfl, rfl⟩

end Returns

/-! ## What is left -/

/-- How many sets of literals contain no clause. -/
def uncovered (s : Cdcl σ) : Nat :=
  s.position.formula.uncovered.card

/-- A bound on the rounds that are left: conflicts outweigh restarts and decisions, and a restart
that is due outweighs decisions. -/
def remaining (s : Cdcl σ) : Nat :=
  s.uncovered * (2 * (s.position.formula.numVars + 1)) +
    ((if s.restarter.isDue then s.position.formula.numVars + 1 else 0) +
      (s.position.formula.numVars - s.position.trail.steps.size))

variable [Selector σ]

theorem Rounded.numVars_eq (h : Rounded P kind s q move s') :
    s'.position.formula.numVars = s.position.formula.numVars := by
  rw [h.made.given_eq.2, h.formula_eq]

/-- A clause is asserted that is new. -/
theorem Rounded.uncovered_lt {i level : Nat} {learned : Clause}
    (h : Rounded P kind s q (.asserted i learned level) s') : s'.uncovered < s.uncovered := by
  rcases h.made with ⟨c, _, _, _, hfailed, hasserting, _, _, hformula, _⟩
  have hnew : ∀ c' ∈ q.formula.clauses, ¬ c'.literals ⊆ learned.literals :=
    fun c' hc' => hasserting.not_subset hfailed.wellFormed hfailed.quiet hc'
  have hlt := Formula.card_uncovered_learn_lt hasserting.proper hnew
  rw [← hformula, h.formula_eq] at hlt
  exact hlt

/-- Every conflict that does not end the search takes a set away. -/
theorem Rounded.uncovered_add_le (h : Rounded P .firstUip s q move s')
    (hverdict : move.verdict? = none) :
    s'.uncovered + s'.conflicts ≤ s.uncovered + s.conflicts := by
  have hconflicts := h.conflicts_eq
  have hmade := h.made
  cases move with
  | asserted i learned level =>
      have hlt := h.uncovered_lt
      simp only [Move.conflicts] at hconflicts
      omega
  -- This analyser never asks for a retry.
  | flipped i learned level branch => exact absurd trivial (h.not_isRetry rfl)
  | restarted =>
      rw [hconflicts, uncovered, hmade.1, Position.formula_clear, h.formula_eq]
      exact le_rfl
  | decided l =>
      rcases hmade with ⟨_, _, _, _, _, _, hformula, _⟩
      rw [hconflicts, uncovered, hformula, h.formula_eq]
      exact le_rfl
  | _ => cases hverdict

/-- After a round that does not end the search fewer rounds are left. -/
theorem Rounded.remaining_lt (h : Rounded P .firstUip s q move s') (hs : s.Regular n P .firstUip)
    (hverdict : move.verdict? = none) : s'.remaining < s.remaining := by
  have hvars := h.numVars_eq
  have hmade := h.made
  have hrestarter := h.restarter_eq
  unfold remaining
  rw [hvars]
  cases move with
  | asserted i learned level =>
      -- One conflict outweighs a restart that is due and decisions for all variables.
      have hrest : (if s'.restarter.isDue then s.position.formula.numVars + 1 else 0) +
          (s.position.formula.numVars - s'.position.trail.steps.size) <
            2 * (s.position.formula.numVars + 1) := by
        split <;> omega
      calc s'.uncovered * (2 * (s.position.formula.numVars + 1)) + _
          < s'.uncovered * (2 * (s.position.formula.numVars + 1)) +
              2 * (s.position.formula.numVars + 1) := Nat.add_lt_add_left hrest _
        _ = (s'.uncovered + 1) * (2 * (s.position.formula.numVars + 1)) :=
            (Nat.succ_mul _ _).symm
        _ ≤ s.uncovered * (2 * (s.position.formula.numVars + 1)) :=
            Nat.mul_le_mul_right _ h.uncovered_lt
        _ ≤ _ := Nat.le_add_right _ _
  | flipped i learned level branch => exact absurd trivial (h.not_isRetry rfl)
  | restarted =>
      rcases hmade with ⟨hclear, _, hdue⟩
      have heq : s'.uncovered = s.uncovered := by
        rw [uncovered, hclear, Position.formula_clear, h.formula_eq, uncovered]
      have hdue' : s'.restarter.isDue = false := by
        rw [hrestarter]
        exact hs.restarter.isDue_restart
      rw [heq, hdue', hdue, if_pos rfl, if_neg Bool.false_ne_true]
      omega
  | decided l =>
      rcases hmade with ⟨_, hdue, _, _, _, _, hformula, htrail⟩
      have heq : s'.uncovered = s.uncovered := by
        rw [uncovered, hformula, h.formula_eq, uncovered]
      have hdue' : s'.restarter.isDue = false := by
        rw [hrestarter]
        exact hdue
      -- The trail has grown, and is no longer than there are variables.
      have hsize : s'.position.trail.steps.size = q.trail.steps.size + 1 := by
        rw [htrail, steps_pushed, Array.size_push, steps_newLevel]
      have hgrown := h.forced.size_le
      have hle := h.left.wellFormed.size_le
      rw [hvars] at hle
      rw [heq, hdue', hdue]
      omega
  | _ => cases hverdict

/-! ## Calls come to an end -/

section Ranked

variable (rank : Nat → Cdcl σ → Prop) {m : Nat} (hP : Selector.Lawful n P)
  (hrank : ∀ m s q move s', s.Regular n P kind → rank m s → Rounded P kind s q move s' →
    move.verdict? = none → ∃ m' < m, rank m' s')
include hP hrank

/-- If every round that goes on lowers a rank, a run that may make more rounds than its rank has an
answer. -/
theorem run_ends_of_rank (conflicts decisions fuel : Nat) : ∀ (s : Cdcl σ) (m : Nat),
    s.Regular n P kind → s.position.Ready → rank m s → m < fuel →
    ∃ verdict s', run conflicts decisions fuel s = .ok (some verdict, s') := by
  induction fuel with
  | zero =>
      intro s m _ _ _ hlt
      exact absurd hlt (Nat.not_lt_zero _)
  | succ fuel ih =>
      intro s m hs hready hm hlt
      cases hexhausted : s.isExhausted conflicts decisions with
      | true => exact ⟨.unknown, s, by simp [run, hexhausted]⟩
      | false =>
          rcases round_spec hP hs hready with ⟨q, move, s₁, hround, hrounded⟩
          cases hverdict : move.verdict? with
          | some verdict => exact ⟨verdict, s₁, by simp [run, hexhausted, hround, hverdict]⟩
          | none =>
              -- There is less to be done, and one round less to do it in.
              rcases hrank m s q move s₁ hs hm hrounded hverdict with ⟨m₁, hless, hm₁⟩
              rcases ih s₁ m₁ (hrounded.regular hs) (hrounded.ready hverdict) hm₁ (by omega) with
                ⟨verdict, s', hrun⟩
              exact ⟨verdict, s', by simp [run, hexhausted, hround, hverdict, hrun]⟩

/-- So a call that may make enough rounds returns a verdict. -/
theorem Regular.returns_of_rank (hs : s.Regular n P kind) (hm : rank m s.clear) :
    ∃ verdict s', s.Returns verdict s' ∧
      Ran P kind s.conflicts s.decisions s.clear (some verdict) s' := by
  rcases run_ends_of_rank rank hP hrank s.conflicts s.decisions (m + 1) s.clear m hs.clear
    hs.ready_clear hm (Nat.lt_succ_self _) with ⟨verdict, s', hrun⟩
  rcases solve_spec hP hs (m + 1) with ⟨answer, s'', hok, hran⟩
  cases hok.symm.trans hrun
  exact ⟨verdict, s', returns_of_solve hok, hran⟩

end Ranked

theorem Regular.returns (hP : Selector.Lawful n P) (hs : s.Regular n P .firstUip) :
    ∃ verdict s', s.Returns verdict s' ∧
      Ran P .firstUip s.conflicts s.decisions s.clear (some verdict) s' := by
  refine hs.returns_of_rank (fun m s => s.remaining = m) hP ?_ rfl
  rintro _ s q move s' hs rfl hrounded hverdict
  exact ⟨s'.remaining, hrounded.remaining_lt hs hverdict, rfl⟩

theorem Ends.ne_unknown (h : Ends P kind s verdict s') : verdict ≠ .unknown := by
  rcases h with ⟨_, move, _, hverdict⟩
  rintro rfl
  cases move <;> cases hverdict

/-- Without limits a verdict is one that a round ended with. -/
theorem Ran.exists_ends (h : Ran P kind conflicts decisions s (some verdict) s')
    (hbudget : s.budget = .unlimited) :
    ∃ s₁, Reaches (Next P kind) s s₁ ∧ Ends P kind s₁ verdict s' := by
  cases h with
  | exhausted hreaches hexhausted =>
      have hran : Ran P kind conflicts decisions s (some .unknown) s' :=
        .exhausted hreaches hexhausted
      have hbudget' := (Ran.budget_eq hran).trans hbudget
      simp [Cdcl.isExhausted, hbudget', Budget.unlimited, Budget.isExhausted, Budget.reached]
        at hexhausted
  | ended hreaches hends => exact ⟨_, hreaches, hends⟩

/-- No verdict is reached only when the budget is. -/
theorem Ran.isExhausted (h : Ran P kind conflicts decisions s (some .unknown) s') :
    Reaches (Next P kind) s s' ∧ s'.isExhausted conflicts decisions = true := by
  cases h with
  | exhausted hreaches hexhausted => exact ⟨hreaches, hexhausted⟩
  | ended _ hends => exact absurd rfl hends.ne_unknown

theorem Reaches.uncovered_add_le (h : Reaches (Next P .firstUip) s s') :
    s'.uncovered + s'.conflicts ≤ s.uncovered + s.conflicts :=
  h.invariant (I := fun x => x.uncovered + x.conflicts ≤ s.uncovered + s.conflicts)
    (fun _ _ hI ⟨_, _, hrounded, hverdict⟩ => (hrounded.uncovered_add_le hverdict).trans hI) le_rfl

/-- A call that reaches a limit on conflicts has learned something new. -/
theorem Ran.uncovered_lt {m : Nat}
    (h : Ran P .firstUip s.conflicts s.decisions s.clear (some .unknown) s') (hm : 1 ≤ m)
    (hbudget : s.budget = ⟨some m, none, none⟩) : s'.uncovered < s.uncovered := by
  rcases Ran.isExhausted h with ⟨hreaches, hexhausted⟩
  have hle := Reaches.uncovered_add_le hreaches
  have hclear : s.clear.uncovered + s.clear.conflicts = s.uncovered + s.conflicts := rfl
  have hbudget' : s'.budget = ⟨some m, none, none⟩ := (Ran.budget_eq h).trans hbudget
  have hspent : m ≤ s'.conflicts - s.conflicts := by
    simpa [Cdcl.isExhausted, hbudget', Budget.isExhausted, Budget.reached] using hexhausted
  omega

/-- Repeated calls with a limit on conflicts come to a verdict. -/
theorem Regular.decides {m : Nat} (hP : Selector.Lawful n P) (hs : s.Regular n P .firstUip)
    (hm : 1 ≤ m) (hbudget : s.budget = ⟨some m, none, none⟩) : s.Decides := by
  -- By induction on how many sets of literals contain no clause yet.
  induction hu : s.uncovered using Nat.strong_induction_on generalizing s with
  | _ count ih =>
      rcases hs.returns hP with ⟨verdict, s', hreturns, hran⟩
      by_cases hverdict : verdict = .unknown
      · subst hverdict
        have hlt := Ran.uncovered_lt hran hm hbudget
        have hbudget' : s'.budget = ⟨some m, none, none⟩ := (Ran.budget_eq hran).trans hbudget
        exact .later hreturns (ih s'.uncovered (hu ▸ hlt) (Ran.regular hran hs.clear) hbudget' rfl)
      · exact .now hreturns hverdict

/-- All its lifetime, with the analyser that never retries, any selector that finds a free variable
as long as there is one, either propagator and any restarts, a call without limits ends with a model
or finds the formula unsatisfiable. Calls with a limit on conflicts do so when they are repeated. -/
theorem solve_decides {P : Nat → σ → Prop} (hP : ∀ n, Selector.Lawful n (P n))
    (h : s.Lifetime P .firstUip) :
    (s.budget = .unlimited → ∃ verdict s', s.Returns verdict s' ∧ verdict ≠ .unknown) ∧
      ∀ m, 1 ≤ m → s.budget = ⟨some m, none, none⟩ → s.Decides := by
  rcases h.regular hP fun _ _ => id with ⟨n, hs⟩
  constructor
  · intro hbudget
    rcases hs.returns (hP n) with ⟨verdict, s', hreturns, hran⟩
    refine ⟨verdict, s', hreturns, ?_⟩
    rintro rfl
    -- Without limits no budget is reached, and nothing else ends a call without a verdict.
    have hexhausted := (Ran.isExhausted hran).2
    have hbudget' : s'.budget = .unlimited := (Ran.budget_eq hran).trans hbudget
    simp [Cdcl.isExhausted, hbudget', Budget.unlimited, Budget.isExhausted, Budget.reached]
      at hexhausted
  · intro m hm hbudget
    exact hs.decides (hP n) hm hbudget

/-- After a conflict in an earlier call, a call without limits comes to a verdict. The first one of
those with a limit of one conflict does not. -/
theorem solve_decides_sample :
    ∃ s, revised = .ok s ∧ s.conflicts = 1 ∧
      (∃ verdict s', s.Returns verdict s' ∧ verdict ≠ .unknown) ∧
      (s.setBudget ⟨some 1, none, none⟩).Decides ∧
      ((s.setBudget ⟨some 1, none, none⟩).solve 8).map (fun r => (r.1, r.2.conflicts)) =
        .ok (some .unknown, 2) := by
  rcases @exists_revised Branching.Suits rfl with ⟨s, hs, hlifetime, _, hconflicts, hbudget⟩
  have hrun : revised.bind (fun s => ((s.setBudget ⟨some 1, none, none⟩).solve 8).map
      fun r => (r.1, r.2.conflicts)) = .ok (some .unknown, 2) := by decide +kernel
  rw [hs] at hrun
  refine ⟨s, hs, hconflicts, ?_, ?_, hrun⟩
  · exact (solve_decides Branching.lawful hlifetime).1 hbudget
  · exact (solve_decides Branching.lawful (.budgeted hlifetime)).2 1 le_rfl rfl

end Cdcl
end SatSearch
