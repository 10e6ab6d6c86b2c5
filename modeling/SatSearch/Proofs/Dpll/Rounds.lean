import SatSearch.Proofs.Branching
import SatSearch.Proofs.Search.Verdict
import SatSearch.Search.Dpll

/-!
# Rounds — what the search that backtracks does in a round

`Made` says of every move what it found and what it changed, and `Rounded` what a round does to the
rest of the search. Nothing is learned, so the formula stays as it is. A round never fails, and a
verdict it ends with is right.
-/

namespace SatSearch

open Trail

/-- The values satisfy the formula if they make a literal of every given clause true. -/
theorem Trail.Recorded.isSatisfied_iff {n : Nat} {t : Trail} {f : Formula} (h : t.Recorded n) :
    f.isSatisfied t.values = true ↔ ∀ c ∈ f.given, ∃ l ∈ c.literals, t.Assigns l := by
  simp only [Formula.isSatisfied, Clause.isSatisfied, Array.all_eq_true_iff_forall_mem,
    List.any_eq_true, beq_iff_eq, h.literal?_eq_true]

namespace Dpll

variable {σ : Type} {n i : Nat} {P : σ → Prop} {s s' : Dpll σ} {q p' : Position} {move : Move}
variable {c : Clause}

/-- A search between rounds: it has learned nothing, and its components go on without faults. -/
structure Regular (n : Nat) (P : σ → Prop) (s : Dpll σ) : Prop where
  position : s.position.Left
  numVars_eq : s.position.formula.numVars = n
  learnts_eq : s.position.formula.learnts = #[]
  selector : P s.selector

/-- How many conflicts the move counts. -/
def Move.conflicts : Move → Nat
  | .refuted _ => 1
  | .flipped _ _ => 1
  | _ => 0

/-- How many decisions the move counts. -/
def Move.decisions : Move → Nat
  | .decided _ => 1
  | _ => 0

/-- Stepping back below the highest open branch and taking its other side. -/
theorem flip_spec {branch : Step} (h : q.Failed i c)
    (hsome : q.trail.openBranch? q.trail.level = some branch) :
    ∃ p' t', flip q branch = .ok p' ∧ p'.Ready ∧ SteppedBack (branch.level - 1) q.trail t' ∧
      p'.formula = q.formula ∧ p'.trail = t'.newLevel.pushed branch.literal.negate .flipped := by
  rcases h.justified.openBranch?_eq_some h.wellFormed.toLevelled hsome with ⟨_, _, hpos, hle, _⟩
  rcases h.toLeft.backstep (k := branch.level - 1) (by omega) with
    ⟨q₁, hok, hsettled, hformula, hback⟩
  rcases h.branch hsome hsettled (by rw [hformula]) (fun v hv => hformula ▸ hv) hback with
    ⟨p', hbranch, hready, hformula', htrail⟩
  refine ⟨p', q₁.trail, ?_, hready, hback, hformula'.trans hformula, htrail⟩
  -- A branch is never of level zero.
  cases hlevel : branch.level with
  | zero => omega
  | succ below =>
      rw [hlevel, Nat.add_sub_cancel] at hok
      simp only [flip, hlevel, hok, hbranch]

variable [Selector σ]

/-- What the move found at the propagated position `q`, and what it made of it. -/
def Move.Made (s : Dpll σ) (q p' : Position) : Move → Prop
  | .refuted i => p' = q ∧ (∃ c, q.Failed i c) ∧ q.trail.openBranch? q.trail.level = none
  | .flipped i branch => ∃ c t', q.Failed i c ∧
      q.trail.openBranch? q.trail.level = some branch ∧
      SteppedBack (branch.level - 1) q.trail t' ∧ p'.formula = q.formula ∧
      p'.trail = t'.newLevel.pushed branch.literal.negate .flipped
  | .satisfied m => p' = q ∧ q.Settled ∧ q.formula.isSatisfied q.trail.values = true ∧
      m = .ofAssignment q.trail.values
  | .decided l => q.Settled ∧ q.formula.isSatisfied q.trail.values = false ∧ l.positive = true ∧
      Selector.pick s.selector q.trail.values = .ok (some l.var) ∧ l.var < q.formula.numVars ∧
      q.trail.Free l.var ∧ p'.formula = q.formula ∧
      p'.trail = q.trail.newLevel.pushed l .decision
  | .undecided => False

/-- What a round that propagates to `q` and makes the move turns the search into. -/
structure Rounded (s : Dpll σ) (q : Position) (move : Move) (s' : Dpll σ) : Prop where
  formula_eq : q.formula = s.position.formula
  forced : Forced s.position.formula s.position.trail q.trail
  made : move.Made s q s'.position
  left : s'.position.Left
  ready : move.verdict? = none → s'.position.Ready
  selector_eq : s'.selector = s.selector
  conflicts_eq : s'.conflicts = s.conflicts + move.conflicts
  decisions_eq : s'.decisions = s.decisions + move.decisions
  budget_eq : s'.budget = s.budget

/-- After a failed clause the highest open branch is flipped, or the search is over. -/
theorem onConflict_spec (h : q.Failed i c) (hformula : q.formula = s.position.formula)
    (hforced : Forced s.position.formula s.position.trail q.trail) :
    ∃ move s', onConflict i { s with position := q } = .ok (move, s') ∧ Rounded s q move s' := by
  rcases s with ⟨p, selector, conflicts, decisions, budget⟩
  dsimp only
  unfold onConflict
  cases hopen : q.trail.openBranch? q.trail.level with
  | none =>
      exact ⟨.refuted i, ⟨q, selector, conflicts + 1, decisions, budget⟩, by simp only [hopen],
        hformula, hforced, ⟨rfl, ⟨c, h⟩, hopen⟩, h.toLeft, nofun, rfl, rfl, rfl, rfl⟩
  | some branch =>
      rcases flip_spec h hopen with ⟨p', t', hok, hready, hback, hformula', htrail⟩
      exact ⟨.flipped i branch, ⟨p', selector, conflicts + 1, decisions, budget⟩,
        by simp only [hopen, hok], hformula, hforced, ⟨c, t', h, hopen, hback, hformula', htrail⟩,
        hready.left, fun _ => hready, rfl, rfl, rfl, rfl⟩

/-- At a fixpoint the given clauses are satisfied, or there is a variable to pick. -/
theorem onFixpoint_spec (hP : Selector.Lawful n P) (hs : s.Regular n P) (h : q.Settled)
    (hformula : q.formula = s.position.formula)
    (hforced : Forced s.position.formula s.position.trail q.trail) :
    ∃ move s', onFixpoint { s with position := q } = .ok (move, s') ∧ Rounded s q move s' := by
  rcases s with ⟨p, selector, conflicts, decisions, budget⟩
  have hvars : q.formula.numVars = n := by
    rw [hformula]
    exact hs.numVars_eq
  dsimp only
  unfold onFixpoint
  cases hsat : q.formula.isSatisfied q.trail.values with
  | true =>
      exact ⟨.satisfied (.ofAssignment q.trail.values),
        ⟨q, selector, conflicts, decisions, budget⟩, by simp only [hsat, if_true], hformula,
        hforced, ⟨rfl, h, hsat, rfl⟩, h.left, nofun, rfl, rfl, rfl, rfl⟩
  | false =>
      -- With a value for every variable the clauses would be satisfied.
      have hsome : ∃ v < q.formula.numVars, q.trail.Free v := by
        by_contra hnone
        have hfull := h.wellFormed.isComplete_iff.2 fun v hv hfree => hnone ⟨v, hv, hfree⟩
        have := h.wellFormed.isSatisfied_iff.2 fun c hc =>
          h.exists_assigns hfull (Formula.mem_clauses.2 (.inl hc))
        rw [hsat] at this
        cases this
      rcases h.decide hP hs.selector hvars hsome with
        ⟨u, p', hpick, hlt, hufree, hok, hready, hformula', htrail⟩
      exact ⟨.decided ⟨u, true⟩, ⟨p', selector, conflicts, decisions + 1, budget⟩,
        by simp only [hsat, Bool.false_eq_true, if_false, hpick, hok], hformula, hforced,
        ⟨h, hsat, rfl, hpick, hlt, hufree, hformula', htrail⟩, hready.left, fun _ => hready, rfl,
        rfl, rfl, rfl⟩

/-- A round propagates and makes its move. -/
theorem round_spec (hP : Selector.Lawful n P) (hs : s.Regular n P) (hready : s.position.Ready) :
    ∃ q move s', s.round = .ok (move, s') ∧ Rounded s q move s' := by
  rcases hready.propagate with ⟨o, q, hok, hformula, hforced, hend⟩
  -- Propagation changes the position only.
  have hround : ∀ {move s'}, respond { s with position := q } o = .ok (move, s') →
      s.round = .ok (move, s') := by
    intro move s' hrespond
    rcases s with ⟨p, selector, conflicts, decisions, budget⟩
    dsimp only at hok hrespond
    simp only [round, propagate, hok, hrespond]
  cases o with
  | fixpoint =>
      rcases onFixpoint_spec hP hs hend hformula hforced with ⟨move, s', hmove, hrounded⟩
      exact ⟨q, move, s', hround hmove, hrounded⟩
  | conflict i =>
      rcases hend with ⟨hleft, c, hc, hfalse⟩
      rcases onConflict_spec (hleft.failed (hformula ▸ hc) hfalse) hformula hforced with
        ⟨move, s', hmove, hrounded⟩
      exact ⟨q, move, s', hround hmove, hrounded⟩

/-- No move changes the formula. -/
theorem Move.Made.formula_eq (h : move.Made s q p') : p'.formula = q.formula := by
  cases move with
  | refuted i => rw [h.1]
  | flipped i branch =>
      rcases h with ⟨_, _, _, _, _, hformula, _⟩
      exact hformula
  | satisfied m => rw [h.1]
  | decided l =>
      rcases h with ⟨_, _, _, _, _, _, hformula, _⟩
      exact hformula
  | undecided => exact h.elim

theorem Rounded.formula_same (h : Rounded s q move s') : s'.position.formula = s.position.formula :=
  h.made.formula_eq.trans h.formula_eq

theorem Rounded.regular (h : Rounded s q move s') (hs : s.Regular n P) : s'.Regular n P where
  position := h.left
  numVars_eq := by
    rw [h.formula_same]
    exact hs.numVars_eq
  learnts_eq := by
    rw [h.formula_same]
    exact hs.learnts_eq
  selector := by
    rw [h.selector_eq]
    exact hs.selector

/-! ## Rounds, by how propagation ended -/

theorem Rounded.leads (h : Rounded s q move s') : s.position.Leads q :=
  ⟨h.formula_eq, h.forced⟩

theorem Rounded.failed_or_settled (h : Rounded s q move s') :
    (∃ i c, q.Failed i c) ∨ q.Settled := by
  have hmade := h.made
  cases move with
  | refuted i =>
      rcases hmade with ⟨_, ⟨c, hfailed⟩, _⟩
      exact .inl ⟨i, c, hfailed⟩
  | flipped i branch =>
      rcases hmade with ⟨c, _, hfailed, _⟩
      exact .inl ⟨i, c, hfailed⟩
  | satisfied m => exact .inr hmade.2.1
  | decided l => exact .inr hmade.1
  | undecided => exact hmade.elim

/-- After a failed clause a conflict is counted, and the highest open branch is flipped if there is
one. -/
theorem Rounded.of_failed (h : Rounded s q move s') (hq : q.Failed i c) :
    s'.conflicts = s.conflicts + 1 ∧ s'.decisions = s.decisions ∧
      q.trail.Backtracked move.verdict? s'.position.trail := by
  have hmade := h.made
  have hconflicts := h.conflicts_eq
  have hdecisions := h.decisions_eq
  cases move with
  | refuted i => exact ⟨hconflicts, hdecisions, .inl ⟨rfl, hmade.2.2⟩⟩
  | flipped i branch =>
      rcases hmade with ⟨_, t', _, hopen, hback, _, htrail⟩
      exact ⟨hconflicts, hdecisions, .inr ⟨rfl, branch, hopen, t', hback, htrail⟩⟩
  | satisfied m => exact (hq.not_settled hmade.2.1).elim
  | decided l => exact (hq.not_settled hmade.1).elim
  | undecided => exact hmade.elim

/-- At a fixpoint the search is over if the values satisfy the formula, and else the variable that
is picked is decided. -/
theorem Rounded.of_settled (h : Rounded s q move s') (hq : q.Settled) :
    s'.conflicts = s.conflicts ∧
      (q.formula.isSatisfied q.trail.values = true ∧ s'.position = q ∧
          s'.decisions = s.decisions ∧
          move.verdict? = some (.satisfiable (.ofAssignment q.trail.values)) ∨
        q.formula.isSatisfied q.trail.values = false ∧ s'.decisions = s.decisions + 1 ∧
          move.verdict? = none ∧ ∃ v,
            Selector.pick s.selector q.trail.values = .ok (some v) ∧ v < q.formula.numVars ∧
            q.trail.Free v ∧ s'.position.trail = q.trail.newLevel.pushed ⟨v, true⟩ .decision) := by
  have hmade := h.made
  have hconflicts := h.conflicts_eq
  have hdecisions := h.decisions_eq
  cases move with
  -- A position that is settled has no failed clause.
  | refuted i =>
      rcases hmade with ⟨_, ⟨c, hfailed⟩, _⟩
      exact (hfailed.not_settled hq).elim
  | flipped i branch =>
      rcases hmade with ⟨c, _, hfailed, _⟩
      exact (hfailed.not_settled hq).elim
  | satisfied m =>
      rcases hmade with ⟨hposition, _, hsat, rfl⟩
      exact ⟨hconflicts, .inl ⟨hsat, hposition, hdecisions, rfl⟩⟩
  | decided l =>
      rcases l with ⟨v, positive⟩
      rcases hmade with ⟨_, hsat, rfl, hpick, hlt, hfree, _, htrail⟩
      exact ⟨hconflicts, .inr ⟨hsat, hdecisions, rfl, v, hpick, hlt, hfree, htrail⟩⟩
  | undecided => exact hmade.elim

/-- A move that ends the search ends it with a right verdict. -/
theorem Move.Made.rightFor {verdict : Verdict} (h : move.Made s q p')
    (hverdict : move.verdict? = some verdict) : verdict.RightFor q.formula := by
  cases move with
  | refuted i =>
      cases hverdict
      rcases h with ⟨_, ⟨c, hfailed⟩, hnone⟩
      exact Verdict.rightFor_unsatisfiable (hfailed.unsatisfiable hnone)
  | satisfied m =>
      cases hverdict
      -- The given clauses have true literals, so it does not matter what has no value.
      rcases h with ⟨_, hsettled, hsat, rfl⟩
      exact hsettled.wellFormed.rightFor (hsettled.wellFormed.isSatisfied_iff.1 hsat)
  | undecided => exact h.elim
  | flipped i branch => cases hverdict
  | decided l => cases hverdict

end Dpll
end SatSearch
