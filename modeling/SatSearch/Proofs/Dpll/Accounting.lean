import SatSearch.Proofs.Dpll.Lifetime
import SatSearch.Proofs.Trail.OpenLevels

/-!
# Accounting — what a call of the search that backtracks spends

A round that goes on flips the highest open branch, which is a conflict, or decides. So every
decision has been made up for by a conflict, or its level is still open; and a call over `n`
variables walks through a tree with `2 ^ n` leaves, of which each conflict leaves some behind.
Without limits it therefore ends with a verdict, after fewer than `2 ^ n` decisions.
-/

namespace SatSearch

open Trail

namespace Dpll

variable {σ : Type} {n : Nat} {P : σ → Prop} {s s' : Dpll σ} {q : Position}
variable {move : Move} {verdict : Verdict} {answer : Option Verdict}
variable {conflicts decisions fuel : Nat}

/-! ## The books -/

/-- Since the counters stood as given, every decision has been made up for by a conflict or its
level is open, and every conflict has left a leaf of the tree behind. -/
structure Balanced (n conflicts decisions : Nat) (s : Dpll σ) : Prop where
  conflicts_le : conflicts ≤ s.conflicts
  decisions_le : decisions ≤ s.decisions
  count_eq : s.conflicts + s.position.trail.openLevels.card + decisions = conflicts + s.decisions
  leaves_le : s.conflicts + leaves n s.position.trail ≤ conflicts + 2 ^ n

theorem Regular.balanced_clear (h : s.Regular n P) :
    Balanced n s.conflicts s.decisions s.clear := by
  refine ⟨le_rfl, le_rfl, ?_, ?_⟩
  · rw [h.trail_clear, openLevels_empty]
    rfl
  · rw [h.trail_clear, leaves_empty]
    exact le_rfl

/-- How the conflicts and the decisions of a call compare: as long as it goes on, the decisions
whose level is open are those without a conflict; if nothing satisfies the formula there has been a
conflict more than decisions, and if something does, no more. -/
def Even (conflicts decisions : Nat) (t : Trail) : Option Verdict → Prop
  | some .unsatisfiable => conflicts = decisions + 1
  | some (.satisfiable _) => conflicts ≤ decisions
  | _ => conflicts + t.openLevels.card = decisions

/-- What has been spent since the counters stood as given, by the time of the answer. -/
def Spent (n conflicts decisions : Nat) (answer : Option Verdict) (s : Dpll σ) : Prop :=
  ∃ made tried, s.conflicts = conflicts + made ∧ s.decisions = decisions + tried ∧
    tried ≤ 2 ^ n - 1 ∧ Even made tried s.position.trail answer

theorem Balanced.spent (h : Balanced n conflicts decisions s) :
    Spent n conflicts decisions none s := by
  have hconflicts := h.conflicts_le
  have hdecisions := h.decisions_le
  have hcount := h.count_eq
  have hleaves := h.leaves_le
  have hfewer := card_openLevels_lt n s.position.trail
  refine ⟨s.conflicts - conflicts, s.decisions - decisions, by omega, by omega, by omega, ?_⟩
  show s.conflicts - conflicts + s.position.trail.openLevels.card = s.decisions - decisions
  omega

variable [Selector σ]

/-! ## Calls that end -/

/-- A call ends with the verdict, as long as it may make that many rounds or more. -/
def Returns (s : Dpll σ) (verdict : Verdict) (s' : Dpll σ) : Prop :=
  ∃ bound, ∀ fuel, bound ≤ fuel → s.solve fuel = .ok (some verdict, s')

/-- Rounds that are allowed after the last one are not made. -/
theorem run_add {s s' : Dpll σ} (h : run conflicts decisions fuel s = .ok (some verdict, s'))
    (more : Nat) : run conflicts decisions (fuel + more) s = .ok (some verdict, s') := by
  induction fuel generalizing s with
  | zero => cases h
  | succ fuel ih =>
      rw [Nat.succ_add]
      rw [run] at h ⊢
      split
      · rename_i hexhausted
        rwa [if_pos hexhausted] at h
      · rename_i hexhausted
        rw [if_neg hexhausted] at h
        cases hround : s.round with
        | error e =>
            rw [hround] at h
            cases h
        | ok result =>
            rcases result with ⟨move, s₁⟩
            rw [hround] at h
            dsimp only at h ⊢
            cases hverdict : move.verdict? with
            | some v => rwa [hverdict] at h
            | none =>
                rw [hverdict] at h
                exact ih h

theorem returns_of_solve (h : s.solve fuel = .ok (some verdict, s')) : s.Returns verdict s' := by
  refine ⟨fuel, ?_⟩
  intro fuel' hle
  rcases Nat.exists_eq_add_of_le hle with ⟨more, rfl⟩
  exact run_add h more

/-- A call ends in one way only. -/
theorem Returns.unique {verdict' : Verdict} {s'' : Dpll σ} (h : s.Returns verdict s')
    (h' : s.Returns verdict' s'') : verdict' = verdict ∧ s'' = s' := by
  rcases h with ⟨bound, hbound⟩
  rcases h' with ⟨bound', hbound'⟩
  have heq := (hbound _ (le_max_left bound bound')).symm.trans
    (hbound' _ (le_max_right bound bound'))
  cases heq
  exact ⟨rfl, rfl⟩

/-! ## Keeping the books -/

/-- A round that goes on is a turn. -/
theorem Rounded.turn (h : Rounded s q move s') (hs : s.Regular n P)
    (hverdict : move.verdict? = none) :
    Turn n s.position.trail s'.position.trail move.conflicts move.decisions := by
  have hj := hs.position.justified
  have ht : s.position.trail.WellFormed n := hs.numVars_eq ▸ hs.position.wellFormed
  have hvars : q.formula.numVars = n := h.formula_eq ▸ hs.numVars_eq
  have hj' := h.left.justified
  have hlev' := h.left.wellFormed.toLevelled
  have hmade := h.made
  cases move with
  | flipped i branch =>
      rcases hmade with ⟨c, t', hfailed, hopen, hback, _, htrail⟩
      exact Flips.turn h.forced hj ht (hvars ▸ hfailed.wellFormed) ⟨hopen, t', hback, htrail⟩ hj'
        hlev'
  | decided l =>
      rcases hmade with ⟨hsettled, _, _, _, hlt, hfree, _, htrail⟩
      rw [htrail] at hj' ⊢
      exact turn_decided h.forced hj ht (hvars ▸ hsettled.wellFormed) (hvars ▸ hlt) hfree hj'
  | _ => cases hverdict

theorem Rounded.balanced (h : Rounded s q move s') (hs : s.Regular n P)
    (hbalanced : Balanced n conflicts decisions s) (hverdict : move.verdict? = none) :
    Balanced n conflicts decisions s' := by
  have hconflicts := h.conflicts_eq
  have hdecisions := h.decisions_eq
  rcases hbalanced with ⟨hmade, htried, hcount, hleaves⟩
  have hturn := h.turn hs hverdict
  generalize move.conflicts = conflict at hconflicts hturn
  generalize move.decisions = decision at hdecisions hturn
  cases hturn with
  | flipped hopen hfewer => constructor <;> omega
  | decided hopen hsame => constructor <;> omega

theorem balanced_of_reaches (h : Reaches Next s s') (hs : s.Regular n P)
    (hbalanced : Balanced n conflicts decisions s) :
    s'.Regular n P ∧ Balanced n conflicts decisions s' := by
  refine h.invariant (I := fun x => x.Regular n P ∧ Balanced n conflicts decisions x) ?_
    ⟨hs, hbalanced⟩
  rintro _ _ ⟨hI, hbalanced⟩ ⟨_, _, hrounded, hverdict⟩
  exact ⟨hrounded.regular hI, hrounded.balanced hI hbalanced hverdict⟩

/-- A round that ends the search counts a conflict if it refutes the formula, when all decisions
have been made up for. -/
theorem Rounded.spent (h : Rounded s q move s') (hs : s.Regular n P)
    (hbalanced : Balanced n conflicts decisions s) (hverdict : move.verdict? = some verdict) :
    Spent n conflicts decisions (some verdict) s' := by
  rcases hbalanced.spent with ⟨made, tried, hmade, htried, hle, heven⟩
  have hconflicts := h.conflicts_eq
  have hdecisions := h.decisions_eq
  have hopen : made + s.position.trail.openLevels.card = tried := heven
  have hfound := h.made
  cases move with
  | refuted i =>
      cases hverdict
      rcases hfound with ⟨_, ⟨c, hfailed⟩, hnone⟩
      -- A clause that fails with no branch left to flip fails when no level is open.
      have hclosed : s.position.trail.openLevels.card = 0 := by
        rw [← h.forced.openLevels_eq hs.position.justified hs.position.wellFormed.toLevelled
            hfailed.wellFormed.toLevelled,
          hfailed.justified.openLevels_eq_empty hfailed.wellFormed.toLevelled hnone,
          Finset.card_empty]
      refine ⟨made + 1, tried, ?_, hdecisions.trans htried, hle, ?_⟩
      · rw [hconflicts, hmade]
        rfl
      · show made + 1 = tried + 1
        omega
  | satisfied m =>
      cases hverdict
      refine ⟨made, tried, hconflicts.trans hmade, hdecisions.trans htried, hle, ?_⟩
      show made ≤ tried
      omega
  | undecided => exact hfound.elim
  | _ => cases hverdict

theorem Ran.spent (h : Ran conflicts decisions s answer s') (hs : s.Regular n P)
    (hbalanced : Balanced n conflicts decisions s) : Spent n conflicts decisions answer s' := by
  cases h with
  | stopped hreaches => exact (balanced_of_reaches hreaches hs hbalanced).2.spent
  | exhausted hreaches _ => exact (balanced_of_reaches hreaches hs hbalanced).2.spent
  | ended hreaches hends =>
      rcases balanced_of_reaches hreaches hs hbalanced with ⟨hregular, hbalanced'⟩
      rcases hends with ⟨q, move, hrounded, hverdict⟩
      exact hrounded.spent hregular hbalanced' hverdict

/-! ## Calls come to an end -/

/-- With enough rounds allowed there is an answer. -/
theorem run_ends (hP : Selector.Lawful n P) (conflicts decisions fuel : Nat) : ∀ s : Dpll σ,
    s.Regular n P → s.position.Ready → turnsLeft n s.position.trail < fuel →
    ∃ verdict s', run conflicts decisions fuel s = .ok (some verdict, s') := by
  induction fuel with
  | zero =>
      intro s _ _ hlt
      exact absurd hlt (Nat.not_lt_zero _)
  | succ fuel ih =>
      intro s hs hready hlt
      cases hexhausted : s.isExhausted conflicts decisions with
      | true => exact ⟨.unknown, s, by simp [run, hexhausted]⟩
      | false =>
          rcases round_spec hP hs hready with ⟨q, move, s₁, hround, hrounded⟩
          cases hverdict : move.verdict? with
          | some verdict => exact ⟨verdict, s₁, by simp [run, hexhausted, hround, hverdict]⟩
          | none =>
              have hless := (hrounded.turn hs hverdict).turnsLeft_lt
              rcases ih s₁ (hrounded.regular hs) (hrounded.ready hverdict) (by omega) with
                ⟨verdict, s', hrun⟩
              exact ⟨verdict, s', by simp [run, hexhausted, hround, hverdict, hrun]⟩

/-- A call that may make two rounds for every leaf, and one more, has an answer. -/
theorem Regular.solve_ends (hP : Selector.Lawful n P) (hs : s.Regular n P)
    (hfuel : 2 * 2 ^ n < fuel) : ∃ verdict s', s.solve fuel = .ok (some verdict, s') := by
  refine run_ends hP s.conflicts s.decisions fuel s.clear hs.clear hs.ready_clear ?_
  rwa [hs.trail_clear, turnsLeft_empty]

/-- A call that may make enough rounds returns a verdict. -/
theorem Regular.returns (hP : Selector.Lawful n P) (hs : s.Regular n P) :
    ∃ verdict s', s.Returns verdict s' ∧ Ran s.conflicts s.decisions s.clear (some verdict) s' := by
  rcases hs.solve_ends hP (Nat.lt_succ_self _) with ⟨verdict, s', hsolve⟩
  rcases solve_spec hP hs _ with ⟨answer, s'', hok, hran⟩
  cases hok.symm.trans hsolve
  exact ⟨verdict, s', returns_of_solve hok, hran⟩

theorem Ran.budget_eq (h : Ran conflicts decisions s answer s') : s'.budget = s.budget :=
  Ran.keeps (I := fun x => x.budget = s.budget) h
    (fun _ _ _ _ hI hrounded => hrounded.budget_eq.trans hI) rfl

/-- Without limits no budget is reached. -/
theorem Ran.exists_ends (h : Ran conflicts decisions s (some verdict) s')
    (hbudget : s.budget = .unlimited) : ∃ s₁, Reaches Next s s₁ ∧ Ends s₁ verdict s' := by
  cases h with
  | exhausted hreaches hexhausted =>
      have hran : Ran conflicts decisions s (some .unknown) s' := .exhausted hreaches hexhausted
      have hbudget' := (Ran.budget_eq hran).trans hbudget
      simp [isExhausted, hbudget', Budget.unlimited, Budget.isExhausted, Budget.reached]
        at hexhausted
  | ended hreaches hends => exact ⟨_, hreaches, hends⟩

theorem Ends.ne_unknown (h : Ends s verdict s') : verdict ≠ .unknown := by
  rcases h with ⟨_, move, _, hverdict⟩
  rintro rfl
  cases move <;> cases hverdict

/-- A search over the four clauses over two variables that reads every clause. -/
def contradictory : Dpll Branching :=
  .start ⟨.contradictory, .scan, .empty 2, 0⟩ (.fixedOrder ⟨2⟩)

theorem lifetime_contradictory : contradictory.Lifetime Branching.Fresh :=
  have hp : Position.ofFormula .scan .contradictory = .ok contradictory.position := rfl
  .started Formula.built_contradictory hp .fixedOrder

/-- All its lifetime, with either propagator and selector, a call without limits ends with a model
or finds the formula unsatisfiable. Whatever the limits, a call over `n` variables makes at most
`2 ^ n - 1` decisions, and whenever it is stopped between rounds its conflicts and the levels whose
branch is still an unflipped decision add up to its decisions. If it finds the formula unsatisfiable
it has made one conflict more than decisions, and if it finds a model, no more. -/
theorem solve_spent {s : Dpll Branching} (h : s.Lifetime Branching.Fresh) :
    (s.budget = .unlimited → ∃ verdict s', s.Returns verdict s' ∧ verdict ≠ .unknown) ∧
      ∀ fuel, ∃ answer s', s.solve fuel = .ok (answer, s') ∧
        Spent s.position.formula.numVars s.conflicts s.decisions answer s' := by
  rcases h.regular Branching.lawful fun _ _ => Branching.Fresh.suits with ⟨n, hs⟩
  obtain rfl := hs.numVars_eq
  constructor
  · intro hbudget
    rcases hs.returns (Branching.lawful _) with ⟨verdict, s', hreturns, hran⟩
    rcases Ran.exists_ends hran hbudget with ⟨s₁, _, hends⟩
    exact ⟨verdict, s', hreturns, hends.ne_unknown⟩
  · intro fuel
    rcases solve_spec (Branching.lawful _) hs fuel with ⟨answer, s', hok, hran⟩
    exact ⟨answer, s', hok, Ran.spent hran hs.clear hs.balanced_clear⟩

/-- Over the four clauses over two variables a call decides the first one, and both sides fail. -/
theorem solve_spent_sample :
    (∃ verdict s', contradictory.Returns verdict s' ∧ verdict ≠ .unknown) ∧
      ∃ s', contradictory.solve 3 = .ok (some .unsatisfiable, s') ∧
        Spent 2 0 0 (some .unsatisfiable) s' ∧ s'.conflicts = 2 ∧ s'.decisions = 1 := by
  have hrun : (contradictory.solve 3).map (fun r => (r.1, r.2.conflicts, r.2.decisions)) =
      .ok (some .unsatisfiable, 2, 1) := by decide +kernel
  refine ⟨(solve_spent lifetime_contradictory).1 rfl, ?_⟩
  rcases (solve_spent lifetime_contradictory).2 3 with ⟨answer, s', hok, hspent⟩
  rw [hok] at hrun
  obtain ⟨rfl, hconflicts, hdecisions⟩ : answer = some .unsatisfiable ∧ s'.conflicts = 2 ∧
      s'.decisions = 1 := by
    simpa [Except.map] using hrun
  exact ⟨s', hok, hspent, hconflicts, hdecisions⟩

end Dpll
end SatSearch
