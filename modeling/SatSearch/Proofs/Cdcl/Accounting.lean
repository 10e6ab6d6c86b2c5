import SatSearch.Proofs.Search.Rejection

/-!
# Accounting — conflicts, learned clauses and restarts

A conflict teaches a clause and is counted towards the next restart, unless it ends the search as
there is nothing that satisfies the formula. A restart is made only when one is due, and what it
begins is counted down by the conflicts that follow, in this call or a later one. So the conflicts
are the learned clauses and the verdicts that nothing satisfies the formula, and the intervals
between the restarts fit into the learned clauses.
-/

namespace SatSearch

/-- How often the formula is refuted by the answer. -/
def refutations : Option Verdict → Nat
  | some .unsatisfiable => 1
  | _ => 0

/-- How often the formula is refuted by the reply. -/
def Solver.Reply.refutations : Solver.Reply → Nat
  | .searched answer => SatSearch.refutations answer
  | _ => 0

namespace Cdcl

variable {σ : Type} {n counted : Nat} {schedule : Schedule} {P : σ → Prop} {kind : AnalyserKind}
variable {s s' : Cdcl σ} {q p' : Position} {move : Move} {answer : Option Verdict}

/-- Every conflict has taught a clause or been counted as a refutation, and the restarter has counted
those that taught one. -/
structure Accounted (schedule : Schedule) (counted : Nat) (s : Cdcl σ) : Prop where
  conflicts_eq : s.conflicts = s.position.formula.learnts.size + counted
  schedule_eq : s.restarter.schedule = schedule
  ceiling_eq : s.restarter.ceiling = some (2 ^ 64 - 1)
  paced : s.restarter.Paced s.position.formula.learnts.size

/-! ## Between calls -/

theorem accounted_start {f : Formula} {propagator : PropagatorKind} {p : Position} {selector : σ}
    {analyser : Analyser} (hf : f.Pristine)
    (hp : Position.ofFormula propagator f = .ok p) :
    (start p selector analyser (.start schedule)).Accounted schedule 0 := by
  rcases Position.ofFormula_spec propagator hf with ⟨p', hp', _, hformula, _⟩
  obtain rfl : p = p' := Except.ok.inj (hp.symm.trans hp')
  have hnone : p.formula.learnts.size = 0 := by
    rw [hformula, hf.learnts_eq]
    rfl
  refine ⟨hnone.symm, rfl, rfl, ?_⟩
  show (Restarter.start schedule).Paced p.formula.learnts.size
  rw [hnone]
  exact Restarter.paced_start schedule

theorem Accounted.clear (h : s.Accounted schedule counted) : s.clear.Accounted schedule counted :=
  ⟨h.conflicts_eq, h.schedule_eq, h.ceiling_eq, h.paced⟩

theorem Accounted.setBudget (h : s.Accounted schedule counted) (budget : Budget) :
    (s.setBudget budget).Accounted schedule counted :=
  ⟨h.conflicts_eq, h.schedule_eq, h.ceiling_eq, h.paced⟩

/-- Adding a given clause leaves the learned ones, and counts nothing. -/
theorem Accounted.add (h : s.Accounted schedule counted) (hs : s.Regular n P kind) {ls : List Literal}
    {added : Except FormulaError Nat} (hadd : s.add ls = .ok (added, s')) :
    s'.Accounted schedule counted := by
  have hlearnts : s'.position.formula.learnts = s.position.formula.learnts := by
    rcases add_spec hs ls with ⟨_, _, hok, _, _, hformula⟩
    cases hok.symm.trans hadd
    rcases hformula with ⟨_, hformula⟩ | ⟨_, hformula⟩
    · rw [hformula]
    · rw [hformula, Formula.learnts_extended]
  rcases add_eq_ok hadd with ⟨_, _, rfl⟩
  refine ⟨?_, h.schedule_eq, h.ceiling_eq, ?_⟩
  · rw [hlearnts]
    exact h.conflicts_eq
  · rw [hlearnts]
    exact h.paced

variable [Selector σ]

/-! ## Rounds -/

/-- How many clauses the move learns. -/
def Move.learned : Move → Nat
  | .asserted _ _ _ => 1
  | .flipped _ _ _ _ => 1
  | _ => 0

theorem Move.Made.size_learnts (h : move.Made s q p') :
    p'.formula.learnts.size = q.formula.learnts.size + move.learned := by
  cases move with
  | refuted i => simp [h.1, Move.learned]
  | closed i analysis => simp [h.1, Move.learned]
  | asserted i learned level =>
      rcases h with ⟨_, _, _, _, _, _, _, _, hformula, _⟩
      simp [hformula, Move.learned]
  | flipped i learned level branch =>
      rcases h with ⟨_, _, _, _, _, _, _, hformula, _⟩
      simp [hformula, Move.learned]
  | completed m => simp [h.1, Move.learned]
  | restarted => simp [h.1, Move.learned]
  | decided l =>
      rcases h with ⟨_, _, _, _, _, _, hformula, _⟩
      simp [hformula, Move.learned]
  | undecided m => exact h.elim

/-- A conflict teaches a clause or refutes the formula, and no other move does. -/
theorem Move.learned_add_refutations (move : Move) :
    move.learned + refutations move.verdict? = move.conflicts := by
  cases move <;> rfl

/-- Whatever is learned counts down the interval, and only restarts that are due are made. -/
theorem Move.Made.paced {conflicts : Nat} (h : move.Made s q p')
    (hpaced : s.restarter.Paced conflicts) :
    (move.restarter s.restarter).Paced (conflicts + move.learned) := by
  cases move with
  | asserted i learned level => exact hpaced.tick
  | flipped i learned level branch => exact hpaced.tick
  | restarted => exact hpaced.restart h.2.2
  | _ => exact hpaced

theorem Move.schedule_restarter (move : Move) (r : Restarter) :
    (move.restarter r).schedule = r.schedule := by
  cases move <;> simp [restarter]

theorem Move.ceiling_restarter (move : Move) (r : Restarter) :
    (move.restarter r).ceiling = r.ceiling := by
  cases move <;> simp [restarter]

theorem Rounded.accounted (h : Rounded P kind s q move s') (hs : s.Accounted schedule counted) :
    s'.Accounted schedule (counted + refutations move.verdict?) where
  conflicts_eq := by
    have hcounted := move.learned_add_refutations
    have hbefore := hs.conflicts_eq
    rw [h.conflicts_eq, h.made.size_learnts, h.formula_eq]
    omega
  schedule_eq := by
    rw [h.restarter_eq, Move.schedule_restarter]
    exact hs.schedule_eq
  ceiling_eq := by
    rw [h.restarter_eq, Move.ceiling_restarter]
    exact hs.ceiling_eq
  paced := by
    rw [h.restarter_eq, h.made.size_learnts, h.formula_eq]
    exact h.made.paced hs.paced

/-! ## Calls -/

theorem accounted_of_reaches (h : Reaches (Next P kind) s s') (hs : s.Accounted schedule counted) :
    s'.Accounted schedule counted := by
  refine h.invariant (I := Accounted schedule counted) ?_ hs
  rintro s₁ s₂ hs₁ ⟨q, move, hrounded, hverdict⟩
  have hs₂ := hrounded.accounted hs₁
  rwa [hverdict] at hs₂

/-- Only the round that ends a call can refute the formula. -/
theorem Ran.accounted {conflicts decisions : Nat} (h : Ran P kind conflicts decisions s answer s')
    (hs : s.Accounted schedule counted) :
    s'.Accounted schedule (counted + refutations answer) := by
  cases h with
  | stopped hreaches => exact accounted_of_reaches hreaches hs
  | exhausted hreaches _ => exact accounted_of_reaches hreaches hs
  | ended hreaches hends =>
      rcases hends with ⟨q, move, hrounded, hverdict⟩
      rw [← hverdict]
      exact hrounded.accounted (accounted_of_reaches hreaches hs)

end Cdcl

/-! ## Requests -/

namespace Solver

open Cdcl

variable {search : Cdcl Branching} {n counted : Nat} {kind : AnalyserKind}
variable {schedule : Schedule}

/-- Every request leaves the books balanced. -/
theorem respond_accounted (hs : search.Regular n (Branching.Suits n) kind)
    (haccounted : search.Accounted schedule counted) (request : Request) :
    ∃ reply search', (cdcl search).respond request = .ok (reply, .cdcl search') ∧
      search'.Regular n (Branching.Suits n) kind ∧
      search'.Accounted schedule (counted + reply.refutations) := by
  cases request with
  | add ls =>
      rcases add_spec hs ls with ⟨answer, search', hok, hs', _⟩
      exact ⟨.added answer, search', by simp [respond, add, hok, Except.map], hs',
        haccounted.add hs hok⟩
  | setBudget budget =>
      exact ⟨.limited, search.setBudget budget, rfl, regular_setBudget hs budget,
        haccounted.setBudget budget⟩
  | solve fuel =>
      rcases solve_spec (Branching.lawful n) hs fuel with ⟨answer, search', hok, hran⟩
      exact ⟨.searched answer, search', by simp [respond, solve, hok, Except.map],
        Ran.regular hran hs.clear, Ran.accounted hran haccounted.clear⟩

/-- How many calls have found that nothing satisfies the formula. -/
def refuted (replies : List (Reply × Statistics)) : Nat :=
  (replies.map Prod.fst).count (.searched (some .unsatisfiable))

theorem refuted_cons (reply : Reply) (statistics : Statistics)
    (replies : List (Reply × Statistics)) :
    refuted ((reply, statistics) :: replies) = reply.refutations + refuted replies := by
  rw [refuted, List.map_cons, List.count_cons, Nat.add_comm, refuted]
  congr 1
  cases reply with
  | added answer => rfl
  | limited => rfl
  | searched answer => rcases answer with _ | _ | _ | _ <;> rfl

theorem respondAll_accounted (requests : List Request) :
    ∀ (search : Cdcl Branching) (counted : Nat),
    search.Regular n (Branching.Suits n) kind → search.Accounted schedule counted →
    ∃ replies search', (cdcl search).respondAll requests = .ok (replies, .cdcl search') ∧
      search'.Accounted schedule (counted + refuted replies) := by
  induction requests with
  | nil =>
      intro search counted _ haccounted
      exact ⟨[], search, rfl, haccounted⟩
  | cons request requests ih =>
      intro search counted hs haccounted
      rcases respond_accounted hs haccounted request with ⟨reply, search₁, hok, hs₁, haccounted₁⟩
      rcases ih search₁ _ hs₁ haccounted₁ with ⟨replies, search', hall, haccounted'⟩
      refine ⟨(reply, search₁.statistics) :: replies, search', ?_, ?_⟩
      · simp only [respondAll, hok, hall, statistics]
      · rw [refuted_cons, ← Nat.add_assoc]
        exact haccounted'

/-- Whatever a search that learns is built from over a formula without learned clauses, and whatever
it is asked, its conflicts are the learned clauses and the calls that found that nothing satisfies
the formula. The intervals that its restarts have ended, in the lengths of the schedule up to the
largest 64-bit number, take no more conflicts all together than there are learned clauses; so there
are no more restarts than learned clauses, and no more of these than conflicts. -/
theorem requests_accounted {f : Formula} {selector : Branching} (hf : f.Built)
    (hselector : selector.Fresh f.numVars) (propagator : PropagatorKind) (analyser : AnalyserKind)
    (schedule : Schedule) (requests : List Request) :
    ∃ p replies s', Position.ofFormula propagator f = .ok p ∧
      (start .cdcl p selector (.build analyser f.numVars) (.start schedule)).respondAll requests =
        .ok (replies, s') ∧
      s'.statistics.conflicts = s'.statistics.learnt + refuted replies ∧
      ∑ i ∈ Finset.range s'.statistics.restarts, min (schedule.length (i + 1)) (2 ^ 64 - 1) ≤
        s'.statistics.learnt ∧
      s'.statistics.restarts ≤ s'.statistics.learnt ∧
      s'.statistics.learnt ≤ s'.statistics.conflicts := by
  rcases Position.ofFormula_spec propagator hf.pristine with ⟨p, hp, _⟩
  have hregular : (Cdcl.start p selector (.build analyser f.numVars) (.start schedule)).Regular
      f.numVars (Branching.Suits f.numVars) analyser :=
    regular_start hf.pristine hp (Branching.Fresh.suits hselector) (Restarter.live_start schedule)
  rcases respondAll_accounted requests _ 0 hregular (Cdcl.accounted_start hf.pristine hp) with
    ⟨replies, search, hok, haccounted⟩
  refine ⟨p, replies, .cdcl search, hp, hok, ?_, ?_, haccounted.paced.restarts_le, ?_⟩
  · have hconflicts := haccounted.conflicts_eq
    rwa [Nat.zero_add] at hconflicts
  · have hsum := Nat.le_of_add_right_le haccounted.paced.elapsed_le
    simp only [Restarter.capped, haccounted.schedule_eq, haccounted.ceiling_eq] at hsum
    exact hsum
  · exact (Nat.le_add_right _ _).trans haccounted.conflicts_eq.ge

/-- A restart after the first conflict, then a model; with one more clause the formula is refuted, by
either of two calls. -/
theorem requests_accounted_sample : ∃ s replies s',
    build .cdcl ⟨.watch, .fixedOrder, .fixed 1, .firstUip⟩ .refuting = .ok s ∧
      s.respondAll [.solve 9, .add [⟨0, true⟩], .solve 9, .solve 9] = .ok (replies, s') ∧
      s'.statistics = ⟨3, 2, 4, 1, 1⟩ ∧ refuted replies = 2 ∧
      s'.statistics.conflicts = s'.statistics.learnt + refuted replies ∧
      ∑ i ∈ Finset.range s'.statistics.restarts, min ((Schedule.fixed 1).length (i + 1))
        (2 ^ 64 - 1) ≤ s'.statistics.learnt := by
  have hcount : ((build .cdcl ⟨.watch, .fixedOrder, .fixed 1, .firstUip⟩ .refuting).bind
      (respondAll [.solve 9, .add [⟨0, true⟩], .solve 9, .solve 9])).map
        (fun r => (r.2.statistics, refuted r.1)) = .ok (⟨3, 2, 4, 1, 1⟩, 2) := by decide +kernel
  rcases requests_accounted Formula.built_refuting (Branching.fresh_build .fixedOrder 2) .watch
      .firstUip (.fixed 1) [.solve 9, .add [⟨0, true⟩], .solve 9, .solve 9] with
    ⟨p, replies, s', hp, hok, hconflicts, hintervals, _⟩
  have hbuild := (build_eq .cdcl ⟨.watch, .fixedOrder, .fixed 1, .firstUip⟩ .refuting).trans
    (congrArg _ hp)
  rw [hbuild] at hcount
  rcases exists_of_map_eq_ok hcount with ⟨result, hok', heq⟩
  obtain rfl : (replies, s') = result := Except.ok.inj (hok.symm.trans hok')
  obtain ⟨hstatistics, hrefuted⟩ := Prod.mk.inj heq
  exact ⟨_, replies, s', hbuild, hok, hstatistics, hrefuted, hconflicts, hintervals⟩

end Solver
end SatSearch
