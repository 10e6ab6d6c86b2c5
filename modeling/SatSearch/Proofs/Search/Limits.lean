import SatSearch.Proofs.Search.Faultless

/-!
# Limits — what a budget takes from a call

Both searches make their rounds in the same loop, which looks at the budget before each round and
nowhere else. A round neither reads the budget nor changes it, and counts at most one conflict and
at most one decision. So a call with limits makes the rounds of the call without limits, up to the
first one that would begin with a limit reached, and it never spends more than a limit allows.
-/

namespace SatSearch

/-! ## Limits -/

namespace Budget

variable {spent m : Nat} {limit : Option Nat}

theorem lt_of_not_reached (h : reached spent limit = false) (hlimit : limit = some m) :
    spent < m := by
  subst hlimit
  simpa [reached] using h

theorem eq_some_of_reached (h : reached spent limit = true)
    (hle : ∀ m, limit = some m → spent ≤ m) : limit = some spent := by
  cases limit with
  | none => cases h
  | some m =>
      have hge : m ≤ spent := by simpa [reached] using h
      rw [le_antisymm hge (hle m rfl)]

end Budget

/-! ## Rounds until a limit is reached -/

section Loop

variable {S T : Type}

/-- At most `fuel` rounds. They end with the verdict of a round, or when a limit is reached before
one. -/
def makeRounds (reached : S → Bool) (round : S → Except Fault (Option Verdict × S)) :
    Nat → S → Except Fault (Option Verdict × S)
  | 0, s => .ok (none, s)
  | fuel + 1, s =>
    if reached s then .ok (some .unknown, s)
    else
      match round s with
      | .error e => .error e
      | .ok (some verdict, s) => .ok (some verdict, s)
      | .ok (none, s) => makeRounds reached round fuel s

variable {reached : S → Bool} {round : S → Except Fault (Option Verdict × S)}
variable {reached' : T → Bool} {round' : T → Except Fault (Option Verdict × T)}
variable {s s₁ u : S} {k fuel : Nat}

theorem makeRounds_succ (hreached : reached s = false) (hround : round s = .ok (none, s₁)) :
    makeRounds reached round (fuel + 1) s = makeRounds reached round fuel s₁ := by
  simp [makeRounds, hreached, hround]

/-- Rounds that ended neither way go on where they stopped. -/
theorem makeRounds_add (h : makeRounds reached round k s = .ok (none, u)) (more : Nat) :
    makeRounds reached round (k + more) s = makeRounds reached round more u := by
  induction k generalizing s with
  | zero =>
      cases h
      rw [Nat.zero_add]
  | succ k ih =>
      rw [makeRounds] at h
      cases hreached : reached s with
      | true => simp [hreached] at h
      | false =>
          -- The first round was made and did not end the call.
          rw [hreached, if_neg Bool.false_ne_true] at h
          split at h
          · cases h
          · cases h
          · rename_i s₁ hround
            rw [Nat.succ_add, makeRounds_succ hreached hround]
            exact ih h

/-- If no limit is reached before any of them, the rounds are those that are made without limits. -/
theorem makeRounds_eq_of_heads
    (h : ∀ k < fuel, ∀ u, makeRounds (fun _ => false) round k s = .ok (none, u) →
      reached u = false) :
    makeRounds reached round fuel s = makeRounds (fun _ => false) round fuel s := by
  induction fuel generalizing s with
  | zero => rfl
  | succ fuel ih =>
      -- The first head is where the rounds begin, and the others are those after the first round.
      have hreached : reached s = false := h 0 (Nat.succ_pos fuel) s rfl
      rw [makeRounds, makeRounds, hreached]
      cases hround : round s with
      | error e => rfl
      | ok result =>
          rcases result with ⟨_ | verdict, s₁⟩
          · refine ih fun k hk u hu => h (k + 1) (by omega) u ?_
            rw [makeRounds_succ rfl hround]
            exact hu
          · rfl

/-- They stop where a limit is reached for the first time. -/
theorem makeRounds_eq_unknown (hu : makeRounds (fun _ => false) round k s = .ok (none, u))
    (hreached : reached u = true)
    (hbefore : ∀ j < k, ∀ w, makeRounds (fun _ => false) round j s = .ok (none, w) →
      reached w = false)
    (hlt : k < fuel) : makeRounds reached round fuel s = .ok (some .unknown, u) := by
  obtain ⟨more, rfl⟩ : ∃ more, fuel = k + (more + 1) := ⟨fuel - k - 1, by omega⟩
  rw [makeRounds_add ((makeRounds_eq_of_heads hbefore).trans hu), makeRounds, hreached]
  rfl

/-- Searches that take the same rounds, seen through `g`, make the same rounds. -/
theorem makeRounds_map (reached : S → Bool) (g : S → T) (hreached : ∀ s, reached' (g s) = reached s)
    (hround : ∀ s, round' (g s) = (round s).map (Prod.map id g)) (fuel : Nat) (s : S) :
    makeRounds reached' round' fuel (g s) =
      (makeRounds reached round fuel s).map (Prod.map id g) := by
  induction fuel generalizing s with
  | zero => rfl
  | succ fuel ih =>
      rw [makeRounds, makeRounds, hreached, hround]
      cases reached s with
      | true => rfl
      | false =>
          cases round s with
          | error e => rfl
          | ok result =>
              rcases result with ⟨_ | verdict, s₁⟩
              · exact ih s₁
              · rfl

/-- What holds where a round begins, and what is left when rounds have been made: rounds are made
without faults, and only a limit that is reached leaves the question open. -/
theorem makeRounds_spec {H E : S → Prop} (hleft : ∀ s, H s → E s)
    (hround : ∀ s, H s → reached s = false → ∃ answer s', round s = .ok (answer, s') ∧
      answer ≠ some .unknown ∧ (answer = none → H s') ∧ E s') (fuel : Nat) (s : S) (hs : H s) :
    ∃ answer s', makeRounds reached round fuel s = .ok (answer, s') ∧ E s' ∧
      (answer = some .unknown → reached s' = true) := by
  induction fuel generalizing s with
  | zero => exact ⟨none, s, rfl, hleft s hs, nofun⟩
  | succ fuel ih =>
      cases hreached : reached s with
      | true =>
          exact ⟨some .unknown, s, by simp [makeRounds, hreached], hleft s hs, fun _ => hreached⟩
      | false =>
          rcases hround s hs hreached with ⟨_ | verdict, s₁, hok, hknown, hnext, hend⟩
          · rw [makeRounds_succ hreached hok]
            exact ih s₁ (hnext rfl)
          · exact ⟨some verdict, s₁, by simp [makeRounds, hreached, hok], hend,
              fun hunknown => absurd hunknown hknown⟩

end Loop

/-! ## Rounds do not look at the budget -/

namespace Cdcl

variable {σ : Type} [Selector σ]

theorem onConflict_setBudget (s : Cdcl σ) (b : Budget) (c : Nat) :
    (s.setBudget b).onConflict c = (s.onConflict c).map (Prod.map id (setBudget b)) := by
  rcases s with ⟨p, selector, analyser, restarter, conflicts, decisions, budget⟩
  change onConflict c ⟨p, selector, analyser, restarter, conflicts, decisions, b⟩ = _
  simp only [onConflict]
  by_cases hzero : p.trail.level = 0
  · simp only [if_pos hzero]
    rfl
  simp only [if_neg hzero]
  cases analyser.analyse p.formula p.trail c with
  | error e => rfl
  | ok result =>
      rcases result with ⟨analysis, vars, analyser'⟩
      dsimp only
      cases Selector.reward selector vars with
      | error e => rfl
      | ok selector' =>
          cases analysis with
          | ground => rfl
          | asserting clause level =>
              dsimp only
              cases assertLearned p clause level <;> rfl
          | retry clause level =>
              dsimp only
              cases p.trail.openBranch? (level + 1) with
              | none => rfl
              | some branch =>
                  dsimp only
                  cases flip p clause branch <;> rfl

theorem onFixpoint_setBudget (s : Cdcl σ) (b : Budget) :
    (s.setBudget b).onFixpoint = s.onFixpoint.map (Prod.map id (setBudget b)) := by
  rcases s with ⟨p, selector, analyser, restarter, conflicts, decisions, budget⟩
  change onFixpoint ⟨p, selector, analyser, restarter, conflicts, decisions, b⟩ = _
  simp only [onFixpoint]
  cases p.trail.values.isComplete with
  | true => rfl
  | false =>
      cases restarter.isDue with
      | true => rfl
      | false =>
          cases Selector.pick selector p.trail.values with
          | error e => rfl
          | ok choice =>
              cases choice with
              | none => rfl
              | some v =>
                  simp only [Bool.false_eq_true, if_false]
                  cases p.branch ⟨v, true⟩ .decision <;> rfl

theorem round_setBudget (s : Cdcl σ) (b : Budget) :
    (s.setBudget b).round = s.round.map (Prod.map id (setBudget b)) := by
  rcases s with ⟨p, selector, analyser, restarter, conflicts, decisions, budget⟩
  simp only [setBudget, round, propagate]
  cases p.propagate with
  | error e => rfl
  | ok result =>
      rcases result with ⟨_ | i, q⟩
      · exact onFixpoint_setBudget
          ⟨q, selector, analyser, restarter, conflicts, decisions, budget⟩ b
      · exact onConflict_setBudget
          ⟨q, selector, analyser, restarter, conflicts, decisions, budget⟩ b i

theorem Move.counted_le (move : Move) : move.conflicts ≤ 1 ∧ move.decisions ≤ 1 := by
  cases move <;> simp [conflicts, decisions]

/-- One round, and the verdict it ends with. -/
def step (s : Cdcl σ) : Except Fault (Option Verdict × Cdcl σ) :=
  s.round.map (Prod.map Move.verdict? id)

theorem step_setBudget (s : Cdcl σ) (b : Budget) :
    (s.setBudget b).step = s.step.map (Prod.map id (setBudget b)) := by
  rw [step, step, round_setBudget]
  cases s.round <;> rfl

theorem run_eq_makeRounds (conflicts decisions fuel : Nat) (s : Cdcl σ) :
    run conflicts decisions fuel s = makeRounds (isExhausted conflicts decisions) step fuel s := by
  induction fuel generalizing s with
  | zero => rfl
  | succ fuel ih =>
      rw [run, makeRounds, step]
      split
      · rfl
      · cases s.round with
        | error e => rfl
        | ok result =>
            rcases result with ⟨move, s₁⟩
            simp only [Except.map, Prod.map]
            cases move.verdict? with
            | none => exact ih s₁
            | some verdict => rfl

end Cdcl

namespace Dpll

variable {σ : Type}

theorem onConflict_setBudget (s : Dpll σ) (b : Budget) (c : Nat) :
    (s.setBudget b).onConflict c = (s.onConflict c).map (Prod.map id (setBudget b)) := by
  rcases s with ⟨p, selector, conflicts, decisions, budget⟩
  change onConflict c ⟨p, selector, conflicts, decisions, b⟩ = _
  simp only [onConflict]
  cases p.trail.openBranch? p.trail.level with
  | none => rfl
  | some branch =>
      dsimp only
      cases flip p branch <;> rfl

variable [Selector σ]

theorem onFixpoint_setBudget (s : Dpll σ) (b : Budget) :
    (s.setBudget b).onFixpoint = s.onFixpoint.map (Prod.map id (setBudget b)) := by
  rcases s with ⟨p, selector, conflicts, decisions, budget⟩
  change onFixpoint ⟨p, selector, conflicts, decisions, b⟩ = _
  simp only [onFixpoint]
  cases p.formula.isSatisfied p.trail.values with
  | true => rfl
  | false =>
      cases Selector.pick selector p.trail.values with
      | error e => rfl
      | ok choice =>
          cases choice with
          | none => rfl
          | some v =>
              simp only [Bool.false_eq_true, if_false]
              cases p.branch ⟨v, true⟩ .decision <;> rfl

theorem round_setBudget (s : Dpll σ) (b : Budget) :
    (s.setBudget b).round = s.round.map (Prod.map id (setBudget b)) := by
  rcases s with ⟨p, selector, conflicts, decisions, budget⟩
  simp only [setBudget, round, propagate]
  cases p.propagate with
  | error e => rfl
  | ok result =>
      rcases result with ⟨_ | i, q⟩
      · exact onFixpoint_setBudget ⟨q, selector, conflicts, decisions, budget⟩ b
      · exact onConflict_setBudget ⟨q, selector, conflicts, decisions, budget⟩ b i

theorem Move.counted_le (move : Move) : move.conflicts ≤ 1 ∧ move.decisions ≤ 1 := by
  cases move <;> simp [conflicts, decisions]

/-- One round, and the verdict it ends with. -/
def step (s : Dpll σ) : Except Fault (Option Verdict × Dpll σ) :=
  s.round.map (Prod.map Move.verdict? id)

theorem step_setBudget (s : Dpll σ) (b : Budget) :
    (s.setBudget b).step = s.step.map (Prod.map id (setBudget b)) := by
  rw [step, step, round_setBudget]
  cases s.round <;> rfl

theorem run_eq_makeRounds (conflicts decisions fuel : Nat) (s : Dpll σ) :
    run conflicts decisions fuel s = makeRounds (isExhausted conflicts decisions) step fuel s := by
  induction fuel generalizing s with
  | zero => rfl
  | succ fuel ih =>
      rw [run, makeRounds, step]
      split
      · rfl
      · cases s.round with
        | error e => rfl
        | ok result =>
            rcases result with ⟨move, s₁⟩
            simp only [Except.map, Prod.map]
            cases move.verdict? with
            | none => exact ih s₁
            | some verdict => rfl

end Dpll

/-! ## Calls with limits -/

namespace Solver

variable {s s' u : Solver} {b : Budget} {answer : Option Verdict}

def budget : Solver → Budget
  | .cdcl search => search.budget
  | .dpll search => search.budget

/-- Takes every assignment back, which is how a call begins. -/
def clear : Solver → Solver
  | .cdcl search => .cdcl search.clear
  | .dpll search => .dpll search.clear

/-- One round, and the verdict it ends with. -/
def step : Solver → Except Fault (Option Verdict × Solver)
  | .cdcl search => search.step.map (Prod.map id .cdcl)
  | .dpll search => search.step.map (Prod.map id .dpll)

/-- A limit of the budget is reached by what was spent since the counters stood as in `since`. -/
def atLimit (b : Budget) (since : Statistics) (s : Solver) : Bool :=
  b.isExhausted (s.statistics.conflicts - since.conflicts)
    (s.statistics.decisions - since.decisions) 0

@[simp] theorem budget_setBudget (s : Solver) (b : Budget) : (s.setBudget b).budget = b := by
  cases s <;> rfl

@[simp] theorem statistics_setBudget (s : Solver) (b : Budget) :
    (s.setBudget b).statistics = s.statistics := by
  cases s <;> rfl

@[simp] theorem setBudget_setBudget (s : Solver) (b b' : Budget) :
    (s.setBudget b).setBudget b' = s.setBudget b' := by
  cases s <;> rfl

@[simp] theorem statistics_clear (s : Solver) : s.clear.statistics = s.statistics := by
  cases s <;> rfl

theorem clear_setBudget (s : Solver) (b : Budget) :
    (s.setBudget b).clear = s.clear.setBudget b := by
  cases s <;> rfl

@[simp] theorem atLimit_setBudget (s : Solver) (b b' : Budget) (since : Statistics) :
    (s.setBudget b').atLimit b since = s.atLimit b since := by
  simp only [atLimit, statistics_setBudget]

theorem step_setBudget (s : Solver) (b : Budget) :
    (s.setBudget b).step = s.step.map (Prod.map id (setBudget b)) := by
  cases s with
  | cdcl search =>
      simp only [setBudget, step, Cdcl.step_setBudget]
      cases search.step <;> rfl
  | dpll search =>
      simp only [setBudget, step, Dpll.step_setBudget]
      cases search.step <;> rfl

/-- A call of either search makes rounds until a limit of its own budget is reached. -/
theorem solve_eq_makeRounds (s : Solver) (fuel : Nat) :
    s.solve fuel = makeRounds (fun u => u.atLimit u.budget s.statistics) step fuel s.clear := by
  cases s with
  | cdcl search =>
      rw [clear, makeRounds_map (Cdcl.isExhausted search.conflicts search.decisions)
        Solver.cdcl (fun _ => rfl) (fun _ => rfl), ← Cdcl.run_eq_makeRounds]
      rfl
  | dpll search =>
      rw [clear, makeRounds_map (Dpll.isExhausted search.conflicts search.decisions)
        Solver.dpll (fun _ => rfl) (fun _ => rfl), ← Dpll.run_eq_makeRounds]
      rfl

/-- Under whatever budget, a call makes the same rounds up to where one of the limits is reached. -/
theorem solve_setBudget (s : Solver) (b : Budget) (fuel : Nat) :
    (s.setBudget b).solve fuel = (makeRounds (atLimit b s.statistics) step fuel s.clear).map
      (Prod.map id (setBudget b)) := by
  rw [solve_eq_makeRounds, clear_setBudget, statistics_setBudget]
  exact makeRounds_map _ _ (fun u => by rw [budget_setBudget, atLimit_setBudget])
    (fun u => step_setBudget u b) fuel s.clear

/-! ## What a call may spend -/

/-- The solver goes on without faults and stands where a round begins. -/
inductive Poised : Solver → Prop
  | cdcl {n : Nat} {kind : AnalyserKind} {search : Cdcl Branching} :
      search.Regular n (Branching.Suits n) kind → search.position.Ready → Poised (.cdcl search)
  | dpll {n : Nat} {search : Dpll Branching} :
      search.Regular n (Branching.Suits n) → search.position.Ready → Poised (.dpll search)

theorem Alive.poised (h : s.Alive) : s.clear.Poised := by
  cases h with
  | cdcl hs =>
      rcases hs.exists_regular with ⟨n, hregular⟩
      exact .cdcl hregular.clear hregular.ready_clear
  | dpll hs =>
      rcases hs.exists_regular with ⟨n, hregular⟩
      exact .dpll hregular.clear hregular.ready_clear

/-- What was counted while the counters went from `before` to `after` is at most one conflict and
one decision. -/
structure CountsOne (before after : Statistics) : Prop where
  le_conflicts : before.conflicts ≤ after.conflicts
  conflicts_le : after.conflicts ≤ before.conflicts + 1
  le_decisions : before.decisions ≤ after.decisions
  decisions_le : after.decisions ≤ before.decisions + 1

/-- A round is made. It may end with a verdict, which is not that the question is open. -/
theorem Poised.step (h : s.Poised) :
    ∃ answer s', s.step = .ok (answer, s') ∧ answer ≠ some .unknown ∧
      (answer = none → s'.Poised) ∧ CountsOne s.statistics s'.statistics := by
  cases h with
  | @cdcl n kind search hs hready =>
      rcases Cdcl.round_spec (Branching.lawful n) hs hready with
        ⟨q, move, search', hround, hrounded⟩
      refine ⟨move.verdict?, .cdcl search', ?_, ?_, ?_, ?_⟩
      · simp [Solver.step, Cdcl.step, hround, Except.map]
      · cases move <;> simp [Cdcl.Move.verdict?]
      · exact fun hverdict => .cdcl (hrounded.regular hs) (hrounded.ready hverdict)
      · have hcounted := move.counted_le
        have hconflicts := hrounded.conflicts_eq
        have hdecisions := hrounded.decisions_eq
        constructor <;> simp only [statistics, Cdcl.statistics] <;> omega
  | @dpll n search hs hready =>
      rcases Dpll.round_spec (Branching.lawful n) hs hready with
        ⟨q, move, search', hround, hrounded⟩
      refine ⟨move.verdict?, .dpll search', ?_, ?_, ?_, ?_⟩
      · simp [Solver.step, Dpll.step, hround, Except.map]
      · cases move <;> simp [Dpll.Move.verdict?]
      · exact fun hverdict => .dpll (hrounded.regular hs) (hrounded.ready hverdict)
      · have hcounted := move.counted_le
        have hconflicts := hrounded.conflicts_eq
        have hdecisions := hrounded.decisions_eq
        constructor <;> simp only [statistics, Dpll.statistics] <;> omega

/-- What was counted since the counters stood as in `since` is within the limits. -/
structure Within (b : Budget) (since now : Statistics) : Prop where
  le_conflicts : since.conflicts ≤ now.conflicts
  le_decisions : since.decisions ≤ now.decisions
  conflicts_le : ∀ limit, b.maxConflicts = some limit → now.conflicts - since.conflicts ≤ limit
  decisions_le : ∀ limit, b.maxDecisions = some limit → now.decisions - since.decisions ≤ limit

theorem Within.start (b : Budget) (since : Statistics) : Within b since since := by
  constructor <;> simp

/-- Before a round no limit was reached, so there is room for what the round counts. -/
theorem Within.round {since : Statistics} (h : Within b since s.statistics)
    (hlimit : s.atLimit b since = false) (hcounts : CountsOne s.statistics s'.statistics) :
    Within b since s'.statistics := by
  rcases h with ⟨hconflicts, hdecisions, _, _⟩
  rcases hcounts with ⟨hle, hlt, hle', hlt'⟩
  simp only [atLimit, Budget.isExhausted, Bool.or_eq_false_iff] at hlimit
  rcases hlimit with ⟨⟨hbelow, hbelow'⟩, _⟩
  refine ⟨by omega, by omega, ?_, ?_⟩
  · intro limit hlimit
    have := Budget.lt_of_not_reached hbelow hlimit
    omega
  · intro limit hlimit
    have := Budget.lt_of_not_reached hbelow' hlimit
    omega

/-- A limit is set and was spent to the last. -/
def UsesUp (b : Budget) (since now : Statistics) : Prop :=
  b.maxConflicts = some (now.conflicts - since.conflicts) ∨
    b.maxDecisions = some (now.decisions - since.decisions)

theorem Within.usesUp {since : Statistics} (h : Within b since s.statistics)
    (htimeout : b.timeout = none) (hlimit : s.atLimit b since = true) :
    UsesUp b since s.statistics := by
  simp only [atLimit, Budget.isExhausted, htimeout, Bool.or_eq_true] at hlimit
  rcases hlimit with (hreached | hreached) | hreached
  · exact .inl (Budget.eq_some_of_reached hreached h.conflicts_le)
  · exact .inr (Budget.eq_some_of_reached hreached h.decisions_le)
  · cases hreached

/-- The rounds of a call under a budget are made without faults and spend no more than it allows. -/
theorem Poised.makeRounds {since : Statistics} (h : s.Poised)
    (hwithin : Within b since s.statistics) (fuel : Nat) :
    ∃ answer s', makeRounds (atLimit b since) Solver.step fuel s = .ok (answer, s') ∧
      Within b since s'.statistics ∧ (answer = some .unknown → s'.atLimit b since = true) := by
  refine makeRounds_spec (H := fun u => u.Poised ∧ Within b since u.statistics)
    (E := fun u => Within b since u.statistics) (fun _ hu => hu.2) ?_ fuel s ⟨h, hwithin⟩
  rintro u ⟨hu, huwithin⟩ hlimit
  rcases hu.step with ⟨answer, u', hok, hknown, hnext, hcounts⟩
  have hwithin' := huwithin.round hlimit hcounts
  exact ⟨answer, u', hok, hknown, fun hnone => ⟨hnext hnone, hwithin'⟩, hwithin'⟩

/-! ## Limited and unlimited calls -/

/-- After `k` rounds of the call without limits, `u` is what stands at the head of the loop. -/
def HeadOf (s : Solver) (k : Nat) (u : Solver) : Prop :=
  (s.setBudget .unlimited).solve k = .ok (none, u)

/-- How a call of at most `fuel` rounds ends under a budget without a timeout, seen beside the call
without limits from the same state. -/
structure CutShort (b : Budget) (s : Solver) (fuel : Nat) (answer : Option Verdict) (s' : Solver) :
    Prop where
  within : Within b s.statistics s'.statistics
  usesUp : answer = some .unknown → UsesUp b s.statistics s'.statistics
  /-- If no round begins with a limit reached, the calls end alike. -/
  same : (∀ k < fuel, ∀ u, s.HeadOf k u → u.atLimit b s.statistics = false) →
    (s.setBudget .unlimited).solve fuel = .ok (answer, s'.setBudget .unlimited)
  /-- If a round is the first to begin with a limit reached, the call ends there. -/
  cut : ∀ k < fuel, ∀ u, s.HeadOf k u → u.atLimit b s.statistics = true →
    (∀ j < k, ∀ w, s.HeadOf j w → w.atLimit b s.statistics = false) →
    answer = some .unknown ∧ s' = u.setBudget b

theorem solve_unlimited (s : Solver) (fuel : Nat) :
    (s.setBudget .unlimited).solve fuel =
      (makeRounds (fun _ => false) step fuel s.clear).map (Prod.map id (setBudget .unlimited)) :=
  solve_setBudget s .unlimited fuel

/-- The heads of the loop are where the rounds lead, whatever the budget was before the call. -/
theorem headOf_iff {k : Nat} : s.HeadOf k u ↔
    ∃ w, makeRounds (fun _ => false) step k s.clear = .ok (none, w) ∧
      w.setBudget .unlimited = u := by
  rw [HeadOf, solve_unlimited]
  constructor
  · intro h
    rcases exists_of_map_eq_ok h with ⟨⟨answer, w⟩, hok, heq⟩
    cases heq
    exact ⟨w, hok, rfl⟩
  · rintro ⟨w, hok, rfl⟩
    rw [hok]
    rfl

/-- A budget without a timeout only cuts a call short, in every state that a search can get into. -/
theorem Alive.solve_limited (h : s.Alive) (htimeout : b.timeout = none) (fuel : Nat) :
    ∃ answer s', (s.setBudget b).solve fuel = .ok (answer, s') ∧ CutShort b s fuel answer s' := by
  have hstart : Within b s.statistics s.clear.statistics := by
    rw [statistics_clear]
    exact .start b s.statistics
  rcases h.poised.makeRounds hstart fuel with ⟨answer, s', hok, hwithin, hunknown⟩
  refine ⟨answer, s'.setBudget b, by rw [solve_setBudget, hok]; rfl, ?_, ?_, ?_, ?_⟩
  · rwa [statistics_setBudget]
  · intro hanswer
    rw [statistics_setBudget]
    exact hwithin.usesUp htimeout (hunknown hanswer)
  -- What stands at a head and what the rounds led to differ in their budgets only.
  · intro hbefore
    have heq : makeRounds (atLimit b s.statistics) step fuel s.clear =
        makeRounds (fun _ => false) step fuel s.clear :=
      makeRounds_eq_of_heads fun k hk w hw => by
        rw [← hbefore k hk _ (headOf_iff.2 ⟨w, hw, rfl⟩), atLimit_setBudget]
    rw [solve_unlimited, ← heq, hok, setBudget_setBudget]
    rfl
  · intro k hk u hu hlimit hbefore
    rcases headOf_iff.1 hu with ⟨w, hw, rfl⟩
    rw [atLimit_setBudget] at hlimit
    have heq := makeRounds_eq_unknown hw hlimit (fun j hj x hx => by
      rw [← hbefore j hj _ (headOf_iff.2 ⟨x, hx, rfl⟩), atLimit_setBudget]) hk
    cases hok.symm.trans heq
    exact ⟨rfl, by rw [setBudget_setBudget]⟩

/-- A search that finds a model after a conflict is cut short by it. -/
theorem Alive.solve_limited_sample :
    (((Solver.cdcl .refuting).setBudget .unlimited).solve 5).map Prod.fst =
      .ok (some (.satisfiable ⟨#[false, true]⟩)) ∧
    ∃ s', ((Solver.cdcl .refuting).setBudget ⟨some 1, none, none⟩).solve 5 =
      .ok (some .unknown, s') ∧
      CutShort ⟨some 1, none, none⟩ (.cdcl .refuting) 5 (some .unknown) s' := by
  have hanswer : (((Solver.cdcl .refuting).setBudget ⟨some 1, none, none⟩).solve 5).map Prod.fst =
      .ok (some .unknown) := by decide +kernel
  rcases Alive.solve_limited (b := ⟨some 1, none, none⟩) (.cdcl Cdcl.lifetime_refuting) rfl 5 with
    ⟨answer, s', hok, hcut⟩
  rw [hok] at hanswer
  cases hanswer
  exact ⟨by decide +kernel, s', hok, hcut⟩

end Solver
end SatSearch
