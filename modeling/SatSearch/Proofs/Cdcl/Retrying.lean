import SatSearch.Proofs.Cdcl.Learning
import SatSearch.Proofs.Cdcl.Termination
import SatSearch.Proofs.Trail.OpenLevels

/-!
# Retrying — how long the search goes on that learns copies

With the analyser that retries, a clause that is learned is a copy of one that is there, and rules
nothing out. Between two restarts the search walks through a tree of assignments, and each conflict
leaves some of its leaves behind, so there are at most as many conflicts as leaves. An interval that
is as long as that never elapses. If there are no restarts, or their intervals grow and nothing
stops them, such an interval is reached after finitely many restarts, and the call ends within it.
-/

namespace SatSearch

open Trail

namespace Cdcl

variable {σ : Type} {n k m fuel : Nat} {P : σ → Prop} {kind : AnalyserKind} {s s' : Cdcl σ}
variable {q : Position} {move : Move} {answer : Option Verdict} {conflicts decisions : Nat}

/-- The search makes that many restarts at most, if it is not to run out of leaves before. -/
inductive Settling (n : Nat) (s : Cdcl σ) : Nat → Prop
  | never : s.restarter.schedule = .never → Settling n s 0
  | last : leaves n s.position.trail ≤ s.restarter.left → Settling n s 0
  | more {k : Nat} : 2 ^ n ≤ (Restarter.restart^[k + 1] s.restarter).interval → Settling n s (k + 1)

/-- A bound on the rounds that are left, with that many restarts. -/
def roundsLeft (n k : Nat) (s : Cdcl σ) : Nat :=
  k * (2 * 2 ^ n + 1) + turnsLeft n s.position.trail

theorem exists_settling (n : Nat) (hendless : s.restarter.Endless) : ∃ k, Settling n s k := by
  by_cases hnever : s.restarter.schedule = .never
  · exact ⟨0, .never hnever⟩
  · rcases hendless.exists_interval_ge hnever (2 ^ n) with ⟨k, hk⟩
    exact ⟨k + 1, .more hk⟩

/-- A turn makes no restart necessary. -/
theorem Turn.settling {flips decides : Nat} {s s' : Cdcl σ}
    (h : Turn n s.position.trail s'.position.trail flips decides) (hsettling : Settling n s k)
    (hschedule : s'.restarter.schedule = s.restarter.schedule)
    (hleft : s.restarter.left - flips ≤ s'.restarter.left)
    (hrestart : s'.restarter.restart = s.restarter.restart) : Settling n s' k := by
  cases hsettling with
  | never hnever => exact .never (hschedule.trans hnever)
  | last hlast =>
      refine .last ?_
      cases h with
      | flipped _ hfewer => omega
      | decided _ hsame => omega
  | more hmore =>
      rw [Function.iterate_succ_apply, ← hrestart, ← Function.iterate_succ_apply] at hmore
      exact .more hmore

variable [Selector σ]

/-! ## Rounds -/

/-- A round that goes on starts over, or is a turn, and counts its conflict. -/
theorem Rounded.turn (h : Rounded P .levelScan s q move s') (hs : s.Regular n P .levelScan)
    (hverdict : move.verdict? = none) :
    (s'.position.trail = .empty n ∧ s.restarter.isDue = true ∧
        s'.restarter = s.restarter.restart ∧ s'.conflicts = s.conflicts) ∨
      (Turn n s.position.trail s'.position.trail 1 0 ∧ s'.restarter = s.restarter.tick ∧
        s'.conflicts = s.conflicts + 1) ∨
      (Turn n s.position.trail s'.position.trail 0 1 ∧ s'.restarter = s.restarter ∧
        s'.conflicts = s.conflicts) := by
  have hj := hs.position.justified
  have ht : s.position.trail.WellFormed n := hs.numVars_eq ▸ hs.position.wellFormed
  have hvars : q.formula.numVars = n := h.formula_eq ▸ hs.numVars_eq
  have hj' := h.left.justified
  have hlev' := h.left.wellFormed.toLevelled
  have hmade := h.made
  have hrestarter := h.restarter_eq
  have hconflicts := h.conflicts_eq
  cases move with
  -- A scan of the levels asserts nothing; what it does is to flip a branch.
  | asserted i learned level => exact absurd trivial (h.not_isAsserted rfl)
  | flipped i learned level branch =>
      rcases hmade with ⟨c, t', hfailed, _, _, hopen, hback, _, htrail⟩
      exact .inr (.inl ⟨Flips.turn h.forced hj ht (hvars ▸ hfailed.wellFormed)
        ⟨hopen, t', hback, htrail⟩ hj' hlev', hrestarter, hconflicts⟩)
  | restarted =>
      rcases hmade with ⟨hclear, hsettled, hdue⟩
      refine .inl ⟨?_, hdue, hrestarter, hconflicts⟩
      rw [hclear, hsettled.left.trail_clear, hvars]
  | decided l =>
      rcases hmade with ⟨hsettled, _, _, _, hlt, hfree, _, htrail⟩
      rw [htrail] at hj' ⊢
      exact .inr (.inr ⟨turn_decided h.forced hj ht (hvars ▸ hsettled.wellFormed) (hvars ▸ hlt)
        hfree hj', hrestarter, hconflicts⟩)
  | _ => cases hverdict

/-- With every round that goes on, fewer are left. -/
theorem Rounded.roundsLeft_lt (h : Rounded P .levelScan s q move s')
    (hs : s.Regular n P .levelScan) (hsettling : Settling n s k)
    (hverdict : move.verdict? = none) :
    ∃ k', Settling n s' k' ∧ s'.roundsLeft n k' < s.roundsLeft n k := by
  rcases h.turn hs hverdict with ⟨htrail, hdue, hrestarter, _⟩ | ⟨hturn, hrestarter, _⟩ |
    ⟨hturn, hrestarter, _⟩
  · have hschedule := Restarter.ne_never_of_isDue hdue
    have hleft := Restarter.left_of_isDue hdue
    cases hsettling with
    | never hnever => exact absurd hnever hschedule
    | last hlast =>
        -- There is always a leaf, so the interval has not elapsed.
        have := card_openLevels_lt n s.position.trail
        omega
    | @more k hmore =>
        refine ⟨k, ?_, ?_⟩
        · rw [Function.iterate_succ_apply, ← hrestarter] at hmore
          cases k with
          | zero =>
              refine .last ?_
              rw [htrail, leaves_empty, hrestarter, Restarter.left_restart hschedule]
              exact hrestarter ▸ hmore
          | succ k => exact .more hmore
        · have hmul : (k + 1) * (2 * 2 ^ n + 1) = k * (2 * 2 ^ n + 1) + (2 * 2 ^ n + 1) :=
            Nat.succ_mul _ _
          rw [roundsLeft, roundsLeft, htrail, turnsLeft_empty, hmul]
          omega
  · refine ⟨k, Turn.settling hturn hsettling ?_ ?_ ?_, Nat.add_lt_add_left hturn.turnsLeft_lt _⟩
    · rw [hrestarter, Restarter.schedule_tick]
    · rw [hrestarter]
      exact Restarter.le_left_tick _
    · rw [hrestarter, Restarter.restart_tick]
  · refine ⟨k, Turn.settling hturn hsettling ?_ ?_ ?_, Nat.add_lt_add_left hturn.turnsLeft_lt _⟩
    · rw [hrestarter]
    · rw [hrestarter]
      exact Nat.sub_le _ _
    · rw [hrestarter]

/-! ## Calls -/

/-- A call with an endless restarter ends. -/
theorem Regular.returns_of_endless (hP : Selector.Lawful n P) (hs : s.Regular n P .levelScan)
    (hendless : s.restarter.Endless) :
    ∃ verdict s', s.Returns verdict s' ∧
      Ran P .levelScan s.conflicts s.decisions s.clear (some verdict) s' := by
  have hclear : s.clear.restarter.Endless := hendless
  rcases exists_settling n hclear with ⟨k, hk⟩
  refine hs.returns_of_rank (fun m s => ∃ k, Settling n s k ∧ s.roundsLeft n k = m) hP ?_
    ⟨k, hk, rfl⟩
  rintro _ s q move s' hs ⟨k, hk, rfl⟩ hrounded hverdict
  rcases hrounded.roundsLeft_lt hs hk hverdict with ⟨k', hk', hlt⟩
  exact ⟨_, hlt, k', hk', rfl⟩

/-- As long as no restart is made, every conflict leaves a leaf behind. -/
def Confined (n conflicts restarts : Nat) (s : Cdcl σ) : Prop :=
  restarts < s.restarter.restarts ∨ s.restarter.restarts = restarts ∧
    s.conflicts + leaves n s.position.trail ≤ conflicts

theorem Rounded.confined {restarts : Nat} (h : Rounded P .levelScan s q move s')
    (hs : s.Regular n P .levelScan) (hconfined : Confined n conflicts restarts s)
    (hverdict : move.verdict? = none) : Confined n conflicts restarts s' := by
  unfold Confined at hconfined ⊢
  rcases h.turn hs hverdict with ⟨htrail, hdue, hrestarter, _⟩ | ⟨hturn, hrestarter, hconflicts⟩ |
    ⟨hturn, hrestarter, hconflicts⟩
  · rw [hrestarter, Restarter.restarts_restart (Restarter.ne_never_of_isDue hdue)]
    omega
  · rw [hrestarter, Restarter.restarts_tick]
    cases hturn with
    | flipped _ hfewer => omega
  · rw [hrestarter]
    cases hturn with
    | decided _ hsame => omega

/-- The round that ends a search counts one conflict at most, and a leaf is left for it. -/
theorem Rounded.conflicts_le (h : Rounded P kind s q move s') :
    s'.conflicts ≤ s.conflicts + 1 := by
  rw [h.conflicts_eq]
  cases move <;> simp [Move.conflicts]

theorem Rounded.restarts_le (h : Rounded P kind s q move s') :
    s.restarter.restarts ≤ s'.restarter.restarts := by
  rw [h.restarter_eq]
  cases move with
  | asserted _ _ _ => exact (Restarter.restarts_tick _).ge
  | flipped _ _ _ _ => exact (Restarter.restarts_tick _).ge
  | restarted => exact Restarter.restarts_le_restart _
  | _ => exact le_rfl

/-- Rounds without a restart make as many conflicts at most as leaves are left. -/
theorem Ran.conflicts_le (h : Ran P .levelScan conflicts decisions s answer s')
    (hs : s.Regular n P .levelScan)
    (hrestarts : s'.restarter.restarts = s.restarter.restarts) :
    s'.conflicts ≤ s.conflicts + leaves n s.position.trail := by
  have hconfined : ∀ {x}, Reaches (Next P .levelScan) s x → x.Regular n P .levelScan ∧
      Confined n (s.conflicts + leaves n s.position.trail) s.restarter.restarts x := by
    intro x hreaches
    refine hreaches.invariant (I := fun x => x.Regular n P .levelScan ∧
      Confined n (s.conflicts + leaves n s.position.trail) s.restarter.restarts x) ?_
      ⟨hs, .inr ⟨rfl, le_rfl⟩⟩
    rintro _ _ ⟨hI, hconfined⟩ ⟨_, _, hrounded, hverdict⟩
    exact ⟨hrounded.regular hI, hrounded.confined hI hconfined hverdict⟩
  cases h with
  | stopped hreaches =>
      have := (hconfined hreaches).2
      unfold Confined at this
      omega
  | exhausted hreaches _ =>
      have := (hconfined hreaches).2
      unfold Confined at this
      omega
  -- The round that ends the call has one conflict at most, and an open leaf to pay for it.
  | @ended s₁ _ _ hreaches hends =>
      rcases hends with ⟨q, move, hrounded, _⟩
      have := (hconfined hreaches).2
      have hmore := hrounded.restarts_le
      have hlast := hrounded.conflicts_le
      have hleaf := card_openLevels_lt n s₁.position.trail
      unfold Confined at this
      omega

/-- A call over `n` variables makes `2 ^ n` conflicts at most between two restarts. -/
theorem Regular.conflicts_le {s₁ s₂ : Cdcl σ} (hP : Selector.Lawful n P)
    (hs : s.Regular n P .levelScan) (hkm : k ≤ m) (hbefore : s.solve k = .ok (none, s₁))
    (hafter : s.solve m = .ok (answer, s₂))
    (hrestarts : s₂.restarter.restarts = s₁.restarter.restarts) :
    s₂.conflicts ≤ s₁.conflicts + 2 ^ n := by
  rcases solve_spec hP hs k with ⟨_, _, hok, hran⟩
  cases hbefore.symm.trans hok
  have hregular := Ran.regular hran hs.clear
  have hready := hs.ready_of_solve hP hbefore
  -- The rest of the call is a run that begins at the first of the two points.
  rcases Nat.exists_eq_add_of_le hkm with ⟨more, rfl⟩
  rcases run_spec hP s.conflicts s.decisions more s₁ hregular hready with
    ⟨_, _, hrun, hran'⟩
  cases (hafter.symm.trans (run_split hbefore more)).trans hrun
  have hle := Ran.conflicts_le hran' hregular hrestarts
  have htree : leaves n s₁.position.trail ≤ 2 ^ n := leaves_le
    (hregular.position.justified.level_le (hregular.numVars_eq ▸
      hregular.position.wellFormed.toRecorded))
  omega

/-! ## Restarters in the lifetime of a search -/

theorem Move.endless_restarter {r : Restarter} (h : r.Endless) :
    (move.restarter r).Endless ∧ (move.restarter r).schedule = r.schedule := by
  cases move with
  | asserted _ _ _ => exact ⟨h.tick, r.schedule_tick⟩
  | flipped _ _ _ _ => exact ⟨h.tick, r.schedule_tick⟩
  | restarted => exact ⟨h.restart, r.schedule_restart⟩
  | _ => exact ⟨h, rfl⟩

/-- Without restarts the restarter stays as it is. -/
theorem Move.restarter_of_never {r : Restarter} (h : r.schedule = .never) :
    move.restarter r = r := by
  cases move <;> simp [Move.restarter, Restarter.tick, Restarter.restart, h]

theorem Ran.restarter_of_never (h : Ran P kind conflicts decisions s answer s')
    (hnever : s.restarter.schedule = .never) : s'.restarter = s.restarter := by
  refine Ran.keeps (I := fun x => x.restarter = s.restarter) h ?_ rfl
  intro x _ _ x' hI hrounded
  rw [hrounded.restarter_eq, hI, Move.restarter_of_never hnever]

/-- What goes on with calls: a regular search whose restarter is endless, of the same schedule. -/
structure Enduring (n : Nat) (P : σ → Prop) (kind : AnalyserKind) (schedule : Schedule)
    (s : Cdcl σ) : Prop extends Regular n P kind s where
  endless : s.restarter.Endless
  schedule_eq : s.restarter.schedule = schedule

theorem Ran.enduring {schedule : Schedule} (h : Ran P kind conflicts decisions s answer s')
    (hs : s.Enduring n P kind schedule) : s'.Enduring n P kind schedule := by
  refine Ran.keeps h ?_ hs
  intro x _ _ x' hx hrounded
  rcases Move.endless_restarter hx.endless with ⟨hendless, hschedule⟩
  rw [← hrounded.restarter_eq] at hendless hschedule
  exact ⟨hrounded.regular hx.toRegular, hendless, hschedule.trans hx.schedule_eq⟩

/-- A search endures whatever is asked of it. -/
theorem perform_enduring {schedule : Schedule} (hP : Selector.Lawful n P) (calls : List Call) :
    ∀ s : Cdcl σ, s.Enduring n P kind schedule →
      ∃ accepted s', s.perform calls = .ok (accepted, s') ∧ s'.Enduring n P kind schedule := by
  induction calls with
  | nil =>
      intro s hs
      exact ⟨[], s, rfl, hs⟩
  | cons call calls ih =>
      intro s hs
      cases call with
      | add ls =>
          rcases add_spec hs.toRegular ls with ⟨answer, s₁, hadd, hregular, _⟩
          rcases add_eq_ok hadd with ⟨p', _, rfl⟩
          rcases ih _ ⟨hregular, hs.endless, hs.schedule_eq⟩ with ⟨accepted, s', hok, hs'⟩
          cases answer with
          | error e => exact ⟨accepted, s', by simp only [perform, hadd, hok], hs'⟩
          | ok i => exact ⟨ls :: accepted, s', by simp only [perform, hadd, hok], hs'⟩
      | setBudget budget =>
          exact ih (s.setBudget budget)
            ⟨regular_setBudget hs.toRegular budget, hs.endless, hs.schedule_eq⟩
      | solve fuel =>
          rcases solve_spec hP hs.toRegular fuel with ⟨answer, s₁, hsolve, hran⟩
          rcases ih s₁ (Ran.enduring hran ⟨hs.toRegular.clear, hs.endless, hs.schedule_eq⟩) with
            ⟨accepted, s', hok, hs'⟩
          exact ⟨accepted, s', by simp only [perform, hsolve, hok], hs'⟩

/-- A search over two clauses that refute the first variable, by reading every clause and retrying,
with counters of any size. -/
def retrying (schedule : Schedule) : Cdcl Branching :=
  .start ⟨.refuting, .scan, .empty 2, 0⟩ (.fixedOrder ⟨2⟩) (.build .levelScan 2)
    (.unbounded schedule)

/-- With the analyser that retries, any selector that finds a free variable as long as there is one,
either propagator, and no restarts or ever longer intervals, a search that was started over a
formula without learned clauses comes to a verdict in every call without limits, whatever calls were
made before. Between two points of a call with no restart between them it makes `2 ^ n` conflicts at
most, and so it does in a whole call without restarts. -/
theorem solve_decides_of_grows {P : Nat → σ → Prop} (hP : ∀ n, Selector.Lawful n (P n))
    {f : Formula} (hf : f.Built) {propagator : PropagatorKind} {p : Position}
    (hp : Position.ofFormula propagator f = .ok p) {selector : σ}
    (hselector : P f.numVars selector) {schedule : Schedule} (hgrows : schedule.Grows)
    (calls : List Call) :
    ∃ accepted s, (start p selector (.build .levelScan f.numVars) (.unbounded schedule)).perform
        calls = .ok (accepted, s) ∧
      (s.budget = .unlimited → ∃ verdict s', s.Returns verdict s' ∧ verdict ≠ .unknown) ∧
      (∀ (k m : Nat) (answer : Option Verdict) (s₁ s₂ : Cdcl σ), k ≤ m →
        s.solve k = .ok (none, s₁) → s.solve m = .ok (answer, s₂) →
        s₂.restarter.restarts = s₁.restarter.restarts →
        s₂.conflicts ≤ s₁.conflicts + 2 ^ f.numVars) ∧
      (schedule = .never → ∀ (fuel : Nat) (answer : Option Verdict) (s' : Cdcl σ),
        s.solve fuel = .ok (answer, s') → s'.conflicts ≤ s.conflicts + 2 ^ f.numVars) := by
  have hendless := Restarter.endless_unbounded hgrows
  have hstart : (start p selector (.build .levelScan f.numVars) (.unbounded schedule)).Regular
      f.numVars (P f.numVars) .levelScan :=
    regular_start hf.pristine hp hselector hendless.toLive
  rcases perform_enduring (hP f.numVars) calls _
      ⟨hstart, hendless, Restarter.schedule_unbounded schedule⟩ with ⟨accepted, s, hok, hs⟩
  have hregular := hs.toRegular
  refine ⟨accepted, s, hok, ?_, ?_, ?_⟩
  · intro hbudget
    rcases hregular.returns_of_endless (hP _) hs.endless with ⟨verdict, s', hreturns, hran⟩
    rcases Ran.exists_ends hran hbudget with ⟨_, _, hends⟩
    exact ⟨verdict, s', hreturns, hends.ne_unknown⟩
  · intro k m answer s₁ s₂ hkm hbefore hafter hrestarts
    exact hregular.conflicts_le (hP _) hkm hbefore hafter hrestarts
  · rintro rfl fuel answer s' hsolve
    have hbefore : s.solve 0 = .ok (none, s.clear) := rfl
    show s'.conflicts ≤ s.clear.conflicts + 2 ^ f.numVars
    refine hregular.conflicts_le (hP _) (Nat.zero_le fuel) hbefore hsolve ?_
    rcases solve_spec (hP _) hregular fuel with ⟨_, _, hok', hran⟩
    cases hsolve.symm.trans hok'
    rw [Ran.restarter_of_never hran hs.schedule_eq]

/-- The first conflict makes a restart due, which the third round makes; one more conflict follows,
and no restart. -/
theorem solve_decides_of_grows_sample :
    (∃ verdict s', (retrying (.linear 1)).Returns verdict s' ∧ verdict ≠ .unknown) ∧
      (∃ s₁ s₂, (retrying (.linear 1)).solve 3 = .ok (none, s₁) ∧
        (retrying (.linear 1)).solve 7 = .ok (some (.satisfiable ⟨#[false, true]⟩), s₂) ∧
        s₁.restarter.restarts = 1 ∧ s₁.conflicts = 1 ∧ s₂.conflicts ≤ s₁.conflicts + 2 ^ 2) ∧
      ∃ s', (retrying .never).solve 4 = .ok (some (.satisfiable ⟨#[false, true]⟩), s') ∧
        s'.conflicts ≤ 2 ^ 2 := by
  have hp : Position.ofFormula .scan .refuting = .ok (retrying .never).position := rfl
  have hbefore : ((retrying (.linear 1)).solve 3).map
      (fun r => (r.1, r.2.restarter.restarts, r.2.conflicts)) = .ok (none, 1, 1) := by
    decide +kernel
  have hafter : ((retrying (.linear 1)).solve 7).map (fun r => (r.1, r.2.restarter.restarts)) =
      .ok (some (.satisfiable ⟨#[false, true]⟩), 1) := by decide +kernel
  have hnever : ((retrying .never).solve 4).map Prod.fst =
      .ok (some (.satisfiable ⟨#[false, true]⟩)) := by decide +kernel
  rcases solve_decides_of_grows Branching.lawful Formula.built_refuting hp (P := Branching.Suits)
      (show Branching.Suits 2 (.fixedOrder ⟨2⟩) from rfl)
      (show (Schedule.linear 1).Grows from trivial) [] with ⟨_, _, hstart, hends, hbetween, _⟩
  cases hstart
  rcases solve_decides_of_grows Branching.lawful Formula.built_refuting hp (P := Branching.Suits)
      (show Branching.Suits 2 (.fixedOrder ⟨2⟩) from rfl)
      (show Schedule.never.Grows from trivial) [] with ⟨_, _, hstart, _, _, hwhole⟩
  cases hstart
  refine ⟨hends rfl, ?_, ?_⟩
  · rcases exists_of_map_eq_ok hbefore with ⟨⟨answer₁, s₁⟩, hsolve, hread⟩
    rcases exists_of_map_eq_ok hafter with ⟨⟨answer₂, s₂⟩, hsolve', hread'⟩
    obtain ⟨rfl, hone, hconflict⟩ : answer₁ = none ∧ s₁.restarter.restarts = 1 ∧
        s₁.conflicts = 1 := by
      simpa using hread
    rcases Prod.mk.inj hread' with ⟨rfl, hone'⟩
    exact ⟨s₁, s₂, hsolve, hsolve', hone, hconflict,
      hbetween 3 7 _ s₁ s₂ (by decide) hsolve hsolve' (hone'.trans hone.symm)⟩
  · rcases exists_of_map_eq_ok hnever with ⟨⟨answer, s'⟩, hsolve, rfl⟩
    refine ⟨s', hsolve, ?_⟩
    calc s'.conflicts ≤ 0 + 2 ^ 2 := hwhole rfl 4 _ s' hsolve
      _ = 2 ^ 2 := Nat.zero_add _

end Cdcl
end SatSearch
