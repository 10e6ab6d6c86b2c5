import Mathlib.Algebra.BigOperators.Intervals
import Mathlib.Algebra.Order.BigOperators.Group.Finset
import Mathlib.Logic.Function.Iterate
import Mathlib.Tactic.Common
import SatSearch.Restart.Restarter

/-!
# Restarter — no interval is empty, and most grow

A restart that is due is due no longer once it is made, because intervals of live restarters have a
positive length. Restarters are live when they start and stay so. Unless the interval is always the
same, or there is a ceiling, some interval that is still to come is longer than any given bound; in
the Luby sequence it is the last one of a block.

The interval that runs has the length that the schedule gives it, and the intervals before it have
elapsed. So however late restarts are made, the intervals they have ended are no longer, all
together, than the conflicts that were counted.
-/

namespace SatSearch

/-- Every term of the Luby sequence is positive. -/
theorem luby_pos (i : Nat) : 0 < luby i := by
  have hhalf : ∀ k : Nat, 0 < 1 <<< k := by
    intro k
    rw [Nat.shiftLeft_eq, Nat.one_mul]
    exact Nat.two_pow_pos k
  -- A term is a power of two or equal to an earlier term.
  induction i using luby.induct with
  | case1 i half h =>
      rw [luby, if_pos h]
      exact hhalf _
  | case2 i half h hlt =>
      rw [luby, if_neg h, dif_pos hlt]
      exact hhalf _
  | case3 i half h hlt ih =>
      rw [luby, if_neg h, dif_neg hlt]
      exact ih

/-- The last term of a block is a power of two. -/
theorem luby_two_pow_sub_one (k : Nat) : luby (2 ^ (k + 1) - 1) = 2 ^ k := by
  have hpow : 2 ^ (k + 1) = 2 * 2 ^ k := Nat.pow_succ'
  have hpos := Nat.two_pow_pos k
  have hlog : (2 ^ (k + 1) - 1).log2 = k :=
    (Nat.log2_eq_iff (by omega)).2 ⟨by omega, by omega⟩
  rw [luby, hlog, Nat.shiftLeft_eq, Nat.one_mul, if_pos (by omega)]

/-- Whether there are no restarts, or intervals that get longer. -/
def Schedule.Grows : Schedule → Prop
  | .fixed _ => False
  | _ => True

namespace Restarter

variable {r : Restarter}

/-- Intervals are not empty, and no ceiling makes them so. -/
structure Live (r : Restarter) : Prop where
  interval_pos : 0 < r.interval
  ceiling_pos : ∀ c, r.ceiling = some c → 0 < c

theorem live_start (schedule : Schedule) : (start schedule).Live where
  interval_pos := by
    cases schedule <;> simp only [start, fresh, firstInterval, Option.getD_some] <;> omega
  ceiling_pos := by
    intro c hc
    simp only [start, fresh, Option.some.injEq] at hc
    omega

theorem Live.tick (h : r.Live) : r.tick.Live := by
  unfold Restarter.tick
  split
  · exact h
  · exact ⟨h.interval_pos, h.ceiling_pos⟩

theorem Live.capped_pos (h : r.Live) {length : Nat} (hlength : 0 < length) :
    0 < r.capped length := by
  unfold capped
  cases hc : r.ceiling with
  | none => exact hlength
  | some c =>
      have := h.ceiling_pos c hc
      dsimp only
      omega

/-- Making a restart begins an interval that is not empty, unless there are no restarts. -/
theorem Live.restart_eq (h : r.Live) :
    r.restart = r ∧ r.schedule = .never ∨
      ∃ interval, r.restart = r.beginInterval interval ∧ 0 < interval := by
  unfold Restarter.restart
  have hunit : ∀ unit : Nat, 0 < max unit 1 := fun unit => by omega
  have hinterval := h.interval_pos
  cases hs : r.schedule with
  | fixed unit => exact .inr ⟨_, rfl, hunit unit⟩
  | linear unit => exact .inr ⟨_, rfl, h.capped_pos (by omega)⟩
  | geometric unit => exact .inr ⟨_, rfl, h.capped_pos (by omega)⟩
  | luby unit => exact .inr ⟨_, rfl, h.capped_pos (Nat.mul_pos (luby_pos _) (hunit unit))⟩
  | never => exact .inl ⟨rfl, rfl⟩

theorem Live.restart (h : r.Live) : r.restart.Live := by
  rcases h.restart_eq with ⟨heq, _⟩ | ⟨interval, heq, hpos⟩
  · rw [heq]
    exact h
  · rw [heq]
    exact ⟨hpos, h.ceiling_pos⟩

/-- A restart that is made is due no longer. -/
theorem Live.isDue_restart (h : r.Live) : r.restart.isDue = false := by
  rcases h.restart_eq with ⟨heq, hnever⟩ | ⟨interval, heq, hpos⟩
  · rw [heq, isDue, hnever]
  · rw [heq, isDue]
    split
    · rfl
    · simp only [beginInterval, beq_eq_false_iff_ne]
      omega

/-! ## Ticks and restarts -/

@[simp] theorem schedule_tick (r : Restarter) : r.tick.schedule = r.schedule := by
  unfold tick
  split <;> rfl

@[simp] theorem ceiling_tick (r : Restarter) : r.tick.ceiling = r.ceiling := by
  unfold tick
  split <;> rfl

@[simp] theorem restarts_tick (r : Restarter) : r.tick.restarts = r.restarts := by
  unfold tick
  split <;> rfl

@[simp] theorem interval_tick (r : Restarter) : r.tick.interval = r.interval := by
  unfold tick
  split <;> rfl

@[simp] theorem term_tick (r : Restarter) : r.tick.term = r.term := by
  unfold tick
  split <;> rfl

theorem le_left_tick (r : Restarter) : r.left - 1 ≤ r.tick.left := by
  unfold tick
  split
  · exact Nat.sub_le _ _
  · exact Nat.le_refl _

@[simp] theorem schedule_restart (r : Restarter) : r.restart.schedule = r.schedule := by
  unfold Restarter.restart
  split <;> rfl

@[simp] theorem ceiling_restart (r : Restarter) : r.restart.ceiling = r.ceiling := by
  unfold Restarter.restart
  split <;> rfl

theorem left_restart (h : r.schedule ≠ .never) : r.restart.left = r.restart.interval := by
  unfold Restarter.restart
  split <;> first | rfl | contradiction

theorem restarts_restart (h : r.schedule ≠ .never) : r.restart.restarts = r.restarts + 1 := by
  unfold Restarter.restart
  split <;> first | rfl | contradiction

theorem restarts_le_restart (r : Restarter) : r.restarts ≤ r.restart.restarts := by
  by_cases h : r.schedule = .never
  · simp [Restarter.restart, h]
  · rw [restarts_restart h]
    exact Nat.le_succ _

/-- What is left of an interval does not matter for the next one. -/
theorem restart_tick (r : Restarter) : r.tick.restart = r.restart := by
  cases hs : r.schedule <;> simp [tick, Restarter.restart, hs, beginInterval, capped]

theorem ne_never_of_isDue (h : r.isDue = true) : r.schedule ≠ .never := by
  intro hs
  simp [isDue, hs] at h

theorem left_of_isDue (h : r.isDue = true) : r.left = 0 := by
  unfold isDue at h
  split at h
  · cases h
  · exact beq_iff_eq.1 h

/-! ## Intervals of a schedule -/

end Restarter

/-- The length of the interval with the given number, counted from one, if nothing stops it from
growing. Without restarts there is none. -/
def Schedule.length : Schedule → Nat → Nat
  | .fixed unit, _ => max unit 1
  | .linear unit, i => i * max unit 1
  | .geometric unit, i => 2 ^ (i - 1) * max unit 1
  | .luby unit, i => SatSearch.luby i * max unit 1
  | .never, _ => 0

theorem Schedule.length_pos {schedule : Schedule} {i : Nat} (h : schedule ≠ .never) (hi : 0 < i) :
    0 < schedule.length i := by
  have hunit : ∀ unit : Nat, 0 < max unit 1 := fun unit => by omega
  cases schedule with
  | fixed unit => exact hunit unit
  | linear unit => exact Nat.mul_pos hi (hunit unit)
  | geometric unit => exact Nat.mul_pos (Nat.two_pow_pos _) (hunit unit)
  | luby unit => exact Nat.mul_pos (luby_pos i) (hunit unit)
  | never => exact absurd rfl h

namespace Restarter

variable {r : Restarter} {conflicts : Nat}

@[simp] theorem capped_tick (r : Restarter) (length : Nat) :
    r.tick.capped length = r.capped length := by
  rw [capped, capped, ceiling_tick]

@[simp] theorem capped_restart (r : Restarter) (length : Nat) :
    r.restart.capped length = r.capped length := by
  rw [capped, capped, ceiling_restart]

theorem capped_le (r : Restarter) (length : Nat) : r.capped length ≤ length := by
  unfold capped
  split
  · exact Nat.le_refl _
  · exact Nat.min_le_left _ _

theorem capped_capped (r : Restarter) (length : Nat) :
    r.capped (r.capped length) = r.capped length := by
  unfold capped
  cases r.ceiling with
  | none => rfl
  | some c => simp

/-- A ceiling that applies to one length applies to the sum with it. -/
theorem capped_add {length length' : Nat} (h : r.capped length = r.capped length') (more : Nat) :
    r.capped (length + more) = r.capped (length' + more) := by
  revert h
  unfold capped
  cases r.ceiling with
  | none => exact fun h => congrArg (· + more) h
  | some c => exact fun h => by dsimp only at h ⊢; omega

theorem capped_two_mul {length length' : Nat} (h : r.capped length = r.capped length') :
    r.capped (2 * length) = r.capped (2 * length') := by
  rw [Nat.two_mul, Nat.two_mul, capped_add h, Nat.add_comm, capped_add h]

/-- The interval that runs is the one of the schedule that has the number, up to the ceiling. -/
structure OnSchedule (r : Restarter) : Prop extends Live r where
  restarts_eq : r.schedule = .never → r.restarts = 0
  term_eq : r.schedule ≠ .never → r.term = r.restarts + 1
  interval_eq : r.schedule ≠ .never → r.capped r.interval = r.capped (r.schedule.length r.term)

theorem onSchedule_start (schedule : Schedule) : (start schedule).OnSchedule where
  toLive := live_start schedule
  restarts_eq _ := rfl
  term_eq _ := rfl
  interval_eq h := by
    have hluby : luby 1 = 1 := luby_two_pow_sub_one 0
    cases schedule <;> simp_all [start, fresh, firstInterval, Schedule.length]

theorem OnSchedule.tick (h : r.OnSchedule) : r.tick.OnSchedule :=
  ⟨h.toLive.tick, by simpa using h.restarts_eq, by simpa using h.term_eq,
    by simpa using h.interval_eq⟩

/-- Every schedule makes its next interval out of the one that ends, or of its number. -/
theorem OnSchedule.restart (h : r.OnSchedule) : r.restart.OnSchedule := by
  refine ⟨h.toLive.restart, ?_, ?_, ?_⟩
  · intro hnever
    rw [schedule_restart] at hnever
    simpa [Restarter.restart, hnever] using h.restarts_eq hnever
  · intro hnever
    rw [schedule_restart] at hnever
    have hterm := h.term_eq hnever
    cases hs : r.schedule <;> simp_all [Restarter.restart, beginInterval]
  · intro hnever
    rw [schedule_restart] at hnever
    have hterm := h.term_eq hnever
    have hinterval := h.interval_eq hnever
    rw [schedule_restart, capped_restart, capped_restart]
    cases hs : r.schedule with
    | fixed unit => simp only [Restarter.restart, hs, beginInterval, Schedule.length]
    | linear unit =>
        simp only [Restarter.restart, hs, beginInterval, Schedule.length, capped_capped]
        rw [Nat.succ_mul]
        exact capped_add (by rw [hinterval, hs, Schedule.length]) _
    | geometric unit =>
        simp only [Restarter.restart, hs, beginInterval, Schedule.length, capped_capped]
        have hpow : 2 ^ (r.term + 1 - 1) * max unit 1 = 2 * (2 ^ (r.term - 1) * max unit 1) := by
          rw [hterm, Nat.add_sub_cancel, Nat.add_sub_cancel, Nat.pow_succ', Nat.mul_assoc]
        rw [hpow]
        exact capped_two_mul (by rw [hinterval, hs, Schedule.length])
    | luby unit =>
        simp only [Restarter.restart, hs, beginInterval, Schedule.length, capped_capped]
    | never => exact absurd hs hnever

/-- The intervals that restarts have ended, and what has elapsed of the one that runs, are no longer
than the conflicts counted. -/
structure Paced (r : Restarter) (conflicts : Nat) : Prop extends OnSchedule r where
  elapsed_le : (∑ i ∈ Finset.range r.restarts, r.capped (r.schedule.length (i + 1))) +
    (r.interval - r.left) ≤ conflicts

theorem paced_start (schedule : Schedule) : (start schedule).Paced 0 where
  toOnSchedule := onSchedule_start schedule
  elapsed_le := by simp [start, fresh]

theorem Paced.tick (h : r.Paced conflicts) : r.tick.Paced (conflicts + 1) where
  toOnSchedule := h.toOnSchedule.tick
  elapsed_le := by
    have helapsed := h.elapsed_le
    have hleft := le_left_tick r
    simp only [restarts_tick, schedule_tick, capped_tick, interval_tick]
    omega

/-- Once a restart is due its interval has elapsed, and nothing of the next one has. -/
theorem Paced.restart (h : r.Paced conflicts) (hdue : r.isDue = true) :
    r.restart.Paced conflicts where
  toOnSchedule := h.toOnSchedule.restart
  elapsed_le := by
    have hnever := ne_never_of_isDue hdue
    have helapsed := h.elapsed_le
    rw [left_of_isDue hdue, Nat.sub_zero] at helapsed
    -- The interval that ends is the next summand, cut off at the ceiling at most.
    have hinterval : r.capped (r.schedule.length (r.restarts + 1)) ≤ r.interval := by
      rw [← h.term_eq hnever, ← h.interval_eq hnever]
      exact r.capped_le r.interval
    simp only [restarts_restart hnever, left_restart hnever, schedule_restart, capped_restart,
      Finset.sum_range_succ, Nat.sub_self]
    omega

/-- No interval is empty, so there are no more restarts than conflicts. -/
theorem Paced.restarts_le (h : r.Paced conflicts) : r.restarts ≤ conflicts := by
  by_cases hnever : r.schedule = .never
  · rw [h.restarts_eq hnever]
    exact Nat.zero_le _
  · have hlength : ∀ i ∈ Finset.range r.restarts, 1 ≤ r.capped (r.schedule.length (i + 1)) :=
      fun i _ => h.capped_pos (Schedule.length_pos hnever i.succ_pos)
    calc
      r.restarts = ∑ _i ∈ Finset.range r.restarts, 1 := by
        rw [← Finset.card_eq_sum_ones, Finset.card_range]
      _ ≤ ∑ i ∈ Finset.range r.restarts, r.capped (r.schedule.length (i + 1)) :=
        Finset.sum_le_sum hlength
      _ ≤ conflicts := Nat.le_of_add_right_le h.elapsed_le

/-! ## Intervals without a ceiling -/

/-- Before the first conflict, with intervals of any length. Without restarts there are none. -/
def unbounded : Schedule → Restarter
  | .never => start .never
  | schedule => fresh none schedule

/-- There are no restarts, or the intervals grow and nothing stops them. -/
structure Endless (r : Restarter) : Prop extends Live r where
  grows : r.schedule.Grows
  uncapped : r.schedule ≠ .never → r.ceiling = none

theorem schedule_unbounded (schedule : Schedule) : (unbounded schedule).schedule = schedule := by
  cases schedule <;> rfl

theorem endless_unbounded {schedule : Schedule} (h : schedule.Grows) :
    (unbounded schedule).Endless := by
  cases schedule with
  | fixed unit => exact h.elim
  | never => exact ⟨live_start .never, trivial, fun hne => absurd rfl hne⟩
  | _ =>
      refine ⟨⟨?_, nofun⟩, trivial, fun _ => rfl⟩
      simp only [unbounded, fresh, firstInterval]
      omega

theorem endless_of_never (h : r.Live) (hnever : r.schedule = .never) : r.Endless :=
  ⟨h, by simp [hnever, Schedule.Grows], fun hne => absurd hnever hne⟩

theorem Endless.tick (h : r.Endless) : r.tick.Endless :=
  ⟨h.toLive.tick, by simpa using h.grows, by simpa using h.uncapped⟩

theorem Endless.restart (h : r.Endless) : r.restart.Endless :=
  ⟨h.toLive.restart, by simpa using h.grows, by simpa using h.uncapped⟩

theorem Endless.iterate (h : r.Endless) (k : Nat) :
    (Restarter.restart^[k] r).Endless ∧ (Restarter.restart^[k] r).schedule = r.schedule := by
  induction k with
  | zero => exact ⟨h, rfl⟩
  | succ k ih =>
      rw [Function.iterate_succ_apply']
      exact ⟨ih.1.restart, (schedule_restart _).trans ih.2⟩

/-- Linear and geometric intervals get longer with every restart. -/
theorem Endless.interval_lt (h : r.Endless) (hnever : r.schedule ≠ .never)
    (hluby : ∀ unit, r.schedule ≠ .luby unit) : r.interval < r.restart.interval := by
  have hgrows := h.grows
  have hpos := h.interval_pos
  have hnone := h.uncapped hnever
  unfold Restarter.restart
  cases hs : r.schedule with
  | fixed unit =>
      rw [hs] at hgrows
      exact hgrows.elim
  | linear unit =>
      simp only [beginInterval, capped, hnone]
      omega
  | geometric unit =>
      simp only [beginInterval, capped, hnone]
      omega
  | luby unit => exact absurd hs (hluby unit)
  | never => exact absurd hs hnever

theorem term_iterate {unit : Nat} (hs : r.schedule = .luby unit) (k : Nat) :
    (Restarter.restart^[k] r).term = r.term + k ∧
      (Restarter.restart^[k] r).schedule = .luby unit ∧
      (Restarter.restart^[k] r).ceiling = r.ceiling := by
  induction k with
  | zero => exact ⟨rfl, hs, rfl⟩
  | succ k ih =>
      rcases ih with ⟨hterm, hschedule, hceiling⟩
      rw [Function.iterate_succ_apply']
      refine ⟨?_, (schedule_restart _).trans hschedule, (ceiling_restart _).trans hceiling⟩
      simp only [Restarter.restart, hschedule, beginInterval, hterm, Nat.add_assoc]

/-- Some interval to come is as long as you like. -/
theorem Endless.exists_interval_ge (h : r.Endless) (hnever : r.schedule ≠ .never) (bound : Nat) :
    ∃ k, bound ≤ (Restarter.restart^[k + 1] r).interval := by
  by_cases hluby : ∃ unit, r.schedule = .luby unit
  · -- The last term of a block that is long enough.
    rcases hluby with ⟨unit, hs⟩
    have hlarge : bound + r.term < 2 ^ (bound + r.term) := Nat.lt_two_pow_self
    have hpow : 2 ^ (bound + r.term + 1) = 2 * 2 ^ (bound + r.term) := Nat.pow_succ'
    refine ⟨2 ^ (bound + r.term + 1) - 2 - r.term, ?_⟩
    rcases term_iterate hs (2 ^ (bound + r.term + 1) - 2 - r.term) with
      ⟨hterm, hschedule, hceiling⟩
    have hnone := hceiling.trans (h.uncapped hnever)
    have hblock : r.term + (2 ^ (bound + r.term + 1) - 2 - r.term) + 1 =
        2 ^ (bound + r.term + 1) - 1 := by omega
    rw [Function.iterate_succ_apply', Restarter.restart, hschedule]
    simp only [beginInterval, capped, hnone, hterm, hblock, luby_two_pow_sub_one]
    calc bound ≤ 2 ^ (bound + r.term) := by omega
      _ ≤ 2 ^ (bound + r.term) * max unit 1 := Nat.le_mul_of_pos_right _ (by omega)
  · have hgrown : ∀ k, k ≤ (Restarter.restart^[k] r).interval := by
      intro k
      induction k with
      | zero => exact Nat.zero_le _
      | succ k ih =>
          rcases h.iterate k with ⟨hendless, hschedule⟩
          rw [Function.iterate_succ_apply']
          have := hendless.interval_lt (hschedule ▸ hnever)
            fun unit hunit => hluby ⟨unit, hschedule ▸ hunit⟩
          omega
    exact ⟨bound, Nat.le_of_succ_le (hgrown (bound + 1))⟩

end Restarter
end SatSearch
