import SatSearch.Proofs.Restarter

/-!
# Schedule — when a restart is due, and at which conflict it is made

Counting in words of 64 bits, every schedule has its intervals in a closed form. A restart is due
once as many conflicts as the interval is long have followed the restart before, and stays due until
it is made; conflicts that come later than that do not count for the next interval. So if restarts
are made as soon as they are due, the conflicts at which they are made are the sums of the
intervals.
-/

namespace SatSearch

namespace Schedule

variable {schedule : Schedule} {i k : Nat}

/-- The unit as it was asked for. -/
def unit : Schedule → Nat
  | .fixed unit => unit
  | .linear unit => unit
  | .geometric unit => unit
  | .luby unit => unit
  | .never => 0

/-- The length of the interval with the given number, counted from one, in words of 64 bits. -/
def interval : Schedule → Nat → Nat
  | .fixed unit, _ => max unit 1
  | .linear unit, i => min (i * max unit 1) (2 ^ 64 - 1)
  | .geometric unit, i => min (2 ^ (i - 1) * max unit 1) (2 ^ 64 - 1)
  | .luby unit, i => min (SatSearch.luby i * max unit 1) (2 ^ 64 - 1)
  | .never, _ => 0

theorem interval_eq_min (hunit : schedule.unit < 2 ^ 64) (i : Nat) :
    schedule.interval i = min (schedule.length i) (2 ^ 64 - 1) := by
  cases schedule with
  | fixed unit =>
      have hunit : unit < 2 ^ 64 := hunit
      rw [interval, length]
      omega
  | linear unit => rfl
  | geometric unit => rfl
  | luby unit => rfl
  | never => rfl

theorem interval_pos (hunit : schedule.unit < 2 ^ 64) (hnever : schedule ≠ .never) (hi : 0 < i) :
    0 < schedule.interval i := by
  have := length_pos hnever hi
  rw [interval_eq_min hunit]
  omega

/-- The conflict that ends the interval with the given number, if none is longer than it has to
be. -/
def elapsed (schedule : Schedule) (k : Nat) : Nat :=
  ∑ i ∈ Finset.range k, schedule.interval (i + 1)

theorem elapsed_succ : schedule.elapsed (k + 1) = schedule.elapsed k + schedule.interval (k + 1) :=
  Finset.sum_range_succ _ k

theorem elapsed_strictMono (hunit : schedule.unit < 2 ^ 64) (hnever : schedule ≠ .never) :
    StrictMono schedule.elapsed := by
  refine strictMono_nat_of_lt_succ fun k => ?_
  have := interval_pos (i := k + 1) hunit hnever (by omega)
  rw [elapsed_succ]
  omega

end Schedule

namespace Restarter

variable {schedule : Schedule} {r : Restarter} {k m n t : Nat}

/-! ## Ticks and restarts in any order -/

/-- The restarter has been told of conflicts and of `k` restarts, all of them due, and of `t`
conflicts since the last one. -/
inductive Counts (schedule : Schedule) : Nat → Nat → Restarter → Prop
  | start : Counts schedule 0 0 (start schedule)
  | tick {k t : Nat} {r : Restarter} : Counts schedule k t r → Counts schedule k (t + 1) r.tick
  | restart {k t : Nat} {r : Restarter} : Counts schedule k t r → r.isDue = true →
      Counts schedule (k + 1) 0 r.restart

theorem left_tick (h : r.schedule ≠ .never) : r.tick.left = r.left - 1 := by
  unfold tick
  split
  · contradiction
  · rfl

theorem isDue_iff : r.isDue = true ↔ r.schedule ≠ .never ∧ r.left = 0 := by
  constructor
  · intro h
    exact ⟨ne_never_of_isDue h, left_of_isDue h⟩
  · rintro ⟨hnever, hleft⟩
    unfold isDue
    split
    · contradiction
    · exact beq_iff_eq.2 hleft

/-- In words of 64 bits no interval is longer than the largest of them. -/
theorem interval_restart_le (hunit : r.schedule.unit < 2 ^ 64)
    (hceiling : r.ceiling = some (2 ^ 64 - 1)) (hinterval : r.interval ≤ 2 ^ 64 - 1) :
    r.restart.interval ≤ 2 ^ 64 - 1 := by
  have hcapped : ∀ length, r.capped length ≤ 2 ^ 64 - 1 := by
    intro length
    rw [capped, hceiling]
    exact Nat.min_le_right _ _
  unfold Restarter.restart
  split
  · -- A fixed interval is not cut off, but its unit is a word itself.
    rename_i unit hs
    rw [hs] at hunit
    have hunit : unit < 2 ^ 64 := hunit
    rw [beginInterval]
    dsimp only
    omega
  · exact hcapped _
  · exact hcapped _
  · exact hcapped _
  · exact hinterval

/-- What the counts say: the interval that runs is the one after the last restart, and the conflicts
since then have been taken off it. -/
structure Runs (schedule : Schedule) (k t : Nat) (r : Restarter) : Prop extends OnSchedule r where
  schedule_eq : r.schedule = schedule
  ceiling_eq : r.ceiling = some (2 ^ 64 - 1)
  interval_le : r.interval ≤ 2 ^ 64 - 1
  restarts_eq_count : r.restarts = k
  left_eq : schedule ≠ .never → r.left = r.interval - t

theorem runs_start (hunit : schedule.unit < 2 ^ 64) : Runs schedule 0 0 (start schedule) where
  toOnSchedule := onSchedule_start schedule
  schedule_eq := rfl
  ceiling_eq := rfl
  interval_le := by
    cases schedule <;> simp only [Schedule.unit, start, fresh, firstInterval] at hunit ⊢ <;>
      simp <;> omega
  restarts_eq_count := rfl
  left_eq _ := rfl

theorem Runs.tick (h : Runs schedule k t r) : Runs schedule k (t + 1) r.tick where
  toOnSchedule := h.toOnSchedule.tick
  schedule_eq := by rw [schedule_tick, h.schedule_eq]
  ceiling_eq := by rw [ceiling_tick, h.ceiling_eq]
  interval_le := by rw [interval_tick]; exact h.interval_le
  restarts_eq_count := by rw [restarts_tick, h.restarts_eq_count]
  left_eq := by
    intro hnever
    rw [left_tick (h.schedule_eq ▸ hnever), h.left_eq hnever, interval_tick, Nat.sub_sub]

theorem Runs.restart (h : Runs schedule k t r) (hunit : schedule.unit < 2 ^ 64)
    (hdue : r.isDue = true) : Runs schedule (k + 1) 0 r.restart where
  toOnSchedule := h.toOnSchedule.restart
  schedule_eq := by rw [schedule_restart, h.schedule_eq]
  ceiling_eq := by rw [ceiling_restart, h.ceiling_eq]
  interval_le := interval_restart_le (h.schedule_eq ▸ hunit) h.ceiling_eq h.interval_le
  restarts_eq_count := by rw [restarts_restart (ne_never_of_isDue hdue), h.restarts_eq_count]
  left_eq _ := left_restart (ne_never_of_isDue hdue)

theorem Counts.runs (h : Counts schedule k t r) (hunit : schedule.unit < 2 ^ 64) :
    Runs schedule k t r := by
  induction h with
  | start => exact runs_start hunit
  | tick _ ih => exact ih.tick
  | restart _ hdue ih => exact ih.restart hunit hdue

theorem Runs.interval_eq_interval (h : Runs schedule k t r) (hunit : schedule.unit < 2 ^ 64)
    (hnever : schedule ≠ .never) : r.interval = schedule.interval (k + 1) := by
  have hne : r.schedule ≠ .never := h.schedule_eq ▸ hnever
  have hcapped := h.interval_eq hne
  have hle := h.interval_le
  rw [h.term_eq hne, h.restarts_eq_count, h.schedule_eq] at hcapped
  simp only [capped, h.ceiling_eq] at hcapped
  rw [Schedule.interval_eq_min hunit, ← hcapped]
  exact (Nat.min_eq_left hle).symm

theorem Runs.isDue_iff_le (h : Runs schedule k t r) (hunit : schedule.unit < 2 ^ 64) :
    r.isDue = true ↔ schedule ≠ .never ∧ schedule.interval (k + 1) ≤ t := by
  rw [isDue_iff, h.schedule_eq]
  refine and_congr_right fun hnever => ?_
  rw [h.left_eq hnever, h.interval_eq_interval hunit hnever, Nat.sub_eq_zero_iff_le]

/-! ## Restarts as soon as they are due -/

/-- Counts a conflict, and makes the restart if that has made it due. -/
def conflict (r : Restarter) : Restarter :=
  if r.tick.isDue then r.tick.restart else r.tick

/-- With restarts made as soon as they are due, the one with number `k` is made at conflict `m`. -/
def RestartsAt (schedule : Schedule) (k m : Nat) : Prop :=
  ∃ n, m = n + 1 ∧ (conflict^[n] (start schedule)).tick.isDue = true ∧
    (conflict^[m] (start schedule)).restarts = k

/-- After any number of conflicts the intervals before the one that runs have elapsed, and no
more. -/
theorem exists_counts (hunit : schedule.unit < 2 ^ 64) (m : Nat) :
    ∃ k t, Counts schedule k t (conflict^[m] (start schedule)) ∧
      (schedule ≠ .never → schedule.elapsed k + t = m ∧ t < schedule.interval (k + 1)) := by
  induction m with
  | zero =>
      refine ⟨0, 0, .start, fun hnever => ⟨rfl, ?_⟩⟩
      exact Schedule.interval_pos hunit hnever Nat.one_pos
  | succ m ih =>
      rcases ih with ⟨k, t, hcounts, helapsed⟩
      have htick := hcounts.tick
      have hdue := (htick.runs hunit).isDue_iff_le hunit
      rw [Function.iterate_succ_apply', conflict]
      split
      · rename_i hisDue
        refine ⟨k + 1, 0, htick.restart hisDue, fun hnever => ⟨?_, ?_⟩⟩
        · -- The interval has just elapsed.
          have hle := (hdue.1 hisDue).2
          have := helapsed hnever
          rw [Schedule.elapsed_succ]
          omega
        · exact Schedule.interval_pos hunit hnever (by omega)
      · rename_i hisDue
        refine ⟨k, t + 1, htick, fun hnever => ?_⟩
        have hlt : ¬ schedule.interval (k + 1) ≤ t + 1 := fun hle => hisDue (hdue.2 ⟨hnever, hle⟩)
        have := helapsed hnever
        omega

/-- Restarts that are made as soon as they are due are made where the intervals end. -/
theorem restartsAt_iff (hunit : schedule.unit < 2 ^ 64) (hk : 0 < k) :
    RestartsAt schedule k m ↔ schedule ≠ .never ∧ m = schedule.elapsed k := by
  constructor
  · rintro ⟨n, rfl, hisDue, hrestarts⟩
    -- Before that conflict one interval less had elapsed.
    rcases exists_counts hunit n with ⟨k', t, hcounts, helapsed⟩
    have htick := hcounts.tick
    have hrestart := (htick.restart hisDue).runs hunit
    rcases ((htick.runs hunit).isDue_iff_le hunit).1 hisDue with ⟨hnever, hle⟩
    rw [Function.iterate_succ_apply', conflict, if_pos hisDue, hrestart.restarts_eq_count]
      at hrestarts
    subst hrestarts
    have := helapsed hnever
    refine ⟨hnever, ?_⟩
    rw [Schedule.elapsed_succ]
    omega
  · rintro ⟨hnever, rfl⟩
    have hmono := Schedule.elapsed_strictMono hunit hnever
    have hpos : schedule.elapsed 0 < schedule.elapsed k := hmono hk
    -- One conflict earlier the interval that ends there is the one that runs.
    rcases exists_counts hunit (schedule.elapsed k - 1) with ⟨k', t, hcounts, helapsed⟩
    have htick := hcounts.tick
    rcases helapsed hnever with ⟨hm, ht⟩
    have hsucc : schedule.elapsed (k' + 1) = schedule.elapsed k' + schedule.interval (k' + 1) :=
      Schedule.elapsed_succ
    have hlt : k' < k := hmono.lt_iff_lt.1 (by omega)
    have hle : k ≤ k' + 1 := hmono.le_iff_le.1 (by omega)
    obtain rfl : k = k' + 1 := by omega
    have hisDue := ((htick.runs hunit).isDue_iff_le hunit).2 ⟨hnever, by omega⟩
    have hconflict : schedule.elapsed (k' + 1) = schedule.elapsed (k' + 1) - 1 + 1 := by omega
    refine ⟨schedule.elapsed (k' + 1) - 1, hconflict, hisDue, ?_⟩
    rw [hconflict, Function.iterate_succ_apply', conflict, if_pos hisDue]
    exact ((htick.restart hisDue).runs hunit).restarts_eq_count

/-- A restart that is due stays due. -/
theorem isDue_iterate_tick (h : r.isDue = true) (n : Nat) : (tick^[n] r).isDue = true := by
  induction n with
  | zero => exact h
  | succ n ih =>
      rw [Function.iterate_succ_apply', isDue_iff, schedule_tick]
      rcases isDue_iff.1 ih with ⟨hnever, hleft⟩
      exact ⟨hnever, by rw [left_tick hnever, hleft]⟩

/-- If restarts are made as soon as they are due, the one with number `k` is made at the conflict
where the first `k` intervals are over, and without restarts none is ever made. However late they
are made, one is due exactly if as many conflicts as the interval is long have followed the one
before; it stays due until it is made, and the next interval then starts in full. -/
theorem restarts_on_schedule (schedule : Schedule) (hunit : schedule.unit < 2 ^ 64) :
    (∀ k m, 0 < k → (RestartsAt schedule k m ↔
      schedule ≠ .never ∧ m = ∑ i ∈ Finset.range k, schedule.interval (i + 1))) ∧
      ∀ k t r, Counts schedule k t r → r.restarts = k ∧
        (r.isDue = true ↔ schedule ≠ .never ∧ schedule.interval (k + 1) ≤ t) ∧
        (r.isDue = true → (∀ n, (tick^[n] r).isDue = true) ∧
          r.restart.left = schedule.interval (k + 2)) := by
  refine ⟨fun k m hk => restartsAt_iff hunit hk, ?_⟩
  intro k t r h
  have hruns := h.runs hunit
  refine ⟨hruns.restarts_eq_count, hruns.isDue_iff_le hunit, fun hdue => ?_⟩
  refine ⟨isDue_iterate_tick hdue, ?_⟩
  have hnever : schedule ≠ .never := ((hruns.isDue_iff_le hunit).1 hdue).1
  have hrestart := (h.restart hdue).runs hunit
  rw [hrestart.left_eq hnever, hrestart.interval_eq_interval hunit hnever, Nat.sub_zero]

/-- The second interval of a linear schedule of half the words is cut off at the largest one; a
schedule of two conflicts is told of three before its first restart is made. -/
theorem restarts_on_schedule_sample :
    (Schedule.linear (2 ^ 63)).unit < 2 ^ 64 ∧ (Schedule.fixed 2).unit < 2 ^ 64 ∧
      RestartsAt (.linear (2 ^ 63)) 2 (2 ^ 63 + (2 ^ 64 - 1)) ∧
      (start (.fixed 2)).tick.isDue = false ∧ (start (.fixed 2)).tick.tick.tick.isDue = true ∧
      (start (.fixed 2)).tick.tick.tick.restart.left = 2 := by
  have hlinear : (Schedule.linear (2 ^ 63)).unit < 2 ^ 64 := by decide
  have hfixed : (Schedule.fixed 2).unit < 2 ^ 64 := by decide
  have hone := (restarts_on_schedule (.fixed 2) hfixed).2 0 1 _ (.tick .start)
  have hthree := (restarts_on_schedule (.fixed 2) hfixed).2 0 3 _ (.tick (.tick (.tick .start)))
  have hdue := hthree.2.1.2 (by decide)
  refine ⟨hlinear, hfixed, ?_, ?_, hdue, (hthree.2.2 hdue).2⟩
  · refine ((restarts_on_schedule (.linear (2 ^ 63)) hlinear).1 2 _ Nat.two_pos).2 ⟨by decide, ?_⟩
    decide
  · exact Bool.eq_false_iff.2 fun h => absurd (hone.2.1.1 h).2 (by decide)

end Restarter
end SatSearch
