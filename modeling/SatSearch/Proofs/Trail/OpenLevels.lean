import Mathlib.Algebra.BigOperators.Intervals
import Mathlib.Algebra.Order.BigOperators.Group.Finset
import SatSearch.Proofs.Trail.Justified

/-!
# OpenLevels — what is left of the search tree

A level is open if its branch was decided and has not been flipped. Deciding opens a level, and
flipping the highest open branch closes it and drops the levels above, none of which is open. A
search that does nothing else walks through a binary tree of assignments, whose depth is the number
of variables. The leaves it has not left behind are those below the current level, and as many on
the other side of every open branch: deciding keeps their number, and flipping makes it smaller.
-/

namespace SatSearch
namespace Trail

variable {n k v : Nat} {f f' : Formula} {t t' u w : Trail} {l : Literal} {b : Step}

/-- The levels whose branch was decided and has not been flipped. -/
def openLevels (t : Trail) : Finset Nat :=
  (Finset.Icc 1 t.level).filter fun k => (t.branchAt? k).map Step.reason = some .decision

/-- How many ways there are to give values to `n` variables that agree with the current levels, or
with the levels below an open branch and its other side. -/
def leaves (n : Nat) (t : Trail) : Nat :=
  2 ^ (n - t.level) + ∑ k ∈ t.openLevels, 2 ^ (n - k)

/-- Of the highest open branch the other side was taken, one level above what is below it. -/
structure Flips (b : Step) (t u : Trail) : Prop where
  openBranch : t.openBranch? t.level = some b
  trail : ∃ t', SteppedBack (b.level - 1) t t' ∧ u = t'.newLevel.pushed b.literal.negate .flipped

/-! ## Levels and their branches -/

theorem openLevels_empty (n : Nat) : (empty n).openLevels = ∅ :=
  rfl

theorem le_of_mem_openLevels (hk : k ∈ t.openLevels) : 1 ≤ k ∧ k ≤ t.level :=
  Finset.mem_Icc.1 (Finset.mem_filter.1 hk).1

theorem succ_level_notMem_openLevels : t.level + 1 ∉ t.openLevels := by
  intro hk
  have := le_of_mem_openLevels hk
  omega

namespace Justified

/-- An open level is the level of a decision. -/
theorem mem_openLevels (h : Justified f t) (hlev : t.Levelled) :
    k ∈ t.openLevels ↔ ∃ d ∈ t.steps, d.reason = .decision ∧ d.level = k := by
  constructor
  · intro hk
    rcases le_of_mem_openLevels hk with ⟨hpos, hle⟩
    have hreason := (Finset.mem_filter.1 hk).2
    rcases h.branchAt?_eq_some (k := k - 1) (by omega) with ⟨s, hs, hmem, hlevel, _⟩
    rw [Nat.sub_add_cancel hpos] at hs hlevel
    rw [hs] at hreason
    exact ⟨s, hmem, Option.some.inj hreason, hlevel⟩
  · rintro ⟨d, hd, hdec, rfl⟩
    have hbranch : d.reason.IsBranch := by simp [hdec, Reason.IsBranch]
    rcases Array.mem_iff_getElem?.1 hd with ⟨i, hi⟩
    have hpos := (h.branch_start i d hi hbranch).1
    have hle := hlev.le_level d hd
    -- The branch of a level is its only decision.
    rcases h.branchAt?_eq_some (k := d.level - 1) (by omega) with ⟨s, hs, hmem, hlevel, hbranch'⟩
    rw [Nat.sub_add_cancel hpos] at hs hlevel
    obtain rfl := h.branch_unique hmem hd hbranch' hbranch hlevel
    refine Finset.mem_filter.2 ⟨Finset.mem_Icc.2 ⟨hpos, hle⟩, ?_⟩
    rw [hs, Option.map_some, hdec]

/-- Without an open branch no level is open. -/
theorem openLevels_eq_empty (h : Justified f t) (hlev : t.Levelled)
    (hnone : t.openBranch? t.level = none) : t.openLevels = ∅ := by
  refine Finset.eq_empty_of_forall_notMem fun k hk => ?_
  rcases (h.mem_openLevels hlev).1 hk with ⟨d, hd, hdec, _⟩
  have hlt := h.no_decision_of_openBranch? hlev hnone d hd hdec
  have hle := hlev.le_level d hd
  omega

/-- Every level has a step. -/
theorem level_le_size (h : Justified f t) : t.level ≤ t.steps.size := by
  have hsub : Finset.Icc 1 t.level ⊆ (t.steps.toList.map Step.level).toFinset := by
    intro k hk
    rcases Finset.mem_Icc.1 hk with ⟨hpos, hle⟩
    rcases h.branchAt?_eq_some (k := k - 1) (by omega) with ⟨s, _, hmem, hlevel, _⟩
    rw [List.mem_toFinset, List.mem_map]
    exact ⟨s, Array.mem_toList_iff.2 hmem, by omega⟩
  have hcard := (Finset.card_le_card hsub).trans (List.toFinset_card_le _)
  simpa using hcard

theorem level_le (h : Justified f t) (ht : t.Recorded n) : t.level ≤ n :=
  h.level_le_size.trans ht.size_le

/-- With a variable left free there is room for another level. -/
theorem level_lt (h : Justified f t) (ht : t.Recorded n) (hv : v < n) (hfree : t.Free v) :
    t.level < n := by
  have hsize := (ht.pushed (l := ⟨v, true⟩) (r := .decision) hv hfree).size_le
  rw [steps_pushed, Array.size_push] at hsize
  have := h.level_le_size
  omega

end Justified

/-! ## What the moves do to the open levels -/

/-- Propagation pushes no branches. -/
theorem Forced.openLevels_eq (h : Forced f t u) (hj : Justified f t) (hlev : t.Levelled)
    (hlev' : u.Levelled) : u.openLevels = t.openLevels := by
  ext k
  rw [(hj.forced h).mem_openLevels hlev', hj.mem_openLevels hlev]
  constructor
  · rintro ⟨d, hd, hdec, hlevel⟩
    rcases h.mem_new hd with hd | ⟨_, hbranch⟩
    · exact ⟨d, hd, hdec, hlevel⟩
    · exact absurd (by simp [hdec, Reason.IsBranch]) hbranch
  · rintro ⟨d, hd, hdec, hlevel⟩
    exact ⟨d, h.mem hd, hdec, hlevel⟩

/-- A decision opens its level. -/
theorem openLevels_decided (hj : Justified f t) (hlev : t.Levelled)
    (hj' : Justified f' (t.newLevel.pushed l .decision)) :
    (t.newLevel.pushed l .decision).openLevels = insert (t.level + 1) t.openLevels := by
  ext k
  rw [hj'.mem_openLevels hlev.newLevel.pushed, Finset.mem_insert, hj.mem_openLevels hlev]
  simp only [mem_pushed, steps_newLevel, level_newLevel]
  constructor
  · rintro ⟨d, hd | rfl, hdec, rfl⟩
    · exact .inr ⟨d, hd, hdec, rfl⟩
    · exact .inl rfl
  · rintro (rfl | ⟨d, hd, hdec, rfl⟩)
    · exact ⟨_, .inr rfl, rfl, rfl⟩
    · exact ⟨d, .inl hd, hdec, rfl⟩

namespace Flips

variable (h : Flips b t u) (hj : Justified f t) (hlev : t.Levelled)
include h hj hlev

theorem mem_openLevels : b.level ∈ t.openLevels := by
  rcases hj.openBranch?_eq_some hlev h.openBranch with ⟨hb, hdec, _⟩
  exact (hj.mem_openLevels hlev).2 ⟨b, hb, hdec, rfl⟩

theorem level_eq : u.level = b.level := by
  have hopen := le_of_mem_openLevels (h.mem_openLevels hj hlev)
  rcases h.trail with ⟨t', hback, rfl⟩
  have := hback.level_eq
  rw [level_pushed, level_newLevel]
  omega

/-- Flipping the highest open branch closes its level, and that alone. -/
theorem openLevels_eq (hj' : Justified f' u) (hlev' : u.Levelled) :
    u.openLevels = t.openLevels.erase b.level := by
  rcases hj.openBranch?_eq_some hlev h.openBranch with ⟨hb, hbdec, hpos, _, hmax⟩
  rcases h.trail with ⟨t', hback, rfl⟩
  ext k
  rw [hj'.mem_openLevels hlev', Finset.mem_erase, hj.mem_openLevels hlev]
  simp only [mem_pushed, steps_newLevel, hback.mem_iff]
  constructor
  · rintro ⟨d, ⟨hd, hle⟩ | rfl, hdec, rfl⟩
    · exact ⟨by omega, d, hd, hdec, rfl⟩
    · cases hdec
  · rintro ⟨hne, d, hd, hdec, rfl⟩
    have hle := hmax d hd hdec (hlev.le_level d hd)
    exact ⟨d, .inl ⟨hd, by omega⟩, hdec, rfl⟩

end Flips

/-! ## Leaves -/

theorem leaves_empty (n : Nat) : leaves n (empty n) = 2 ^ n := by
  rw [leaves, openLevels_empty, Finset.sum_empty, Nat.add_zero]
  rfl

/-- Every open level has a leaf, and so has the current one. -/
theorem card_openLevels_lt (n : Nat) (t : Trail) : t.openLevels.card < leaves n t := by
  have hcurrent : 0 < 2 ^ (n - t.level) := Nat.two_pow_pos _
  have hopen : t.openLevels.card ≤ ∑ k ∈ t.openLevels, 2 ^ (n - k) := by
    rw [Finset.card_eq_sum_ones]
    exact Finset.sum_le_sum fun k _ => Nat.one_le_two_pow
  unfold leaves
  omega

/-- A path through the tree, and what branches off it. -/
theorem sum_two_pow_sub (level : Nat) (hle : level ≤ n) :
    2 ^ (n - level) + ∑ k ∈ Finset.Icc 1 level, 2 ^ (n - k) = 2 ^ n := by
  induction level with
  | zero => simp
  | succ level ih =>
      rw [← ih (by omega), Finset.sum_Icc_succ_top (by omega), ← Nat.add_assoc,
        Nat.add_right_comm, ← Nat.two_mul, ← Nat.pow_succ', Nat.succ_eq_add_one]
      congr 3
      omega

/-- There are never more leaves left than the tree has. -/
theorem leaves_le (hle : t.level ≤ n) : leaves n t ≤ 2 ^ n := by
  rw [← sum_two_pow_sub t.level hle]
  exact Nat.add_le_add_left (Finset.sum_le_sum_of_subset (Finset.filter_subset _ _)) _

/-- A decision shares the leaves out to its two sides. -/
theorem leaves_decided (hj : Justified f t) (hlev : t.Levelled)
    (hj' : Justified f' (t.newLevel.pushed l .decision)) (hlt : t.level < n) :
    leaves n (t.newLevel.pushed l .decision) = leaves n t := by
  have hhalf : 2 ^ (n - t.level) = 2 ^ (n - (t.level + 1)) + 2 ^ (n - (t.level + 1)) := by
    rw [← Nat.two_mul, ← Nat.pow_succ', Nat.succ_eq_add_one]
    congr 1
    omega
  rw [leaves, leaves, openLevels_decided hj hlev hj',
    Finset.sum_insert succ_level_notMem_openLevels, level_pushed, level_newLevel, hhalf,
    Nat.add_assoc]

/-- Flipping leaves the leaves below the current level behind. -/
theorem Flips.leaves_add (h : Flips b t u) (hj : Justified f t) (hlev : t.Levelled)
    (hj' : Justified f' u) (hlev' : u.Levelled) :
    leaves n u + 2 ^ (n - t.level) = leaves n t := by
  have hsum : 2 ^ (n - b.level) + ∑ k ∈ t.openLevels.erase b.level, 2 ^ (n - k) =
      ∑ k ∈ t.openLevels, 2 ^ (n - k) :=
    Finset.add_sum_erase t.openLevels (fun k => 2 ^ (n - k)) (h.mem_openLevels hj hlev)
  rw [leaves, leaves, h.openLevels_eq hj hlev hj' hlev', h.level_eq hj hlev, hsum, Nat.add_comm]

/-! ## Turns -/

/-- What propagating and flipping, or propagating and deciding, does to the open levels and the
leaves, with the conflicts and the decisions that this counts. -/
inductive Turn (n : Nat) (t u : Trail) : Nat → Nat → Prop
  | flipped : u.openLevels.card + 1 = t.openLevels.card → leaves n u < leaves n t → Turn n t u 1 0
  | decided : u.openLevels.card = t.openLevels.card + 1 → leaves n u = leaves n t → Turn n t u 0 1

/-- A bound on the turns that are left: a flip leaves a leaf behind, and a decision opens one of the
levels, which are fewer than the leaves. -/
def turnsLeft (n : Nat) (t : Trail) : Nat :=
  2 * leaves n t - t.openLevels.card

theorem turnsLeft_empty (n : Nat) : turnsLeft n (empty n) = 2 * 2 ^ n := by
  rw [turnsLeft, leaves_empty, openLevels_empty, Finset.card_empty, Nat.sub_zero]

theorem Turn.turnsLeft_lt {conflicts decisions : Nat} (h : Turn n t u conflicts decisions) :
    turnsLeft n u < turnsLeft n t := by
  have := card_openLevels_lt n t
  have := card_openLevels_lt n u
  unfold turnsLeft
  cases h with
  | flipped hopen hleaves => omega
  | decided hopen hleaves => omega

section Turns

variable (hforced : Forced f t u) (hj : Justified f t) (ht : t.WellFormed n) (hu : u.WellFormed n)
include hforced hj ht hu

theorem Flips.turn (hw : Flips b u w) (hj' : Justified f' w) (hlev' : w.Levelled) :
    Turn n t w 1 0 := by
  have hju := hj.forced hforced
  have hopen := hforced.openLevels_eq hj ht.toLevelled hu.toLevelled
  have hmem := hw.mem_openLevels hju hu.toLevelled
  have hpos := Nat.two_pow_pos (n - u.level)
  refine .flipped ?_ ?_
  · rw [hw.openLevels_eq hju hu.toLevelled hj' hlev', hopen]
    exact Finset.card_erase_add_one (hopen ▸ hmem)
  · have hleaves := hw.leaves_add (n := n) hju hu.toLevelled hj' hlev'
    have heq : leaves n u = leaves n t := by
      rw [leaves, leaves, hopen, hforced.level_eq]
    omega

theorem turn_decided (hv : l.var < n) (hfree : u.Free l.var)
    (hj' : Justified f' (u.newLevel.pushed l .decision)) :
    Turn n t (u.newLevel.pushed l .decision) 0 1 := by
  have hju := hj.forced hforced
  have hopen := hforced.openLevels_eq hj ht.toLevelled hu.toLevelled
  refine .decided ?_ ?_
  · rw [openLevels_decided hju hu.toLevelled hj', ← hopen]
    exact Finset.card_insert_of_notMem succ_level_notMem_openLevels
  · rw [leaves_decided hju hu.toLevelled hj' (hju.level_lt hu.toRecorded hv hfree), leaves, leaves,
      hopen, hforced.level_eq]

end Turns

end Trail
end SatSearch
