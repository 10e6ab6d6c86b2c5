import Mathlib.Data.Nat.PSub
import SatSearch.Proofs.Restarter

/-!
# Luby — the blocks of the sequence, and finding a term with 64-bit words

The sequence is made of blocks of a power of two less one terms: a block is the block before it,
twice, and then one term more, which is a power of two.

A term is found by two nested loops. The inner one widens a block until the index that is looked for
is not behind it. If the index is the last one of the block the term is known, and otherwise the
outer loop looks for the term that it repeats. With words of 64 bits the loops end at every index
from one up to `2 ^ 63 - 1`: the index stays positive and gets smaller each time, and no block is
wider than 63 bits.
-/

namespace SatSearch

/-! ## Blocks -/

/-- A term that is not the last one of its block repeats one of the block before. -/
theorem luby_of_not_last {i k : Nat} (h : 2 ^ k ≤ i) (h' : i + 1 < 2 ^ (k + 1)) :
    luby i = luby (i + 1 - 2 ^ k) := by
  have hpow := Nat.pow_succ' (n := k) (m := 2)
  have hpos := Nat.two_pow_pos k
  have hlog : i.log2 = k := (Nat.log2_eq_iff (by omega)).2 ⟨h, by omega⟩
  have hhalf : 1 <<< k = 2 ^ k := by rw [Nat.shiftLeft_eq, Nat.one_mul]
  rw [luby, hlog, hhalf, if_neg (by omega), dif_neg (by omega)]

/-- The first terms of the sequence. -/
def lubyPrefix (length : Nat) : List Nat :=
  (List.range' 1 length).map luby

/-- A block is the block before it, twice, and then its last term. -/
theorem lubyPrefix_block (k : Nat) : lubyPrefix (2 ^ (k + 1) - 1) =
    lubyPrefix (2 ^ k - 1) ++ lubyPrefix (2 ^ k - 1) ++ [2 ^ k] := by
  have hpow := Nat.pow_succ' (n := k) (m := 2)
  have hpos := Nat.two_pow_pos k
  have hlast : 2 ^ (k + 1) - 1 = 2 ^ k - 1 + (2 ^ k - 1) + 1 := by omega
  -- Behind the first block come the same indices again, moved on by its length.
  have hindices : List.range' 1 (2 ^ (k + 1) - 1) = List.range' 1 (2 ^ k - 1) ++
      (List.range' 1 (2 ^ k - 1)).map (2 ^ k - 1 + ·) ++ [2 ^ (k + 1) - 1] := by
    rw [List.map_add_range', Nat.add_comm (2 ^ k - 1) 1, List.range'_append_1, hlast,
      List.range'_1_concat, Nat.add_comm 1]
  have hrepeated : (List.range' 1 (2 ^ k - 1)).map (luby ∘ (2 ^ k - 1 + ·)) =
      lubyPrefix (2 ^ k - 1) := by
    refine List.map_congr_left fun j hj => ?_
    rw [List.mem_range'_1] at hj
    rw [Function.comp_apply, luby_of_not_last (k := k) (by omega) (by omega)]
    congr 1
    omega
  rw [lubyPrefix, hindices, List.map_append, List.map_append, List.map_map, hrepeated,
    List.map_singleton, luby_two_pow_sub_one, lubyPrefix]

/-! ## The loops -/

/-- Where the loops stand: the index that is looked for, and the width of the block that is
tried. -/
structure LubySearch where
  index : Nat
  width : Nat
  deriving DecidableEq, Repr

namespace LubySearch

variable {i k : Nat} {s : LubySearch} {v v' : Nat}

/-- The outer loop starts with the narrowest block. -/
def start (i : Nat) : LubySearch :=
  ⟨i, 1⟩

/-- One shifted to the left, if that is a word of 64 bits. -/
def shifted? (width : Nat) : Option Nat :=
  if width < 64 then some (1 <<< width) else none

/-- One turn of the loops: a wider block, the term, or a smaller index. There is none if a shift or
a difference leaves the words. -/
def step : LubySearch → Option (LubySearch ⊕ Nat)
  | ⟨index, width⟩ => do
    let block ← (← shifted? width).psub 1
    if block < index then
      return .inl ⟨index, width + 1⟩
    else
      let half ← shifted? (← width.psub 1)
      if block = index then
        return .inr half
      else
        return .inl (start (← index.psub (← half.psub 1)))

/-- The loops end with the term `v`, and nothing leaves the words before they do. -/
inductive Returns : LubySearch → Nat → Prop
  | stop {s : LubySearch} {v : Nat} : s.step = some (.inr v) → Returns s v
  | turn {s s' : LubySearch} {v : Nat} : s.step = some (.inl s') → Returns s' v → Returns s v

theorem Returns.unique (h : Returns s v) (h' : Returns s v') : v' = v := by
  induction h with
  | stop hs =>
      cases h' with
      | stop hs' => simpa [hs] using hs'.symm
      | turn hs' _ => simp [hs] at hs'
  | turn hs _ ih =>
      cases h' with
      | stop hs' => simp [hs] at hs'
      | turn hs' h' =>
          rw [hs, Option.some.injEq, Sum.inl.injEq] at hs'
          exact ih (hs' ▸ h')

theorem shifted?_of_lt (hk : k < 64) : shifted? k = some (2 ^ k) := by
  rw [shifted?, if_pos hk, Nat.shiftLeft_eq, Nat.one_mul]

theorem psub_one_two_pow (k : Nat) : (2 ^ k).psub 1 = some (2 ^ k - 1) :=
  Nat.psub_eq_sub Nat.one_le_two_pow

theorem psub_one_succ (k : Nat) : (k + 1).psub 1 = some k := rfl

/-- The inner loop goes on. -/
theorem step_widen (hk : k < 64) (h : 2 ^ k ≤ i) : step ⟨i, k⟩ = some (.inl ⟨i, k + 1⟩) := by
  have hpos := Nat.two_pow_pos k
  have hlt : 2 ^ k - 1 < i := by omega
  simp only [step, shifted?_of_lt hk, psub_one_two_pow, hlt, Option.bind_eq_bind, Option.bind_some,
    if_true, Option.pure_def]

/-- The index is the last one of the block. -/
theorem step_last (hk : k + 1 < 64) (h : i = 2 ^ (k + 1) - 1) :
    step ⟨i, k + 1⟩ = some (.inr (2 ^ k)) := by
  have hk' : k < 64 := by omega
  simp only [step, shifted?_of_lt hk, shifted?_of_lt hk', psub_one_two_pow, psub_one_succ, h,
    lt_irrefl, Option.bind_eq_bind, Option.bind_some, if_true, if_false, Option.pure_def]

/-- The outer loop goes on. -/
theorem step_reduce (hk : k + 1 < 64) (h : 2 ^ k ≤ i) (h' : i + 1 < 2 ^ (k + 1)) :
    step ⟨i, k + 1⟩ = some (.inl (start (i + 1 - 2 ^ k))) := by
  have hk' : k < 64 := by omega
  have hpos := Nat.two_pow_pos k
  have hlt : ¬ 2 ^ (k + 1) - 1 < i := by omega
  have hne : 2 ^ (k + 1) - 1 ≠ i := by omega
  have hindex : i.psub (2 ^ k - 1) = some (i + 1 - 2 ^ k) := by
    rw [Nat.psub_eq_sub (by omega)]
    congr 1
    omega
  simp only [step, shifted?_of_lt hk, shifted?_of_lt hk', psub_one_two_pow, psub_one_succ, hlt, hne,
    hindex, Option.bind_eq_bind, Option.bind_some, if_false, Option.pure_def]

/-- The inner loop passes by the blocks that the index is behind. -/
theorem Returns.of_widened (hk : k < 64) (h : 2 ^ k ≤ i) (hreturns : Returns ⟨i, k + 1⟩ v) :
    ∀ d ≤ k, Returns ⟨i, k + 1 - d⟩ v := by
  intro d
  induction d with
  | zero => exact fun _ => hreturns
  | succ d ih =>
      intro hd
      have hpow : 2 ^ (k - d) ≤ 2 ^ k := Nat.pow_le_pow_right Nat.two_pos (Nat.sub_le _ _)
      have hwiden := step_widen (show k - d < 64 by omega) (hpow.trans h)
      have hnext := ih (by omega)
      rw [show k + 1 - d = k - d + 1 by omega] at hnext
      rw [show k + 1 - (d + 1) = k - d by omega]
      exact .turn hwiden hnext

theorem Returns.start (hk : k < 64) (h : 2 ^ k ≤ i) (hreturns : Returns ⟨i, k + 1⟩ v) :
    Returns (start i) v := by
  have hwidth : k + 1 - k = 1 := by omega
  have hnarrow := hreturns.of_widened hk h k le_rfl
  rwa [hwidth] at hnarrow

/-- The loops end at every index below `2 ^ 63`, with the term of that number. -/
theorem returns_luby (i : Nat) : 1 ≤ i → i < 2 ^ 63 → Returns (start i) (luby i) := by
  -- The index gets smaller each time the outer loop goes on.
  induction i using Nat.strong_induction_on with
  | _ i ih =>
      intro hpos hlt
      obtain ⟨k, hk⟩ : ∃ k, k = i.log2 := ⟨_, rfl⟩
      -- The inner loop stops at the block with `k + 1` bits.
      rcases (Nat.log2_eq_iff (by omega)).1 hk.symm with ⟨hle, hgt⟩
      have hwidth : k < 63 := by
        rw [hk]
        exact (Nat.log2_lt (by omega)).2 hlt
      refine Returns.start (k := k) (by omega) hle ?_
      by_cases hlast : i = 2 ^ (k + 1) - 1
      · have hluby : luby i = 2 ^ k := by rw [hlast, luby_two_pow_sub_one]
        rw [hluby]
        exact .stop (step_last (by omega) hlast)
      · have hsmall : i + 1 < 2 ^ (k + 1) := by omega
        -- A block of one term has none but its last one, so the index does get smaller.
        have hgrown : 2 ≤ 2 ^ k := by
          by_contra hone
          have hpow := Nat.pow_succ' (n := k) (m := 2)
          omega
        rw [luby_of_not_last hle hsmall]
        exact .turn (step_reduce (by omega) hle hsmall) (ih _ (by omega) (by omega) (by omega))

/-- For every index that words of 64 bits can look for, the loops end within the words and return
the term; the terms are those of the Luby sequence, the last one of a block a power of two and all
others those of the block before, so that a block is the block before it, twice, and one term
more. -/
theorem returns_iff_luby :
    (∀ i v, 1 ≤ i → i ≤ 2 ^ 63 - 1 → (Returns (start i) v ↔ v = luby i)) ∧
      (∀ k, 1 ≤ k → luby (2 ^ k - 1) = 2 ^ (k - 1)) ∧
      (∀ i k, 2 ^ (k - 1) ≤ i → i < 2 ^ k - 1 → luby i = luby (i - 2 ^ (k - 1) + 1)) ∧
      ∀ k, lubyPrefix (2 ^ (k + 1) - 1) =
        lubyPrefix (2 ^ k - 1) ++ lubyPrefix (2 ^ k - 1) ++ [2 ^ k] := by
  refine ⟨?_, ?_, ?_, lubyPrefix_block⟩
  · intro i v hpos hle
    have hreturns := returns_luby i hpos (by omega)
    constructor
    · intro h
      exact hreturns.unique h
    · rintro rfl
      exact hreturns
  · intro k hk
    obtain ⟨k, rfl⟩ := Nat.exists_eq_add_of_le' hk
    exact luby_two_pow_sub_one k
  · intro i k hle hlt
    cases k with
    | zero => simp at hlt
    | succ k =>
        rw [Nat.add_sub_cancel] at hle ⊢
        rw [luby_of_not_last hle (by omega)]
        congr 1
        omega

/-- At the last index that the words can look for, and in the block of four bits. -/
theorem returns_iff_luby_sample : Returns (start (2 ^ 63 - 1)) (2 ^ 62) ∧ luby 9 = luby 2 ∧
    lubyPrefix 7 = lubyPrefix 3 ++ lubyPrefix 3 ++ [4] := by
  rcases returns_iff_luby with ⟨hloops, hlast, hrepeat, hblock⟩
  have hreturns := hloops (2 ^ 63 - 1) (2 ^ 62) (by omega) le_rfl
  exact ⟨hreturns.2 (hlast 63 (by omega)).symm, hrepeat 9 4 (by decide) (by decide), hblock 2⟩

end LubySearch
end SatSearch
