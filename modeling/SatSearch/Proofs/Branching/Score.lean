import Mathlib
import SatSearch.Branching.Activity

/-!
# Score — how scores are ordered

Scores are doubles, and are compared by what their bits say as integers. That is their order as
numbers with not-a-number above all others, whatever arithmetic has come to.

The bits of a finite double but for the sign are the integer `(e + 1074) * 2 ^ 52 + m` if its
mantissa is `m` and its exponent is `e`, whether it is subnormal or not.
-/

namespace SatSearch
namespace Score

open Float.Model Float.Model.UnpackedFloat

/-! ## Bit fields -/

section Fields

variable (b : BitVec Format.binary64.numBits)

theorem toNat_unpackMantissa : (unpackMantissa b).toNat = b.toNat % 2 ^ 52 := by
  simp [unpackMantissa_def]

theorem toNat_unpackExponent : (unpackExponent b).toNat = b.toNat / 2 ^ 52 % 2 ^ 11 := by
  simp [unpackExponent_def, Nat.shiftRight_eq_div_pow]

theorem ofBitVec_unpackSign : Sign.ofBitVec (unpackSign b) =
    if b.toNat < 0x8000000000000000 then .positive else .negative := by
  have hsign : (unpackSign b).toNat = b.toNat / 2 ^ 63 % 2 := by
    simp [unpackSign_def, Nat.shiftRight_eq_div_pow]
  have hlt : b.toNat < 2 ^ 64 := b.isLt
  have hiff : unpackSign b = 0#1 ↔ b.toNat < 0x8000000000000000 := by
    rw [← BitVec.toNat_inj, hsign, BitVec.toNat_ofNat]
    omega
  simp only [Sign.ofBitVec, hiff]

/-- The implicit bit of a normal number is above its mantissa. -/
theorem toNat_implicit_append (m : BitVec 52) : (1#1 ++ m).toNat = 2 ^ 52 + m.toNat := by
  rw [BitVec.toNat_append, ← Nat.shiftLeft_add_eq_or_of_lt m.isLt]
  rfl

end Fields

/-! ## Finite doubles -/

/-- The bits of a finite double but for the sign. -/
def finiteBits (m : Nat) (e : Int) : Int :=
  (e + 1074) * 2 ^ 52 + m

/-- The exponent is as low as the mantissa allows. -/
structure Normalized (m : Nat) (e : Int) : Prop where
  pos : 0 < m
  lt : m < 2 ^ 53
  le : -1074 ≤ e
  lt_infinity : e < 972
  normal : -1074 < e → 2 ^ 52 ≤ m

namespace Normalized

variable {m m' : Nat} {e e' : Int}

theorem finiteBits_pos (h : Normalized m e) : 0 < finiteBits m e := by
  have := h.pos
  have := h.le
  unfold finiteBits
  omega

theorem finiteBits_lt (h : Normalized m e) : finiteBits m e < 0x7FF0000000000000 := by
  have := h.lt
  have := h.lt_infinity
  unfold finiteBits
  omega

/-- The exponent is compared first, and is in the upper bits. -/
theorem isLE_compare (h : Normalized m e) (h' : Normalized m' e') :
    ((compare e e').then (compare m m')).isLE = true ↔ finiteBits m e ≤ finiteBits m' e' := by
  have := h.lt
  have := h'.lt
  have := h.le
  have := h'.le
  have := h.normal
  have := h'.normal
  rw [Ordering.isLE_then_iff_or, Std.compare_eq_lt, Std.compare_eq_iff_eq, Nat.isLE_compare,
    finiteBits, finiteBits]
  omega

theorem isLE_swap_compare (h : Normalized m e) (h' : Normalized m' e') :
    ((compare e e').then (compare m m')).swap.isLE = true ↔
      finiteBits m' e' ≤ finiteBits m e := by
  rw [Ordering.swap_then, ← Std.OrientedOrd.eq_swap, ← Std.OrientedOrd.eq_swap]
  exact h'.isLE_compare h

end Normalized

/-! ## All doubles -/

/-- What the bits of a double stand for, those but the sign given as a number. -/
inductive Reads (s : Sign) (k : Nat) : UnpackedFloat → Prop
  | notANumber (hk : 0x7FF0000000000000 < k) : Reads s k .notANumber
  | infinity (hk : k = 0x7FF0000000000000) : Reads s k (.infinity s)
  | zero (hk : k = 0) : Reads s k (.zero s)
  | finite {m : Nat} {e : Int} (hm : 0 < m) (hnorm : Normalized m e) (hk : finiteBits m e = k) :
      Reads s k (.finite s m e hm)

/-- Doubles are told apart by the exponent field, and by whether the mantissa field is zero. -/
theorem reads_unpack (b : BitVec Format.binary64.numBits) :
    Reads (Sign.ofBitVec (unpackSign b)) (b.toNat % 0x8000000000000000)
      (UnpackedFloat.unpack .binary64 b) := by
  have hm := toNat_unpackMantissa b
  have he := toNat_unpackExponent b
  have hzero : unpackMantissa b = 0#52 ↔ b.toNat % 2 ^ 52 = 0 := by
    rw [← hm, ← BitVec.toNat_inj]
    rfl
  have hmin : unpackExponent b = 0#11 ↔ b.toNat / 2 ^ 52 % 2 ^ 11 = 0 := by
    rw [← he, ← BitVec.toNat_inj]
    rfl
  have hmax : unpackExponent b = -1#11 ↔ b.toNat / 2 ^ 52 % 2 ^ 11 = 2047 := by
    rw [← he, ← BitVec.toNat_inj]
    rfl
  have happend := toNat_implicit_append (unpackMantissa b)
  have hbias : Format.binary64.exponentBias = 1023 := rfl
  unfold UnpackedFloat.unpack
  dsimp only
  generalize Sign.ofBitVec (unpackSign b) = s
  split
  case isTrue h =>
    rw [hmax] at h
    split
    case isTrue h' =>
      rw [hzero] at h'
      exact .infinity (by omega)
    case isFalse h' =>
      rw [hzero] at h'
      exact .notANumber (by omega)
  case isFalse h =>
    rw [hmax] at h
    split
    case isTrue h' =>
      rw [hmin] at h'
      split
      case isTrue h'' =>
        rw [hzero] at h''
        exact .zero (by omega)
      case isFalse h'' =>
        -- Subnormal: the exponent is that of the smallest normal numbers.
        rw [hzero] at h''
        refine .finite _ ⟨by omega, by omega, by omega, by omega, by omega⟩ ?_
        unfold finiteBits
        omega
    case isFalse h' =>
      -- Normal: the implicit bit is what `(e + 1074) * 2 ^ 52` lacks of the exponent field.
      rw [hmin] at h'
      refine .finite _ ⟨by omega, by omega, by omega, by omega, by omega⟩ ?_
      unfold finiteBits
      omega

theorem negative_apply (k : Int) : Sign.negative.apply k = -k :=
  rfl

theorem positive_apply (k : Int) : Sign.positive.apply k = k :=
  rfl

/-- Without the sign a number is as far from zero, and not smaller. -/
theorem apply_bounds (s : Sign) (k : Nat) : -(k : Int) ≤ s.apply k ∧ s.apply k ≤ k := by
  cases s <;> simp only [negative_apply, positive_apply] <;> omega

namespace Reads

variable {s t : Sign} {k l : Nat} {a b : UnpackedFloat}

/-- Numbers are compared by their signs first, and by the other bits if the signs are the same. -/
theorem le_iff (ha : Reads s k a) (hb : Reads t l b) (hk : k ≤ 0x7FF0000000000000)
    (hl : l ≤ 0x7FF0000000000000) : a.le b = true ↔ s.apply k ≤ t.apply l := by
  have hs := apply_bounds s k
  have ht := apply_bounds t l
  cases ha with
  | notANumber hk' => omega
  | infinity hk' =>
      subst hk'
      cases hb with
      | notANumber hl' => omega
      | infinity hl' => subst hl'; cases s <;> cases t <;> decide
      | zero hl' => subst hl'; cases s <;> cases t <;> decide
      | finite hm' h' hl' =>
          have hlt := h'.finiteBits_lt
          have hpos := h'.finiteBits_pos
          cases s
          · exact iff_of_true rfl (by rw [negative_apply]; omega)
          · exact iff_of_false Bool.false_ne_true (by rw [positive_apply]; omega)
  | zero hk' =>
      subst hk'
      cases hb with
      | notANumber hl' => omega
      | infinity hl' => subst hl'; cases s <;> cases t <;> decide
      | zero hl' => subst hl'; cases s <;> cases t <;> decide
      | finite hm' h' hl' =>
          have hpos := h'.finiteBits_pos
          cases t
          · exact iff_of_false Bool.false_ne_true (by rw [negative_apply]; omega)
          · exact iff_of_true rfl (by rw [positive_apply]; omega)
  | finite hm h hk' =>
      have hlt := h.finiteBits_lt
      have hpos := h.finiteBits_pos
      cases hb with
      | notANumber hl' => omega
      | infinity hl' =>
          cases t
          · exact iff_of_false Bool.false_ne_true (by rw [negative_apply]; omega)
          · exact iff_of_true rfl (by rw [positive_apply]; omega)
      | zero hl' =>
          cases s
          · exact iff_of_true rfl (by rw [negative_apply]; omega)
          · exact iff_of_false Bool.false_ne_true (by rw [positive_apply]; omega)
      | finite hm' h' hl' =>
          have hpos' := h'.finiteBits_pos
          -- Only with one sign the bits matter; below zero they are compared the other way round.
          cases s <;> cases t
          · refine (h.isLE_swap_compare h').trans ?_
            simp only [negative_apply]
            omega
          · exact iff_of_true rfl (by rw [negative_apply, positive_apply]; omega)
          · exact iff_of_false Bool.false_ne_true (by rw [negative_apply, positive_apply]; omega)
          · refine (h.isLE_compare h').trans ?_
            simp only [positive_apply]
            omega

theorem isNaN_iff (ha : Reads s k a) : a.isNaN = true ↔ 0x7FF0000000000000 < k := by
  cases ha with
  | notANumber hk => exact iff_of_true rfl hk
  | infinity hk => exact iff_of_false Bool.false_ne_true (by omega)
  | zero hk => exact iff_of_false Bool.false_ne_true (by omega)
  | finite hm h hk =>
      have := h.finiteBits_lt
      exact iff_of_false Bool.false_ne_true (by omega)

/-- Not-a-number is at most nothing. -/
theorem le_eq_false (ha : Reads s k a) (hk : 0x7FF0000000000000 < k) : a.le b = false := by
  obtain rfl := UnpackedFloat.isNaN_iff.1 (ha.isNaN_iff.2 hk)
  rfl

end Reads

/-! ## Scores -/

/-- Numbers are compared as such, and nothing is above not-a-number. -/
def AtMost (x y : Float) : Prop :=
  y.isNaN = true ∨ x ≤ y

/-- The key of a number is what its bits say, and that of not-a-number is above all of them. -/
theorem scoreKey_eq (x : Float) : ∃ s k, Reads s k x.toModel.unpack ∧
    scoreKey x = if 0x7FF0000000000000 < k then 0x8000000000000000 else s.apply k := by
  refine ⟨_, _, reads_unpack x.toModel.toBits.toBitVec, ?_⟩
  have hbits : x.toBits.toNat = x.toModel.toBits.toBitVec.toNat := rfl
  rw [ofBitVec_unpackSign]
  simp only [scoreKey, hbits]
  congr 1
  by_cases hpos : x.toModel.toBits.toBitVec.toNat < 0x8000000000000000
  · rw [if_pos hpos, if_pos hpos]
    rfl
  · rw [if_neg hpos, if_neg hpos]
    rfl

/-- Scores are compared as doubles are, with not-a-number above all others. -/
theorem scoreKey_le_iff (x y : Float) : scoreKey x ≤ scoreKey y ↔ AtMost x y := by
  rcases scoreKey_eq x with ⟨s, k, hx, hkey⟩
  rcases scoreKey_eq y with ⟨t, l, hy, hkey'⟩
  have hle : x ≤ y ↔ x.toModel.unpack.le y.toModel.unpack = true := by
    show decide (x.toModel.le y.toModel = true) = true ↔ _
    exact decide_eq_true_iff
  have hnan : y.isNaN = true ↔ 0x7FF0000000000000 < l := hy.isNaN_iff
  rw [AtMost, hkey, hkey', hnan, hle]
  have hs := apply_bounds s k
  have ht := apply_bounds t l
  -- Not-a-number has the one key that no number reaches, so there are three cases.
  by_cases hk : 0x7FF0000000000000 < k
  · rw [hx.le_eq_false hk, if_pos hk]
    simp only [Bool.false_eq_true, or_false]
    split <;> omega
  · by_cases hl : 0x7FF0000000000000 < l
    · rw [if_neg hk, if_pos hl]
      exact iff_of_true (by omega) (.inl hl)
    · rw [if_neg hk, if_neg hl, hx.le_iff hy (Nat.le_of_not_lt hk) (Nat.le_of_not_lt hl),
        or_iff_right hl]

end Score
end SatSearch
