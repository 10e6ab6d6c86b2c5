import SatSearch.Text.Numeral

/-!
# Decimal — doubles written in decimal

A decimal is a sign, digits with at most one point among them, and an exponent of ten, where the
sign and the exponent may be missing and there is at least one digit. The names of infinity and of
not-a-number are read as well, in any case.
-/

namespace SatSearch
namespace Text

/-- The double nearest to `digits * 10 ^ exponent`. Far outside the range of doubles the power of
ten is not computed. -/
def nearest (digits : Nat) (exponent : Int) : Float :=
  let order := (Nat.toDigits 10 digits).length + exponent
  if digits = 0 ∨ order < -400 then 0.0
  else if 400 < order then 1.0 / 0.0
  else Float.ofScientific digits (exponent < 0) exponent.natAbs

/-- A signed whole number of any size. -/
def exponent? : List Char → Option Int
  | '+' :: cs => (digits? cs).map Int.ofNat
  | '-' :: cs => (digits? cs).map fun n => -(n : Int)
  | cs => (digits? cs).map Int.ofNat

/-- Digits with at most one point: their value without the point, and how many follow it. -/
def mantissa? (cs : List Char) : Option (Nat × Nat) :=
  let whole := cs.takeWhile (· ≠ '.')
  let fraction := (cs.dropWhile (· ≠ '.')).drop 1
  (digits? (whole ++ fraction)).map fun n => (n, fraction.length)

def magnitude? (cs : List Char) : Option Float :=
  let isMark := fun c => c == 'e' || c == 'E'
  match mantissa? (cs.takeWhile (!isMark ·)), cs.dropWhile (!isMark ·) with
  | some (digits, places), [] => some (nearest digits (-(places : Int)))
  | some (digits, places), _ :: rest =>
    (exponent? rest).map fun e => nearest digits (e - (places : Int))
  | none, _ => none

/-- A number without sign, or a name. -/
def unsignedFloat? (cs : List Char) : Option Float :=
  let name := cs.map Char.toLower
  if name = "inf".toList ∨ name = "infinity".toList then some (1.0 / 0.0)
  else if name = "nan".toList then some (0.0 / 0.0)
  else magnitude? cs

def float? : List Char → Option Float
  | '+' :: cs => unsignedFloat? cs
  | '-' :: cs => (unsignedFloat? cs).map (- ·)
  | cs => unsignedFloat? cs

end Text
end SatSearch
