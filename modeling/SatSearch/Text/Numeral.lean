/-!
# Numeral — decimal integers within bounds

A numeral is one or more ASCII digits, with a plus sign allowed before it and, for signed
numerals, a minus sign. Its value has to lie within the bounds of its kind.
-/

namespace SatSearch
namespace Text

/-- The value of a run of ASCII digits read after `value`; `none` if another character occurs. -/
def digitsFrom (value : Nat) : List Char → Option Nat
  | [] => some value
  | c :: cs =>
    if '0' ≤ c ∧ c ≤ '9' then digitsFrom (10 * value + (c.toNat - 48)) cs else none

/-- One or more ASCII digits. -/
def digits? : List Char → Option Nat
  | [] => none
  | cs => digitsFrom 0 cs

/-- An unsigned numeral whose value needs at most 64 bits. -/
def unsigned? (cs : List Char) : Option Nat :=
  let value? := match cs with
    | '+' :: rest => digits? rest
    | _ => digits? cs
  value?.filter (· < 18446744073709551616)

/-- A signed numeral whose value needs at most 32 bits. -/
def signed? (cs : List Char) : Option Int :=
  let value? : Option Int := match cs with
    | '+' :: rest => (digits? rest).map Int.ofNat
    | '-' :: rest => (digits? rest).map fun n => -(n : Int)
    | _ => (digits? cs).map Int.ofNat
  value?.filter fun n => -2147483648 ≤ n && n ≤ 2147483647

end Text
end SatSearch
