/-!
# Duration — seconds given as a double, in whole nanoseconds
-/

namespace SatSearch
namespace Command

/-- The quotient rounded to the nearest whole number, a tie to the even one. -/
def roundDiv (a b : Nat) : Nat :=
  let q := a / b
  let twice := 2 * (a % b)
  if b < twice ∨ (twice = b ∧ q % 2 = 1) then q + 1 else q

/-- Nanoseconds in `seconds`, if it is a number not below zero whose whole part fits 64 bits. -/
def nanoseconds? (seconds : Float) : Option Nat :=
  let bits := seconds.toBits.toNat
  let magnitude := bits % 0x8000000000000000
  let field := magnitude / 0x10000000000000
  let fraction := magnitude % 0x10000000000000
  if magnitude = 0 then some 0
  else if bits ≠ magnitude ∨ 0x43F0000000000000 ≤ magnitude then none
  else
    -- the value is `mantissa * 2 ^ (max field 1) / 2 ^ 1075`
    let mantissa := if field = 0 then fraction else fraction + 0x10000000000000
    some (roundDiv ((mantissa * 1000000000) <<< max field 1) (1 <<< 1075))

end Command
end SatSearch
