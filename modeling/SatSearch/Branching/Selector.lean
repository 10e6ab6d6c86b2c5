import SatSearch.Trail

/-!
# Selector — which variable to branch on

A selector picks a variable without a value, is told which variables took part in a conflict, and
ages what it knows once per conflict. `FixedOrder` is the selector that knows nothing.
-/

namespace SatSearch

class Selector (σ : Type) where
  /-- A variable without a value, or none if there is none. -/
  pick : σ → Assignment → Except Fault (Option Nat)
  /-- Rewards the variables of a conflict, in order. -/
  reward : σ → List Nat → Except Fault σ
  /-- Ages all rewards. -/
  decay : σ → σ

/-- The lowest variable without a value. -/
structure FixedOrder where
  numVars : Nat
  deriving DecidableEq, Repr

namespace FixedOrder

/-- The first variable of the list without a value. -/
def firstFree (a : Assignment) : List Nat → Except Fault (Option Nat)
  | [] => .ok none
  | v :: vs =>
    match a.values[v]? with
    | none => .error (.noVariable v)
    | some none => .ok (some v)
    | some (some _) => firstFree a vs

def pick (s : FixedOrder) (a : Assignment) : Except Fault (Option Nat) :=
  firstFree a (List.range s.numVars)

instance : Selector FixedOrder where
  pick := pick
  reward s _ := .ok s
  decay s := s

end FixedOrder
end SatSearch
