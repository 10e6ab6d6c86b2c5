import SatSearch.Branching.Activity

/-!
# Branching — the two selectors, side by side
-/

namespace SatSearch

inductive Branching
  | fixedOrder (order : FixedOrder)
  | activity (scores : Activity)

/-- Which selector to build. -/
inductive BranchingKind
  | fixedOrder
  | activity
  deriving DecidableEq, Repr

namespace Branching

def build (kind : BranchingKind) (numVars : Nat) : Branching :=
  match kind with
  | .fixedOrder => .fixedOrder ⟨numVars⟩
  | .activity => .activity (.empty numVars Activity.defaultDecay)

def pick : Branching → Assignment → Except Fault (Option Nat)
  | .fixedOrder s, a => s.pick a
  | .activity s, a => s.pick a

def reward : Branching → List Nat → Except Fault Branching
  | .fixedOrder s, _ => .ok (.fixedOrder s)
  | .activity s, vs =>
    match s.reward vs with
    | .error e => .error e
    | .ok s => .ok (.activity s)

def decay : Branching → Branching
  | .fixedOrder s => .fixedOrder s
  | .activity s => .activity s.age

instance : Selector Branching where
  pick := pick
  reward := reward
  decay := decay

end Branching
end SatSearch
