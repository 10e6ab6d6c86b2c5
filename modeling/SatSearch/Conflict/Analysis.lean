import SatSearch.Trail

/-!
# Analysis — what is learned from a conflict, and where the search resumes
-/

namespace SatSearch

inductive Analysis
  /-- The conflict holds at level zero: no assignment satisfies the clauses. -/
  | ground
  /-- Once the trail is stepped back to `level`, the first literal of `clause` has no value and
  every other one is false, so the first one is to be asserted. -/
  | asserting (clause : Clause) (level : Nat)
  /-- Resume at `level` by flipping the branch just above it, or the nearest branch below that
  has not been flipped. -/
  | retry (clause : Clause) (level : Nat)
  deriving DecidableEq, Repr

/-- The highest level at which a literal of the list was assigned; zero if none was. -/
def deepestLevel (t : Trail) : List Literal → Except Fault Nat
  | [] => .ok 0
  | l :: ls =>
    match t.levelOf l.var, deepestLevel t ls with
    | .ok a, .ok b => .ok (max a b)
    | .error e, _ => .error e
    | _, .error e => .error e

end SatSearch
