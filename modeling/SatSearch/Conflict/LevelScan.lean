import SatSearch.Conflict.Analysis

/-!
# LevelScan — learning the conflicting clause itself

The conflicting clause is learned as it stands, and the search resumes one level below the deepest
level among its literals. Nothing is resolved.
-/

namespace SatSearch
namespace LevelScan

/-- The analysis of a conflict on clause `c`, and the variables of that clause. -/
def analyse (f : Formula) (t : Trail) (c : Nat) : Except Fault (Analysis × List Nat) :=
  match f.clause? c with
  | none => .error (.noClause c)
  | some clause =>
    let vars := clause.literals.map Literal.var
    match deepestLevel t clause.literals with
    | .error e => .error e
    | .ok 0 => .ok (.ground, vars)
    | .ok (level + 1) => .ok (.retry (.learned clause.literals) level, vars)

end LevelScan
end SatSearch
