import SatSearch.Command.FileTree
import SatSearch.Command.Run

/-!
# DryRun — a run over files that are given

The files are those of a tree, the clock stands still, and what is printed is collected.
-/

namespace SatSearch
namespace Command

/-- Searches until there is a verdict. No time passes meanwhile. -/
def searchThrough (o : Options) (f : Formula) : Except Fault (Verdict × Statistics) :=
  match Solver.build o.search o.components f with
  | .error e => .error e
  | .ok solver =>
    match (solver.setBudget o.budget).solve Solver.ample with
    | .error e => .error e
    | .ok (verdict, solver) => .ok (verdict.getD .unknown, solver.statistics)

namespace FileTree

/-- The paths of the formula files below the directory at a path, if it is one. -/
def formulaPaths (t : FileTree) (path : String) : Option (List String) :=
  match t.resolve path with
  | .ok (.directory, names) => some ((t.formulasBelow names).map (joined path))
  | _ => none

/-- Keeps the lines printed so far. -/
def host (t : FileTree) : Host (StateM (List String)) where
  read path := return t.read path
  formulasBelow path := return t.formulaPaths path
  search o f := return searchThrough o f
  now := return 0
  print lines := modify (· ++ lines)

end FileTree

/-- How the run ends, and the lines it prints. -/
def dryRun (t : FileTree) (words : List String) : Ending × List String :=
  (run t.host words).run []

end Command
end SatSearch
