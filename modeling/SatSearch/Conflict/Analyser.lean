import SatSearch.Conflict.LevelScan
import SatSearch.Conflict.FirstUip

/-!
# Analyser — the two ways of analysing a conflict, side by side
-/

namespace SatSearch

inductive Analyser
  | firstUip (marks : FirstUip)
  | levelScan
  deriving DecidableEq, Repr

/-- Which way of analysing to build. -/
inductive AnalyserKind
  | firstUip
  | levelScan
  deriving DecidableEq, Repr

namespace Analyser

def build (kind : AnalyserKind) (numVars : Nat) : Analyser :=
  match kind with
  | .firstUip => .firstUip (.empty numVars)
  | .levelScan => .levelScan

/-- The analysis of a conflict on clause `c`, the variables to reward, and the analyser to use
for the next conflict. -/
def analyse (f : Formula) (t : Trail) (c : Nat) :
    Analyser → Except Fault (Analysis × List Nat × Analyser)
  | .firstUip marks =>
    match marks.analyse f t c with
    | .error e => .error e
    | .ok (analysis, vars, marks) => .ok (analysis, vars, .firstUip marks)
  | .levelScan =>
    match LevelScan.analyse f t c with
    | .error e => .error e
    | .ok (analysis, vars) => .ok (analysis, vars, .levelScan)

end Analyser
end SatSearch
