import SatSearch.Branching.Branching
import SatSearch.Search.Cdcl
import SatSearch.Search.Dpll

/-!
# Solver — either search, built from chosen components
-/

namespace SatSearch

/-- Which search to build. -/
inductive SearchKind
  | cdcl
  | dpll
  deriving DecidableEq, Repr

/-- What a search is built from. Backtracking uses the propagator and the selector alone. -/
structure Components where
  propagator : PropagatorKind
  branching : BranchingKind
  schedule : Schedule
  analyser : AnalyserKind
  deriving DecidableEq, Repr

namespace Components

/-- Watched literals, lowest variable first, a restart every hundred conflicts, and clauses
learned at the first implication point. -/
def standard : Components := ⟨.watch, .fixedOrder, .fixed 100, .firstUip⟩

/-- Plain reading of all clauses, and conflicting clauses learned as they are. The intervals
between restarts grow, because a copy of a clause rules nothing out: with a constant interval the
same stretch of search could be repeated forever. -/
def basic : Components := ⟨.scan, .fixedOrder, .linear 100, .levelScan⟩

end Components

inductive Solver
  | cdcl (search : Cdcl Branching)
  | dpll (search : Dpll Branching)

namespace Solver

def build (kind : SearchKind) (components : Components) (f : Formula) : Except Fault Solver :=
  match Position.ofFormula components.propagator f with
  | .error e => .error e
  | .ok position =>
    let selector := Branching.build components.branching f.numVars
    match kind with
    | .cdcl =>
      .ok (.cdcl (.start position selector (.build components.analyser f.numVars)
        (.start components.schedule)))
    | .dpll => .ok (.dpll (.start position selector))

def position : Solver → Position
  | .cdcl s => s.position
  | .dpll s => s.position

def formula (s : Solver) : Formula :=
  s.position.formula

def selector : Solver → Branching
  | .cdcl s => s.selector
  | .dpll s => s.selector

def statistics : Solver → Statistics
  | .cdcl s => s.statistics
  | .dpll s => s.statistics

/-- The restarter, of a search that restarts. -/
def restarter? : Solver → Option Restarter
  | .cdcl s => some s.restarter
  | .dpll _ => none

def add (ls : List Literal) : Solver → Except Fault (Except FormulaError Nat × Solver)
  | .cdcl s => (s.add ls).map fun (answer, s) => (answer, .cdcl s)
  | .dpll s => (s.add ls).map fun (answer, s) => (answer, .dpll s)

def setBudget (budget : Budget) : Solver → Solver
  | .cdcl s => .cdcl (s.setBudget budget)
  | .dpll s => .dpll (s.setBudget budget)

/-- One call of at most `fuel` rounds. There is no verdict as long as more rounds are to be
made. -/
def solve (fuel : Nat) : Solver → Except Fault (Option Verdict × Solver)
  | .cdcl s => (s.solve fuel).map fun (verdict, s) => (verdict, .cdcl s)
  | .dpll s => (s.solve fuel).map fun (verdict, s) => (verdict, .dpll s)

/-- At most `fuel` more rounds of a call that began when the counters stood as in `since`. -/
def resume (since : Statistics) (fuel : Nat) : Solver → Except Fault (Option Verdict × Solver)
  | .cdcl s =>
    (s.run since.conflicts since.decisions fuel).map fun (verdict, s) => (verdict, .cdcl s)
  | .dpll s =>
    (s.run since.conflicts since.decisions fuel).map fun (verdict, s) => (verdict, .dpll s)

/-- More rounds than any call can make that ends within a lifetime. -/
def ample : Nat := 4611686018427387904

end Solver
end SatSearch
