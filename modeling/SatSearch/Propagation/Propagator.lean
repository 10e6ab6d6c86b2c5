import SatSearch.Propagation.Scan
import SatSearch.Propagation.Watch

/-!
# Propagator — the two ways of propagating, side by side
-/

namespace SatSearch

inductive Propagator
  /-- Reads every clause. -/
  | scan
  /-- Watches two literals of each clause. -/
  | watch (index : WatchIndex)
  deriving DecidableEq, Repr

/-- Which way of propagating to build. -/
inductive PropagatorKind
  | watch
  | scan
  deriving DecidableEq, Repr

namespace Propagator

/-- The propagator for a formula under which nothing is assigned. -/
def ofFormula (kind : PropagatorKind) (f : Formula) : Except Fault Propagator :=
  match kind with
  | .scan => .ok .scan
  | .watch =>
    match WatchIndex.ofFormula f with
    | .error e => .error e
    | .ok w => .ok (.watch w)

/-- Takes in the clause `c`, added under the trail `t`. -/
def register (f : Formula) (t : Trail) (c : Nat) : Propagator → Except Fault Propagator
  | .scan => .ok .scan
  | .watch w =>
    match w.register f t c with
    | .error e => .error e
    | .ok w => .ok (.watch w)

/-- Takes all clauses in anew, after their indices changed. Nothing may be assigned. -/
def rebuild (f : Formula) : Propagator → Except Fault Propagator
  | .scan => .ok .scan
  | .watch _ => ofFormula .watch f

def propagate (f : Formula) : Propagator → Trail → Except Fault (Outcome × Propagator × Trail)
  | .scan, t =>
    match Scan.propagate f t with
    | .error e => .error e
    | .ok (outcome, t) => .ok (outcome, .scan, t)
  | .watch w, t =>
    match w.propagate f t with
    | .error e => .error e
    | .ok (outcome, w, t) => .ok (outcome, .watch w, t)

end Propagator
end SatSearch
