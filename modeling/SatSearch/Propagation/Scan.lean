import SatSearch.Propagation.Outcome

/-!
# Scan — unit propagation by reading every clause

Passes over all clauses, in the order of their indices and under the values as they stand when a
clause is reached, until a pass assigns nothing or a clause fails.
-/

namespace SatSearch
namespace Scan

/-- One pass, from the clause with the given index on. Tells the clause that failed, if any. -/
def pass (index : Nat) : List Clause → Trail → Except Fault (Option Nat × Trail)
  | [], t => .ok (none, t)
  | c :: cs, t =>
    match c.state t.values with
    | .falsified => .ok (some index, t)
    | .unit l =>
      match t.push l (.clause index) with
      | .error e => .error e
      | .ok t => pass (index + 1) cs t
    | .satisfied => pass (index + 1) cs t
    | .unresolved => pass (index + 1) cs t

/-- At most `fuel` passes. -/
def passes (clauses : List Clause) : Nat → Trail → Except Fault (Outcome × Trail)
  | 0, t => .ok (.fixpoint, t.settle)
  | fuel + 1, t =>
    let before := t.length
    match pass 0 clauses t with
    | .error e => .error e
    | .ok (some c, t) => .ok (.conflict c, t.settle)
    | .ok (none, t) =>
      if t.length = before then .ok (.fixpoint, t.settle) else passes clauses fuel t

/-- Every pass but the last one gives some variable a value, so one pass more than there are
variables is enough. -/
def propagate (f : Formula) (t : Trail) : Except Fault (Outcome × Trail) :=
  passes f.clauses (t.values.size + 1) t

end Scan
end SatSearch
