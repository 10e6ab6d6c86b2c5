import SatSearch.Model

/-!
# Budget — limits on one search, and what a search answers
-/

namespace SatSearch

/-- Limits on one call; `none` is no limit. The timeout is in nanoseconds. -/
structure Budget where
  maxConflicts : Option Nat
  maxDecisions : Option Nat
  timeout : Option Nat
  deriving DecidableEq, Repr

namespace Budget

def unlimited : Budget := ⟨none, none, none⟩

/-- Whether what is spent reaches the limit, if there is one. -/
def reached (spent : Nat) : Option Nat → Bool
  | none => false
  | some limit => limit ≤ spent

/-- Whether some limit is reached. -/
def isExhausted (b : Budget) (conflicts decisions elapsed : Nat) : Bool :=
  reached conflicts b.maxConflicts || reached decisions b.maxDecisions ||
    reached elapsed b.timeout

end Budget

inductive Verdict
  | satisfiable (model : Model)
  | unsatisfiable
  /-- The budget ran out first. -/
  | unknown
  deriving DecidableEq, Repr

namespace Verdict

def model? : Verdict → Option Model
  | .satisfiable m => some m
  | _ => none

def text : Verdict → String
  | .satisfiable _ => "SATISFIABLE"
  | .unsatisfiable => "UNSATISFIABLE"
  | .unknown => "UNKNOWN"

/-- The exit status customary among solvers. -/
def exitCode : Verdict → Nat
  | .satisfiable _ => 10
  | .unsatisfiable => 20
  | .unknown => 0

end Verdict

/-- Counters over the lifetime of a solver. -/
structure Statistics where
  conflicts : Nat
  decisions : Nat
  propagations : Nat
  restarts : Nat
  learnt : Nat
  deriving DecidableEq, Repr

end SatSearch
