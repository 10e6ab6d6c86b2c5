/-!
# Entry — one line of a journal
-/

namespace SatSearch
namespace Journal

inductive Severity
  | trace
  | debug
  | info
  | warn
  deriving DecidableEq, Repr

def Severity.text : Severity → String
  | .trace => "TRACE"
  | .debug => "DEBUG"
  | .info => "INFO"
  | .warn => "WARN"

/-- What an entry is about. -/
inductive Topic
  | propagation
  | analysis
  | backjump
  | decision
  | restart
  | search
  | clauses
  deriving DecidableEq, Repr

def Topic.text : Topic → String
  | .propagation => "propagation"
  | .analysis => "analysis"
  | .backjump => "backjump"
  | .decision => "decision"
  | .restart => "restart"
  | .search => "search"
  | .clauses => "clause_db"

structure Entry where
  severity : Severity
  topic : Topic
  text : String
  deriving DecidableEq, Repr

/-- Severity, topic and text, separated by blanks. -/
def Entry.line (e : Entry) : String :=
  e.severity.text ++ " " ++ e.topic.text ++ " " ++ e.text

end Journal
end SatSearch
