import SatSearch.Command.Invocation

/-!
# Report — what is printed about a solved formula
-/

namespace SatSearch
namespace Command

/-- Times measured outside, in nanoseconds. -/
structure Timing where
  parsing : Nat
  searching : Nat

namespace Report

/-! ## Columns -/

/-- Blanks behind the text up to a width. -/
def left (width : Nat) (text : String) : String :=
  text ++ String.ofList (List.replicate (width - text.length) ' ')

/-- Blanks before the text up to a width. -/
def right (width : Nat) (text : String) : String :=
  String.ofList (List.replicate (width - text.length) ' ') ++ text

/-- Seconds with three places. -/
def seconds (nanoseconds : Nat) : String :=
  let milliseconds := roundDiv nanoseconds 1000000
  let places := toString (milliseconds % 1000)
  toString (milliseconds / 1000) ++ "." ++
    String.ofList (List.replicate (3 - places.length) '0') ++ places

def line (label value : String) : String :=
  "|  " ++ left 28 label ++ " " ++ right 18 value ++ "  |"

/-- A count, and how many of it fell into a second. -/
def rateLine (label : String) (count : Nat) (elapsed : Nat) : String :=
  let rate := if elapsed = 0 then 0 else roundDiv (count * 1000000000) elapsed
  "|  " ++ left 20 label ++ " " ++ right 12 (toString count) ++ " (" ++
    right 9 (toString rate) ++ "/sec)  |"

/-! ## Lines -/

def statisticsLines (f : Formula) (s : Statistics) (time : Timing) : List String :=
  ["",
    "=======================[ Problem Statistics ]=========================",
    line "Parse time (s)" (seconds time.parsing),
    line "Variables" (toString f.numVars),
    line "Clauses (original)" (toString f.given.size),
    line "Literals (original)" (toString f.numLiterals),
    "========================[ Search Statistics ]========================",
    line "Learnt clauses" (toString s.learnt),
    line "Total clauses (incl. learnt)" (toString (f.size + s.learnt)),
    rateLine "Conflicts" s.conflicts time.searching,
    rateLine "Decisions" s.decisions time.searching,
    rateLine "Propagations" s.propagations time.searching,
    rateLine "Restarts" s.restarts time.searching,
    line "CPU time (s)" (seconds time.searching),
    "====================================================================="]

/-- The report on one formula: where it came from, whether the model was checked, the statistics,
the model and the verdict, each as far as it is asked for and there is one. -/
def lines (o : Options) (label : Option String) (f : Formula) (verdict : Verdict)
    (s : Statistics) (time : Timing) : List String :=
  let source := label.toList.map fun path => "Solving: " ++ path
  let checked :=
    match o.verify, verdict.model? with
    | true, some m => ["Verified: " ++ (if f.isSatisfiedBy m then "true" else "false")]
    | _, _ => []
  let statistics := if o.statistics then statisticsLines f s time else []
  let model :=
    match o.printModel, verdict.model? with
    | true, some m => ["v " ++ m.text]
    | _, _ => []
  source ++ checked ++ statistics ++ model ++ ["s " ++ verdict.text]

end Report
end Command
end SatSearch
