import SatSearch.Command.FileTree
import SatSearch.Command.Run
import SatSearch.Journal.Search

/-!
# Main — the program

The host of a run: files, the clock and the terminal.
-/

namespace SatSearch
namespace Command

/-! ## Files -/

/-- The number of a system error, which some operations report negated. -/
def errorNumber (code : UInt32) : UInt32 :=
  if code < 0x80000000 then code else 0 - code

def readError (e : IO.Error) : ReadError :=
  match e with
  | .noFileOrDirectory _ _ _ => .notFound
  | .permissionDenied _ _ _ => .permissionDenied
  | .inappropriateType _ code details =>
    match errorNumber code with
    | 20 => .notDirectory
    | 21 => .isDirectory
    | _ => .other details
  | .invalidArgument _ code details =>
    if errorNumber code = 36 then .nameTooLong else .other details
  | e => .other (toString e)

def load (path : String) : IO (Except ReadError ByteArray) :=
  try
    return .ok (← IO.FS.readBinFile path)
  catch e =>
    return .error (readError e)

/-- The names of all files below an entry, behind the names on the way to it. Links are not
followed, and what cannot be read is passed over. -/
partial def filesBelow (names : List String) (entry : IO.FS.DirEntry) :
    IO (List (List String)) :=
  try
    let names := names ++ [entry.fileName]
    match (← entry.path.symlinkMetadata).type with
    | .file => return [names]
    | .dir => return (← (← entry.path.readDir).toList.mapM (filesBelow names)).flatten
    | _ => return []
  catch _ =>
    return []

/-- The paths of the formula files below a directory, in order; none if it is no directory. -/
def formulaPaths (directory : String) : IO (Option (List String)) :=
  try
    let entries ← (← IO.FS.realPath directory).readDir
    let names := (← entries.toList.mapM (filesBelow [])).flatten
    return some ((FileTree.formulaNames names).map (FileTree.joined directory))
  catch _ =>
    return none

/-! ## Searching -/

def printJournal (o : Options) (entries : Array Journal.Entry) : IO Unit :=
  for entry in entries do
    if o.debug && entry.severity != .trace then IO.eprintln entry.line

/-- Whether the time of the options is up for a search that started then. -/
def isLate (o : Options) (started : Nat) : IO Bool :=
  match o.budget.timeout with
  | none => return false
  | some limit => return limit ≤ (← IO.monoNanosNow) - started

/-- Makes rounds until there is a verdict or the time is up, and looks at the clock in between. -/
partial def searchOn (o : Options) (started : Nat) (since : Statistics) (verdict : Option Verdict)
    (solver : Solver) : IO (Except Fault (Verdict × Statistics)) := do
  match verdict with
  | some verdict => return .ok (verdict, solver.statistics)
  | none =>
    if ← isLate o started then return .ok (.unknown, solver.statistics)
    if o.debug then printJournal o (Journal.ofResume since 100 solver)
    match solver.resume since 100 with
    | .error e => return .error e
    | .ok (verdict, solver) => searchOn o started since verdict solver

/-- Searches with the components that the options ask for. -/
def timedSearch (o : Options) (f : Formula) : IO (Except Fault (Verdict × Statistics)) := do
  let started ← IO.monoNanosNow
  match Solver.build o.search o.components f with
  | .error e => return .error e
  | .ok solver =>
    let solver := solver.setBudget o.budget
    printJournal o (Journal.ofSolve 0 solver)
    match solver.solve 0 with
    | .error e => return .error e
    | .ok (verdict, solver) => searchOn o started solver.statistics verdict solver

/-! ## Running -/

def terminal : Host IO where
  read := load
  formulasBelow := formulaPaths
  search := timedSearch
  now := IO.monoNanosNow
  print lines := lines.forM fun line => IO.println line

end Command
end SatSearch

def main (words : List String) : IO UInt32 := do
  let ending ← SatSearch.Command.run SatSearch.Command.terminal words
  if let some error := ending.error then IO.eprintln ("Error: " ++ error)
  if ending.status = 2 then
    SatSearch.Command.usageLines.forM fun line => IO.eprintln line
  return ending.status.toUInt32
