import SatSearch.Command.Report
import SatSearch.Dimacs.Document

/-!
# Run — answering a command line

A run asks its host for files, for the time, for a search and for a place to print, and decides
everything else. A single formula is answered with its verdict's exit status and a directory with
zero; the first formula that cannot be read ends the run with status one, and a command line that
cannot be understood ends it with status two.
-/

namespace SatSearch
namespace Command

/-- What a run needs from outside. -/
structure Host (m : Type → Type) where
  /-- The bytes of the file at a path. -/
  read : String → m (Except ReadError ByteArray)
  /-- The paths of the formula files below a directory, in order; none if it is no directory. -/
  formulasBelow : String → m (Option (List String))
  /-- Searches with the components and within the budget that the options ask for. -/
  search : Options → Formula → m (Except Fault (Verdict × Statistics))
  /-- Nanoseconds since a moment that is the same throughout the run. -/
  now : m Nat
  /-- Prints lines. -/
  print : List String → m Unit

/-- How a run ends. -/
structure Ending where
  status : Nat
  error : Option String
  deriving DecidableEq, Repr

/-! ## Texts -/

/-- The error of a run that names no formula. -/
def missingInput : String :=
  "no input given; pass a .cnf path or a subcommand (see --help)"

/-- The error of a run over a directory that is none. -/
def noDirectory (path : String) : String :=
  "Provided path is not a directory: " ++ path

/-- The error of a search that ends in a fault. -/
def searchFault : String := "the search met a fault"

def usageLines : List String :=
  ["Usage: satsearch [OPTIONS] [PATH]",
    "       satsearch file --path <PATH> [OPTIONS]",
    "       satsearch text --input <TEXT> [OPTIONS]",
    "       satsearch dir --path <PATH> [OPTIONS]"]

def versionLine : String := "satsearch 0.1.0"

/-! ## Formulas -/

/-- The formula in these bytes, or the text of the error, which names the path if there is one. -/
def formulaFrom (path : Option String) (content : Except ReadError ByteArray) :
    Except String Formula :=
  match Dimacs.parseSource content with
  | .ok f => .ok f
  | .error e =>
    match path with
    | some path => .error (path ++ ": " ++ e.message)
    | none => .error e.message

variable {m : Type → Type} [Monad m]

/-- Reads, searches and reports one formula, and tells its verdict or the error. -/
def answer (host : Host m) (o : Options) (path : Option String)
    (content : m (Except ReadError ByteArray)) : m (Except String Verdict) := do
  let opened ← host.now
  match formulaFrom path (← content) with
  | .error e => return .error e
  | .ok f =>
    let started ← host.now
    match ← host.search o f with
    | .error _ => return .error searchFault
    | .ok (verdict, statistics) =>
      let ended ← host.now
      host.print (Report.lines o path f verdict statistics
        ⟨started - opened, ended - started⟩)
      return .ok verdict

/-- Answers one formula with the exit status of its verdict. -/
def answerOne (host : Host m) (o : Options) (path : Option String)
    (content : m (Except ReadError ByteArray)) : m Ending := do
  match ← answer host o path content with
  | .ok verdict => return ⟨verdict.exitCode, none⟩
  | .error e => return ⟨1, some e⟩

/-- Answers files in order, up to the first one that cannot be read. -/
def answerAll (host : Host m) (o : Options) : List String → m Ending
  | [] => return ⟨0, none⟩
  | path :: rest => do
    match ← answer host o (some path) (host.read path) with
    | .ok _ => answerAll host o rest
    | .error e => return ⟨1, some e⟩

/-! ## Runs -/

def run (host : Host m) (words : List String) : m Ending := do
  match Invocation.read words with
  | none => return ⟨2, none⟩
  | some .help =>
    host.print usageLines
    return ⟨0, none⟩
  | some .version =>
    host.print [versionLine]
    return ⟨0, none⟩
  | some (.completions _) => return ⟨0, none⟩
  | some (.solve .missing _) => return ⟨1, some missingInput⟩
  | some (.solve (.file path) o) => answerOne host o (some path) (host.read path)
  | some (.solve (.text input) o) => answerOne host o none (return .ok input.toUTF8)
  | some (.solve (.directory path) o) =>
    match ← host.formulasBelow path with
    | some paths => answerAll host o paths
    | none => return ⟨1, some (noDirectory path)⟩

end Command
end SatSearch
