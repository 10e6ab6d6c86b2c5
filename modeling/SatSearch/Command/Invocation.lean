import SatSearch.Command.Arguments
import SatSearch.Command.Choices
import SatSearch.Command.Duration
import SatSearch.Text.Decimal

/-!
# Invocation — what the command line asks for

A formula comes from a file, from the command line itself, or from every formula file below a
directory, each by a command of its own; a file may also be named without a command. Every
command takes the same options for searching and reporting. An option may be given once.
-/

namespace SatSearch
namespace Command

/-- How to search and what to report. -/
structure Options where
  debug : Bool
  verify : Bool
  statistics : Bool
  printModel : Bool
  search : SearchKind
  components : Components
  budget : Budget
  deriving DecidableEq, Repr

/-- Where formulas come from. -/
inductive Target
  | file (path : String)
  | text (input : String)
  | directory (path : String)
  /-- Nothing was named. -/
  | missing
  deriving DecidableEq, Repr

/-- What the command line asks for. -/
inductive Invocation
  | solve (target : Target) (options : Options)
  | help
  | version
  /-- A script that completes command lines for a shell. -/
  | completions (shell : String)
  deriving DecidableEq, Repr

/-! ## Options -/

inductive Key
  | debug
  | verify
  | statistics
  | printModel
  | search
  | propagator
  | branching
  | schedule
  | analyser
  | maxConflicts
  | maxDecisions
  | timeout
  | path
  | input
  | help
  | version
  deriving DecidableEq, Repr

/-- The options that every command takes. -/
def commonFlags : List (Flag Key) :=
  [⟨.debug, "debug", some 'd', false⟩,
    ⟨.verify, "verify", none, true⟩,
    ⟨.statistics, "stats", none, true⟩,
    ⟨.printModel, "print-solution", some 'p', false⟩,
    ⟨.search, "solver", none, true⟩,
    ⟨.propagator, "propagator", none, true⟩,
    ⟨.branching, "variable-selection", none, true⟩,
    ⟨.schedule, "restart-strategy", none, true⟩,
    ⟨.analyser, "analyser", none, true⟩,
    ⟨.maxConflicts, "max-conflicts", none, true⟩,
    ⟨.maxDecisions, "max-decisions", none, true⟩,
    ⟨.timeout, "timeout", none, true⟩,
    ⟨.help, "help", some 'h', false⟩]

def versionFlag : Flag Key := ⟨.version, "version", some 'V', false⟩

def pathFlag : Flag Key := ⟨.path, "path", none, true⟩

def inputFlag : Flag Key := ⟨.input, "input", some 'i', true⟩

/-- The value of an option read with `read?`, or `standard` if it is not given; `none` if it is
given more than once or cannot be read. -/
def valueOf {α : Type} (r : Reading Key) (key : Key) (read? : String → Option α) (standard : α) :
    Option α :=
  match r.options.filter (·.1 == key) with
  | [] => some standard
  | [(_, value)] => read? value
  | _ => none

/-- The value of an option that has to be given. -/
def required {α : Type} (r : Reading Key) (key : Key) (read? : String → Option α) : Option α :=
  (valueOf r key (fun value => (read? value).map some) none).join

/-- A path is not empty. -/
def path? (value : String) : Option String :=
  if value.isEmpty then none else some value

/-- A number of conflicts or decisions. -/
def limit? (value : String) : Option (Option Nat) :=
  (Text.unsigned? value.toList).map some

/-- A number of seconds; no limit if it is no duration. -/
def timeout? (value : String) : Option (Option Nat) :=
  (Text.float? value.toList).map nanoseconds?

def optionsOf (r : Reading Key) : Option Options := do
  let debug ← valueOf r .debug (fun _ => some true) false
  let verify ← valueOf r .verify (switches.find? false) true
  let statistics ← valueOf r .statistics (switches.find? false) true
  let printModel ← valueOf r .printModel (fun _ => some true) false
  let search ← valueOf r .search (searches.find? false) searches.standard
  let propagator ← valueOf r .propagator (propagators.find? false) propagators.standard
  let branching ← valueOf r .branching (branchings.find? false) branchings.standard
  let schedule ← valueOf r .schedule (schedules.find? false) schedules.standard
  let analyser ← valueOf r .analyser (analysers.find? false) analysers.standard
  let maxConflicts ← valueOf r .maxConflicts limit? none
  let maxDecisions ← valueOf r .maxDecisions limit? none
  let timeout ← valueOf r .timeout timeout? none
  some ⟨debug, verify, statistics, printModel, search,
    ⟨propagator, branching, schedule, analyser⟩, ⟨maxConflicts, maxDecisions, timeout⟩⟩

/-! ## Commands -/

def commands : List String := ["file", "text", "dir", "completions", "help"]

def shells : List String := ["bash", "elvish", "fish", "powershell", "zsh"]

def noWords : Reading Key := ⟨[], [], none⟩

def asksFor (r : Reading Key) (key : Key) : Bool :=
  r.options.any (·.1 == key)

/-- Reads the words of a command that takes its own options and no operand. -/
def readCommand (own : List (Flag Key)) (target : Reading Key → Option Target)
    (words : List String) : Option Invocation :=
  match Arguments.read (own ++ commonFlags) [] none false noWords words with
  | none => none
  | some r =>
    if asksFor r .help then some .help
    else if r.operands.isEmpty then do
      let options ← optionsOf r
      some (.solve (← target r) options)
    else none

def readCompletions (words : List String) : Option Invocation :=
  match words with
  | [shell] => if shells.contains shell then some (.completions shell) else none
  | _ => none

def readNamed (name : String) (words : List String) : Option Invocation :=
  match name with
  | "file" =>
    readCommand [pathFlag] (fun r => (required r .path path?).map Target.file) words
  | "text" =>
    readCommand [inputFlag] (fun r => (required r .input some).map Target.text) words
  | "dir" =>
    readCommand [pathFlag] (fun r => (required r .path path?).map Target.directory) words
  | "completions" => readCompletions words
  | _ => some .help

/-- What the words ask for; `none` if they cannot be understood. Options before a command are
checked and then have no effect on it. -/
def Invocation.read (words : List String) : Option Invocation :=
  match Arguments.read (versionFlag :: commonFlags) commands none false noWords words with
  | none => none
  | some r =>
    if asksFor r .help then some .help
    else if asksFor r .version then some .version
    else
      match optionsOf r, r.operands with
      | none, _ => none
      | some options, operands =>
        match operands.mapM path?, r.command with
        | some [], none => some (.solve .missing options)
        | some [path], none => some (.solve (.file path) options)
        | some [], some (name, words) => readNamed name words
        | some [_], some (name, words) => readNamed name words
        | _, _ => none

end Command
end SatSearch
