/-!
# Arguments — options, operands and commands on a command line

Words are read from left to right. A word that starts with two hyphens is a long option, whose
value may follow an equals sign; one that starts with a single hyphen and goes on is a cluster of
short options, where the value of an option that takes one is the rest of the cluster, or of the
cluster after an equals sign. An option that takes a value and has none attached takes the next
word, unless that word looks like an option. Two hyphens alone make all later words operands. The
name of a command ends the reading and leaves the words behind it to the command.
-/

namespace SatSearch
namespace Command

/-- An option as it is written. -/
structure Flag (κ : Type) where
  key : κ
  long : String
  short : Option Char
  takesValue : Bool

/-- What was read: options with their values, operands, and a command with its words. Options and
operands are held backwards. -/
structure Reading (κ : Type) where
  options : List (κ × String)
  operands : List String
  command : Option (String × List String)

namespace Arguments

variable {κ : Type}

def addOption (r : Reading κ) (key : κ) (value : String) : Reading κ :=
  { r with options := (key, value) :: r.options }

def addOperand (r : Reading κ) (word : String) : Reading κ :=
  { r with operands := word :: r.operands }

/-- How a word looks, before it is known which options there are. -/
inductive Shape
  /-- Two hyphens alone. -/
  | divider
  | long (name : String) (value : Option String)
  | cluster (letters : List Char)
  | plain

def shape (word : String) : Shape :=
  match word.toList with
  | ['-', '-'] => .divider
  | '-' :: '-' :: cs =>
    match cs.dropWhile (· ≠ '=') with
    | [] => .long (String.ofList cs) none
    | _ :: value => .long (String.ofList (cs.takeWhile (· ≠ '='))) (some (String.ofList value))
  | ['-'] => .plain
  | '-' :: cs => .cluster cs
  | _ => .plain

def Shape.isPlain : Shape → Bool
  | .plain => true
  | _ => false

/-- The value that the rest of a cluster gives, if there is a rest. -/
def attached : List Char → Option String
  | [] => none
  | '=' :: value => some (String.ofList value)
  | value => some (String.ofList value)

/-- Reads a cluster. The second component is the option left waiting for a value. -/
def readCluster (flags : List (Flag κ)) (r : Reading κ) :
    List Char → Option (Reading κ × Option κ)
  | [] => some (r, none)
  | c :: cs =>
    match flags.find? fun f => f.short == some c with
    | none => none
    | some f =>
      if f.takesValue then
        match attached cs with
        | some value => some (addOption r f.key value, none)
        | none => some (r, some f.key)
      else readCluster flags (addOption r f.key "") cs

/-- Reads words; `none` if they cannot be read. `waiting` is an option that takes the next word
as its value, and `divided` tells whether two hyphens came before. -/
def read (flags : List (Flag κ)) (commands : List String) (waiting : Option κ) (divided : Bool)
    (r : Reading κ) : List String → Option (Reading κ)
  | [] =>
    match waiting with
    | none => some r
    | some _ => none
  | word :: rest =>
    match waiting with
    | some key =>
      if (shape word).isPlain then read flags commands none divided (addOption r key word) rest
      else none
    | none =>
      if divided then read flags commands none true (addOperand r word) rest
      else if commands.contains word then some { r with command := some (word, rest) }
      else
        match shape word with
        | .divider => read flags commands none true r rest
        | .plain => read flags commands none false (addOperand r word) rest
        | .long name value =>
          match flags.find? fun f => f.long == name with
          | none => none
          | some f =>
            match f.takesValue, value with
            | true, some v => read flags commands none false (addOption r f.key v) rest
            | true, none => read flags commands (some f.key) false r rest
            | false, some _ => none
            | false, none => read flags commands none false (addOption r f.key "") rest
        | .cluster letters =>
          match readCluster flags r letters with
          | none => none
          | some (r, waiting) => read flags commands waiting false r rest

end Arguments
end Command
end SatSearch
