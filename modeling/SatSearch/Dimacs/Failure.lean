import SatSearch.Formula

/-!
# Failure — why a formula could not be read

Reading stops at the first failure. `ReadError` is a failure of the source of bytes, the others
are failures of what was read.
-/

namespace SatSearch

/-- Why bytes could not be had from a source. -/
inductive ReadError
  | notUtf8
  | notFound
  | notDirectory
  | isDirectory
  | permissionDenied
  | nameTooLong
  | other (description : String)
  deriving DecidableEq, Repr

def ReadError.message : ReadError → String
  | .notUtf8 => "stream did not contain valid UTF-8"
  | .notFound => "No such file or directory (os error 2)"
  | .notDirectory => "Not a directory (os error 20)"
  | .isDirectory => "Is a directory (os error 21)"
  | .permissionDenied => "Permission denied (os error 13)"
  | .nameTooLong => "File name too long (os error 36)"
  | .other description => description

namespace Dimacs

inductive Failure
  | unreadable (cause : ReadError)
  /-- A word that is not a literal, on this line, counted from one. -/
  | token (line : Nat) (word : String)
  /-- A problem line that is not `p cnf <variables> <clauses>`. -/
  | header (line : Nat) (content : String)
  | formula (cause : FormulaError)
  deriving DecidableEq, Repr

def Failure.message : Failure → String
  | .unreadable cause => "I/O error: " ++ cause.message
  | .token line word =>
    "line " ++ toString line ++ ": cannot parse '" ++ word ++ "' as a literal"
  | .header line content =>
    "line " ++ toString line ++ ": malformed problem line '" ++ content ++ "'"
  | .formula cause => cause.message

end Dimacs
end SatSearch
