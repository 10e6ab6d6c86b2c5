import SatSearch.Dimacs.Failure
import SatSearch.Text.Words
import SatSearch.Text.Numeral

/-!
# Document — formulas written in DIMACS CNF

A document is read line by line. A line whose first word starts with `%` ends it, blank lines and
lines whose first word starts with `c` are skipped, a line whose first word is `p` declares sizes,
and the words of all other lines are signed literals, a zero closing each clause. Clauses may run
over lines, and the last one may lack its zero. Of several problem lines the last one counts.
-/

namespace SatSearch
namespace Dimacs

/-- The sizes declared by a problem line. -/
structure Header where
  numVars : Nat
  numClauses : Nat
  deriving DecidableEq, Repr

structure Document where
  header : Option Header
  clauses : List (List Literal)
  deriving DecidableEq, Repr

/-! ## One line -/

inductive Line
  | skipped
  | closing
  | problem (header : Header)
  | numbers (values : List Int)
  deriving DecidableEq, Repr

/-- The sizes on a problem line, given its words. -/
def Header.ofWords? : List (List Char) → Option Header
  | [['p'], ['c', 'n', 'f'], vars, clauses] =>
    match Text.unsigned? vars, Text.unsigned? clauses with
    | some numVars, some numClauses => some ⟨numVars, numClauses⟩
    | _, _ => none
  | _ => none

/-- The numbers that words stand for; the first word that is no 32-bit number fails. -/
def numbersOfWords (line : Nat) : List (List Char) → Except Failure (List Int)
  | [] => .ok []
  | w :: ws =>
    match Text.signed? w with
    | none => .error (.token line (String.ofList w))
    | some n =>
      match numbersOfWords line ws with
      | .error e => .error e
      | .ok ns => .ok (n :: ns)

def Line.read (number : Nat) (content : String) : Except Failure Line :=
  let words := Text.words content
  match words with
  | [] => .ok .skipped
  | ('%' :: _) :: _ => .ok .closing
  | ('c' :: _) :: _ => .ok .skipped
  | ['p'] :: _ =>
    match Header.ofWords? words with
    | some header => .ok (.problem header)
    | none => .error (.header number content)
  | _ => (numbersOfWords number words).map .numbers

/-! ## Line after line -/

/-- What has been read so far. Clauses, and the literals of the clause that is still open, are
held backwards. -/
structure Draft where
  header : Option Header
  closed : List (List Literal)
  current : List Literal
  deriving DecidableEq, Repr

namespace Draft

def empty : Draft := ⟨none, [], []⟩

/-- A zero closes the clause, any other number is a literal of it. -/
def feed (d : Draft) (n : Int) : Draft :=
  match Literal.ofSigned? n with
  | some l => { d with current := l :: d.current }
  | none => { d with closed := d.current.reverse :: d.closed, current := [] }

/-- A clause that is still open counts if it has a literal. -/
def finish (d : Draft) : Document :=
  ⟨d.header, (if d.current.isEmpty then d.closed else d.current.reverse :: d.closed).reverse⟩

end Draft

/-- Reads lines from line `number` on. A line's bytes are checked when the line is reached. -/
def readLines : Nat → Draft → List (List UInt8) → Except Failure Document
  | _, d, [] => .ok d.finish
  | number, d, bytes :: rest =>
    match String.fromUTF8? ⟨bytes.toArray⟩ with
    | none => .error (.unreadable .notUtf8)
    | some content =>
      match Line.read number content with
      | .error e => .error e
      | .ok .skipped => readLines (number + 1) d rest
      | .ok .closing => .ok d.finish
      | .ok (.problem header) => readLines (number + 1) { d with header := some header } rest
      | .ok (.numbers ns) => readLines (number + 1) (ns.foldl Draft.feed d) rest

def Document.read (bytes : ByteArray) : Except Failure Document :=
  readLines 1 .empty (Text.lines bytes)

/-! ## From document to formula -/

namespace Document

/-- The declared number of variables, or as many as the clauses span. -/
def numVars (d : Document) : Nat :=
  match d.header with
  | some header => header.numVars
  | none => Formula.span d.clauses

def formula (d : Document) : Except FormulaError Formula := do
  (← Formula.empty d.numVars).addAll d.clauses

end Document

/-! ## Reading -/

def parse (bytes : ByteArray) : Except Failure Formula := do
  let document ← Document.read bytes
  match document.formula with
  | .ok f => .ok f
  | .error e => .error (.formula e)

def parseText (text : String) : Except Failure Formula :=
  parse text.toUTF8

/-- Reads from a source that may have failed already. -/
def parseSource : Except ReadError ByteArray → Except Failure Formula
  | .error e => .error (.unreadable e)
  | .ok bytes => parse bytes

/-! ## Writing -/

/-- The problem line and one line for each given clause; learned clauses are not written. -/
def render (f : Formula) : String :=
  String.join (("p cnf " ++ toString f.numVars ++ " " ++ toString f.given.size ++ "\n") ::
    f.given.toList.map fun c => c.text ++ "\n")

end Dimacs
end SatSearch
