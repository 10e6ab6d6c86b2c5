import SatSearch.Dimacs.Document
import SatSearch.Journal.Entry

/-!
# Formula — the journal of building a formula

The search and the store keep no journal. What one would say follows from what was asked and what
came of it, and is written here.
-/

namespace SatSearch
namespace Journal

/-! ## Clauses -/

def added (index : Nat) (clause : Clause) : Entry :=
  ⟨.trace, .clauses, "original clause " ++ toString index ++ ": " ++ clause.text⟩

def learned (index : Nat) (clause : Clause) : Entry :=
  ⟨.trace, .clauses, "learnt clause " ++ toString index ++ ": " ++ clause.text⟩

/-- Of adding a given clause: nothing if it is refused. -/
def ofAdd (f : Formula) (ls : List Literal) : List Entry :=
  match f.add ls with
  | .ok (index, _) => [added index (.given ls)]
  | .error _ => []

/-- Of adding clauses up to the first one that is refused. -/
def ofAddAll : Formula → List (List Literal) → List Entry
  | _, [] => []
  | f, ls :: rest =>
    match f.add ls with
    | .ok (index, f) => added index (.given ls) :: ofAddAll f rest
    | .error _ => []

/-- Of building a formula over `numVars` variables. -/
def ofBuild (numVars : Nat) (clauses : List (List Literal)) : List Entry :=
  match Formula.empty numVars with
  | .ok f => ofAddAll f clauses
  | .error _ => []

/-- Of building a formula from clauses written with signed numbers. -/
def ofSigned (clauses : List (List Int)) : List Entry :=
  match Formula.literalsOfSigned clauses with
  | .ok clauses => ofBuild (Formula.span clauses) clauses
  | .error _ => []

/-! ## Documents -/

/-- A warning if the number of clauses is not the declared one. -/
def ofHeader (d : Dimacs.Document) : List Entry :=
  match d.header with
  | none => []
  | some header =>
    if header.numClauses = d.clauses.length then []
    else [⟨.warn, .clauses, "header declares " ++ toString header.numClauses ++
      " clauses, read " ++ toString d.clauses.length⟩]

/-- Of reading a formula: nothing before the whole document is read. -/
def ofParse (bytes : ByteArray) : List Entry :=
  match Dimacs.Document.read bytes with
  | .ok d => ofHeader d ++ ofBuild d.numVars d.clauses
  | .error _ => []

end Journal
end SatSearch
