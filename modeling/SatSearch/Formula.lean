import SatSearch.Clause

/-!
# Formula — given clauses, and the clauses learned from them

Clauses are addressed by one running index: first the given clauses, then the learned ones, each
in the order they came. A given clause that arrives after clauses were learned therefore moves
every learned clause up by one. Nothing is ever removed or rewritten.
-/

namespace SatSearch

/-- Why a formula cannot be built or extended. -/
inductive FormulaError
  /-- The literal's variable is not below the number of variables. -/
  | literalOutOfRange (literal : Literal) (numVars : Nat)
  | tooManyVariables (requested : Nat)
  /-- Zero stands where a signed literal is expected. -/
  | zeroLiteral
  deriving DecidableEq, Repr

structure Formula where
  numVars : Nat
  given : Array Clause
  learnts : Array Clause
  deriving DecidableEq, Repr

namespace Formula

/-- The most variables a formula may have. -/
def maxVars : Nat := 33554432

/-! ## Looking up -/

/-- How many clauses there are, learned ones included. -/
def size (f : Formula) : Nat :=
  f.given.size + f.learnts.size

/-- All clauses in the order of their indices. -/
def clauses (f : Formula) : List Clause :=
  f.given.toList ++ f.learnts.toList

def clause? (f : Formula) (index : Nat) : Option Clause :=
  if index < f.given.size then f.given[index]?
  else f.learnts[index - f.given.size]?

theorem clause?_eq_getElem? (f : Formula) (index : Nat) :
    f.clause? index = f.clauses[index]? := by
  unfold clause? clauses
  split
  · rename_i h
    rw [List.getElem?_append_left (by simpa using h), Array.getElem?_toList]
  · rename_i h
    rw [List.getElem?_append_right (by simpa using h), Array.getElem?_toList,
      Array.length_toList]

/-- Occurrences of literals in the given clauses. -/
def numLiterals (f : Formula) : Nat :=
  f.given.toList.foldl (fun n c => n + c.length) 0

/-- Every given clause has a literal that is true under the assignment. -/
def isSatisfied (f : Formula) (a : Assignment) : Bool :=
  f.given.all (·.isSatisfied a)

/-- Every given clause has a literal that is true in the model. -/
def isSatisfiedBy (f : Formula) (m : Model) : Bool :=
  f.given.all (·.isSatisfiedBy m)

/-! ## Building -/

/-- The formula without clauses. -/
def empty (numVars : Nat) : Except FormulaError Formula :=
  if maxVars < numVars then .error (.tooManyVariables numVars)
  else .ok ⟨numVars, #[], #[]⟩

/-- Adds a given clause and tells its index. The first literal that is out of range refuses it. -/
def add (f : Formula) (ls : List Literal) : Except FormulaError (Nat × Formula) :=
  let clause := Clause.given ls
  match clause.literals.find? fun l => f.numVars ≤ l.var with
  | some l => .error (.literalOutOfRange l f.numVars)
  | none =>
    match f with
    | ⟨numVars, given, learnts⟩ =>
      .ok (given.size, ⟨numVars, given.push clause, learnts⟩)

/-- Adds clauses in order, up to the first one that is refused. -/
def addAll : Formula → List (List Literal) → Except FormulaError Formula
  | f, [] => .ok f
  | f, ls :: rest =>
    match f.add ls with
    | .error e => .error e
    | .ok (_, f) => f.addAll rest

/-- Adds a learned clause and tells its index. Range is the learner's business. -/
def learn : Formula → Clause → Nat × Formula
  | ⟨numVars, given, learnts⟩, clause =>
    (given.size + learnts.size,
      ⟨numVars, given, learnts.push (Clause.learned clause.literals)⟩)

/-- One more than the largest variable mentioned, or zero. -/
def span (clauses : List (List Literal)) : Nat :=
  clauses.foldl (fun n ls => ls.foldl (fun n l => max n (l.var + 1)) n) 0

/-- Reads clauses written with signed numbers; a zero is refused. -/
def literalsOfSigned : List (List Int) → Except FormulaError (List (List Literal))
  | [] => .ok []
  | ns :: rest =>
    match ns.mapM Literal.ofSigned? with
    | none => .error .zeroLiteral
    | some ls =>
      match literalsOfSigned rest with
      | .error e => .error e
      | .ok lss => .ok (ls :: lss)

/-- The formula of clauses written with signed numbers, over the variables they span. -/
def ofSigned (clauses : List (List Int)) : Except FormulaError Formula := do
  let clauses ← literalsOfSigned clauses
  (← empty (span clauses)).addAll clauses

end Formula

/-! ## Error texts -/

def FormulaError.message : FormulaError → String
  | .literalOutOfRange l numVars =>
    "literal Literal(" ++ toString l.code ++ ") (variable " ++ toString l.var ++
      ") is out of range for " ++ toString numVars ++ " variables"
  | .tooManyVariables requested =>
    "cannot create a solver over " ++ toString requested ++ " variables (maximum " ++
      toString Formula.maxVars ++ ")"
  | .zeroLiteral => "0 is not a valid DIMACS literal"

end SatSearch
