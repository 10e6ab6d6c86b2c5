import SatSearch.Model

/-!
# Clause — a disjunction of literals

A clause keeps the order of its literals, and whether it was given or learned. Under a partial
assignment it is satisfied, falsified, unit or unresolved.
-/

namespace SatSearch

structure Clause where
  literals : List Literal
  learnt : Bool
  deriving DecidableEq, Repr

/-- How a clause stands under a partial assignment. -/
inductive ClauseState
  /-- Some literal is true. -/
  | satisfied
  /-- Every literal is false. -/
  | falsified
  /-- This literal has no value, and every other one is false. -/
  | unit (literal : Literal)
  /-- No literal is true, and two or more have no value. -/
  | unresolved
  deriving DecidableEq, Repr

namespace Clause

/-! ## Building -/

/-- A given clause. Of a repeated literal the first occurrence stays. -/
def given (ls : List Literal) : Clause :=
  ⟨ls.eraseDups, false⟩

/-- A learned clause, its literals as they come. -/
def learned (ls : List Literal) : Clause :=
  ⟨ls, true⟩

def length (c : Clause) : Nat :=
  c.literals.length

/-- Some variable occurs with both signs. -/
def isTautology (c : Clause) : Bool :=
  c.literals.any fun l => c.literals.contains l.negate

/-! ## Standing -/

/-- Reads the literals from left to right; `free` is the last literal met without a value, and
`others` tells whether there was one before it. -/
def standing (a : Assignment) (free : Option Literal) (others : Bool) :
    List Literal → ClauseState
  | [] =>
    match free with
    | none => .falsified
    | some l => if others then .unresolved else .unit l
  | l :: ls =>
    match a.literal? l with
    | some true => .satisfied
    | some false => standing a free others ls
    | none => standing a (some l) free.isSome ls

def state (c : Clause) (a : Assignment) : ClauseState :=
  standing a none false c.literals

/-- Some literal is true under the assignment. -/
def isSatisfied (c : Clause) (a : Assignment) : Bool :=
  c.literals.any fun l => a.literal? l == some true

/-- Some literal is true in the model. -/
def isSatisfiedBy (c : Clause) (m : Model) : Bool :=
  c.literals.any m.satisfies

/-! ## Text -/

def text (c : Clause) : String :=
  terminated c.literals

end Clause

end SatSearch
