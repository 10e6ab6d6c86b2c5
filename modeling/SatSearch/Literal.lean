/-!
# Literal — a variable with a sign

Variables are counted from zero. A literal has two written forms: its *code* `2 * var + sign`,
which indexes per-literal tables, and the signed one-based number used by formula files.
-/

namespace SatSearch

/-- A variable or its negation. -/
structure Literal where
  var : Nat
  positive : Bool
  deriving DecidableEq, Repr

namespace Literal

/-- The positive literal of variable zero. -/
instance : Inhabited Literal := ⟨⟨0, true⟩⟩

/-! ## Codes -/

/-- The largest variable whose literals have 32-bit codes. -/
def maxVar : Nat := 2147483647

/-- The literal of `var` with the given sign, if its code fits 32 bits. -/
def ofVar? (var : Nat) (positive : Bool) : Option Literal :=
  if var ≤ maxVar then some ⟨var, positive⟩ else none

/-- Even for a positive literal, odd for a negated one. -/
def code (l : Literal) : Nat :=
  2 * l.var + (if l.positive then 0 else 1)

def ofCode (code : Nat) : Literal :=
  ⟨code / 2, code % 2 == 0⟩

theorem ofCode_code (l : Literal) : ofCode l.code = l := by
  obtain ⟨var, positive⟩ := l
  cases positive
  · simp [ofCode, code]
    omega
  · simp [ofCode, code]

/-- Literals in increasing order of their codes. -/
def sort (ls : List Literal) : List Literal :=
  ls.mergeSort fun a b => a.code ≤ b.code

/-! ## Complement -/

/-- The same variable with the other sign. -/
def negate (l : Literal) : Literal :=
  { l with positive := !l.positive }

@[simp] theorem negate_negate (l : Literal) : l.negate.negate = l := by
  simp [negate]

/-- Same variable, opposite signs. -/
def isComplement (a b : Literal) : Bool :=
  a.negate == b

/-! ## Signed numbers -/

/-- One-based, below zero for a negated literal. -/
def signed (l : Literal) : Int :=
  if l.positive then (l.var : Int) + 1 else -((l.var : Int) + 1)

/-- Zero names no literal: formula files end clauses with it. -/
def ofSigned? (n : Int) : Option Literal :=
  if n = 0 then none else some ⟨n.natAbs - 1, 0 < n⟩

theorem ofSigned?_signed (l : Literal) : ofSigned? l.signed = some l := by
  obtain ⟨var, positive⟩ := l
  cases positive <;> simp [ofSigned?, signed] <;> omega

/-- The signed number in decimal. -/
def text (l : Literal) : String :=
  toString l.signed

end Literal

/-- Signed numbers separated by single blanks and closed by a zero: the written form of a clause
and of a model. -/
def terminated (ls : List Literal) : String :=
  String.intercalate " " (ls.map Literal.text ++ ["0"])

end SatSearch
