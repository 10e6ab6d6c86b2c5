import SatSearch.Literal

/-!
# Assignment — truth values of some of the variables

A partial assignment over the variables `0 .. size - 1`, with a running count of those that have
a value. Reading beyond the last variable finds no value; writing there is refused.
-/

namespace SatSearch

structure Assignment where
  values : Array (Option Bool)
  /-- How many variables have a value. -/
  assigned : Nat
  deriving DecidableEq, Repr

namespace Assignment

/-- No variable has a value. -/
def empty (size : Nat) : Assignment :=
  ⟨Array.replicate size none, 0⟩

def size (a : Assignment) : Nat :=
  a.values.size

/-- Whether the count has reached the number of variables. -/
def isComplete (a : Assignment) : Bool :=
  a.assigned == a.size

/-! ## Reading -/

def value? (a : Assignment) (v : Nat) : Option Bool :=
  (a.values[v]?).join

/-- Whether the literal is true or false, if its variable has a value. -/
def literal? (a : Assignment) (l : Literal) : Option Bool :=
  (a.value? l.var).map (· == l.positive)

/-! ## Writing -/

/-- Makes the literal true; `none` if it names no variable. -/
def assign? : Assignment → Literal → Option Assignment
  | ⟨values, assigned⟩, l =>
    match values[l.var]? with
    | none => none
    | some old =>
      some ⟨values.setIfInBounds l.var (some l.positive),
        if old.isNone then assigned + 1 else assigned⟩

/-- Takes the value of `v` away; `none` if there is no such variable, or if the count says that
no variable has a value although `v` does. -/
def unassign? : Assignment → Nat → Option Assignment
  | ⟨values, assigned⟩, v =>
    match values[v]? with
    | none => none
    | some none => some ⟨values, assigned⟩
    | some (some _) =>
      match assigned with
      | 0 => none
      | count + 1 => some ⟨values.setIfInBounds v none, count⟩

/-- Takes every value away. -/
def clear : Assignment → Assignment
  | ⟨values, _⟩ => ⟨(values.toList.map fun _ => none).toArray, 0⟩

end Assignment

end SatSearch
