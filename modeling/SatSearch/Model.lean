import SatSearch.Assignment

/-!
# Model — a truth value for every variable

What a satisfiable formula is answered with. Its written form lists the true literal of every
variable in order and ends with a zero.
-/

namespace SatSearch

structure Model where
  values : Array Bool
  deriving DecidableEq, Repr

namespace Model

/-- Variables without a value are read as false. -/
def ofAssignment (a : Assignment) : Model :=
  ⟨a.values.map (·.getD false)⟩

def size (m : Model) : Nat :=
  m.values.size

def value? (m : Model) (v : Nat) : Option Bool :=
  m.values[v]?

/-- False also for a literal whose variable the model does not have. -/
def satisfies (m : Model) (l : Literal) : Bool :=
  m.value? l.var == some l.positive

/-- The true literal of every variable, in order. -/
def literals (m : Model) : List Literal :=
  m.values.toList.zipIdx.map fun (value, v) => ⟨v, value⟩

def text (m : Model) : String :=
  terminated m.literals

end Model

end SatSearch
