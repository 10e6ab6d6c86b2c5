import SatSearch.Propagation.Propagator

/-!
# Position — where a search stands

The formula, the propagator that indexes it, and the trail: what both searches share, and what
each of their moves changes. Literals assigned by propagation are counted.
-/

namespace SatSearch

structure Position where
  formula : Formula
  propagator : Propagator
  trail : Trail
  /-- Literals assigned by propagation so far. -/
  propagations : Nat
  deriving DecidableEq, Repr

namespace Position

/-- Nothing is assigned. -/
def ofFormula (kind : PropagatorKind) (f : Formula) : Except Fault Position :=
  match Propagator.ofFormula kind f with
  | .error e => .error e
  | .ok propagator => .ok ⟨f, propagator, .empty f.numVars, 0⟩

def propagate : Position → Except Fault (Outcome × Position)
  | ⟨f, propagator, trail, propagations⟩ =>
    let before := trail.length
    match propagator.propagate f trail with
    | .error e => .error e
    | .ok (outcome, propagator, trail) =>
      .ok (outcome, ⟨f, propagator, trail, propagations + (trail.length - before)⟩)

/-! ## The trail -/

/-- Assigns the literal at the current level. -/
def push : Position → Literal → Reason → Except Fault Position
  | ⟨f, propagator, trail, propagations⟩, l, reason =>
    match trail.push l reason with
    | .error e => .error e
    | .ok trail => .ok ⟨f, propagator, trail, propagations⟩

/-- Opens a level and starts it with the literal. -/
def branch : Position → Literal → Reason → Except Fault Position
  | ⟨f, propagator, trail, propagations⟩, l, reason =>
    match trail.newLevel.push l reason with
    | .error e => .error e
    | .ok trail => .ok ⟨f, propagator, trail, propagations⟩

def backstep : Position → Nat → Except Fault Position
  | ⟨f, propagator, trail, propagations⟩, level =>
    match trail.backstep level with
    | .error e => .error e
    | .ok trail => .ok ⟨f, propagator, trail, propagations⟩

/-- Takes every assignment back. -/
def clear : Position → Position
  | ⟨f, propagator, trail, propagations⟩ => ⟨f, propagator, trail.clear, propagations⟩

/-! ## The formula -/

/-- Learns a clause under the current trail and tells its index. -/
def learn : Position → Clause → Except Fault (Nat × Position)
  | ⟨f, propagator, trail, propagations⟩, clause =>
    match f.learn clause with
    | (c, f) =>
      match propagator.register f trail c with
      | .error e => .error e
      | .ok propagator => .ok (c, ⟨f, propagator, trail, propagations⟩)

/-- Takes every assignment back and adds a given clause, telling its index. The propagator takes
in the new clause alone, or all clauses anew if `anew`. -/
def add (anew : Bool) (p : Position) (ls : List Literal) :
    Except Fault (Except FormulaError Nat × Position) :=
  match p.clear with
  | ⟨f, propagator, trail, propagations⟩ =>
    match f.add ls with
    | .error e => .ok (.error e, ⟨f, propagator, trail, propagations⟩)
    | .ok (c, f) =>
      match if anew then propagator.rebuild f else propagator.register f trail c with
      | .error e => .error e
      | .ok propagator => .ok (.ok c, ⟨f, propagator, trail, propagations⟩)

end Position
end SatSearch
