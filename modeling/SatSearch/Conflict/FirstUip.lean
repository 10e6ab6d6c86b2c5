import SatSearch.Conflict.Analysis

/-!
# FirstUip — learning the clause at the first unique implication point

Starting from the conflicting clause, literals of the conflict level are resolved away against the
clauses that forced them, the most recent one first, until a single one is left: the first unique
implication point. The learned clause holds its complement and the literals of earlier levels that
were met; literals of level zero are false in every model and dropped.

The marks that tell which variables were met are kept from one conflict to the next, all of them
cleared again, so that each analysis pays only for the variables it meets.
-/

namespace SatSearch

structure FirstUip where
  seen : Array Bool
  deriving DecidableEq, Repr

namespace FirstUip

def empty (numVars : Nat) : FirstUip :=
  ⟨Array.replicate numVars false⟩

/-- Marks for at least `numVars` variables. -/
def grow (numVars : Nat) (a : FirstUip) : FirstUip :=
  ⟨a.seen ++ Array.replicate (numVars - a.seen.size) false⟩

/-- The state of a resolution. -/
structure Resolution where
  seen : Array Bool
  /-- The marked variables in the order they were met. -/
  met : Array Nat
  /-- The literals of earlier levels in the order they were met. -/
  lower : Array Literal
  /-- How many marked variables of the conflict level are still to be resolved away. -/
  pending : Nat
  deriving DecidableEq, Repr

/-! ## Meeting the literals of a clause -/

/-- Takes the literals of a clause into the resolution, passing over the variable that is being
resolved away, variables already marked, and level zero. -/
def meet (t : Trail) (conflictLevel : Nat) (pivot : Option Nat) :
    List Literal → Resolution → Except Fault Resolution
  | [], r => .ok r
  | l :: ls, ⟨seen, met, lower, pending⟩ =>
    if pivot = some l.var then meet t conflictLevel pivot ls ⟨seen, met, lower, pending⟩
    else
      match seen[l.var]? with
      | none => .error (.noVariable l.var)
      | some true => meet t conflictLevel pivot ls ⟨seen, met, lower, pending⟩
      | some false =>
        match t.levelOf l.var with
        | .error e => .error e
        | .ok 0 => meet t conflictLevel pivot ls ⟨seen, met, lower, pending⟩
        | .ok level =>
          let seen := seen.setIfInBounds l.var true
          if conflictLevel ≤ level then
            meet t conflictLevel pivot ls ⟨seen, met.push l.var, lower, pending + 1⟩
          else
            meet t conflictLevel pivot ls ⟨seen, met.push l.var, lower.push l, pending⟩

/-! ## Walking back along the trail -/

/-- Walks back from position `position` of the trail. Every marked step is resolved away, until
no other one is pending or the step is a branch; that step is the implication point. -/
def walk (f : Formula) (t : Trail) (conflictLevel : Nat) :
    Nat → Resolution → Except Fault (Literal × Resolution)
  | 0, _ => .error .noImplicationPoint
  | position + 1, ⟨seen, met, lower, pending⟩ =>
    match t.steps[position]? with
    | none => .error (.noStep position)
    | some step =>
      match seen[step.literal.var]? with
      | none => .error (.noVariable step.literal.var)
      | some false => walk f t conflictLevel position ⟨seen, met, lower, pending⟩
      | some true =>
        match pending with
        | 0 => .error .noImplicationPoint
        | 1 => .ok (step.literal, ⟨seen, met, lower, 0⟩)
        | pending + 1 =>
          match step.reason with
          | .decision => .ok (step.literal, ⟨seen, met, lower, pending⟩)
          | .flipped => .ok (step.literal, ⟨seen, met, lower, pending⟩)
          | .clause c =>
            match f.clause? c with
            | none => .error (.noClause c)
            | some clause =>
              match meet t conflictLevel (some step.literal.var) clause.literals
                  ⟨seen, met, lower, pending⟩ with
              | .error e => .error e
              | .ok r => walk f t conflictLevel position r

/-! ## The learned clause -/

/-- Takes the marks of these variables away. -/
def unmark (seen : Array Bool) : List Nat → Array Bool
  | [] => seen
  | v :: vs => unmark (seen.setIfInBounds v false) vs

/-- The position and the level of the literal with the highest level, the last one of several
that are equal; `position` is that of the head of the list. -/
def lastDeepest (t : Trail) (best : Nat × Nat) (position : Nat) :
    List Literal → Except Fault (Nat × Nat)
  | [] => .ok best
  | l :: ls =>
    match t.levelOf l.var with
    | .error e => .error e
    | .ok level =>
      lastDeepest t (if best.2 ≤ level then (position, level) else best) (position + 1) ls

/-- The learned clause, its literal of the highest earlier level in the second place, and that
level. -/
def clauseOf (t : Trail) (point : Literal) (lower : Array Literal) :
    Except Fault (Clause × Nat) :=
  if lower.isEmpty then .ok (.learned [point.negate], 0)
  else
    match lastDeepest t (0, 0) 0 lower.toList with
    | .error e => .error e
    | .ok (position, level) =>
      .ok (.learned (point.negate :: (lower.swapIfInBounds 0 position).toList), level)

/-- The analysis of a conflict on clause `c`, and the variables met. -/
def analyse (f : Formula) (t : Trail) (c : Nat) (a : FirstUip) :
    Except Fault (Analysis × List Nat × FirstUip) :=
  let a := a.grow f.numVars
  match f.clause? c with
  | none => .error (.noClause c)
  | some clause =>
    match deepestLevel t clause.literals with
    | .error e => .error e
    | .ok 0 => .ok (.ground, clause.literals.map Literal.var, a)
    | .ok level =>
      match meet t level none clause.literals ⟨a.seen, #[], #[], 0⟩ with
      | .error e => .error e
      | .ok r =>
        match walk f t level t.length r with
        | .error e => .error e
        | .ok (point, ⟨seen, met, lower, _⟩) =>
          match clauseOf t point lower with
          | .error e => .error e
          | .ok (learned, target) =>
            .ok (.asserting learned target, met.toList, ⟨unmark seen met.toList⟩)

end FirstUip
end SatSearch
