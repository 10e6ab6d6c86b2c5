import SatSearch.Propagation.Outcome

/-!
# Watch — unit propagation by watching two literals of each clause

A clause of two or more literals watches two of its positions, and is looked at only when a
watched literal becomes false. Clauses of one literal and of none cannot watch two; they are kept
in lists of their own and looked at on every call. The watch positions live beside the formula, so
stored clauses are never reordered.
-/

namespace SatSearch

structure WatchIndex where
  /-- The clauses that watch each literal, by literal code. -/
  lists : Array (Array Nat)
  /-- The two watched positions of each clause; without meaning for shorter clauses. -/
  positions : Array (Nat × Nat)
  units : Array Nat
  empties : Array Nat
  deriving DecidableEq, Repr

namespace WatchIndex

/-! ## Choosing positions -/

/-- The level a false literal was falsified at; `none` for a literal that is not false. -/
def falseLevel? (t : Trail) (l : Literal) : Except Fault (Option Nat) :=
  if t.values.literal? l = some false then (t.levelOf l.var).map some else .ok none

/-- Whether a literal falsified as `a` is to be watched rather than one falsified as `b`: one that
is not false before one that is, then the one falsified at the higher level. -/
def preferred : Option Nat → Option Nat → Bool
  | none, some _ => true
  | some a, some b => b < a
  | _, none => false

/-- The position to be watched first of all, the earliest one of several that are equal. -/
def best (first : Nat × Option Nat) : List (Nat × Option Nat) → Nat × Option Nat
  | [] => first
  | x :: xs => best (if preferred x.2 first.2 then x else first) xs

/-- The positions of the literals from `position` on, each with the level it was falsified at. -/
def ranked (t : Trail) (position : Nat) : List Literal → Except Fault (List (Nat × Option Nat))
  | [] => .ok []
  | l :: ls =>
    match falseLevel? t l, ranked t (position + 1) ls with
    | .ok level, .ok rest => .ok ((position, level) :: rest)
    | .error e, _ => .error e
    | _, .error e => .error e

/-- The two positions to watch, if there are two. -/
def choose? : List (Nat × Option Nat) → Option (Nat × Nat)
  | [] => none
  | x :: xs =>
    let first := best x xs
    match (x :: xs).filter fun y => y.1 ≠ first.1 with
    | [] => none
    | y :: ys => some (first.1, (best y ys).1)

/-! ## Registering clauses -/

/-- Room for the positions of the clauses up to `c`. -/
def room (positions : Array (Nat × Nat)) (c : Nat) : Array (Nat × Nat) :=
  positions ++ Array.replicate (c + 1 - positions.size) (0, 0)

/-- Lets clause `c` watch the literal. -/
def watch? (lists : Array (Array Nat)) (l : Literal) (c : Nat) : Option (Array (Array Nat)) :=
  if l.code < lists.size then some (lists.modify l.code (·.push c)) else none

/-- Takes clause `c` in, watching the positions that are best under the trail. -/
def register (f : Formula) (t : Trail) (c : Nat) : WatchIndex → Except Fault WatchIndex
  | ⟨lists, positions, units, empties⟩ =>
    let positions := room positions c
    match f.clause? c with
    | none => .error (.noClause c)
    | some clause =>
      match clause.literals with
      | [] => .ok ⟨lists, positions, units, empties.push c⟩
      | [_] => .ok ⟨lists, positions, units.push c, empties⟩
      | ls =>
        match ranked t 0 ls with
        | .error e => .error e
        | .ok ranks =>
          match choose? ranks with
          | none => .error (.noLiteral c 0)
          | some (p, q) =>
            match ls[p]?, ls[q]? with
            | some a, some b =>
              match watch? lists a c with
              | none => .error (.unwatchable a t.steps)
              | some lists =>
                match watch? lists b c with
                | none => .error (.unwatchable b t.steps)
                | some lists => .ok ⟨lists, positions.setIfInBounds c (p, q), units, empties⟩
            | _, _ => .error (.noLiteral c p)

/-- Takes the clauses in, one after the other. -/
def registerAll (f : Formula) (t : Trail) : List Nat → WatchIndex → Except Fault WatchIndex
  | [], w => .ok w
  | c :: cs, w =>
    match w.register f t c with
    | .error e => .error e
    | .ok w => registerAll f t cs w

/-- The index of all clauses of a formula, with nothing assigned. -/
def ofFormula (f : Formula) : Except Fault WatchIndex :=
  registerAll f (.empty f.numVars) (List.range f.size)
    ⟨Array.replicate (2 * f.numVars) #[], #[], #[], #[]⟩

/-! ## Visiting the clauses that watch a literal -/

/-- Removes the entry at a position and puts the last entry there. -/
def dropBySwap (list : Array Nat) (position : Nat) : Array Nat :=
  match list.back? with
  | none => list
  | some last => (list.setIfInBounds position last).pop

/-- The first literal from `position` on that stands at neither watched position and is not
false. -/
def replacement? (values : Assignment) (p q : Nat) (position : Nat) :
    List Literal → Option (Nat × Literal)
  | [] => none
  | l :: ls =>
    if position ≠ p ∧ position ≠ q ∧ values.literal? l ≠ some false then some (position, l)
    else replacement? values p q (position + 1) ls

/-- Visits the last `left` entries of `list`, the clauses that watch the literal `falsified`,
from the front. An entry stays if its clause is satisfied by its other watched literal or forces
it, and goes if the clause finds another literal to watch. The visit ends early at a clause that
fails. -/
def visit (f : Formula) (falsified : Literal) :
    Nat → Array Nat → WatchIndex → Trail →
      Except Fault (Option Nat × Array Nat × WatchIndex × Trail)
  | 0, list, w, t => .ok (none, list, w, t)
  | left + 1, list, ⟨lists, positions, units, empties⟩, t =>
    let entry := list.size - (left + 1)
    match list[entry]? with
    | none => .ok (none, list, ⟨lists, positions, units, empties⟩, t)
    | some c =>
      match f.clause? c, positions[c]? with
      | some clause, some (p, q) =>
        match clause.literals[p]?, clause.literals[q]? with
        | some a, some b =>
          let first := a == falsified
          let other := if first then b else a
          match t.values.literal? other with
          | some true => visit f falsified left list ⟨lists, positions, units, empties⟩ t
          | value =>
            match replacement? t.values p q 0 clause.literals with
            | some (k, l) =>
              match watch? lists l c with
              | none => .error (.unwatchable l t.steps)
              | some lists =>
                let moved := if first then (k, q) else (p, k)
                visit f falsified left (dropBySwap list entry)
                  ⟨lists, positions.setIfInBounds c moved, units, empties⟩ t
            | none =>
              match value with
              | some _ => .ok (some c, list, ⟨lists, positions, units, empties⟩, t)
              | none =>
                match t.push other (.clause c) with
                | .error e => .error e
                | .ok t => visit f falsified left list ⟨lists, positions, units, empties⟩ t
        | _, _ => .error (.noLiteral c p)
      | _, _ => .error (.noClause c)

/-- Visits every clause that watches a literal which has become false. The list is taken out
while it is visited; what remains of it goes in front of entries added meanwhile. -/
def falsify (f : Formula) (falsified : Literal) :
    WatchIndex → Trail → Except Fault (Option Nat × WatchIndex × Trail)
  | ⟨lists, positions, units, empties⟩, t =>
    match lists[falsified.code]? with
    | none => .error (.unwatchable falsified t.steps)
    | some list =>
      match visit f falsified list.size list
          ⟨lists.setIfInBounds falsified.code #[], positions, units, empties⟩ t with
      | .error e => .error e
      | .ok (failed, list, ⟨lists, positions, units, empties⟩, t) =>
        .ok (failed, ⟨lists.modify falsified.code (list ++ ·), positions, units, empties⟩, t)

/-! ## Propagating -/

/-- Assigns the literals of the clauses of one literal, in order. Tells the first clause whose
literal is false. -/
def assertUnits (f : Formula) : List Nat → Trail → Except Fault (Option Nat × Trail)
  | [], t => .ok (none, t)
  | c :: cs, t =>
    match f.clause? c with
    | none => .error (.noClause c)
    | some clause =>
      match clause.literals with
      | [] => .error (.noLiteral c 0)
      | l :: _ =>
        match t.values.literal? l with
        | some true => assertUnits f cs t
        | some false => .ok (some c, t)
        | none =>
          match t.push l (.clause c) with
          | .error e => .error e
          | .ok t => assertUnits f cs t

/-- Propagates at most `fuel` steps. -/
def drain (f : Formula) : Nat → WatchIndex → Trail → Except Fault (Outcome × WatchIndex × Trail)
  | 0, w, t => .ok (.fixpoint, w, t)
  | fuel + 1, w, t =>
    match t.steps[t.head]? with
    | none => .ok (.fixpoint, w, t)
    | some step =>
      match falsify f step.literal.negate w t.advance with
      | .error e => .error e
      | .ok (some c, w, t) => .ok (.conflict c, w, t)
      | .ok (none, w, t) => drain f fuel w t

/-- The trail grows by at most one step for each variable, so it is drained after as many steps
as it has now and one for each variable. -/
def propagate (f : Formula) (w : WatchIndex) (t : Trail) :
    Except Fault (Outcome × WatchIndex × Trail) :=
  match w.empties[0]? with
  | some c => .ok (.conflict c, w, t)
  | none =>
    match assertUnits f w.units.toList t with
    | .error e => .error e
    | .ok (some c, t) => .ok (.conflict c, w, t)
    | .ok (none, t) => drain f (t.length + t.values.size) w t

end WatchIndex
end SatSearch
