import SatSearch.Formula

/-!
# Trail — the assigned literals in the order they were assigned

The trail owns the assignment. Beside the values it keeps, for every assigned variable, the
decision level and the reason of its assignment, and for every level above zero the position where
it starts. Levels along the trail never decrease, so stepping back to a level cuts the trail where
the next level starts. Operations that are impossible end in a `Fault`.
-/

namespace SatSearch

/-- Why a literal was assigned. -/
inductive Reason
  /-- It was chosen. -/
  | decision
  /-- Its complement was chosen before and failed. -/
  | flipped
  /-- Every other literal of this clause was false. -/
  | clause (index : Nat)
  deriving DecidableEq, Repr

structure Step where
  literal : Literal
  level : Nat
  reason : Reason
  deriving DecidableEq, Repr

/-- Why an operation of the search is impossible. A fault met while literals are being assigned
keeps the steps made until then. -/
inductive Fault
  | noClause (index : Nat)
  | noLiteral (clause : Nat) (position : Nat)
  | noVariable (var : Nat)
  | noStep (position : Nat)
  /-- The literal cannot be assigned: it names no variable, or its variable has a value. -/
  | unassignable (literal : Literal) (reason : Reason) (steps : Array Step)
  /-- No clause can watch the literal, because it names no variable. -/
  | unwatchable (literal : Literal) (steps : Array Step)
  /-- Resolution went past the first step without reaching an implication point. -/
  | noImplicationPoint
  deriving DecidableEq, Repr

/-- The level and the reason of an assignment. -/
structure Origin where
  level : Nat
  reason : Reason
  deriving DecidableEq, Repr

structure Trail where
  steps : Array Step
  /-- The position where level `k + 1` starts, for each `k` below the current level. -/
  levelStarts : Array Nat
  /-- The origin of each variable's value. -/
  origins : Array (Option Origin)
  values : Assignment
  /-- The first step whose consequences are still to be propagated. -/
  head : Nat
  deriving DecidableEq, Repr

namespace Trail

/-- Nothing is assigned. -/
def empty (numVars : Nat) : Trail :=
  ⟨#[], #[], Array.replicate numVars none, .empty numVars, 0⟩

/-- The current decision level. -/
def level (t : Trail) : Nat :=
  t.levelStarts.size

def length (t : Trail) : Nat :=
  t.steps.size

/-- The level the variable was assigned at; zero if it has no value. -/
def levelOf (t : Trail) (v : Nat) : Except Fault Nat :=
  match t.origins[v]? with
  | none => .error (.noVariable v)
  | some none => .ok 0
  | some (some origin) => .ok origin.level

/-! ## Growing -/

/-- Opens a level; the next literal pushed starts it. -/
def newLevel : Trail → Trail
  | ⟨steps, levelStarts, origins, values, head⟩ =>
    ⟨steps, levelStarts.push steps.size, origins, values, head⟩

/-- Makes the literal true at the current level. Its variable must not have a value. -/
def push : Trail → Literal → Reason → Except Fault Trail
  | ⟨steps, levelStarts, origins, values, head⟩, l, reason =>
    match origins[l.var]? with
    | some none =>
      match values.assign? l with
      | some values =>
        .ok ⟨steps.push ⟨l, levelStarts.size, reason⟩, levelStarts,
          origins.setIfInBounds l.var (some ⟨levelStarts.size, reason⟩), values, head⟩
      | none => .error (.unassignable l reason steps)
    | _ => .error (.unassignable l reason steps)

/-- Marks all steps as propagated. -/
def settle : Trail → Trail
  | ⟨steps, levelStarts, origins, values, _⟩ =>
    ⟨steps, levelStarts, origins, values, steps.size⟩

/-- Takes the next step to propagate. -/
def advance : Trail → Trail
  | ⟨steps, levelStarts, origins, values, head⟩ =>
    ⟨steps, levelStarts, origins, values, head + 1⟩

/-! ## Branches -/

/-- The first step of a level above zero, unless the level is empty. -/
def branchAt? (t : Trail) : Nat → Option Step
  | 0 => none
  | k + 1 =>
    match t.levelStarts[k]? with
    | none => none
    | some start => (t.steps[start]?).filter (·.level == k + 1)

/-- The branch of the highest level up to `k` that was chosen and not yet flipped. -/
def openBranchUpTo? (t : Trail) : Nat → Option Step
  | 0 => none
  | k + 1 =>
    match t.branchAt? (k + 1) with
    | some step => if step.reason = .decision then some step else t.openBranchUpTo? k
    | none => t.openBranchUpTo? k

/-- The branch of the highest level, not above `max`, that was chosen and not yet flipped. -/
def openBranch? (t : Trail) (max : Nat) : Option Step :=
  t.openBranchUpTo? (min max t.level)

/-! ## Stepping back -/

/-- Takes the last `count` steps back, the last one first. -/
def unwind : Nat → Trail → Except Fault Trail
  | 0, t => .ok t
  | count + 1, ⟨steps, levelStarts, origins, values, head⟩ =>
    match steps.back? with
    | none => .error (.noStep count)
    | some step =>
      match values.unassign? step.literal.var with
      | none => .error (.noVariable step.literal.var)
      | some values =>
        unwind count ⟨steps.pop, levelStarts, origins.setIfInBounds step.literal.var none,
          values, head⟩

/-- Drops every level above `level`. At or below that level already, nothing happens. -/
def backstep (t : Trail) (level : Nat) : Except Fault Trail :=
  match t.levelStarts[level]? with
  | none => .ok t
  | some start =>
    match t.unwind (t.steps.size - start) with
    | .error e => .error e
    | .ok ⟨steps, levelStarts, origins, values, head⟩ =>
      .ok ⟨steps, levelStarts.take level, origins, values, min head start⟩

/-- Takes the origins of the steps away, that of the first step first. Every step that was pushed is
about a variable with an entry, so there is nothing to refuse here. -/
def forget : List Step → Array (Option Origin) → Array (Option Origin)
  | [], origins => origins
  | step :: steps, origins => forget steps (origins.setIfInBounds step.literal.var none)

/-- Takes every step back, those of level zero included. Values are taken away from all variables,
but origins only from those that the steps are about. -/
def clear : Trail → Trail
  | ⟨steps, _, origins, values, _⟩ => ⟨#[], #[], forget steps.toList origins, values.clear, 0⟩

end Trail

end SatSearch
