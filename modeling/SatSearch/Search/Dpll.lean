import SatSearch.Branching.Selector
import SatSearch.Search.Budget
import SatSearch.Search.Position

/-!
# Dpll — search by backtracking

One round of the search propagates and then makes a move: after a conflict it flips the highest
branch that has not been flipped, and at a fixpoint it stops if every given clause is satisfied,
possibly with variables left without a value, or decides a variable. Nothing is learned.

As far as the budget is concerned no time passes during a call. A caller that has a clock makes the
rounds in portions and looks at the clock in between.
-/

namespace SatSearch

structure Dpll (σ : Type) where
  position : Position
  selector : σ
  conflicts : Nat
  decisions : Nat
  budget : Budget

namespace Dpll

/-- What a round of the search did after propagating. -/
inductive Move
  /-- The clause failed, and every branch has been flipped. -/
  | refuted (conflict : Nat)
  /-- The clause failed, and `branch` was flipped. -/
  | flipped (conflict : Nat) (branch : Step)
  /-- Every given clause is satisfied. -/
  | satisfied (model : Model)
  | decided (literal : Literal)
  /-- No variable was picked although some clause is not satisfied. -/
  | undecided
  deriving DecidableEq, Repr

/-- The verdict that a move ends the search with. -/
def Move.verdict? : Move → Option Verdict
  | .refuted _ => some .unsatisfiable
  | .satisfied m => some (.satisfiable m)
  | .undecided => some .unsatisfiable
  | _ => none

variable {σ : Type} [Selector σ]

def start (position : Position) (selector : σ) : Dpll σ :=
  ⟨position, selector, 0, 0, .unlimited⟩

def statistics (s : Dpll σ) : Statistics :=
  ⟨s.conflicts, s.decisions, s.position.propagations, 0, 0⟩

/-! ## Moves -/

/-- Steps back below the branch and takes its other side. -/
def flip (p : Position) (branch : Step) : Except Fault Position :=
  match branch.level with
  | 0 => .error (.noStep 0)
  | below + 1 =>
    match p.backstep below with
    | .error e => .error e
    | .ok p => p.branch branch.literal.negate .flipped

/-- The move after clause `c` failed. -/
def onConflict (c : Nat) : Dpll σ → Except Fault (Move × Dpll σ)
  | ⟨p, selector, conflicts, decisions, budget⟩ =>
    match p.trail.openBranch? p.trail.level with
    | none => .ok (.refuted c, ⟨p, selector, conflicts + 1, decisions, budget⟩)
    | some branch =>
      match flip p branch with
      | .error e => .error e
      | .ok p => .ok (.flipped c branch, ⟨p, selector, conflicts + 1, decisions, budget⟩)

/-- The move at a fixpoint. -/
def onFixpoint : Dpll σ → Except Fault (Move × Dpll σ)
  | ⟨p, selector, conflicts, decisions, budget⟩ =>
    if p.formula.isSatisfied p.trail.values then
      .ok (.satisfied (.ofAssignment p.trail.values),
        ⟨p, selector, conflicts, decisions, budget⟩)
    else
      match Selector.pick selector p.trail.values with
      | .error e => .error e
      | .ok none => .ok (.undecided, ⟨p, selector, conflicts, decisions, budget⟩)
      | .ok (some v) =>
        match p.branch ⟨v, true⟩ .decision with
        | .error e => .error e
        | .ok p => .ok (.decided ⟨v, true⟩, ⟨p, selector, conflicts, decisions + 1, budget⟩)

/-! ## Rounds -/

/-- Propagates. -/
def propagate : Dpll σ → Except Fault (Outcome × Dpll σ)
  | ⟨p, selector, conflicts, decisions, budget⟩ =>
    match p.propagate with
    | .error e => .error e
    | .ok (outcome, p) => .ok (outcome, ⟨p, selector, conflicts, decisions, budget⟩)

/-- Makes the move that the outcome of propagation asks for. -/
def respond (s : Dpll σ) : Outcome → Except Fault (Move × Dpll σ)
  | .conflict c => s.onConflict c
  | .fixpoint => s.onFixpoint

/-- One round. -/
def round (s : Dpll σ) : Except Fault (Move × Dpll σ) :=
  match s.propagate with
  | .error e => .error e
  | .ok (outcome, s) => s.respond outcome

/-- Whether the budget is reached by what was spent since the counters stood as given. -/
def isExhausted (conflicts decisions : Nat) (s : Dpll σ) : Bool :=
  s.budget.isExhausted (s.conflicts - conflicts) (s.decisions - decisions) 0

/-- At most `fuel` rounds of a call that began when the counters stood as given. There is no
verdict as long as more rounds are to be made. -/
def run (conflicts decisions : Nat) :
    Nat → Dpll σ → Except Fault (Option Verdict × Dpll σ)
  | 0, s => .ok (none, s)
  | fuel + 1, s =>
    if s.isExhausted conflicts decisions then .ok (some .unknown, s)
    else
      match s.round with
      | .error e => .error e
      | .ok (move, s) =>
        match move.verdict? with
        | some verdict => .ok (some verdict, s)
        | none => run conflicts decisions fuel s

/-- Takes every assignment back, which is how a call begins. -/
def clear : Dpll σ → Dpll σ
  | ⟨p, selector, conflicts, decisions, budget⟩ =>
    ⟨p.clear, selector, conflicts, decisions, budget⟩

/-- One call of at most `fuel` rounds. -/
def solve (fuel : Nat) (s : Dpll σ) : Except Fault (Option Verdict × Dpll σ) :=
  run s.conflicts s.decisions fuel s.clear

/-! ## Between calls -/

/-- Adds a given clause and tells its index; the propagator takes in that clause alone. -/
def add (ls : List Literal) : Dpll σ → Except Fault (Except FormulaError Nat × Dpll σ)
  | ⟨p, selector, conflicts, decisions, budget⟩ =>
    match p.add false ls with
    | .error e => .error e
    | .ok (answer, p) => .ok (answer, ⟨p, selector, conflicts, decisions, budget⟩)

def setBudget (budget : Budget) (s : Dpll σ) : Dpll σ :=
  { s with budget }

end Dpll
end SatSearch
