import SatSearch.Branching.Selector
import SatSearch.Conflict.Analyser
import SatSearch.Restart.Restarter
import SatSearch.Search.Budget
import SatSearch.Search.Position

/-!
# Cdcl — search that learns from conflicts

One round of the search propagates and then makes a move: after a conflict it learns a clause and
jumps back, or finds that there is no way on; at a fixpoint it stops with a model, starts over, or
decides a variable. A call makes rounds until it has a verdict or its budget is reached, which is
checked before each round. What was learned, the scores and the counters outlive a call.

As far as the budget is concerned no time passes during a call. A caller that has a clock makes the
rounds in portions and looks at the clock in between.
-/

namespace SatSearch

structure Cdcl (σ : Type) where
  position : Position
  selector : σ
  analyser : Analyser
  restarter : Restarter
  conflicts : Nat
  decisions : Nat
  budget : Budget

namespace Cdcl

/-- What a round of the search did after propagating. -/
inductive Move
  /-- The clause failed at level zero. -/
  | refuted (conflict : Nat)
  /-- The clause failed, and its analysis leaves no way on. -/
  | closed (conflict : Nat) (analysis : Analysis)
  /-- The clause failed; `learned` was learned and its first literal asserted at `level`. -/
  | asserted (conflict : Nat) (learned : Clause) (level : Nat)
  /-- The clause failed; `learned` was learned and the branch `branch` flipped. `level` is where
  the analysis would have resumed. -/
  | flipped (conflict : Nat) (learned : Clause) (level : Nat) (branch : Step)
  /-- Every variable has a value. -/
  | completed (model : Model)
  | restarted
  | decided (literal : Literal)
  /-- No variable was picked although some have no value. -/
  | undecided (model : Model)
  deriving DecidableEq, Repr

/-- The verdict that a move ends the search with. -/
def Move.verdict? : Move → Option Verdict
  | .refuted _ => some .unsatisfiable
  | .closed _ _ => some .unsatisfiable
  | .completed m => some (.satisfiable m)
  | .undecided m => some (.satisfiable m)
  | _ => none

variable {σ : Type} [Selector σ]

/-- A search over a position where nothing was learned yet. -/
def start (position : Position) (selector : σ) (analyser : Analyser) (restarter : Restarter) :
    Cdcl σ :=
  ⟨position, selector, analyser, restarter, 0, 0, .unlimited⟩

def statistics (s : Cdcl σ) : Statistics :=
  ⟨s.conflicts, s.decisions, s.position.propagations, s.restarter.restarts,
    s.position.formula.learnts.size⟩

/-! ## Moves -/

/-- Jumps back to `level`, learns the clause, and asserts its first literal. -/
def assertLearned (p : Position) (clause : Clause) (level : Nat) : Except Fault Position :=
  match clause.literals with
  | [] => .error (.noLiteral p.formula.size 0)
  | l :: _ =>
    match p.backstep level with
    | .error e => .error e
    | .ok p =>
      match p.learn clause with
      | .error e => .error e
      | .ok (c, p) => p.push l (.clause c)

/-- Steps back below the branch, learns the clause, and takes the other side of the branch. -/
def flip (p : Position) (clause : Clause) (branch : Step) : Except Fault Position :=
  match branch.level with
  | 0 => .error (.noStep 0)
  | below + 1 =>
    match p.backstep below with
    | .error e => .error e
    | .ok p =>
      match p.learn clause with
      | .error e => .error e
      | .ok (_, p) => p.branch branch.literal.negate .flipped

/-- The move after clause `c` failed. -/
def onConflict (c : Nat) : Cdcl σ → Except Fault (Move × Cdcl σ)
  | ⟨p, selector, analyser, restarter, conflicts, decisions, budget⟩ =>
    if p.trail.level = 0 then
      .ok (.refuted c, ⟨p, selector, analyser, restarter, conflicts + 1, decisions, budget⟩)
    else
      match analyser.analyse p.formula p.trail c with
      | .error e => .error e
      | .ok (analysis, vars, analyser) =>
        match Selector.reward selector vars with
        | .error e => .error e
        | .ok selector =>
          let selector := Selector.decay selector
          match analysis with
          | .ground =>
            .ok (.closed c .ground,
              ⟨p, selector, analyser, restarter, conflicts + 1, decisions, budget⟩)
          | .asserting clause level =>
            match assertLearned p clause level with
            | .error e => .error e
            | .ok p =>
              .ok (.asserted c clause level,
                ⟨p, selector, analyser, restarter.tick, conflicts + 1, decisions, budget⟩)
          | .retry clause level =>
            match p.trail.openBranch? (level + 1) with
            | none =>
              .ok (.closed c (.retry clause level),
                ⟨p, selector, analyser, restarter, conflicts + 1, decisions, budget⟩)
            | some branch =>
              match flip p clause branch with
              | .error e => .error e
              | .ok p =>
                .ok (.flipped c clause level branch,
                  ⟨p, selector, analyser, restarter.tick, conflicts + 1, decisions, budget⟩)

/-- The move at a fixpoint. -/
def onFixpoint : Cdcl σ → Except Fault (Move × Cdcl σ)
  | ⟨p, selector, analyser, restarter, conflicts, decisions, budget⟩ =>
    if p.trail.values.isComplete then
      .ok (.completed (.ofAssignment p.trail.values),
        ⟨p, selector, analyser, restarter, conflicts, decisions, budget⟩)
    else if restarter.isDue then
      .ok (.restarted,
        ⟨p.clear, selector, analyser, restarter.restart, conflicts, decisions, budget⟩)
    else
      match Selector.pick selector p.trail.values with
      | .error e => .error e
      | .ok none =>
        .ok (.undecided (.ofAssignment p.trail.values),
          ⟨p, selector, analyser, restarter, conflicts, decisions, budget⟩)
      | .ok (some v) =>
        match p.branch ⟨v, true⟩ .decision with
        | .error e => .error e
        | .ok p =>
          .ok (.decided ⟨v, true⟩,
            ⟨p, selector, analyser, restarter, conflicts, decisions + 1, budget⟩)

/-! ## Rounds -/

/-- Propagates. -/
def propagate : Cdcl σ → Except Fault (Outcome × Cdcl σ)
  | ⟨p, selector, analyser, restarter, conflicts, decisions, budget⟩ =>
    match p.propagate with
    | .error e => .error e
    | .ok (outcome, p) =>
      .ok (outcome, ⟨p, selector, analyser, restarter, conflicts, decisions, budget⟩)

/-- Makes the move that the outcome of propagation asks for. -/
def respond (s : Cdcl σ) : Outcome → Except Fault (Move × Cdcl σ)
  | .conflict c => s.onConflict c
  | .fixpoint => s.onFixpoint

/-- One round. -/
def round (s : Cdcl σ) : Except Fault (Move × Cdcl σ) :=
  match s.propagate with
  | .error e => .error e
  | .ok (outcome, s) => s.respond outcome

/-- Whether the budget is reached by what was spent since the counters stood as given. -/
def isExhausted (conflicts decisions : Nat) (s : Cdcl σ) : Bool :=
  s.budget.isExhausted (s.conflicts - conflicts) (s.decisions - decisions) 0

/-- At most `fuel` rounds of a call that began when the counters stood as given. There is no
verdict as long as more rounds are to be made. -/
def run (conflicts decisions : Nat) :
    Nat → Cdcl σ → Except Fault (Option Verdict × Cdcl σ)
  | 0, s => .ok (none, s)
  | fuel + 1, s =>
    if s.isExhausted conflicts decisions then .ok (some .unknown, s)
    else
      match s.round with
      | .error e => .error e
      | .ok (move, s) =>
        match move.verdict? with
        | some verdict => .ok (some verdict, s)
        | none => run conflicts decisions fuel s

/-- Takes every assignment back, which is how a call begins. -/
def clear : Cdcl σ → Cdcl σ
  | ⟨p, selector, analyser, restarter, conflicts, decisions, budget⟩ =>
    ⟨p.clear, selector, analyser, restarter, conflicts, decisions, budget⟩

/-- One call of at most `fuel` rounds. -/
def solve (fuel : Nat) (s : Cdcl σ) : Except Fault (Option Verdict × Cdcl σ) :=
  run s.conflicts s.decisions fuel s.clear

/-! ## Between calls -/

/-- Adds a given clause and tells its index. Once clauses were learned, their indices shift and
the propagator takes all clauses in anew. -/
def add (ls : List Literal) : Cdcl σ → Except Fault (Except FormulaError Nat × Cdcl σ)
  | ⟨p, selector, analyser, restarter, conflicts, decisions, budget⟩ =>
    match p.add (!p.formula.learnts.isEmpty) ls with
    | .error e => .error e
    | .ok (answer, p) =>
      .ok (answer, ⟨p, selector, analyser, restarter, conflicts, decisions, budget⟩)

def setBudget (budget : Budget) (s : Cdcl σ) : Cdcl σ :=
  { s with budget }

end Cdcl
end SatSearch
