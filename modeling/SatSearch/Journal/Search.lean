import SatSearch.Journal.Formula
import SatSearch.Search.Solver

/-!
# Search — the journal of a search

Every entry follows from the state before a move, the move, and the state after it, so the search
itself keeps none.
-/

namespace SatSearch
namespace Journal

/-! ## Propagation -/

/-- Of assigning a literal because of clause `c`. -/
def ofForced (propagator : Propagator) (f : Formula) (l : Literal) (c : Nat) : Entry :=
  let unit := match propagator, f.clause? c with
    | .watch _, some clause => clause.length == 1
    | _, _ => false
  ⟨.trace, .propagation,
    l.text ++ (if unit then " asserted by unit clause " else " forced by clause ") ++ toString c⟩

def ofStep (propagator : Propagator) (f : Formula) (s : Step) : List Entry :=
  match s.reason with
  | .clause c => [ofForced propagator f s.literal c]
  | _ => []

/-- Of a clause that failed. Clauses too short to be watched fail without an entry. -/
def ofFailed (propagator : Propagator) (f : Formula) (c : Nat) : List Entry :=
  let short := match propagator, f.clause? c with
    | .watch _, some clause => decide (clause.length < 2)
    | _, _ => false
  if short then []
  else [⟨.trace, .propagation, "conflict on clause " ++ toString c⟩]

/-- Of the steps of a trail from position `start` on. -/
def ofSteps (propagator : Propagator) (f : Formula) (start : Nat) (steps : Array Step) :
    List Entry :=
  (steps.toList.drop start).flatMap (ofStep propagator f)

/-- Of propagation that was begun at `before`, ended in `outcome`, and led to `after`. -/
def ofPropagation (before : Position) (outcome : Outcome) (after : Position) : List Entry :=
  ofSteps after.propagator after.formula before.trail.length after.trail.steps ++
    match outcome with
    | .fixpoint => []
    | .conflict c => ofFailed after.propagator after.formula c

/-- Of propagation that was begun at `before` and found impossible. -/
def ofFault (before : Position) : Fault → List Entry
  | .unassignable l (.clause c) steps =>
    ofSteps before.propagator before.formula before.trail.length steps ++
      [ofForced before.propagator before.formula l c]
  | .unwatchable _ steps =>
    ofSteps before.propagator before.formula before.trail.length steps
  | _ => []

/-! ## Stepping back -/

/-- Of stepping back to `level`: nothing if the level is not above it. -/
def ofBackstep (t : Trail) (level : Nat) : List Entry :=
  match t.levelStarts[level]? with
  | none => []
  | some start =>
    [⟨.trace, .backjump, "backstep " ++ toString t.level ++ " -> " ++ toString level ++
      ", unassigning " ++ toString (t.length - start) ++ " variables"⟩]

/-- Of jumping back to `level`. -/
def ofBackjump (t : Trail) (level : Nat) : List Entry :=
  ⟨.debug, .backjump, "backjump " ++ toString t.level ++ " -> " ++ toString level⟩ ::
    ofBackstep t level

/-! ## Conflicts -/

def conflictAt (c : Nat) (level : Nat) : Entry :=
  ⟨.debug, .analysis, "conflict on clause " ++ toString c ++ " at level " ++ toString level⟩

/-- Of the analysis of a conflict on clause `c` under a trail. -/
def ofAnalysis (f : Formula) (t : Trail) (c : Nat) : Analysis → List Entry
  | .ground => [conflictAt c 0]
  | .retry _ level =>
    [⟨.debug, .analysis, "conflict on clause " ++ toString c ++ ", deepest level " ++
      toString (level + 1)⟩]
  | .asserting clause level =>
    let deepest := match f.clause? c with
      | none => 0
      | some failed => (deepestLevel t failed.literals).toOption.getD 0
    let point := match clause.literals with
      | [] => ""
      | l :: _ => l.negate.text
    [⟨.debug, .analysis, "conflict on clause " ++ toString c ++ " at level " ++
      toString deepest ++ ": learnt " ++ toString clause.length ++ " literals, uip " ++ point ++
      ", backjump to " ++ toString level⟩]

def ofDecision (l : Literal) (level : Nat) : Entry :=
  ⟨.trace, .decision, "decide " ++ l.text ++ " at level " ++ toString level⟩

/-! ## Learning search -/

namespace Cdcl

variable {σ : Type} [Selector σ]

/-- Of a move made at `before`, after propagation, that led to `after`. -/
def ofMove (before : SatSearch.Cdcl σ) (after : SatSearch.Cdcl σ) :
    SatSearch.Cdcl.Move → List Entry
  | .refuted c => [conflictAt c 0]
  | .closed c analysis => ofAnalysis before.position.formula before.position.trail c analysis
  | .asserted c clause level =>
    let f := before.position.formula
    let t := before.position.trail
    ofAnalysis f t c (.asserting clause level) ++ ofBackjump t level ++
      [learned f.size clause]
  | .flipped c clause level branch =>
    let f := before.position.formula
    let t := before.position.trail
    ofAnalysis f t c (.retry clause level) ++ ofBackjump t (branch.level - 1) ++
      [learned f.size clause,
        ⟨.debug, .backjump, "retrying " ++ branch.literal.negate.text ++ " at level " ++
          toString branch.level⟩]
  | .completed _ => []
  | .restarted =>
    [⟨.debug, .restart, "restart " ++ toString after.restarter.restarts ++ " after " ++
      toString after.conflicts ++ " conflicts, " ++
      toString after.position.formula.learnts.size ++ " learnt clauses"⟩]
  | .decided l => [ofDecision l after.position.trail.level]
  | .undecided _ => []

/-- How a call opens. -/
def opening (s : SatSearch.Cdcl σ) : Entry :=
  ⟨.info, .search, "cdcl: " ++ toString s.position.formula.numVars ++ " variables, " ++
    toString s.position.formula.size ++ " clauses (" ++
    toString s.position.formula.learnts.size ++ " learnt)"⟩

/-- How a call closes that began when the counters stood as given. -/
def closing (conflicts decisions : Nat) (verdict : Verdict) (s : SatSearch.Cdcl σ) : Entry :=
  ⟨.info, .search, "cdcl: " ++ verdict.text ++ " after " ++ toString (s.conflicts - conflicts) ++
    " conflicts, " ++ toString (s.decisions - decisions) ++ " decisions, " ++
    toString s.position.formula.learnts.size ++ " learnt clauses"⟩

/-- The entries of at most `fuel` rounds, behind those written before. -/
def ofRun (conflicts decisions : Nat) :
    Nat → SatSearch.Cdcl σ → Array Entry → Array Entry
  | 0, _, entries => entries
  | fuel + 1, s, entries =>
    if s.isExhausted conflicts decisions then
      entries.push (closing conflicts decisions .unknown s)
    else
      match s.propagate with
      | .error e => entries ++ (ofFault s.position e).toArray
      | .ok (outcome, propagated) =>
        let entries := entries ++ (ofPropagation s.position outcome propagated.position).toArray
        match propagated.respond outcome with
        | .error _ => entries
        | .ok (move, after) =>
          let entries := entries ++ (ofMove propagated after move).toArray
          match move.verdict? with
          | some verdict => entries.push (closing conflicts decisions verdict after)
          | none => ofRun conflicts decisions fuel after entries

/-- Of a call of at most `fuel` rounds. -/
def ofSolve (fuel : Nat) (s : SatSearch.Cdcl σ) : Array Entry :=
  ofRun s.conflicts s.decisions fuel s.clear #[opening s]

end Cdcl

/-! ## Backtracking search -/

namespace Dpll

variable {σ : Type} [Selector σ]

/-- Of a move made at `before`, after propagation, that led to `after`. -/
def ofMove (before : SatSearch.Dpll σ) (after : SatSearch.Dpll σ) :
    SatSearch.Dpll.Move → List Entry
  | .refuted c => [conflictAt c before.position.trail.level]
  | .flipped c branch =>
    let t := before.position.trail
    [conflictAt c t.level,
      ⟨.debug, .backjump, "level " ++ toString t.level ++ ": retrying " ++
        branch.literal.negate.text ++ " at level " ++ toString branch.level⟩] ++
      ofBackstep t (branch.level - 1)
  | .satisfied _ => []
  | .decided l => [ofDecision l after.position.trail.level]
  | .undecided => []

/-- How a call opens. -/
def opening (s : SatSearch.Dpll σ) : Entry :=
  ⟨.info, .search, "dpll: " ++ toString s.position.formula.numVars ++ " variables, " ++
    toString s.position.formula.size ++ " clauses"⟩

/-- How a call closes that began when the counters stood as given. -/
def closing (conflicts decisions : Nat) (verdict : Verdict) (s : SatSearch.Dpll σ) : Entry :=
  ⟨.info, .search, "dpll: " ++ verdict.text ++ " after " ++ toString (s.conflicts - conflicts) ++
    " conflicts, " ++ toString (s.decisions - decisions) ++ " decisions"⟩

/-- The entries of at most `fuel` rounds, behind those written before. -/
def ofRun (conflicts decisions : Nat) :
    Nat → SatSearch.Dpll σ → Array Entry → Array Entry
  | 0, _, entries => entries
  | fuel + 1, s, entries =>
    if s.isExhausted conflicts decisions then
      entries.push (closing conflicts decisions .unknown s)
    else
      match s.propagate with
      | .error e => entries ++ (ofFault s.position e).toArray
      | .ok (outcome, propagated) =>
        let entries := entries ++ (ofPropagation s.position outcome propagated.position).toArray
        match propagated.respond outcome with
        | .error _ => entries
        | .ok (move, after) =>
          let entries := entries ++ (ofMove propagated after move).toArray
          match move.verdict? with
          | some verdict => entries.push (closing conflicts decisions verdict after)
          | none => ofRun conflicts decisions fuel after entries

/-- Of a call of at most `fuel` rounds. -/
def ofSolve (fuel : Nat) (s : SatSearch.Dpll σ) : Array Entry :=
  ofRun s.conflicts s.decisions fuel s.clear #[opening s]

end Dpll

/-- Of a call of at most `fuel` rounds, by either search. -/
def ofSolve (fuel : Nat) : Solver → Array Entry
  | .cdcl s => Cdcl.ofSolve fuel s
  | .dpll s => Dpll.ofSolve fuel s

/-- Of at most `fuel` more rounds of a call that began when the counters stood as in `since`. -/
def ofResume (since : Statistics) (fuel : Nat) : Solver → Array Entry
  | .cdcl s => Cdcl.ofRun since.conflicts since.decisions fuel s #[]
  | .dpll s => Dpll.ofRun since.conflicts since.decisions fuel s #[]

end Journal
end SatSearch
