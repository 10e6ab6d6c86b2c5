import SatSearch.Proofs.Search.Limits

/-!
# Rejection — a clause that is refused leaves no trace

A clause with a literal out of range is refused, but not before every assignment has been taken
back. That is all that happens, and nobody can notice it: whatever is added or searched for later
begins by taking every assignment back itself, and neither budgets nor counters look at the trail.
So two solvers that differ in what is assigned, and in nothing else, reply alike to every sequence
of requests.
-/

namespace SatSearch

/-! ## What a refused clause does -/

theorem Trail.clear_clear (t : Trail) : t.clear.clear = t.clear := by
  simp [clear, forget, Assignment.clear_clear]

namespace Position

variable {p : Position} {anew : Bool} {ls : List Literal}

theorem clear_clear (p : Position) : p.clear.clear = p.clear := by
  rcases p with ⟨f, propagator, t, propagations⟩
  simp only [clear, Trail.clear_clear]

theorem add_clear : p.clear.add anew ls = p.add anew ls := by
  rw [add, add, clear_clear]

theorem add_refused {e : FormulaError} (h : p.formula.add ls = .error e) :
    p.add anew ls = .ok (.error e, p.clear) := by
  rcases p with ⟨f, propagator, t, propagations⟩
  dsimp only at h
  simp only [add, clear, h]

end Position

namespace Solver

variable {s s' d : Solver} {ls : List Literal}

/-- The analyser, of a search that learns. -/
def analyser? : Solver → Option Analyser
  | .cdcl search => some search.analyser
  | .dpll _ => none

/-- Nothing is assigned, and everything else is as it was. -/
structure Untouched (s s' : Solver) : Prop where
  formula_eq : s'.formula = s.formula
  propagator_eq : s'.position.propagator = s.position.propagator
  selector_eq : s'.selector = s.selector
  analyser_eq : s'.analyser? = s.analyser?
  restarter_eq : s'.restarter? = s.restarter?
  statistics_eq : s'.statistics = s.statistics
  budget_eq : s'.budget = s.budget
  trail_eq : s'.position.trail = .empty s.formula.numVars

theorem Alive.untouched_clear (h : s.Alive) : s.Untouched s.clear := by
  have htrail := Trail.clear_eq h.safe.wellFormed.toRecorded
  cases s <;> exact ⟨rfl, rfl, rfl, rfl, rfl, rfl, rfl, htrail⟩

theorem add_refused {e : FormulaError} (h : s.formula.add ls = .error e) :
    s.add ls = .ok (.error e, s.clear) := by
  cases s with
  | cdcl search =>
      rcases search with ⟨p, selector, analyser, restarter, conflicts, decisions, budget⟩
      simp only [add, Cdcl.add, Position.add_refused (p := p) h]
      rfl
  | dpll search =>
      rcases search with ⟨p, selector, conflicts, decisions, budget⟩
      simp only [add, Dpll.add, Position.add_refused (p := p) h]
      rfl

/-! ## What nobody can notice -/

theorem clear_clear (s : Solver) : s.clear.clear = s.clear := by
  cases s with
  | cdcl search => simp only [clear, Cdcl.clear, Position.clear_clear]
  | dpll search => simp only [clear, Dpll.clear, Position.clear_clear]

/-- Adding a clause begins by taking every assignment back. -/
theorem add_clear (s : Solver) (ls : List Literal) : s.clear.add ls = s.add ls := by
  cases s with
  | cdcl search =>
      simp only [add, clear, Cdcl.add, Cdcl.clear, Position.add_clear, Position.formula_clear]
  | dpll search => simp only [add, clear, Dpll.add, Dpll.clear, Position.add_clear]

/-- So does a call. -/
theorem solve_clear (s : Solver) (fuel : Nat) : s.clear.solve fuel = s.solve fuel := by
  rw [solve_eq_makeRounds, solve_eq_makeRounds, clear_clear, statistics_clear]

/-- The solvers differ in what is assigned at most. -/
def Alike (s d : Solver) : Prop :=
  s.clear = d.clear

theorem Alike.statistics_eq (h : Alike s d) : s.statistics = d.statistics := by
  rw [← statistics_clear s, h, statistics_clear]

theorem Alike.add_eq (h : Alike s d) (ls : List Literal) : s.add ls = d.add ls :=
  calc
    s.add ls = s.clear.add ls := (add_clear s ls).symm
    _ = d.clear.add ls := by rw [h]
    _ = d.add ls := add_clear d ls

theorem Alike.solve_eq (h : Alike s d) (fuel : Nat) : s.solve fuel = d.solve fuel :=
  calc
    s.solve fuel = s.clear.solve fuel := (solve_clear s fuel).symm
    _ = d.clear.solve fuel := by rw [h]
    _ = d.solve fuel := solve_clear d fuel

theorem Alike.setBudget (h : Alike s d) (b : Budget) : Alike (s.setBudget b) (d.setBudget b) :=
  calc
    (s.setBudget b).clear = s.clear.setBudget b := clear_setBudget s b
    _ = d.clear.setBudget b := by rw [h]
    _ = (d.setBudget b).clear := (clear_setBudget d b).symm

/-- What a solver tells when it has done as it was asked. There is no verdict if it was told to stop
searching before. -/
inductive Reply
  | added (answer : Except FormulaError Nat)
  | limited
  | searched (answer : Option Verdict)
  deriving DecidableEq

def respond : Request → Solver → Except Fault (Reply × Solver)
  | .add ls, s => (s.add ls).map (Prod.map .added id)
  | .setBudget budget, s => .ok (.limited, s.setBudget budget)
  | .solve fuel, s => (s.solve fuel).map (Prod.map .searched id)

/-- Responds to one request after the other; the counters are read after each of them. -/
def respondAll : List Request → Solver → Except Fault (List (Reply × Statistics) × Solver)
  | [], s => .ok ([], s)
  | request :: requests, s =>
    match s.respond request with
    | .error e => .error e
    | .ok (reply, s) =>
      match respondAll requests s with
      | .error e => .error e
      | .ok (replies, s') => .ok ((reply, s.statistics) :: replies, s')

theorem serve_eq (request : Request) (s : Solver) :
    s.serve request = (s.respond request).map Prod.snd := by
  cases request with
  | add ls =>
      rw [serve, respond]
      cases s.add ls <;> rfl
  | setBudget budget => rfl
  | solve fuel =>
      rw [serve, respond]
      cases s.solve fuel <;> rfl

theorem Alive.respond (h : s.Alive) (request : Request) :
    ∃ reply s', s.respond request = .ok (reply, s') ∧ s'.Alive := by
  rcases h.serve request with ⟨s', hserve, hs'⟩
  rw [serve_eq] at hserve
  rcases exists_of_map_eq_ok hserve with ⟨⟨reply, s₁⟩, hok, rfl⟩
  exact ⟨reply, s₁, hok, hs'⟩

theorem Alike.respond (h : Alike s d) {request : Request} {reply : Reply}
    (hok : s.respond request = .ok (reply, s')) :
    ∃ d', d.respond request = .ok (reply, d') ∧ Alike s' d' := by
  cases request with
  | add ls =>
      rw [Solver.respond, h.add_eq] at hok
      exact ⟨s', hok, rfl⟩
  | setBudget budget =>
      cases hok
      exact ⟨d.setBudget budget, rfl, h.setBudget budget⟩
  | solve fuel =>
      rw [Solver.respond, h.solve_eq] at hok
      exact ⟨s', hok, rfl⟩

/-- Solvers that differ in what is assigned reply alike to whatever they are asked. -/
theorem Alike.respondAll (requests : List Request) : ∀ s d : Solver, Alike s d → s.Alive →
    ∃ replies s' d', s.respondAll requests = .ok (replies, s') ∧
      d.respondAll requests = .ok (replies, d') := by
  induction requests with
  | nil =>
      intro s d _ _
      exact ⟨[], s, d, rfl, rfl⟩
  | cons request requests ih =>
      intro s d h hs
      -- A reply that one solver gives, the other gives as well, and they remain alike.
      rcases hs.respond request with ⟨reply, s₁, hok, hs₁⟩
      rcases h.respond hok with ⟨d₁, hok', h₁⟩
      rcases ih s₁ d₁ h₁ hs₁ with ⟨replies, s', d', hall, hall'⟩
      refine ⟨(reply, s₁.statistics) :: replies, s', d', ?_, ?_⟩
      · simp only [Solver.respondAll, hok, hall]
      · simp only [Solver.respondAll, hok', hall', h₁.statistics_eq]

/-- Any time in the lifetime of a search of either kind, whatever was learned, a clause with a
literal out of range is refused because of the first such literal. It changes nothing but that all
assignments are taken back, and no later request finds out. -/
theorem Alive.add_rejected (h : s.Alive) (hls : ∃ l ∈ ls, s.formula.numVars ≤ l.var) :
    ∃ l s', ls.find? (fun l => s.formula.numVars ≤ l.var) = some l ∧
      s.add ls = .ok (.error (.literalOutOfRange l s.formula.numVars), s') ∧ s.Untouched s' ∧
      ∀ requests, ∃ replies s₁ s₂, s.respondAll requests = .ok (replies, s₁) ∧
        s'.respondAll requests = .ok (replies, s₂) := by
  rcases s.formula.add_outOfRange hls with ⟨l, hfirst, hrefused⟩
  refine ⟨l, s.clear, hfirst, add_refused hrefused, h.untouched_clear, ?_⟩
  intro requests
  exact Alike.respondAll requests s s.clear (clear_clear s).symm h

/-- A clause is refused while a call is stopped after its first conflict, with a learned clause and
literals assigned, and the requests that follow include one that goes in front of the learned
clause. -/
theorem Alive.add_rejected_sample : ∃ s s' replies s₁ s₂,
    (Solver.cdcl .refuting).solve 2 = .ok (none, s) ∧ s.statistics.learnt = 1 ∧
      s.add [⟨0, true⟩, ⟨7, true⟩, ⟨2, false⟩] =
        .ok (.error (.literalOutOfRange ⟨7, true⟩ 2), s') ∧ s.Untouched s' ∧
      s.respondAll Request.sample = .ok (replies, s₁) ∧
      s'.respondAll Request.sample = .ok (replies, s₂) := by
  have hlearnt : ((Solver.cdcl .refuting).solve 2).map (fun (answer, s) =>
      (answer, s.formula.numVars, s.statistics.learnt)) = .ok (none, 2, 1) := by decide +kernel
  rcases exists_of_map_eq_ok hlearnt with ⟨⟨answer, s⟩, hok, heq⟩
  obtain ⟨rfl, hvars, hlearnt⟩ :
      answer = none ∧ s.formula.numVars = 2 ∧ s.statistics.learnt = 1 := by
    simpa using heq
  have hs : s.Alive := by
    rcases Alive.respond (.cdcl Cdcl.lifetime_refuting) (.solve 2) with ⟨reply, s', hok', hs'⟩
    rw [Solver.respond, hok] at hok'
    cases hok'
    exact hs'
  have hout : ∃ l ∈ [(⟨0, true⟩ : Literal), ⟨7, true⟩, ⟨2, false⟩], s.formula.numVars ≤ l.var :=
    ⟨⟨7, true⟩, by simp, by simp [hvars]⟩
  rcases Alive.add_rejected hs hout with ⟨l, s', hfirst, hadd, huntouched, hrespond⟩
  rw [hvars] at hfirst hadd
  cases hfirst
  rcases hrespond Request.sample with ⟨replies, s₁, s₂, hall, hall'⟩
  exact ⟨s, s', replies, s₁, s₂, hok, hlearnt, hadd, huntouched, hall, hall'⟩

end Solver
end SatSearch
