import SatSearch.Proofs.Cdcl.Learning
import SatSearch.Proofs.Dpll.Lifetime
import SatSearch.Search.Solver

/-!
# Faultless — no solver faults, and none stops where it should never get to

A solver is asked to add clauses, to set budgets and to search, in any order. Whatever is
impossible on the way ends in a fault: an index beyond the end, a count that would fall below zero,
a literal whose variable has a value already. Some exits are no faults but are there only because
something has to be: resolution may be cut short by a branch, a conflict above level zero may be
analysed as one of level zero, and a selector may pick nothing. Searches that are regular go wrong in
none of these ways, and a solver remains regular with everything it is asked.
-/

namespace SatSearch

open Trail

/-! ## Analysing a conflict -/

namespace FirstUip

/-- The resolution of a failed clause ends at a step beside which nothing of the level is pending,
so it is not cut short by a branch. Every mark it made can be taken away, and there is a literal to
take the second place, if there are others than the first. -/
def Resolves (f : Formula) (t : Trail) (index : Nat) (a : FirstUip) : Prop :=
  ∃ c level r point r', f.clause? index = some c ∧ deepestLevel t c.literals = .ok level ∧
    meet t level none c.literals ⟨(a.grow f.numVars).seen, #[], #[], 0⟩ = .ok r ∧
    walk f t level t.length r = .ok (point, r') ∧ r'.pending = 0 ∧
    (∀ v ∈ r'.met, v < r'.seen.size) ∧
    (r'.lower.isEmpty = false → ∃ position deepest,
      lastDeepest t (0, 0) 0 r'.lower.toList = .ok (position, deepest) ∧ position < r'.lower.size)

/-- Above level zero the resolution reaches its implication point. -/
theorem resolves_of_failsAt {f : Formula} {t : Trail} {c : Clause} {d index : Nat} {a : FirstUip}
    (ht : t.WellFormed f.numVars) (hj : Justified f t)
    (hc : f.clause? index = some c) (hlevel : deepestLevel t c.literals = .ok d)
    (hfails : t.FailsAt c d) (hd : 0 < d) (ha : a.Unmarked) : a.Resolves f t index := by
  rcases resolve_spec ht hj.traceable hfails hd ha with
    ⟨r, k, s, r', hmeet, hwalk, _, _, hr, hwalked⟩
  have hr' := hwalked.tracks hr
  refine ⟨c, d, r, s.literal, r', hc, hlevel, hmeet, hwalk, hwalked.pending_eq, ?_, ?_⟩
  · intro v hv
    exact (Array.getElem?_eq_some_iff.1 ((hr'.mem_met v).1 hv)).1
  · intro hne
    rcases exists_lastDeepest ht (fun l hl => ((hr'.mem_lower l).1 hl).2) hne with
      ⟨position, deepest, l, hok, hl, _, _⟩
    exact ⟨position, deepest, hok, (Array.getElem?_eq_some_iff.1 hl).1⟩

end FirstUip

namespace Analyser

/-- The analysis of a conflict above level zero finds that it is above level zero, after a
resolution that was not cut short if it is made by resolving. -/
def Analyses (q : Position) (index : Nat) (a : Analyser) : Prop :=
  ∃ analysis vars a', a.analyse q.formula q.trail index = .ok (analysis, vars, a') ∧
    analysis ≠ .ground ∧
    ∀ marks, a = .firstUip marks → marks.Resolves q.formula q.trail index

theorem analyses_of_failed {q : Position} {i : Nat} {c : Clause} {kind : AnalyserKind}
    {a : Analyser} (h : q.Failed i c) (ha : a.Fresh kind) (hlevel : 0 < q.trail.level) :
    a.Analyses q i := by
  have hfalse := h.failsAt.falsifies
  rcases analyse_spec h.proper h.sound h.wellFormed h.justified h.clause hfalse ha with
    ⟨analysis, vars, a', hok, _, _, hfits, _⟩
  refine ⟨analysis, vars, a', hok, ?_, ?_⟩
  · rintro rfl
    have := h.eq_level hfits
    omega
  · rintro marks rfl
    rcases failsAt_deepestLevel h.wellFormed hfalse with ⟨d, hd, hfails⟩
    obtain rfl := h.eq_level hfails
    cases kind with
    | firstUip =>
        exact FirstUip.resolves_of_failsAt h.wellFormed h.justified h.clause hd hfails hlevel ha
    | levelScan => exact ha.elim

end Analyser

/-! ## Rounds and calls -/

namespace Cdcl

variable {σ : Type} [Selector σ] {n : Nat} {P : σ → Prop} {kind : AnalyserKind} {s s' : Cdcl σ}
variable {answer : Option Verdict}

/-- The round that begins here is made, and not because there was nothing to pick. What it has
propagated is a trail whose tables, levels and count agree with its steps, and a conflict above
level zero is analysed. -/
def Faultless (s : Cdcl σ) : Prop :=
  (∃ move s', s.round = .ok (move, s') ∧ ∀ m, move ≠ .undecided m) ∧
    ∃ o q, s.position.propagate = .ok (o, q) ∧ q.trail.WellFormed q.formula.numVars ∧
      ∀ i, o = .conflict i → 0 < q.trail.level → s.analyser.Analyses q i

theorem Regular.faultless (hP : Selector.Lawful n P) (h : s.Regular n P kind)
    (hready : s.position.Ready) : s.Faultless := by
  rcases round_spec hP h hready with ⟨_, move, s', hround, hrounded⟩
  rcases hready.propagate with ⟨o, q, hok, hformula, _, hend⟩
  refine ⟨⟨move, s', hround, ?_⟩, o, q, hok, ?_, ?_⟩
  · rintro m rfl
    exact hrounded.made
  · cases o with
    | fixpoint => exact hend.wellFormed
    | conflict i => exact hend.1.wellFormed
  · rintro i rfl hlevel
    rcases hend with ⟨hleft, c, hc, hfalse⟩
    exact Analyser.analyses_of_failed (hleft.failed (hformula ▸ hc) hfalse) h.analyser hlevel

/-- No round takes a conflict or a decision back. -/
theorem Ran.counters_le {conflicts decisions : Nat}
    (h : Ran P kind conflicts decisions s answer s') :
    s.conflicts ≤ s'.conflicts ∧ s.decisions ≤ s'.decisions := by
  refine Ran.keeps (I := fun x => s.conflicts ≤ x.conflicts ∧ s.decisions ≤ x.decisions) h ?_
    ⟨le_rfl, le_rfl⟩
  rintro s₁ q move s₂ ⟨hconflicts, hdecisions⟩ hrounded
  have := hrounded.conflicts_eq
  have := hrounded.decisions_eq
  omega

/-- Wherever a call is stopped, it could have gone on without fault. -/
theorem Regular.solve_faultless (hP : Selector.Lawful n P) (h : s.Regular n P kind) (fuel : Nat) :
    ∃ answer s', s.solve fuel = .ok (answer, s') ∧
      (s.conflicts ≤ s'.conflicts ∧ s.decisions ≤ s'.decisions) ∧
      (answer = none → s'.Faultless) := by
  rcases solve_spec hP h fuel with ⟨answer, s', hok, hran⟩
  refine ⟨answer, s', hok, Ran.counters_le (s := s.clear) hran, ?_⟩
  rintro rfl
  exact (Ran.regular hran h.clear).faultless hP (h.ready_of_solve hP hok)

end Cdcl

namespace Dpll

variable {σ : Type} [Selector σ] {n : Nat} {P : σ → Prop} {s s' : Dpll σ}
variable {answer : Option Verdict}

/-- The round that begins here is made, and not because there was nothing to pick. What it has
propagated is a trail whose tables, levels and count agree with its steps. -/
def Faultless (s : Dpll σ) : Prop :=
  (∃ move s', s.round = .ok (move, s') ∧ move ≠ .undecided) ∧
    ∃ o q, s.position.propagate = .ok (o, q) ∧ q.trail.WellFormed q.formula.numVars

theorem Regular.faultless (hP : Selector.Lawful n P) (h : s.Regular n P)
    (hready : s.position.Ready) : s.Faultless := by
  rcases round_spec hP h hready with ⟨_, move, s', hround, hrounded⟩
  rcases hready.propagate with ⟨o, q, hok, _, _, hend⟩
  refine ⟨⟨move, s', hround, ?_⟩, o, q, hok, ?_⟩
  · rintro rfl
    exact hrounded.made
  · cases o with
    | fixpoint => exact hend.wellFormed
    | conflict i => exact hend.1.wellFormed

/-- No round takes a conflict or a decision back. -/
theorem Ran.counters_le {conflicts decisions : Nat} (h : Ran conflicts decisions s answer s') :
    s.conflicts ≤ s'.conflicts ∧ s.decisions ≤ s'.decisions := by
  refine Ran.keeps (I := fun x => s.conflicts ≤ x.conflicts ∧ s.decisions ≤ x.decisions) h ?_
    ⟨le_rfl, le_rfl⟩
  rintro s₁ q move s₂ ⟨hconflicts, hdecisions⟩ hrounded
  have := hrounded.conflicts_eq
  have := hrounded.decisions_eq
  omega

/-- Wherever a call is stopped, it could have gone on without fault. -/
theorem Regular.solve_faultless (hP : Selector.Lawful n P) (h : s.Regular n P) (fuel : Nat) :
    ∃ answer s', s.solve fuel = .ok (answer, s') ∧
      (s.conflicts ≤ s'.conflicts ∧ s.decisions ≤ s'.decisions) ∧
      (answer = none → s'.Faultless) := by
  rcases solve_spec hP h fuel with ⟨answer, s', hok, hran⟩
  refine ⟨answer, s', hok, Ran.counters_le (s := s.clear) hran, ?_⟩
  rintro rfl
  exact (Ran.regular hran h.clear).faultless hP (h.ready_of_solve hP hok)

end Dpll

/-! ## Solvers -/

namespace Solver

variable {s : Solver}

/-- What a solver can be asked for. It may be told to stop searching after any number of rounds. -/
inductive Request
  | add (literals : List Literal)
  | setBudget (budget : Budget)
  | solve (fuel : Nat)

/-- What the solver is when it has done as it was asked, whatever it answered. -/
def serve : Request → Solver → Except Fault Solver
  | .add ls, s => (s.add ls).map Prod.snd
  | .setBudget budget, s => .ok (s.setBudget budget)
  | .solve fuel, s => (s.solve fuel).map Prod.snd

/-- Serves one request after the other. -/
def serveAll : List Request → Solver → Except Fault Solver
  | [], s => .ok s
  | request :: requests, s =>
    match s.serve request with
    | .error e => .error e
    | .ok s => serveAll requests s

/-- A search of either kind over a position where nothing was learned yet. -/
def start (kind : SearchKind) (position : Position) (selector : Branching) (analyser : Analyser)
    (restarter : Restarter) : Solver :=
  match kind with
  | .cdcl => .cdcl (.start position selector analyser restarter)
  | .dpll => .dpll (.start position selector)

/-- A solver is built by starting a search. -/
theorem build_eq (kind : SearchKind) (components : Components) (f : Formula) :
    build kind components f = (Position.ofFormula components.propagator f).map fun position =>
      start kind position (.build components.branching f.numVars)
        (.build components.analyser f.numVars) (.start components.schedule) := by
  unfold build
  cases Position.ofFormula components.propagator f with
  | error e => rfl
  | ok position => cases kind <;> rfl

/-- The search is in its lifetime. -/
inductive Alive : Solver → Prop
  | cdcl {kind : AnalyserKind} {search : Cdcl Branching} :
      search.Lifetime Branching.Fresh kind → Alive (.cdcl search)
  | dpll {search : Dpll Branching} : search.Lifetime Branching.Fresh → Alive (.dpll search)

/-- Every request is served, and the search lives on. -/
theorem Alive.serve (h : s.Alive) (request : Request) :
    ∃ s', s.serve request = .ok s' ∧ s'.Alive := by
  cases h with
  | cdcl hs =>
      rcases hs.exists_regular with ⟨n, hregular⟩
      cases request with
      | add ls =>
          rcases Cdcl.add_spec hregular ls with ⟨answer, search', hok, _⟩
          exact ⟨.cdcl search', by simp [Solver.serve, Solver.add, hok, Except.map],
            .cdcl (.added hs hok)⟩
      | setBudget budget => exact ⟨_, rfl, .cdcl (.budgeted hs)⟩
      | solve fuel =>
          rcases Cdcl.solve_spec (Branching.lawful n) hregular fuel with ⟨answer, search', hok, _⟩
          exact ⟨.cdcl search', by simp [Solver.serve, Solver.solve, hok, Except.map],
            .cdcl (.solved hs hok)⟩
  | dpll hs =>
      rcases hs.exists_regular with ⟨n, hregular⟩
      cases request with
      | add ls =>
          rcases Dpll.add_spec hregular ls with ⟨answer, search', hok, _⟩
          exact ⟨.dpll search', by simp [Solver.serve, Solver.add, hok, Except.map],
            .dpll (.added hs hok)⟩
      | setBudget budget => exact ⟨_, rfl, .dpll (.budgeted hs)⟩
      | solve fuel =>
          rcases Dpll.solve_spec (Branching.lawful n) hregular fuel with ⟨answer, search', hok, _⟩
          exact ⟨.dpll search', by simp [Solver.serve, Solver.solve, hok, Except.map],
            .dpll (.solved hs hok)⟩

theorem Alive.serveAll (requests : List Request) : ∀ s : Solver, s.Alive →
    ∃ s', s.serveAll requests = .ok s' ∧ s'.Alive := by
  induction requests with
  | nil =>
      intro s hs
      exact ⟨s, rfl, hs⟩
  | cons request requests ih =>
      intro s hs
      rcases hs.serve request with ⟨s₁, hserve, hs₁⟩
      rcases ih s₁ hs₁ with ⟨s', hok, hs'⟩
      exact ⟨s', by simp only [Solver.serveAll, hserve, hok], hs'⟩

/-- What either search promises of the round that begins here. -/
def Faultless : Solver → Prop
  | .cdcl search => search.Faultless
  | .dpll search => search.Faultless

/-- The trail's tables, levels and count agree with its steps. A call ends without fault, and no
counter is less than when it began. Every round it makes begins where it could have been stopped,
and there is no fault in going on. -/
structure Safe (s : Solver) : Prop where
  wellFormed : s.position.trail.WellFormed s.formula.numVars
  solve : ∀ fuel, ∃ answer s', s.solve fuel = .ok (answer, s') ∧
    (s.statistics.conflicts ≤ s'.statistics.conflicts ∧
      s.statistics.decisions ≤ s'.statistics.decisions) ∧
    (answer = none → s'.Faultless)

theorem Alive.safe (h : s.Alive) : s.Safe := by
  cases h with
  | cdcl hs =>
      rcases hs.exists_regular with ⟨n, hregular⟩
      refine ⟨hregular.position.wellFormed, ?_⟩
      intro fuel
      rcases hregular.solve_faultless (Branching.lawful n) fuel with
        ⟨answer, search', hok, hcounters, hfaultless⟩
      exact ⟨answer, .cdcl search', by simp [Solver.solve, hok, Except.map], hcounters, hfaultless⟩
  | dpll hs =>
      rcases hs.exists_regular with ⟨n, hregular⟩
      refine ⟨hregular.position.wellFormed, ?_⟩
      intro fuel
      rcases hregular.solve_faultless (Branching.lawful n) fuel with
        ⟨answer, search', hok, hcounters, hfaultless⟩
      exact ⟨answer, .dpll search', by simp [Solver.solve, hok, Except.map], hcounters, hfaultless⟩

/-- Over a formula without learned clauses a search can be built from whatever components. It serves
all requests without fault, and remains safe. -/
theorem requests_safe {f : Formula} {selector : Branching} (hf : f.Built)
    (hselector : selector.Fresh f.numVars) (search : SearchKind) (propagator : PropagatorKind)
    (analyser : AnalyserKind) (schedule : Schedule) (requests : List Request) :
    ∃ p s', Position.ofFormula propagator f = .ok p ∧
      (start search p selector (.build analyser f.numVars) (.start schedule)).serveAll requests =
        .ok s' ∧ s'.Safe := by
  rcases Position.ofFormula_spec propagator hf.pristine with ⟨p, hp, _⟩
  have halive : (start search p selector (.build analyser f.numVars) (.start schedule)).Alive := by
    cases search with
    | cdcl => exact .cdcl (.started hf hp hselector)
    | dpll => exact .dpll (.started hf hp hselector)
  rcases halive.serveAll requests with ⟨s', hok, hs'⟩
  exact ⟨p, s', hp, hok, hs'.safe⟩

/-- A clause that is refused; a call stopped after its first conflict; a clause that goes in front of
the learned one; and a call that ends. -/
def Request.sample : List Request :=
  [.add [⟨2, true⟩], .solve 2, .add [⟨0, true⟩], .setBudget .unlimited, .solve 5]

theorem requests_safe_sample : ∃ s s', build .cdcl .standard .refuting = .ok s ∧
    s.serveAll Request.sample = .ok s' ∧ s'.statistics = ⟨2, 1, 2, 0, 1⟩ ∧ s'.Safe := by
  have hcount : ((build .cdcl .standard .refuting).bind (serveAll Request.sample)).map statistics =
      .ok ⟨2, 1, 2, 0, 1⟩ := by decide +kernel
  rcases requests_safe Formula.built_refuting (Branching.fresh_build .fixedOrder 2) .cdcl .watch
      .firstUip (.fixed 100) Request.sample with
    ⟨p, s', hp, hok, hsafe⟩
  have hbuild := (build_eq .cdcl .standard .refuting).trans (congrArg _ hp)
  rw [hbuild] at hcount
  rcases exists_of_map_eq_ok hcount with ⟨s'', hok', hstatistics⟩
  obtain rfl : s' = s'' := Except.ok.inj (hok.symm.trans hok')
  exact ⟨_, s', hbuild, hok, hstatistics, hsafe⟩

end Solver
end SatSearch
