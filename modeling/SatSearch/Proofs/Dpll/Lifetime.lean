import SatSearch.Proofs.Dpll.Rounds
import SatSearch.Proofs.Search.Run

/-!
# Lifetime — calls of the search that backtracks, and what happens between them

The lifetime of a search starts over a formula without learned clauses and goes on by adding
clauses, setting budgets and making calls, in any order. Throughout, the search stays regular; so
every call ends without a fault, and its verdict is right for the given clauses as they are then.
-/

namespace SatSearch

open Trail

namespace Dpll

variable {σ : Type} {n : Nat} {P : σ → Prop} {s s' : Dpll σ} {answer : Option Verdict}
variable {verdict : Verdict}

/-! ## Between calls -/

theorem Regular.clear (h : s.Regular n P) : s.clear.Regular n P :=
  ⟨h.position.clear.left, h.numVars_eq, h.learnts_eq, h.selector⟩

theorem Regular.ready_clear (h : s.Regular n P) : s.clear.position.Ready :=
  h.position.clear

theorem Regular.trail_clear (h : s.Regular n P) : s.clear.position.trail = .empty n :=
  h.numVars_eq ▸ h.position.trail_clear

/-- Over a formula without learned clauses a search starts regular. -/
theorem regular_start {f : Formula} {propagator : PropagatorKind} {p : Position} {selector : σ}
    (hf : f.Pristine) (hp : Position.ofFormula propagator f = .ok p) (hselector : P selector) :
    (start p selector).Regular f.numVars P := by
  rcases Position.ofFormula_spec propagator hf with ⟨p', hp', hready, hformula, _⟩
  obtain rfl : p = p' := Except.ok.inj (hp.symm.trans hp')
  exact ⟨hready.left, by rw [start, hformula], by rw [start, hformula, hf.learnts_eq], hselector⟩

/-- With nothing learned, the propagator takes the new clause in alone. -/
theorem add_spec (h : s.Regular n P) (ls : List Literal) :
    ∃ answer s', s.add ls = .ok (answer, s') ∧ s'.Regular n P := by
  rcases s with ⟨p, selector, conflicts, decisions, budget⟩
  have hposition : p.Left := h.position
  have hlearnts : p.formula.learnts = #[] := h.learnts_eq
  have hvars : p.formula.numVars = n := h.numVars_eq
  rcases hposition.add false ls (.inr hlearnts) with ⟨answer, p', hok, hready, _, hformula⟩
  refine ⟨answer, ⟨p', selector, conflicts, decisions, budget⟩, by simp only [add, hok],
    hready.left, ?_, ?_, h.selector⟩
  · rcases hformula with ⟨_, hformula⟩ | ⟨_, hformula⟩
    · rw [hformula, hvars]
    · rw [hformula, Formula.numVars_extended, hvars]
  · rcases hformula with ⟨_, hformula⟩ | ⟨_, hformula⟩
    · rw [hformula, hlearnts]
    · rw [hformula, Formula.learnts_extended, hlearnts]

/-- Adding concerns the position only. -/
theorem add_eq_ok {ls : List Literal} {added : Except FormulaError Nat}
    (h : s.add ls = .ok (added, s')) :
    ∃ p', s.position.add false ls = .ok (added, p') ∧ s' = { s with position := p' } := by
  rcases s with ⟨p, selector, conflicts, decisions, budget⟩
  simp only [add] at h
  split at h
  · cases h
  · rename_i answer p' hadd
    cases h
    exact ⟨p', hadd, rfl⟩

theorem regular_setBudget (h : s.Regular n P) (budget : Budget) :
    (s.setBudget budget).Regular n P :=
  ⟨h.position, h.numVars_eq, h.learnts_eq, h.selector⟩

variable [Selector σ]

/-! ## Calls -/

/-- A round that does not end the search. -/
def Next (s s' : Dpll σ) : Prop :=
  ∃ q move, Rounded s q move s' ∧ move.verdict? = none

/-- A round that ends the search with a verdict. -/
def Ends (s : Dpll σ) (verdict : Verdict) (s' : Dpll σ) : Prop :=
  ∃ q move, Rounded s q move s' ∧ move.verdict? = some verdict

/-- How the rounds of a call go that began when the counters stood as given. -/
abbrev Ran (conflicts decisions : Nat) : Dpll σ → Option Verdict → Dpll σ → Prop :=
  SatSearch.Ran Next Ends fun s => s.isExhausted conflicts decisions = true

/-- Rounds are made without faults. -/
theorem run_spec (hP : Selector.Lawful n P) (conflicts decisions fuel : Nat) : ∀ s : Dpll σ,
    s.Regular n P → s.position.Ready →
    ∃ answer s', run conflicts decisions fuel s = .ok (answer, s') ∧
      Ran conflicts decisions s answer s' := by
  induction fuel with
  | zero =>
      intro s _ _
      exact ⟨none, s, rfl, .stopped .refl⟩
  | succ fuel ih =>
      intro s hs hready
      cases hexhausted : s.isExhausted conflicts decisions with
      | true => exact ⟨some .unknown, s, by simp [run, hexhausted], .exhausted .refl hexhausted⟩
      | false =>
          -- A round that goes on leaves what the next one needs.
          rcases round_spec hP hs hready with ⟨q, move, s₁, hround, hrounded⟩
          cases hverdict : move.verdict? with
          | some verdict =>
              exact ⟨some verdict, s₁, by simp [run, hexhausted, hround, hverdict],
                .ended .refl ⟨q, move, hrounded, hverdict⟩⟩
          | none =>
              rcases ih s₁ (hrounded.regular hs) (hrounded.ready hverdict) with
                ⟨answer, s', hrun, hran⟩
              exact ⟨answer, s', by simp [run, hexhausted, hround, hverdict, hrun],
                hran.head ⟨q, move, hrounded, hverdict⟩⟩

/-- A call is made without faults, starting with nothing assigned. -/
theorem solve_spec (hP : Selector.Lawful n P) (h : s.Regular n P) (fuel : Nat) :
    ∃ answer s', s.solve fuel = .ok (answer, s') ∧
      Ran s.conflicts s.decisions s.clear answer s' :=
  run_spec hP s.conflicts s.decisions fuel s.clear h.clear h.ready_clear

/-- What every round keeps, the rounds of a call keep. -/
theorem Ran.keeps {I : Dpll σ → Prop} {conflicts decisions : Nat}
    (h : Ran conflicts decisions s answer s')
    (hround : ∀ s q move s', I s → Rounded s q move s' → I s') (hs : I s) : I s' :=
  h.invariant (fun _ _ hI ⟨_, _, hrounded, _⟩ => hround _ _ _ _ hI hrounded)
    (fun _ _ _ hI ⟨_, _, hrounded, _⟩ => hround _ _ _ _ hI hrounded) hs

section Ran

variable {conflicts decisions : Nat}

theorem Ran.regular (h : Ran conflicts decisions s answer s') (hs : s.Regular n P) :
    s'.Regular n P :=
  Ran.keeps h (fun _ _ _ _ hI hrounded => hrounded.regular hI) hs

theorem formula_of_reaches (h : Reaches Next s s') : s'.position.formula = s.position.formula :=
  h.invariant (I := fun x => x.position.formula = s.position.formula)
    (fun _ _ hI ⟨_, _, hrounded, _⟩ => hrounded.formula_same.trans hI) rfl

theorem Ran.formula_eq (h : Ran conflicts decisions s answer s') :
    s'.position.formula = s.position.formula :=
  Ran.keeps (I := fun x => x.position.formula = s.position.formula) h
    (fun _ _ _ _ hI hrounded => hrounded.formula_same.trans hI) rfl

/-- A verdict is right for the formula. -/
theorem Ran.rightFor (h : Ran conflicts decisions s (some verdict) s') :
    verdict.RightFor s.position.formula := by
  cases h with
  | exhausted _ _ => trivial
  | ended hreaches hends =>
      rcases hends with ⟨q, move, hrounded, hverdict⟩
      have hright := hrounded.made.rightFor hverdict
      rwa [hrounded.formula_eq, formula_of_reaches hreaches] at hright

end Ran

/-- Rounds that go on leave a position that is ready for the next one. -/
theorem Regular.ready_of_solve {fuel : Nat} (hP : Selector.Lawful n P) (h : s.Regular n P)
    (hsolve : s.solve fuel = .ok (none, s')) : s'.position.Ready := by
  rcases solve_spec hP h fuel with ⟨answer, s₁, hok, hran⟩
  cases hsolve.symm.trans hok
  cases hran with
  | stopped hreaches =>
      exact hreaches.invariant (I := fun s => s.position.Ready)
        (fun _ _ _ ⟨_, _, hrounded, hverdict⟩ => hrounded.ready hverdict) h.ready_clear

/-! ## Lifetimes -/

/-- What a search can become that is started over a formula without learned clauses, with a selector
that is fit for its variables. A call may be stopped after any number of rounds. -/
inductive Lifetime (fit : Nat → σ → Prop) : Dpll σ → Prop
  | started {f : Formula} {propagator : PropagatorKind} {p : Position} {selector : σ} :
      f.Built → Position.ofFormula propagator f = .ok p → fit f.numVars selector →
      Lifetime fit (.start p selector)
  | added {s s' : Dpll σ} {ls : List Literal} {answer : Except FormulaError Nat} :
      Lifetime fit s → s.add ls = .ok (answer, s') → Lifetime fit s'
  | budgeted {s : Dpll σ} {budget : Budget} : Lifetime fit s → Lifetime fit (s.setBudget budget)
  | solved {s s' : Dpll σ} {fuel : Nat} {answer : Option Verdict} :
      Lifetime fit s → s.solve fuel = .ok (answer, s') → Lifetime fit s'

/-- A search is regular all its lifetime. -/
theorem Lifetime.regular {fit Q : Nat → σ → Prop} (hQ : ∀ n, Selector.Lawful n (Q n))
    (hfit : ∀ n selector, fit n selector → Q n selector) (h : Lifetime fit s) :
    ∃ n, s.Regular n (Q n) := by
  induction h with
  | @started f propagator p selector hf hp hselector =>
      exact ⟨f.numVars, regular_start hf.pristine hp (hfit _ _ hselector)⟩
  -- The operations are functions, so the answer they gave is the one that is specified.
  | added _ hadd ih =>
      rcases ih with ⟨n, hs⟩
      rcases add_spec hs _ with ⟨_, _, hok, hregular⟩
      cases hadd.symm.trans hok
      exact ⟨n, hregular⟩
  | budgeted _ ih =>
      rcases ih with ⟨n, hs⟩
      exact ⟨n, regular_setBudget hs _⟩
  | solved _ hsolve ih =>
      rcases ih with ⟨n, hs⟩
      rcases solve_spec (hQ n) hs _ with ⟨_, _, hok, hran⟩
      cases hsolve.symm.trans hok
      exact ⟨n, Ran.regular hran hs.clear⟩

/-- With either selector a search is regular all its lifetime, for some number of variables. -/
theorem Lifetime.exists_regular {s : Dpll Branching} (h : s.Lifetime Branching.Fresh) :
    ∃ n, s.Regular n (Branching.Suits n) :=
  h.regular Branching.lawful fun _ _ => Branching.Fresh.suits

/-- Between the rounds of a call the position is ready to propagate. -/
theorem Lifetime.ready_of_solve {s s' : Dpll Branching} {fuel : Nat}
    (h : s.Lifetime Branching.Fresh) (hsolve : s.solve fuel = .ok (none, s')) :
    s'.position.Ready := by
  rcases h.exists_regular with ⟨n, hregular⟩
  exact hregular.ready_of_solve (Branching.lawful n) hsolve

/-- A search over the sample formula that reads every clause. -/
def sample : Dpll Branching :=
  .start ⟨.sample, .scan, .empty 3, 0⟩ (.fixedOrder ⟨3⟩)

theorem lifetime_sample {fit : Nat → Branching → Prop} (hfit : fit 3 (.fixedOrder ⟨3⟩)) :
    sample.Lifetime fit :=
  have hp : Position.ofFormula .scan .sample = .ok sample.position := rfl
  .started Formula.built_sample hp hfit

/-- All its lifetime, with either propagator and selector, the calls of the search that backtracks
end without faults, and their verdicts are right, although the search may stop with variables that
have no value and are reported false. The formula stays what it is. -/
theorem backtracking_rightFor {s : Dpll Branching} (h : s.Lifetime Branching.Fresh) (fuel : Nat) :
    ∃ answer s', s.solve fuel = .ok (answer, s') ∧
      s'.position.formula = s.position.formula ∧
      ∀ verdict, answer = some verdict → verdict.RightFor s.position.formula := by
  rcases h.regular Branching.lawful fun _ _ => Branching.Fresh.suits with ⟨n, hs⟩
  rcases solve_spec (Branching.lawful n) hs fuel with ⟨answer, s', hok, hran⟩
  have hformula := Ran.formula_eq hran
  refine ⟨answer, s', hok, hformula, ?_⟩
  rintro verdict rfl
  show verdict.RightFor s.clear.position.formula
  exact Ran.rightFor hran

/-- The search over the sample formula stops with the second variable left without a value. -/
theorem backtracking_rightFor_sample :
    ∃ s', sample.solve 4 = .ok (some (.satisfiable ⟨#[true, false, true]⟩), s') ∧
      (Verdict.satisfiable ⟨#[true, false, true]⟩).RightFor .sample := by
  have hanswer : (sample.solve 4).map Prod.fst =
      .ok (some (.satisfiable ⟨#[true, false, true]⟩)) := by decide +kernel
  rcases backtracking_rightFor (lifetime_sample .fixedOrder) 4 with ⟨answer, s', hok, _, hright⟩
  rw [hok] at hanswer
  cases hanswer
  exact ⟨s', hok, hright _ rfl⟩

end Dpll
end SatSearch
