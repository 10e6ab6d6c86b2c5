import SatSearch.Proofs.Dpll.Accounting
import SatSearch.Proofs.Search.Twins

/-!
# Lockstep — the search that backtracks does not depend on its components

Two searches over the same formula, with different propagators and with selectors that pick the same
variables, go in step: their trails stay twins from round to round, so the same variables are
decided and the same branches flipped. As nothing is ever rewarded, both selectors keep picking the
lowest variable without a value.
-/

namespace SatSearch

open Trail

namespace Dpll

variable {σ τ : Type} [Selector σ] [Selector τ] {n : Nat} {P : σ → Prop} {Q : τ → Prop}
variable {s s' : Dpll σ} {d d' : Dpll τ} {q q' : Position} {move move' : Move}

/-! ## Two searches -/

/-- Two regular searches over the same formula that have spent the same, and whose selectors pick
the same variables. -/
structure Alongside (n : Nat) (P : σ → Prop) (Q : τ → Prop) (s : Dpll σ) (d : Dpll τ) : Prop where
  left : s.Regular n P
  right : d.Regular n Q
  formula_eq : s.position.formula = d.position.formula
  conflicts_eq : s.conflicts = d.conflicts
  decisions_eq : s.decisions = d.decisions
  budget_eq : s.budget = d.budget
  pick_eq : ∀ a : Assignment, a.values.size = n →
    Selector.pick s.selector a = Selector.pick d.selector a

theorem Alongside.isExhausted_eq (h : Alongside n P Q s d) (conflicts decisions : Nat) :
    s.isExhausted conflicts decisions = d.isExhausted conflicts decisions := by
  rw [isExhausted, isExhausted, h.budget_eq, h.conflicts_eq, h.decisions_eq]

theorem Alongside.clear (h : Alongside n P Q s d) : Alongside n P Q s.clear d.clear :=
  ⟨h.left.clear, h.right.clear, h.formula_eq, h.conflicts_eq, h.decisions_eq, h.budget_eq,
    h.pick_eq⟩

/-- Rounds that count the same keep two searches alongside. -/
theorem Alongside.rounded (h : Alongside n P Q s d) (hs : Rounded s q move s')
    (hd : Rounded d q' move' d') (i j : Nat) (hconflicts : s'.conflicts = s.conflicts + i)
    (hconflicts' : d'.conflicts = d.conflicts + i) (hdecisions : s'.decisions = s.decisions + j)
    (hdecisions' : d'.decisions = d.decisions + j) : Alongside n P Q s' d' where
  left := hs.regular h.left
  right := hd.regular h.right
  formula_eq := by rw [hs.formula_same, hd.formula_same, h.formula_eq]
  conflicts_eq := by rw [hconflicts, hconflicts', h.conflicts_eq]
  decisions_eq := by rw [hdecisions, hdecisions', h.decisions_eq]
  budget_eq := by rw [hs.budget_eq, hd.budget_eq, h.budget_eq]
  pick_eq := by
    rw [hs.selector_eq, hd.selector_eq]
    exact h.pick_eq

/-! ## Rounds -/

section Rounds

variable (h : Alongside n P Q s d) (htwins : s.position.trail.Twins d.position.trail)
  (hs : Rounded s q move s') (hd : Rounded d q' move' d')
include h htwins hs hd

/-- After failed clauses both flip the same branch, or neither has one to flip. -/
theorem Alongside.failed {i j : Nat} {c c' : Clause} (hq : q.Failed i c) (hq' : q'.Failed j c') :
    move'.verdict? = move.verdict? ∧ Alongside n P Q s' d' ∧
      (move.verdict? = none → s'.position.trail.Twins d'.position.trail) := by
  rcases hs.of_failed hq with ⟨hconflicts, hdecisions, hback⟩
  rcases hd.of_failed hq' with ⟨hconflicts', hdecisions', hback'⟩
  rcases Position.backtracked_twins htwins hs.leads hd.leads hq.toLeft hq'.toLeft hback hback' with
    ⟨hverdict, hnext⟩
  exact ⟨hverdict, h.rounded hs hd 1 0 hconflicts hconflicts' hdecisions hdecisions', hnext⟩

/-- At fixpoints both have satisfied the formula, or decide the same variable. -/
theorem Alongside.settled (hq : q.Settled) (hq' : q'.Settled) :
    move'.verdict? = move.verdict? ∧ Alongside n P Q s' d' ∧
      (move.verdict? = none → s'.position.trail.Twins d'.position.trail) := by
  rcases hs.of_settled hq with ⟨hconflicts, hend⟩
  rcases hd.of_settled hq' with ⟨hconflicts', hend'⟩
  have hformula : q'.formula = q.formula := by rw [hs.formula_eq, hd.formula_eq, h.formula_eq]
  have hfixed : q.trail.Twins q'.trail := Position.twins_of_settled htwins hs.leads hd.leads
    (congrArg Formula.numVars h.formula_eq) (h.formula_eq ▸ .refl _) (h.formula_eq ▸ .refl _) hq hq'
  have hvalues : q'.trail.values = q.trail.values :=
    (hfixed.values_eq hq.wellFormed.toRecorded (hformula ▸ hq'.wellFormed.toRecorded)).symm
  rw [hformula, hvalues] at hend'
  rcases hend with ⟨hsat, _, hdecisions, hverdict⟩ |
    ⟨hunsat, hdecisions, hverdict, v, hpick, _, _, htrail⟩
  · rcases hend' with ⟨_, _, hdecisions', hverdict'⟩ | ⟨hunsat', _⟩
    · refine ⟨hverdict'.trans hverdict.symm,
        h.rounded hs hd 0 0 hconflicts hconflicts' hdecisions hdecisions', fun hgoes => ?_⟩
      rw [hverdict] at hgoes
      cases hgoes
    · rw [hsat] at hunsat'
      cases hunsat'
  · rcases hend' with ⟨hsat', _⟩ | ⟨_, hdecisions', hverdict', v', hpick', _, _, htrail'⟩
    · rw [hunsat] at hsat'
      cases hsat'
    · -- The selectors pick by the values alone, and these are the same.
      have hsize : q.trail.values.values.size = n := by
        rw [hq.wellFormed.values_size, hs.formula_eq, h.left.numVars_eq]
      rw [← h.pick_eq _ hsize, hpick] at hpick'
      cases hpick'
      refine ⟨hverdict'.trans hverdict.symm,
        h.rounded hs hd 0 1 hconflicts hconflicts' hdecisions hdecisions', fun _ => ?_⟩
      rw [htrail, htrail']
      exact hfixed.branch _ _

/-- Two searches whose trails are twins end with the same verdict or go on as twins. -/
theorem Alongside.round : move'.verdict? = move.verdict? ∧ Alongside n P Q s' d' ∧
    (move.verdict? = none → s'.position.trail.Twins d'.position.trail) := by
  have hcopied : s.position.formula.CopiedIn d.position.formula := h.formula_eq ▸ .refl _
  have hcopied' : d.position.formula.CopiedIn s.position.formula := h.formula_eq ▸ .refl _
  rcases Position.failed_or_settled htwins hs.leads hd.leads hcopied hcopied' hs.failed_or_settled
    hd.failed_or_settled with ⟨⟨i, c, hq⟩, j, c', hq'⟩ | ⟨hq, hq'⟩
  · exact h.failed htwins hs hd hq hq'
  · exact h.settled htwins hs hd hq hq'

end Rounds

/-! ## Calls -/

section Calls

variable (hP : Selector.Lawful n P) (hQ : Selector.Lawful n Q)
include hP hQ

/-- Rounds of two searches whose trails are twins lead to the same answer. -/
theorem Alongside.run (conflicts decisions fuel : Nat) : ∀ (s : Dpll σ) (d : Dpll τ),
    Alongside n P Q s d → s.position.trail.Twins d.position.trail → s.position.Ready →
    d.position.Ready →
    ∃ answer s' d', s.run conflicts decisions fuel = .ok (answer, s') ∧
      d.run conflicts decisions fuel = .ok (answer, d') ∧ Alongside n P Q s' d' := by
  induction fuel with
  | zero =>
      intro s d h _ _ _
      exact ⟨none, s, d, rfl, rfl, h⟩
  | succ fuel ih =>
      intro s d h htwins hready hready'
      have hsame := h.isExhausted_eq conflicts decisions
      cases hexhausted : s.isExhausted conflicts decisions with
      | true =>
          rw [hexhausted] at hsame
          exact ⟨some .unknown, s, d, by simp [Dpll.run, hexhausted],
            by simp [Dpll.run, ← hsame], h⟩
      | false =>
          rw [hexhausted] at hsame
          -- Both make a round, with the same verdict or with none.
          rcases round_spec hP h.left hready with ⟨q, move, s₁, hround, hs⟩
          rcases round_spec hQ h.right hready' with ⟨q', move', d₁, hround', hd⟩
          rcases h.round htwins hs hd with ⟨hverdicts, h₁, htwins₁⟩
          cases hverdict : move.verdict? with
          | some verdict =>
              rw [hverdict] at hverdicts
              exact ⟨some verdict, s₁, d₁, by simp [Dpll.run, hexhausted, hround, hverdict],
                by simp [Dpll.run, ← hsame, hround', hverdicts], h₁⟩
          | none =>
              rw [hverdict] at hverdicts
              rcases ih s₁ d₁ h₁ (htwins₁ hverdict) (hs.ready hverdict) (hd.ready hverdicts) with
                ⟨answer, s', d', hrun, hrun', h'⟩
              exact ⟨answer, s', d', by simp [Dpll.run, hexhausted, hround, hverdict, hrun],
                by simp [Dpll.run, ← hsame, hround', hverdicts, hrun'], h'⟩

theorem Alongside.solve (h : Alongside n P Q s d) (fuel : Nat) :
    ∃ answer s' d', s.solve fuel = .ok (answer, s') ∧ d.solve fuel = .ok (answer, d') ∧
      Alongside n P Q s' d' := by
  rw [Dpll.solve, Dpll.solve, ← h.conflicts_eq, ← h.decisions_eq]
  have htwins : s.clear.position.trail.Twins d.clear.position.trail := Position.twins_clear
    h.left.position h.right.position (congrArg Formula.numVars h.formula_eq)
  exact Alongside.run hP hQ _ _ fuel s.clear d.clear h.clear htwins h.left.ready_clear
    h.right.ready_clear

end Calls

/-! ## Sequences of calls -/

/-- What can be asked of a search between rounds. -/
inductive Call
  | add (ls : List Literal)
  | limit (maxConflicts maxDecisions : Option Nat)
  | solve (fuel : Nat)

inductive Reply
  | added (answer : Except FormulaError Nat)
  | limited
  /-- There is no verdict if the call was stopped before. -/
  | solved (answer : Option Verdict)
  deriving DecidableEq

/-- What a call replied, and how much had been spent in all by then. -/
structure Record where
  reply : Reply
  conflicts : Nat
  decisions : Nat
  deriving DecidableEq

def reply : Call → Dpll σ → Except Fault (Reply × Dpll σ)
  | .add ls, s =>
    match s.add ls with
    | .error e => .error e
    | .ok (answer, s) => .ok (.added answer, s)
  | .limit maxConflicts maxDecisions, s =>
    .ok (.limited, s.setBudget ⟨maxConflicts, maxDecisions, none⟩)
  | .solve fuel, s =>
    match s.solve fuel with
    | .error e => .error e
    | .ok (answer, s) => .ok (.solved answer, s)

/-- Makes the calls, one after the other. -/
def perform : List Call → Dpll σ → Except Fault (List Record × Dpll σ)
  | [], s => .ok ([], s)
  | call :: calls, s =>
    match s.reply call with
    | .error e => .error e
    | .ok (reply, s) =>
      match perform calls s with
      | .error e => .error e
      | .ok (records, s') => .ok (⟨reply, s.conflicts, s.decisions⟩ :: records, s')

/-- The reply is about the call. A call over `n` variables that may make two rounds for every leaf
of the tree, and one more, is not stopped before there is a verdict. -/
def Call.AnsweredBy (n : Nat) : Call → Reply → Prop
  | .add _, reply => ∃ answer, reply = .added answer
  | .limit _ _, reply => reply = .limited
  | .solve fuel, reply => ∃ answer, reply = .solved answer ∧ (2 * 2 ^ n < fuel → answer.isSome)

/-- Two searches accept the same clauses. -/
theorem Alongside.add (h : Alongside n P Q s d) (ls : List Literal) :
    ∃ answer s' d', s.add ls = .ok (answer, s') ∧ d.add ls = .ok (answer, d') ∧
      Alongside n P Q s' d' := by
  rcases add_spec h.left ls with ⟨answer, s', hok, hs'⟩
  rcases add_spec h.right ls with ⟨answer', d', hok', hd'⟩
  rcases add_eq_ok hok with ⟨p', hadd, heq⟩
  rcases add_eq_ok hok' with ⟨p'', hadd', heq'⟩
  -- Whether the clause is accepted depends on the formula, which is the same.
  rcases Position.add_agree hadd hadd' (congrArg Formula.numVars h.formula_eq)
    (congrArg (Array.size ∘ Formula.given) h.formula_eq) with ⟨rfl, hformulas⟩
  have hformula : p'.formula = p''.formula := by
    rcases hformulas with ⟨hp', hp''⟩ | ⟨hp', hp''⟩
    · rw [hp', hp'', h.formula_eq]
    · rw [hp', hp'', h.formula_eq]
  subst heq heq'
  exact ⟨_, _, _, hok, hok', hs', hd', hformula, h.conflicts_eq, h.decisions_eq, h.budget_eq,
    h.pick_eq⟩

theorem Alongside.setBudget (h : Alongside n P Q s d) (budget : Budget) :
    Alongside n P Q (s.setBudget budget) (d.setBudget budget) :=
  ⟨regular_setBudget h.left budget, regular_setBudget h.right budget, h.formula_eq, h.conflicts_eq,
    h.decisions_eq, rfl, h.pick_eq⟩

section Calls

variable (hP : Selector.Lawful n P) (hQ : Selector.Lawful n Q)
include hP hQ

theorem Alongside.reply (h : Alongside n P Q s d) (call : Call) :
    ∃ reply s' d', s.reply call = .ok (reply, s') ∧ d.reply call = .ok (reply, d') ∧
      Alongside n P Q s' d' ∧ call.AnsweredBy n reply := by
  cases call with
  | add ls =>
      rcases h.add ls with ⟨answer, s', d', hok, hok', h'⟩
      exact ⟨.added answer, s', d', by simp only [Dpll.reply, hok], by simp only [Dpll.reply, hok'],
        h', answer, rfl⟩
  | limit maxConflicts maxDecisions =>
      exact ⟨.limited, _, _, rfl, rfl, h.setBudget _, rfl⟩
  | solve fuel =>
      rcases h.solve hP hQ fuel with ⟨answer, s', d', hok, hok', h'⟩
      refine ⟨.solved answer, s', d', by simp only [Dpll.reply, hok],
        by simp only [Dpll.reply, hok'], h', answer, rfl, ?_⟩
      intro hfuel
      rcases h.left.solve_ends hP hfuel with ⟨verdict, _, hsolve⟩
      cases hok.symm.trans hsolve
      rfl

/-- Two searches reply to all calls alike. -/
theorem Alongside.perform (calls : List Call) : ∀ (s : Dpll σ) (d : Dpll τ), Alongside n P Q s d →
    ∃ records s' d', s.perform calls = .ok (records, s') ∧ d.perform calls = .ok (records, d') ∧
      List.Forall₂ (fun call record => call.AnsweredBy n record.reply) calls records := by
  induction calls with
  | nil => exact fun s d _ => ⟨[], s, d, rfl, rfl, .nil⟩
  | cons call calls ih =>
      intro s d h
      rcases h.reply hP hQ call with ⟨reply, s₁, d₁, hreply, hreply', h₁, hanswered⟩
      rcases ih s₁ d₁ h₁ with ⟨records, s', d', hok, hok', hall⟩
      refine ⟨⟨reply, s₁.conflicts, s₁.decisions⟩ :: records, s', d', ?_, ?_, .cons hanswered hall⟩
      · simp only [Dpll.perform, hreply, hok]
      · simp only [Dpll.perform, hreply', hok', h₁.conflicts_eq, h₁.decisions_eq]

end Calls

theorem alongside_start {f : Formula} {propagator propagator' : PropagatorKind} {p p' : Position}
    {selector : σ} {selector' : τ} (hf : f.Pristine) (hp : Position.ofFormula propagator f = .ok p)
    (hp' : Position.ofFormula propagator' f = .ok p') (hselector : P selector)
    (hselector' : Q selector') (hn : f.numVars = n)
    (hpick : ∀ a : Assignment, a.values.size = n →
      Selector.pick selector a = Selector.pick selector' a) :
    Alongside n P Q (start p selector) (start p' selector') := by
  subst hn
  refine ⟨regular_start hf hp hselector, regular_start hf hp' hselector', ?_, rfl, rfl, rfl, hpick⟩
  rcases Position.ofFormula_spec propagator hf with ⟨_, hok, _, hformula, _⟩
  rcases Position.ofFormula_spec propagator' hf with ⟨_, hok', _, hformula', _⟩
  cases hp.symm.trans hok
  cases hp'.symm.trans hok'
  exact hformula.trans hformula'.symm

/-- Over the same formula without learned clauses, two searches with any propagators and any freshly
built selectors reply alike to whatever sequence of calls, with the same verdicts and models, and
have spent the same number of conflicts and decisions after each of them. Calls that may make enough
rounds return a verdict. -/
theorem perform_agree {f : Formula} (hf : f.Built) {propagator propagator' : PropagatorKind}
    {p p' : Position} (hp : Position.ofFormula propagator f = .ok p)
    (hp' : Position.ofFormula propagator' f = .ok p') {selector selector' : Branching}
    (hselector : selector.Fresh f.numVars) (hselector' : selector'.Fresh f.numVars)
    (calls : List Call) :
    ∃ records s s', (start p selector).perform calls = .ok (records, s) ∧
      (start p' selector').perform calls = .ok (records, s') ∧
      List.Forall₂ (fun call record => call.AnsweredBy f.numVars record.reply) calls records := by
  have h : Alongside f.numVars (Branching.Suits f.numVars) (Branching.Suits f.numVars)
      (start p selector) (start p' selector') :=
    alongside_start hf.pristine hp hp' hselector.suits hselector'.suits rfl fun a ha =>
      (hselector.pick_eq ha).trans (hselector'.pick_eq ha).symm
  exact h.perform (Branching.lawful _) (Branching.lawful _) calls _ _

/-- A limit of one conflict stops the first call; without it the next one finds the model that the
added clause takes away. What this search replies by reading every clause and in fixed order, one
that watches literals and picks by activity replies as well. -/
theorem perform_agree_sample : ∃ p s, Position.ofFormula .watch .refuting = .ok p ∧
    (start p (Branching.build .activity 2)).perform [.limit (some 1) none, .solve 9,
        .limit none none, .solve 9, .add [⟨0, true⟩], .solve 9] =
      .ok ([⟨.limited, 0, 0⟩, ⟨.solved (some .unknown), 1, 1⟩, ⟨.limited, 1, 1⟩,
        ⟨.solved (some (.satisfiable ⟨#[false, false]⟩)), 2, 2⟩, ⟨.added (.ok 2), 2, 2⟩,
        ⟨.solved (some .unsatisfiable), 3, 2⟩], s) := by
  have hp : Position.ofFormula .scan .refuting = .ok ⟨.refuting, .scan, .empty 2, 0⟩ := rfl
  have hrun : ((start ⟨.refuting, .scan, .empty 2, 0⟩ (Branching.fixedOrder ⟨2⟩)).perform
      [.limit (some 1) none, .solve 9, .limit none none, .solve 9, .add [⟨0, true⟩],
        .solve 9]).map Prod.fst =
      .ok [⟨.limited, 0, 0⟩, ⟨.solved (some .unknown), 1, 1⟩, ⟨.limited, 1, 1⟩,
        ⟨.solved (some (.satisfiable ⟨#[false, false]⟩)), 2, 2⟩, ⟨.added (.ok 2), 2, 2⟩,
        ⟨.solved (some .unsatisfiable), 3, 2⟩] := by
    decide +kernel
  rcases Position.ofFormula_spec .watch Formula.built_refuting.pristine with ⟨p, hp', _⟩
  rcases perform_agree Formula.built_refuting hp hp'
      (show (Branching.fixedOrder ⟨2⟩).Fresh 2 from .fixedOrder) (Branching.fresh_build .activity 2)
      [.limit (some 1) none, .solve 9, .limit none none, .solve 9, .add [⟨0, true⟩], .solve 9] with
    ⟨records, s, s', hok, hok', _⟩
  rw [hok] at hrun
  cases hrun
  exact ⟨p, s', hp', hok'⟩

end Dpll
end SatSearch
