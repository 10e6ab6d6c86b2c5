import SatSearch.Proofs.Cdcl.Lifetime
import SatSearch.Proofs.Dpll.Lifetime
import SatSearch.Proofs.Propagation.Confluence

/-!
# Head — the positions between the rounds of a call

Either search may be stopped after any number of rounds of a call, any time in its lifetime, and
what it has then is a position at the head of its loop. Every such position is ready: propagating it
is sound and complete, and every literal of its trail follows from the decisions of its level and
below.
-/

namespace SatSearch

open Trail

namespace Dpll

/-- A search over two clauses that refute the first variable, by reading every clause. -/
def refuting : Dpll Branching :=
  .start ⟨.refuting, .scan, .empty 2, 0⟩ (.fixedOrder ⟨2⟩)

theorem lifetime_refuting : refuting.Lifetime Branching.Fresh :=
  have hp : Position.ofFormula .scan .refuting = .ok refuting.position := rfl
  .started Formula.built_refuting hp .fixedOrder

end Dpll

namespace Position

variable {p p' : Position} {c : Clause} {o : Outcome}

/-- The position stands at the head of the loop of one of the searches, over a formula that had no
learned clauses when the search was started. -/
inductive AtHead : Position → Prop
  | learning {kind : AnalyserKind} {s s' : Cdcl Branching} {fuel : Nat} :
      s.Lifetime Branching.Fresh kind → s.solve fuel = .ok (none, s') → AtHead s'.position
  | backtracking {s s' : Dpll Branching} {fuel : Nat} :
      s.Lifetime Branching.Fresh → s.solve fuel = .ok (none, s') → AtHead s'.position

theorem AtHead.ready (h : p.AtHead) : p.Ready := by
  cases h with
  | learning hs hsolve => exact hs.ready_of_solve hsolve
  | backtracking hs hsolve => exact hs.ready_of_solve hsolve

/-! ## Propagating at the head -/

/-- What propagating from `p` to `p'` has to do: push forced literals only, and end where no clause
is falsified or unit and propagating again changes nothing, or with a clause that has become false
through two literals of the current level. -/
structure Propagated (p : Position) (o : Outcome) (p' : Position) : Prop where
  formula_eq : p'.formula = p.formula
  /-- Each literal was the only one of its reason clause that was not false, and had no value. -/
  forced : Forced p.formula p.trail p'.trail
  complete : o = .fixpoint → ∀ c ∈ p'.formula.clauses,
    c.state p'.trail.values ≠ .falsified ∧ ∀ l, c.state p'.trail.values ≠ .unit l
  idempotent : o = .fixpoint → p'.propagate = .ok (.fixpoint, p')
  falsified : ∀ i, o = .conflict i → ∃ c, p'.formula.clause? i = some c ∧
    (∀ l ∈ c.literals, p'.trail.values.literal? l = some false) ∧
    (0 < p'.trail.level → ∃ a ∈ c.literals, ∃ b ∈ c.literals, a ≠ b ∧
      p'.trail.levelOf a.var = .ok p'.trail.level ∧ p'.trail.levelOf b.var = .ok p'.trail.level)

/-- A clause that fails was quiet below the current level, so two of its literals were falsified
there. -/
theorem Left.two_current (h : p.Left) (hc : c ∈ p.formula.clauses) (hfalse : p.trail.Falsifies c)
    (hpos : 0 < p.trail.level) : ∃ a ∈ c.literals, ∃ b ∈ c.literals, a ≠ b ∧
      p.trail.levelOf a.var = .ok p.trail.level ∧ p.trail.levelOf b.var = .ok p.trail.level := by
  have hlevelOf : ∀ a ∈ c.literals, ¬ p.trail.TrueBy (p.trail.level - 1) a.negate →
      p.trail.levelOf a.var = .ok p.trail.level := by
    intro a ha hna
    rcases hfalse a ha with ⟨s, hs, hsa⟩
    have hle := h.wellFormed.le_level s hs
    have hgt : ¬ s.level ≤ p.trail.level - 1 := fun hle => hna ⟨s, hs, hsa, hle⟩
    have hvar : a.var = s.literal.var := by rw [hsa, Literal.negate_var]
    rw [hvar, h.wellFormed.levelOf_step hs]
    congr 1
    omega
  rcases (h.quiet (p.trail.level - 1) (by omega) c hc).two_above h.wellFormed.toRecorded hfalse with
    ⟨a, ha, b, hb, hab, hna, hnb⟩
  exact ⟨a, ha, b, hb, hab, hlevelOf a ha hna, hlevelOf b hb hnb⟩

/-- A fixpoint stays as it is. -/
theorem Settled.propagate (h : p.Settled) (hhead : p.trail.head = p.trail.steps.size) :
    p.propagate = .ok (.fixpoint, p) := by
  rcases p with ⟨f, propagator, t, count⟩
  have hok := Propagator.propagate_settled h.proper h.wellFormed h.propagator
    (h.quiet t.level le_rfl) hhead
  simp only [Position.propagate, hok, Nat.sub_self, Nat.add_zero]

theorem Ready.propagate_fixpoint (h : p.Ready) (hok : p.propagate = .ok (.fixpoint, p')) :
    p'.trail.head = p'.trail.steps.size := by
  rcases p with ⟨f, propagator, t, count⟩
  simp only [Position.propagate] at hok
  split at hok
  · cases hok
  · rename_i outcome q u hpropagate
    cases hok
    exact Propagator.propagate_fixpoint h.proper h.wellFormed h.propagator hpropagate

theorem Ready.propagate_spec (h : p.Ready) :
    ∃ o p', p.propagate = .ok (o, p') ∧ p.Propagated o p' := by
  rcases h.propagate with ⟨o, p', hok, hformula, hforced, hend⟩
  refine ⟨o, p', hok, hformula, hforced, ?_, ?_, ?_⟩
  · rintro rfl c hc
    exact (hend.quiet _ le_rfl c hc).state_ne hend.wellFormed
  · rintro rfl
    exact hend.propagate (h.propagate_fixpoint hok)
  · rintro i rfl
    rcases hend with ⟨hleft, c, hc, hfalse⟩
    rw [← hformula] at hc
    exact ⟨c, hc, fun l hl => hleft.wellFormed.literal?_eq_false.2 (hfalse l hl),
      hleft.two_current (Formula.mem_of_clause? hc) hfalse⟩

/-- At the head of the loop of either search, whatever its configuration and history, propagation is
sound and complete. -/
theorem AtHead.propagation_complete (h : p.AtHead) :
    ∃ o p', p.propagate = .ok (o, p') ∧ p.Propagated o p' :=
  h.ready.propagate_spec

/-- With the first variable decided, the second clause fails. -/
theorem AtHead.propagation_complete_sample : ∃ p p' : Position, p.AtHead ∧
    p.trail.steps = #[⟨⟨0, true⟩, 1, .decision⟩] ∧ p.propagate = .ok (.conflict 1, p') ∧
    p.Propagated (.conflict 1) p' := by
  have hrun : (Dpll.refuting.solve 1).map (fun r => (r.1, r.2.position.trail.steps)) =
      .ok (none, #[⟨⟨0, true⟩, 1, .decision⟩]) := by decide +kernel
  have hfails : (Dpll.refuting.solve 1).bind (fun r => r.2.position.propagate.map Prod.fst) =
      .ok (.conflict 1) := by decide +kernel
  rcases hsolve : Dpll.refuting.solve 1 with _ | ⟨answer, s⟩
  · rw [hsolve] at hrun
    cases hrun
  rw [hsolve] at hrun hfails
  obtain ⟨rfl, hsteps⟩ : answer = none ∧ s.position.trail.steps = _ := by
    simpa [Except.map] using hrun
  have hhead := AtHead.backtracking Dpll.lifetime_refuting hsolve
  rcases hhead.propagation_complete with ⟨o, p', hok, hpropagated⟩
  obtain rfl : o = .conflict 1 := by
    simpa [Except.bind, Except.map, hok] using hfails
  exact ⟨s.position, p', hhead, hsteps, hok, hpropagated⟩

/-! ## What the trail says at the head -/

/-- At the head of the loop of either search, every step of the trail holds in every model of the
given clauses that makes the decisions of its level and below true; so a step of level zero holds in
every model, and a flipped one needs the decisions of the levels below its own only. -/
theorem AtHead.step_entailed (h : p.AtHead) : ∀ s ∈ p.trail.steps, ∀ v, p.formula.Holds v →
    ((∀ d ∈ p.trail.steps, d.reason = .decision → d.level ≤ s.level → d.literal.Holds v) →
      s.literal.Holds v) ∧
    (s.level = 0 → s.literal.Holds v) ∧
    (s.reason = .flipped →
      (∀ d ∈ p.trail.steps, d.reason = .decision → d.level < s.level → d.literal.Holds v) →
      s.literal.Holds v) := by
  have hready := h.ready
  have hlevelled := hready.wellFormed.toLevelled
  intro s hs v hv
  refine ⟨?_, ?_, ?_⟩
  · intro hdecisions
    exact hready.justified.holds_of_decisions hlevelled hready.sound hv hdecisions hs le_rfl
  · intro hzero
    exact hready.justified.holds_of_ground hlevelled hready.sound hv ⟨s, hs, rfl, hzero.le⟩
  · intro hflipped
    exact hready.justified.flipped s hs hflipped v hv

/-- After the first variable has failed, its complement is there as flipped at level one, and
follows from the clauses alone. -/
theorem AtHead.step_entailed_sample :
    ∃ p : Position, p.AtHead ∧ p.trail.steps = #[⟨⟨0, false⟩, 1, .flipped⟩] ∧
      ∀ v, p.formula.Holds v → Literal.Holds v ⟨0, false⟩ := by
  have hrun : (Dpll.refuting.solve 2).map (fun r => (r.1, r.2.position.trail.steps)) =
      .ok (none, #[⟨⟨0, false⟩, 1, .flipped⟩]) := by decide +kernel
  rcases hsolve : Dpll.refuting.solve 2 with _ | ⟨answer, s⟩
  · rw [hsolve] at hrun
    cases hrun
  rw [hsolve] at hrun
  obtain ⟨rfl, hsteps⟩ : answer = none ∧ s.position.trail.steps = _ := by
    simpa [Except.map] using hrun
  have hhead := AtHead.backtracking Dpll.lifetime_refuting hsolve
  refine ⟨s.position, hhead, hsteps, ?_⟩
  intro v hv
  refine (hhead.step_entailed ⟨⟨0, false⟩, 1, .flipped⟩ (by simp [hsteps]) v hv).2.2 rfl ?_
  -- There is no decision at all.
  simp [hsteps]

end Position
end SatSearch
