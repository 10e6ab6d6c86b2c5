import SatSearch.Proofs.Cdcl.Retrying

/-!
# Filling — what is left to do when every clause is satisfied

Once every clause has a true literal, propagation finds nothing to force and no clause can fail.
Without restarts the search then decides the variables that are left, each one to be true, until all
of them have a value, and ends with that model.
-/

namespace SatSearch

namespace Trail

variable {n : Nat} {f : Formula} {t u : Trail}

/-- Every clause has a true literal. -/
def Satisfies (t : Trail) (f : Formula) : Prop :=
  ∀ c ∈ f.clauses, ∃ l ∈ c.literals, t.Assigns l

theorem Satisfies.mono (h : t.Satisfies f) (hsub : ∀ l, t.Assigns l → u.Assigns l) :
    u.Satisfies f := by
  intro c hc
  rcases h c hc with ⟨l, hl, htrue⟩
  exact ⟨l, hl, hsub l htrue⟩

theorem Satisfies.quiet (h : t.Satisfies f) (ht : t.Levelled) :
    ∀ c ∈ f.clauses, t.Quiet t.level c := by
  intro c hc
  rcases h c hc with ⟨l, hl, htrue⟩
  exact .inl ⟨l, hl, ht.trueBy_level.2 htrue⟩

end Trail

open Trail

theorem Position.Failed.not_satisfies {p : Position} {i : Nat} {c : Clause} (h : p.Failed i c) :
    ¬ p.trail.Satisfies p.formula := by
  intro hsat
  rcases hsat c (Formula.mem_of_clause? h.clause) with ⟨l, hl, htrue⟩
  exact h.wellFormed.not_assigns_negate htrue (h.failsAt.falsifies l hl)

namespace Cdcl

variable {σ : Type} {n : Nat} {P : σ → Prop} {kind : AnalyserKind} {s s₁ s' : Cdcl σ}
variable {q : Position} {move : Move} {verdict : Verdict} {t : Trail} {u : Nat}

/-- The search ends with a model that agrees with the trail and makes all other variables true,
after one decision for each of them. -/
structure Filled (n : Nat) (t : Trail) (s : Cdcl σ) (verdict : Verdict) (s' : Cdcl σ) : Prop where
  conflicts_eq : s'.conflicts = s.conflicts
  decisions_eq : s'.decisions + t.steps.size = s.decisions + n
  model : ∃ m, verdict = .satisfiable m ∧
    (∀ l, t.Assigns l → m.value? l.var = some l.positive) ∧
    ∀ v < n, t.Free v → m.value? v = some true

/-- A variable that is decided first is one of those that are made true. -/
theorem Filled.decided (h : Filled n (t.newLevel.pushed ⟨u, true⟩ .decision) s₁ verdict s')
    (hconflicts : s₁.conflicts = s.conflicts) (hdecisions : s₁.decisions = s.decisions + 1) :
    Filled n t s verdict s' := by
  rcases h with ⟨hconflicts', hdecisions', m, rfl, hassigned, hfree⟩
  have hsub : ∀ l, t.Assigns l → (t.newLevel.pushed ⟨u, true⟩ .decision).Assigns l :=
    fun l hl => assigns_pushed.2 (.inl hl)
  refine ⟨hconflicts'.trans hconflicts, ?_, m, rfl, fun l hl => hassigned l (hsub l hl), ?_⟩
  · rw [steps_pushed, Array.size_push, steps_newLevel] at hdecisions'
    omega
  · intro v hv hv'
    by_cases hvu : v = u
    · subst hvu
      exact hassigned ⟨v, true⟩ (assigns_pushed.2 (.inr rfl))
    · refine hfree v hv ?_
      intro x hx
      rcases mem_pushed.1 hx with hx | rfl
      · exact hv' x hx
      · exact Ne.symm hvu

theorem Filled.of_withHead {head : Nat} (h : Filled n (t.withHead head) s verdict s') :
    Filled n t s verdict s' :=
  ⟨h.conflicts_eq, h.decisions_eq, h.model⟩

theorem isDue_of_never (h : s.restarter.schedule = .never) : s.restarter.isDue = false := by
  simp [Restarter.isDue, h]

variable [Selector σ]

theorem Rounded.never (h : Rounded P kind s q move s') (hs : s.restarter.schedule = .never) :
    s'.restarter.schedule = .never := by
  rw [h.restarter_eq, Move.restarter_of_never hs, hs]

/-- With a value for every variable there is nothing to fill up. -/
theorem Rounded.filled (h : Rounded P kind s q move s') (hq : q.Settled)
    (hs : s.restarter.schedule = .never) (hvars : q.formula.numVars = n)
    (hverdict : move.verdict? = some verdict) : Filled n q.trail s verdict s' := by
  subst hvars
  rcases h.of_settled hq (isDue_of_never hs) with ⟨hconflicts, _, hend⟩
  rcases hend with ⟨hfull, hdecisions, hcompleted⟩ | ⟨_, hgoes, _⟩
  · cases hverdict.symm.trans hcompleted
    have hnone := hq.wellFormed.isComplete_iff.1 hfull
    have hsize : q.trail.steps.size = q.formula.numVars := by
      rw [← hq.wellFormed.assigned_eq, beq_iff_eq.1 hfull]
      exact hq.wellFormed.values_size
    refine ⟨hconflicts, by rw [hdecisions, hsize], _, rfl, ?_, ?_⟩
    · intro l hl
      exact Model.value?_ofAssignment ((hq.wellFormed.value_iff l.var l.positive).2 hl)
    · intro v hv hfree
      exact absurd hfree (hnone v hv)
  · rw [hverdict] at hgoes
    cases hgoes

/-- A round that goes on from a satisfied fixpoint decides a variable, and the rest is filled up. -/
theorem Rounded.filled_of_goes (h : Rounded P kind s q move s₁) (hq : q.Settled)
    (hs : s.restarter.schedule = .never) (hsat : q.trail.Satisfies q.formula)
    (hverdict : move.verdict? = none)
    (hrest : s₁.position.trail.Satisfies s₁.position.formula →
      Filled n s₁.position.trail s₁ verdict s') : Filled n q.trail s verdict s' := by
  rcases h.of_settled hq (isDue_of_never hs) with ⟨hconflicts, hformula, hend⟩
  rcases hend with ⟨_, _, hcompleted⟩ | ⟨hdecisions, _, u, _, _, _, htrail⟩
  · rw [hverdict] at hcompleted
    cases hcompleted
  · rw [hformula, htrail] at hrest
    exact (hrest (hsat.mono fun l hl => assigns_pushed.2 (.inl hl))).decided hconflicts hdecisions

/-- Propagating from a trail that satisfies every clause pushes nothing and reaches a fixpoint. -/
theorem Rounded.of_satisfies (h : Rounded P kind s q move s') (hs : s.Regular n P kind)
    (hsat : s.position.trail.Satisfies s.position.formula) :
    q.trail = s.position.trail.withHead q.trail.head ∧ q.Settled ∧ q.trail.Satisfies q.formula := by
  have hwf := hs.position.wellFormed
  have hsat' : q.trail.Satisfies q.formula := by
    rw [h.formula_eq]
    exact hsat.mono fun _ => h.forced.assigns
  refine ⟨h.forced.eq_withHead hwf (hsat.quiet hwf.toLevelled), ?_, hsat'⟩
  rcases h.failed_or_settled with ⟨i, c, hfailed⟩ | hsettled
  · exact absurd hsat' hfailed.not_satisfies
  · exact hsettled

/-- From a trail that satisfies every clause the search fills it up. -/
theorem filled_of_reaches (h : Reaches (Next P kind) s s₁) (hends : Ends P kind s₁ verdict s') :
    s.Regular n P kind → s.restarter.schedule = .never →
    s.position.trail.Satisfies s.position.formula → Filled n s.position.trail s verdict s' := by
  -- By induction on the rounds that are left, each of which decides a variable.
  induction h using Relation.ReflTransGen.head_induction_on with
  | refl =>
      intro hs hnever hsat
      rcases hends with ⟨q, move, hrounded, hverdict⟩
      rcases hrounded.of_satisfies hs hsat with ⟨htrail, hsettled, _⟩
      have hfilled := hrounded.filled hsettled hnever (hrounded.formula_eq ▸ hs.numVars_eq) hverdict
      rw [htrail] at hfilled
      exact hfilled.of_withHead
  | head hnext _ ih =>
      intro hs hnever hsat
      rcases hnext with ⟨q, move, hrounded, hverdict⟩
      rcases hrounded.of_satisfies hs hsat with ⟨htrail, hsettled, hsat'⟩
      have hfilled := hrounded.filled_of_goes hsettled hnever hsat' hverdict
        (ih (hrounded.regular hs) (hrounded.never hnever))
      rw [htrail] at hfilled
      exact hfilled.of_withHead

end Cdcl
end SatSearch
