import SatSearch.Proofs.Cdcl.AnySelector
import SatSearch.Proofs.Cdcl.Learning
import SatSearch.Proofs.Search.Consequence

/-!
# RootFacts — what starting over finds again

A literal that is true at level zero is derived by the clauses alone: there is no branch at this
level, and a clause that forces a literal has its other literals falsified earlier. Clauses are never
removed, so what was derived once stays derived, whatever is learned or added later. And under a
trail with all clauses quiet at level zero, whatever they derive is true at this level. So a search
that takes every assignment back, to start over or to begin a call, loses nothing: the next
propagation finds a clause that fails or assigns all these literals again, in whatever order.
-/

namespace SatSearch

open Trail

variable {n k : Nat} {f f' : Formula} {t : Trail} {l : Literal}

/-! ## What clauses derive -/

/-- The clauses alone force the literal, each other literal of a forcing clause being refuted by the
clauses in turn. -/
inductive Formula.Derives (f : Formula) : Literal → Prop
  | forced {c : Clause} {l : Literal} : c ∈ f.clauses → l ∈ c.literals →
      (∀ a ∈ c.literals, a ≠ l → Derives f a.negate) → Derives f l

theorem Formula.Derives.mono (h : f.Derives l) (hsub : ∀ c ∈ f.clauses, c ∈ f'.clauses) :
    f'.Derives l := by
  induction h with
  | forced hc hl _ ih => exact .forced (hsub _ hc) hl ih

/-- What is true at level zero is derived. -/
theorem Trail.Justified.derives (h : Justified f t) (hlev : t.Levelled) (hl : t.TrueBy 0 l) :
    f.Derives l := by
  rcases hl with ⟨s, hs, rfl, hzero⟩
  rcases Array.mem_iff_getElem?.1 hs with ⟨i, hi⟩
  -- The clause that explains a step mentions earlier steps only, and these are of level zero, too.
  induction i using Nat.strong_induction_on generalizing s with
  | _ i ih =>
      have hnone : ¬ s.reason.IsBranch := by
        intro hbranch
        have := (h.branch_start i s hi hbranch).1
        omega
      cases hr : s.reason with
      | decision => exact (hnone (by simp [hr, Reason.IsBranch])).elim
      | flipped => exact (hnone (by simp [hr, Reason.IsBranch])).elim
      | clause index =>
          rcases h.explained i index s hi hr with ⟨c, hc, hl, hothers⟩
          refine .forced (Formula.mem_of_clause? hc) hl ?_
          intro a ha hal
          rcases hothers a ha hal with ⟨j, hj, s', hs', hneg⟩
          have hle := hlev.level_mono hj.le hs' hi
          exact hneg ▸ ih j hj s' (Array.mem_of_getElem? hs') (by omega) hs'

/-- With all clauses quiet at a level, what they derive is true at that level. -/
theorem Formula.Derives.trueBy (h : f.Derives l) (ht : t.Recorded n)
    (hquiet : ∀ c ∈ f.clauses, t.Quiet k c) : t.TrueBy k l := by
  induction h with
  | forced hc _ _ ih => exact (hquiet _ hc).trueBy_of_others ht ih

/-! ## Propagating with nothing assigned -/

namespace Position

variable {p : Position}

/-- Nothing is assigned, and the next propagation finds a clause that fails or assigns, at level
zero, every literal that the trail has at level zero. -/
def Recovers (t : Trail) (p : Position) : Prop :=
  p.trail.steps = #[] ∧ ∃ o q, p.propagate = .ok (o, q) ∧
    ((∃ i, o = .conflict i) ∨ ∀ l, t.TrueBy 0 l → q.trail.TrueBy 0 l ∧
      q.trail.values.literal? l = some true ∧ q.trail.levelOf l.var = .ok 0)

/-- Taking back every assignment of a position and propagating recovers what its clauses derive. -/
theorem Left.recovers (h : p.Left) (hderives : ∀ l, t.TrueBy 0 l → p.formula.Derives l) :
    p.clear.Recovers t := by
  rcases h.clear.propagate with ⟨o, q, hok, hformula, _, hend⟩
  refine ⟨by simp [h.trail_clear, Trail.empty], o, q, hok, ?_⟩
  cases o with
  | conflict i => exact .inl ⟨i, rfl⟩
  | fixpoint =>
      refine .inr fun l hl => ?_
      have ht := hend.wellFormed.toRecorded
      have htrue : q.trail.TrueBy 0 l := by
        refine (hderives l hl).trueBy ht fun c hc => ?_
        exact hend.quiet 0 (Nat.zero_le _) c (by rwa [hformula, formula_clear])
      rcases htrue with ⟨s, hs, rfl, hzero⟩
      have hlevel : s.level = 0 := Nat.le_zero.1 hzero
      exact ⟨⟨s, hs, rfl, hzero⟩, ht.literal?_eq_true.2 ⟨s, hs, rfl⟩,
        hlevel ▸ ht.levelOf_step hs⟩

theorem Consistent.derives (h : p.Consistent) (hl : p.trail.TrueBy 0 l) : p.formula.Derives l :=
  h.justified.derives h.wellFormed.toLevelled hl

/-- With nothing assigned there is nothing to take back. -/
theorem clear_eq_self (h : p.trail = .empty n) : p.clear = p := by
  rcases p with ⟨f, propagator, t, count⟩
  obtain rfl : t = .empty n := h
  simp only [Position.clear, clear_eq (wellFormed_empty n).toRecorded]

end Position

namespace Cdcl

variable {σ : Type} {P : σ → Prop} {kind : AnalyserKind} {s s' : Cdcl σ}

/-! ## Between propagations -/

/-- What can happen to a search without propagating: a call that ends before its first round, and
what is done between calls. -/
inductive Idle : Cdcl σ → Cdcl σ → Prop
  | called (s : Cdcl σ) : Idle s s.clear
  | added {s s' : Cdcl σ} {ls : List Literal} {answer : Except FormulaError Nat} :
      s.add ls = .ok (answer, s') → Idle s s'
  | budgeted (s : Cdcl σ) (budget : Budget) : Idle s (s.setBudget budget)

/-- The search stays regular, and no clause is lost. -/
theorem Idle.regular (hidle : Idle s s') (h : s.Regular n P kind) :
    s'.Regular n P kind ∧ ∀ c ∈ s.position.formula.clauses, c ∈ s'.position.formula.clauses := by
  cases hidle with
  | called => exact ⟨h.clear, fun _ => id⟩
  | added hadd =>
      rcases add_spec h _ with ⟨_, _, hok, hregular, _, hformula⟩
      cases hadd.symm.trans hok
      refine ⟨hregular, fun c hc => ?_⟩
      rcases hformula with ⟨_, hformula⟩ | ⟨_, hformula⟩
      · rwa [hformula]
      · exact hformula ▸ Formula.mem_clauses_extended.2 (.inl hc)
  | budgeted => exact ⟨regular_setBudget h _, fun _ => id⟩

/-- With nothing assigned, nothing is assigned in the meantime. -/
theorem Idle.trail_eq (hidle : Idle s s') (h : s.Regular n P kind)
    (hempty : s.position.trail = .empty n) : s'.position.trail = .empty n := by
  have hclear : s.position.clear.trail = .empty n := by
    rw [h.position.trail_clear, h.numVars_eq]
  cases hidle with
  | called => exact hclear
  | added hadd =>
      rcases add_eq_ok hadd with ⟨p', hposition, rfl⟩
      exact (Position.trail_of_add hposition).trans hclear
  | budgeted => exact hempty

theorem Regular.idle (h : s.Regular n P kind) (hidle : Reaches Idle s s') :
    s'.Regular n P kind ∧ ∀ c ∈ s.position.formula.clauses, c ∈ s'.position.formula.clauses := by
  refine hidle.invariant (I := fun s' => s'.Regular n P kind ∧
    ∀ c ∈ s.position.formula.clauses, c ∈ s'.position.formula.clauses) ?_ ⟨h, fun _ => id⟩
  rintro s₁ s₂ ⟨hs₁, hsub⟩ hstep
  rcases hstep.regular hs₁ with ⟨hs₂, hsub'⟩
  exact ⟨hs₂, fun c hc => hsub' c (hsub c hc)⟩

theorem Regular.idle_trail_eq (h : s.Regular n P kind) (hempty : s.position.trail = .empty n)
    (hidle : Reaches Idle s s') : s'.position.trail = .empty n := by
  have := hidle.invariant (I := fun s => s.Regular n P kind ∧ s.position.trail = .empty n)
    (fun _ _ hI hstep => ⟨(hstep.regular hI.1).1, hstep.trail_eq hI.1 hI.2⟩) ⟨h, hempty⟩
  exact this.2

/-- Whatever happens before the next propagation, taking every assignment back loses nothing that
the clauses derived. -/
theorem Regular.recovers (h : s.Regular n P kind) (hidle : Reaches Idle s s')
    (hderives : ∀ l, t.TrueBy 0 l → s.position.formula.Derives l) :
    s'.clear.position.Recovers t := by
  rcases h.idle hidle with ⟨hs', hsub⟩
  exact hs'.position.recovers fun l hl => (hderives l hl).mono hsub

/-! ## Starting over -/

variable [Selector σ]

/-- Wherever a search is that may make another round: if propagating leads it to a restart, the
assignments are taken back that were there when it was propagated, and the clauses derive what was
true at level zero. -/
theorem Going.restarted {q : Cdcl σ} {o : Outcome} (h : s.Going n kind)
    (hready : s.position.Ready) (hpropagate : s.propagate = .ok (o, q))
    (hrespond : q.respond o = .ok (.restarted, s')) :
    s'.Going n kind ∧ s'.position = q.position.clear ∧ s'.position.trail = .empty n ∧
      ∀ l, q.position.trail.TrueBy 0 l → s'.position.formula.Derives l := by
  rcases propagate_eq_ok hpropagate with ⟨p, hp, rfl⟩
  have hwent := h.respond hready hp hrespond
  rcases hwent.restarted rfl with ⟨hsettled, hposition⟩
  have hformula : s'.position.formula = p.formula := by rw [hposition, Position.formula_clear]
  refine ⟨hwent.going, hposition, ?_, fun l hl => ?_⟩
  · rw [hposition, hsettled.left.trail_clear, ← hformula, hwent.going.numVars_eq]
  · exact hformula ▸ hsettled.toConsistent.derives hl

/-- All its lifetime, with either propagator and analyser, any restarts and any selector at all, the
search that learns loses no literal of level zero. A call that takes the assignments back that an
earlier one has left, whatever was done in between, propagates to a clause that fails or to the same
literals at level zero; and so does the search after each restart. -/
theorem recovers_ground {fit : Nat → σ → Prop} (h : s.Lifetime fit kind) :
    (∀ s', Reaches Idle s s' → s'.clear.position.Recovers s.position.trail) ∧
      ∀ fuel s₁ o q s₂, s.solve fuel = .ok (none, s₁) → s₁.propagate = .ok (o, q) →
        q.respond o = .ok (.restarted, s₂) →
        s₂.position = q.position.clear ∧
          ∀ s', Reaches Idle s₂ s' → s'.position.Recovers q.position.trail := by
  rcases h.going with ⟨n, hs⟩
  constructor
  · intro s' hidle
    exact hs.recovers hidle fun l => hs.position.toConsistent.derives
  · intro fuel s₁ o q s₂ hsolve hpropagate hrespond
    rcases hs.solve hsolve with ⟨hs₁, hready⟩
    rcases hs₁.restarted (hready rfl) hpropagate hrespond with
      ⟨hs₂, hposition, hempty, hderives⟩
    refine ⟨hposition, fun s' hidle => ?_⟩
    have hclear : s'.clear.position = s'.position :=
      Position.clear_eq_self (hs₂.idle_trail_eq hempty hidle)
    exact hclear ▸ hs₂.recovers hidle hderives

/-- Deciding the first variable fails, so it is learned to be false, and the next round starts over.
It is found to be false again at once, also if a clause is added before. -/
theorem recovers_ground_sample :
    ∃ s₁ q s₂ s₃, refuting.solve 2 = .ok (none, s₁) ∧ s₁.propagate = .ok (.fixpoint, q) ∧
      q.respond .fixpoint = .ok (.restarted, s₂) ∧ s₂.add [⟨1, true⟩] = .ok (.ok 2, s₃) ∧
      q.position.trail.steps = #[⟨⟨0, false⟩, 0, .clause 2⟩] ∧
      s₁.clear.position.Recovers s₁.position.trail ∧
      s₂.position.Recovers q.position.trail ∧ s₃.position.Recovers q.position.trail := by
  have hrun : (refuting.solve 2).bind (fun r₁ => r₁.2.propagate.bind fun r =>
      (r.2.respond r.1).bind fun r₂ => (r₂.2.add [⟨1, true⟩]).map fun r₃ =>
        ((r₁.1, r.1, r₂.1), r₃.1, r.2.position.trail.steps)) =
      .ok ((none, .fixpoint, .restarted), .ok 2, #[⟨⟨0, false⟩, 0, .clause 2⟩]) := by
    decide +kernel
  rcases exists_of_bind_eq_ok hrun with ⟨⟨answer, s₁⟩, hsolve, hrun⟩
  rcases exists_of_bind_eq_ok hrun with ⟨⟨o, q⟩, hpropagate, hrun⟩
  rcases exists_of_bind_eq_ok hrun with ⟨⟨move, s₂⟩, hrespond, hrun⟩
  rcases exists_of_map_eq_ok hrun with ⟨⟨added, s₃⟩, hadd, heq⟩
  simp only [Prod.mk.injEq] at heq
  rcases heq with ⟨⟨rfl, rfl, rfl⟩, rfl, hsteps⟩
  rcases (recovers_ground lifetime_refuting).2 2 s₁ _ q s₂ hsolve hpropagate hrespond with
    ⟨_, hrestarted⟩
  exact ⟨s₁, q, s₂, s₃, hsolve, hpropagate, hrespond, hadd, hsteps,
    (recovers_ground (lifetime_refuting.solved hsolve)).1 s₁ .refl,
    hrestarted s₂ .refl, hrestarted s₃ (.single (.added hadd))⟩

end Cdcl
end SatSearch
