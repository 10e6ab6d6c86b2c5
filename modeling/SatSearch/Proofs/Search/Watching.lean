import SatSearch.Proofs.Search.Head
import SatSearch.Proofs.Trail.Operations

/-!
# Watching — what watched literals say at a fixpoint, and after stepping back from it

Whenever propagation has reached a fixpoint, a watched literal that is false is made up for by the
other watched literal of its clause, which is true and was assigned at no higher level. So stepping
back to any level takes the false literal back, or leaves both: the clauses stay covered without any
watch being moved. The same holds after stepping back from a clause that failed, although
propagation has stopped half-way there.
-/

namespace SatSearch

open Trail

namespace WatchIndex

variable {n k : Nat} {cs : List Clause} {f : Formula} {t t' : Trail} {w : WatchIndex}
variable {a b : Literal} {i : Nat}

/-- If the first literal is false then the second one is true, and was assigned at no higher
level. -/
def MadeUp (t : Trail) (a b : Literal) : Prop :=
  t.values.literal? a = some false → t.values.literal? b = some true ∧
    ∃ j k, t.levelOf b.var = .ok j ∧ t.levelOf a.var = .ok k ∧ j ≤ k

/-- Every clause of two or more literals watches two positions, and each of the two literals there
is made up for by the other one. -/
def Covers (f : Formula) (t : Trail) (w : WatchIndex) : Prop :=
  ∀ i c, f.clause? i = some c → 2 ≤ c.length → ∃ p q a b, w.positions[i]? = some (p, q) ∧ p ≠ q ∧
    c.literals[p]? = some a ∧ c.literals[q]? = some b ∧ MadeUp t a b ∧ MadeUp t b a

theorem Guards.madeUp (h : Guards cs t t.steps.size w) (ht : t.Recorded n)
    (hw : Watches cs w i a b) : MadeUp t a b := by
  intro hfalse
  rcases ht.literal?_eq_false.1 hfalse with ⟨s, hs, hsa⟩
  rcases Array.mem_iff_getElem?.1 hs with ⟨j, hj⟩
  have hlt := (Array.getElem?_eq_some_iff.1 hj).1
  rcases h i a b hw j hlt s hj hsa with ⟨s', hs', hsb, hle⟩
  have hlevel := ht.levelOf_step hs'
  rw [hsb] at hlevel
  exact ⟨ht.literal?_eq_true.2 ⟨s', hs', hsb⟩, s'.level, s.level, hlevel,
    ht.levelOf_negate hs hsa, hle⟩

/-- What guards all of the trail covers the clauses. -/
theorem Watchful.covers (h : Watchful f t t.steps.size w) (ht : t.WellFormed f.numVars) :
    w.Covers f t := by
  intro i c hc hlen
  have hcs : f.clauses[i]? = some c := by rw [← Formula.clause?_eq_getElem?, hc]
  rcases h.indexes.watched i c hcs hlen with ⟨a, b, hab⟩
  have ha := h.guards.madeUp ht.toRecorded hab
  have hb := h.guards.madeUp ht.toRecorded hab.symm
  rcases hab with ⟨c', p, q, hc', hpos, hpq, hp, hq⟩
  obtain rfl : c = c' := Option.some.inj (hcs.symm.trans hc')
  -- The positions are recorded in one order or the other.
  rcases hpos with hpos | hpos
  · exact ⟨p, q, a, b, hpos, hpq, hp, hq, ha, hb⟩
  · exact ⟨q, p, b, a, hpos, hpq.symm, hq, hp, hb, ha⟩

/-- Stepping back from a trail that is guarded to its end. -/
theorem Watchful.backstepped (h : Watchful f t t.steps.size w) (hback : SteppedBack k t t') :
    Watchful f t' t'.steps.size w := by
  have hsize : t'.steps.size ≤ t.steps.size := by
    by_contra hlt
    have hlast : t'.steps[t.steps.size]? = some t'.steps[t.steps.size] :=
      Array.getElem?_eq_getElem (by omega)
    have := (Array.getElem?_eq_some_iff.1 ((hback.getElem?_iff _ _).1 hlast).1).1
    omega
  have hhead := hback.head_eq h.head_le
  have := h.le_head
  exact ⟨h.indexes, h.guards.steppedBack hback hsize, currentFrom_size, by omega, by omega⟩

/-- A trail that is guarded to its end stays so under stepping back to one level after the
other. -/
theorem Watchful.backsteps (levels : List Nat) : ∀ t : Trail, Watchful f t t.steps.size w →
    t.WellFormed f.numVars → ∃ t', performAll (levels.map .backstep) t = .ok t' ∧
      Watchful f t' t'.steps.size w ∧ t'.WellFormed f.numVars := by
  induction levels with
  | nil => exact fun t h ht => ⟨t, rfl, h, ht⟩
  | cons k levels ih =>
      intro t h ht
      rcases backstep_spec ht k with ⟨t₁, hok, ht₁, hback⟩
      rcases ih t₁ (h.backstepped hback) ht₁ with ⟨t', hok', h'⟩
      refine ⟨t', ?_, h'⟩
      simp only [List.map_cons, performAll, Operation.perform, hok, hok']

end WatchIndex

namespace Position

variable {p p' : Position} {w : WatchIndex} {k : Nat}

theorem Settled.covers_backsteps (h : p.Settled) (hw : p.propagator = .watch w)
    (levels : List Nat) : ∃ t', performAll (levels.map .backstep) p.trail = .ok t' ∧
      w.Covers p.formula t' := by
  have hsettled := h.propagator
  rw [hw] at hsettled
  rcases WatchIndex.Watchful.backsteps levels p.trail hsettled h.wellFormed with
    ⟨t', hok, hwatchful, ht'⟩
  exact ⟨t', hok, hwatchful.covers ht'⟩

/-- Stepping back below the current level settles a position that was left, so the clauses are
covered from then on. -/
theorem Left.covers_backsteps (h : p.Left) (hw : p.propagator = .watch w) (hk : k < p.trail.level)
    (levels : List Nat) : ∃ t', performAll ((k :: levels).map .backstep) p.trail = .ok t' ∧
      w.Covers p.formula t' := by
  rcases h.backstep hk with ⟨q, hok, hsettled, hformula, _⟩
  rcases p with ⟨f, propagator, t, count⟩
  simp only [Position.backstep] at hok
  split at hok
  · cases hok
  · rename_i t₁ hok₁
    cases hok
    rcases hsettled.covers_backsteps hw levels with ⟨t', hok', hcovers⟩
    refine ⟨t', ?_, hcovers⟩
    dsimp only at hok₁ hok' ⊢
    simp only [List.map_cons, performAll, Operation.perform, hok₁, hok']

theorem watch_of_propagate {o : Outcome} (hw : p.propagator = .watch w)
    (h : p.propagate = .ok (o, p')) : ∃ w', p'.propagator = .watch w' := by
  rcases p with ⟨f, propagator, t, count⟩
  obtain rfl : propagator = .watch w := hw
  simp only [Position.propagate, Propagator.propagate] at h
  split at h
  · cases h
  · rename_i hok
    split at hok
    · cases hok
    · cases hok
      cases h
      exact ⟨_, rfl⟩

/-- Whenever propagating by watched literals has reached a fixpoint, at the head of the loop of
either search, each watched literal that is false is made up for by the other one of its clause; and
so it is after stepping back from there, to any level and as often as you like, and after stepping
back from a clause that failed to a level below the current one. -/
theorem AtHead.watches_cover (h : p.AtHead) (hw : p.propagator = .watch w) :
    ∃ o p' w', p.propagate = .ok (o, p') ∧ p'.propagator = .watch w' ∧
      (o = .fixpoint → w'.Covers p'.formula p'.trail ∧
        ∀ levels : List Nat, ∃ t', performAll (levels.map .backstep) p'.trail = .ok t' ∧
          w'.Covers p'.formula t') ∧
      ∀ i, o = .conflict i → ∀ k < p'.trail.level, ∀ levels : List Nat,
        ∃ t', performAll ((k :: levels).map .backstep) p'.trail = .ok t' ∧
          w'.Covers p'.formula t' := by
  rcases h.ready.propagate with ⟨o, p', hok, _, _, hend⟩
  rcases watch_of_propagate hw hok with ⟨w', hw'⟩
  refine ⟨o, p', w', hok, hw', ?_, ?_⟩
  · rintro rfl
    refine ⟨?_, hend.covers_backsteps hw'⟩
    have hsettled := hend.propagator
    rw [hw'] at hsettled
    exact WatchIndex.Watchful.covers hsettled hend.wellFormed
  · rintro i rfl k hk levels
    exact hend.1.covers_backsteps hw' hk levels

end Position

/-- A search over the sample formula that watches literals. -/
def Dpll.watching : Dpll Branching :=
  .start ⟨.sample, .watch ⟨#[#[0], #[1], #[0], #[], #[1], #[]], #[(0, 1), (0, 1)], #[], #[]⟩,
    .empty 3, 0⟩ (.fixedOrder ⟨3⟩)

theorem Dpll.lifetime_watching : watching.Lifetime Branching.Fresh :=
  have hp : Position.ofFormula .watch .sample = .ok watching.position := by decide +kernel
  .started Formula.built_sample hp .fixedOrder

namespace Position

/-- With the first variable decided, its complement is false and watched, and the third variable
makes up for it; stepping back takes both back. -/
theorem AtHead.watches_cover_sample : ∃ (p p' : Position) (w w' : WatchIndex), p.AtHead ∧
    p.propagator = .watch w ∧ p.propagate = .ok (.fixpoint, p') ∧ p'.propagator = .watch w' ∧
    p'.trail.steps = #[⟨⟨0, true⟩, 1, .decision⟩, ⟨⟨2, true⟩, 1, .clause 1⟩] ∧
    w'.Covers p'.formula p'.trail ∧
    ∃ t', performAll [.backstep 0] p'.trail = .ok t' ∧ w'.Covers p'.formula t' := by
  have hrun : (Dpll.watching.solve 1).map (fun r => (r.1, r.2.position.propagator,
      r.2.position.propagate.map fun q => (q.1, q.2.trail.steps))) =
      .ok (none, Dpll.watching.position.propagator,
        .ok (.fixpoint, #[⟨⟨0, true⟩, 1, .decision⟩, ⟨⟨2, true⟩, 1, .clause 1⟩])) := by
    decide +kernel
  rcases exists_of_map_eq_ok hrun with ⟨⟨answer, s⟩, hsolve, heq⟩
  rw [Prod.mk.injEq, Prod.mk.injEq] at heq
  rcases heq with ⟨rfl, hw, hpropagate⟩
  rcases exists_of_map_eq_ok hpropagate with ⟨⟨o, p'⟩, hok, heq⟩
  rw [Prod.mk.injEq] at heq
  rcases heq with ⟨rfl, hsteps⟩
  have hhead := AtHead.backtracking Dpll.lifetime_watching hsolve
  rcases hhead.watches_cover hw with ⟨o', q, w', hok', hw', hfixpoint, _⟩
  cases hok.symm.trans hok'
  rcases hfixpoint rfl with ⟨hcovers, hbacksteps⟩
  exact ⟨s.position, p', _, w', hhead, hw, hok, hw', hsteps, hcovers, hbacksteps [0]⟩

end Position
end SatSearch
