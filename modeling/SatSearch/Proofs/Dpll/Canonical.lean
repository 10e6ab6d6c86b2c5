import SatSearch.Proofs.Cdcl.Canonical
import SatSearch.Proofs.Dpll.Lifetime

/-!
# Canonical — where in fixed order the search by backtracking stops

The search by backtracking stops as soon as every given clause has a true literal, so some variables
may be left without a value and are reported false. In fixed order its trail is ordered as that of
the search that learns, and an ordered trail that satisfies the clauses gives the greatest model
once its free variables are made true. So what has a value has the one it has in the greatest model,
and what is reported true is true there.
-/

namespace SatSearch

open Trail

/-- A variable without a value is reported false. -/
theorem Model.value?_ofAssignment_getD {a : Assignment} {v : Nat} (hv : v < a.values.size) :
    (ofAssignment a).value? v = some ((a.value? v).getD false) := by
  simp only [ofAssignment, value?, Assignment.value?, Array.getElem?_map,
    Array.getElem?_eq_getElem hv, Option.map_some, Option.join_some]

/-- What is reported true has a value. -/
theorem Model.eq_true_of_value?_ofAssignment {a : Assignment} {v : Nat}
    (h : (ofAssignment a).value? v = some true) : a.value? v = some true := by
  by_cases hv : v < a.values.size
  · rw [value?_ofAssignment_getD hv] at h
    cases hvalue : a.value? v with
    | none => simp [hvalue] at h
    | some b => simpa [hvalue] using h
  · simp [ofAssignment, value?, hv] at h

namespace Dpll

variable {n : Nat} {s s' : Dpll Branching} {q : Position} {move : Move} {m : Model} {fuel : Nat}

/-- The selector picks as the one in fixed order does. -/
def PicksLowest (s : Dpll Branching) : Prop :=
  s.selector.Fresh s.position.formula.numVars

/-- Nothing is rewarded, so the selector stays as it was built. -/
theorem Rounded.picksLowest (h : Rounded s q move s') (hs : s.PicksLowest) : s'.PicksLowest := by
  rw [PicksLowest, h.selector_eq, h.formula_same]
  exact hs

/-- Every move keeps the trail ordered. -/
theorem Rounded.ordered (h : Rounded s q move s') (hs : s.PicksLowest)
    (hordered : s.position.trail.Ordered) : s'.position.trail.Ordered := by
  have hq : q.trail.Ordered := hordered.forced h.forced
  have hmade := h.made
  cases move with
  | refuted i => exact hmade.1 ▸ hq
  | satisfied m => exact hmade.1 ▸ hq
  | undecided => exact hmade.elim
  | flipped i branch =>
      rcases hmade with ⟨_, t', _, _, hback, _, htrail⟩
      rw [htrail]
      have hlevel : t'.newLevel.Ordered := (hq.steppedBack hback : t'.Ordered)
      exact hlevel.pushed (by simp)
  | decided l =>
      rcases hmade with ⟨hsettled, _, hpositive, hpick, hlt, hfree, _, htrail⟩
      rw [PicksLowest, ← h.formula_eq] at hs
      rw [hs.pick_eq hsettled.wellFormed.values_size] at hpick
      rw [htrail]
      exact hsettled.ordered_decided hq hpositive hlt hfree hpick

/-- The trail with which a call ends well is ordered, and it satisfies every given clause. -/
theorem Ran.satisfied {conflicts decisions : Nat}
    (h : Ran conflicts decisions s (some (.satisfiable m)) s') (hs : s.PicksLowest)
    (hordered : s.position.trail.Ordered) :
    s'.position.Settled ∧ s'.position.trail.Ordered ∧
      s'.position.formula.isSatisfied s'.position.trail.values = true ∧
      m = .ofAssignment s'.position.trail.values := by
  cases h with
  | ended hreaches hends =>
      rename_i s₁
      obtain ⟨hs₁, hordered₁⟩ : s₁.PicksLowest ∧ s₁.position.trail.Ordered := by
        refine hreaches.invariant (I := fun x => x.PicksLowest ∧ x.position.trail.Ordered) ?_
          ⟨hs, hordered⟩
        rintro _ _ ⟨hI, hordered⟩ ⟨_, _, hrounded, _⟩
        exact ⟨hrounded.picksLowest hI, hrounded.ordered hI hordered⟩
      rcases hends with ⟨q, move, hrounded, hverdict⟩
      have hordered' := hrounded.ordered hs₁ hordered₁
      have hmade := hrounded.made
      cases move with
      | satisfied m' =>
          cases hverdict
          rcases hmade with ⟨hposition, hsettled, hsat, rfl⟩
          rw [hposition] at hordered' ⊢
          exact ⟨hsettled, hordered', hsat, rfl⟩
      | undecided => exact hmade.elim
      | _ => cases hverdict

theorem Lifetime.picksLowest (h : s.Lifetime Branching.Fresh) : s.PicksLowest := by
  induction h with
  | @started f propagator p selector hf hp hselector =>
      rcases Position.ofFormula_spec propagator hf.pristine with ⟨p', hp', _, hformula, _⟩
      obtain rfl : p = p' := Except.ok.inj (hp.symm.trans hp')
      rw [PicksLowest, start, hformula]
      exact hselector
  | added hs hadd ih =>
      rcases add_eq_ok hadd with ⟨p', hposition, rfl⟩
      rw [PicksLowest, Position.numVars_of_add hposition]
      exact ih
  | budgeted _ ih => exact ih
  | solved hs hsolve ih =>
      rcases hs.exists_regular with ⟨n, hregular⟩
      rcases solve_spec (Branching.lawful n) hregular _ with ⟨_, _, hok, hran⟩
      cases hsolve.symm.trans hok
      exact Ran.keeps hran (fun _ _ _ _ hI hrounded => hrounded.picksLowest hI) ih

/-- All the lifetime of a search by backtracking that picks the lowest variable, be it in fixed order
or by activity, a call that finds a model stops inside the greatest model of the given clauses: the
values its trail has are those of the greatest model, and the model it answers with reads all other
variables as false. So every variable that is true in it is true in the model that the search which
learns finds in fixed order, from the same clauses. -/
theorem stops_within_greatest (h : s.Lifetime Branching.Fresh)
    (hsolve : s.solve fuel = .ok (some (.satisfiable m), s')) :
    (∀ v < s.position.formula.numVars,
        m.value? v = some ((s'.position.trail.values.value? v).getD false)) ∧
      ∃ g : Model, g.IsGreatest s.position.formula ∧
        (∀ v b, s'.position.trail.values.value? v = some b → g.value? v = some b) ∧
        ∀ (kind : AnalyserKind) (c c' : Cdcl Branching) (fuel' : Nat) (m' : Model),
          c.Lifetime Branching.IsFixedOrder kind →
          c.position.formula.numVars = s.position.formula.numVars →
          (∀ cl, cl ∈ c.position.formula.given ↔ cl ∈ s.position.formula.given) →
          c.solve fuel' = .ok (some (.satisfiable m'), c') →
          m' = g ∧ ∀ v, m.value? v = some true → m'.value? v = some true := by
  rcases h.regular Branching.lawful fun _ _ => Branching.Fresh.suits with ⟨n, hs⟩
  rcases solve_spec (Branching.lawful n) hs fuel with ⟨answer, s₁, hok, hran⟩
  cases hsolve.symm.trans hok
  have hempty : s.clear.position.trail.Ordered := by
    rw [hs.trail_clear]
    exact ordered_empty n
  rcases Ran.satisfied hran h.picksLowest hempty with ⟨hsettled, hordered, hsat, rfl⟩
  have hformula : s'.position.formula = s.position.formula := Ran.formula_eq (s := s.clear) hran
  have hwf := hsettled.wellFormed
  -- The free variables may all be true, as every clause is satisfied without them.
  have hgreatest := hordered.isGreatest hwf hsettled.justified hsettled.sound
    (hwf.isSatisfied_iff.1 hsat)
  have hagree : ∀ v b, s'.position.trail.values.value? v = some b →
      (Model.upper s'.position.trail.values).value? v = some b :=
    fun v b hv => Model.value?_upper (Option.join_eq_some_iff.1 hv)
  rw [hformula] at hgreatest hwf
  refine ⟨fun v hv => Model.value?_ofAssignment_getD (hwf.values_size ▸ hv), _, hgreatest, hagree,
    ?_⟩
  intro kind c c' fuel' m' hc hvars hgiven hsolve'
  obtain rfl := hgreatest.unique ((hc.isGreatest hsolve').congr hvars hgiven)
  exact ⟨rfl, fun v hv => hagree v true (Model.eq_true_of_value?_ofAssignment hv)⟩

/-- The search over the sample formula stops with the second variable left without a value, which
the greatest model makes true. -/
theorem stops_within_greatest_sample :
    ∃ s', sample.solve 4 = .ok (some (.satisfiable ⟨#[true, false, true]⟩), s') ∧
      s'.position.trail.values.value? 1 = none ∧
      Model.IsGreatest .sample ⟨#[true, true, true]⟩ ∧
      ∀ v b, s'.position.trail.values.value? v = some b →
        Model.value? ⟨#[true, true, true]⟩ v = some b := by
  have hanswer : (sample.solve 4).map (fun r => (r.1, r.2.position.trail.values.value? 1)) =
      .ok (some (.satisfiable ⟨#[true, false, true]⟩), none) := by decide +kernel
  have hother : (Cdcl.sample.solve 5).map Prod.fst =
      .ok (some (.satisfiable ⟨#[true, true, true]⟩)) := by decide +kernel
  rcases exists_of_map_eq_ok hanswer with ⟨⟨answer, s'⟩, hsolve, hread⟩
  rcases exists_of_map_eq_ok hother with ⟨⟨answer', c'⟩, hsolve', rfl⟩
  rcases Prod.mk.inj hread with ⟨rfl, hfree⟩
  rcases stops_within_greatest (lifetime_sample .fixedOrder) hsolve with
    ⟨_, g, hgreatest, hagree, hother⟩
  obtain rfl := (hother _ _ _ _ _ (Cdcl.lifetime_sample rfl) rfl (fun _ => Iff.rfl) hsolve').1
  exact ⟨s', hsolve, hfree, hgreatest, hagree⟩

end Dpll
end SatSearch
