import SatSearch.Proofs.Propagation.Scan
import SatSearch.Proofs.Propagation.Visit

/-!
# Watch — watching two literals reaches a fixpoint or finds a failed clause

Draining takes the steps of the trail in order, visits the clauses that watch the falsified literal
and so guards one position after the other. When all positions are guarded, every clause that
watches two literals is quiet; a clause of one literal was made true at the start, and one without
literals fails at once.
-/

namespace SatSearch

open Trail

theorem Trail.Forced.currentFrom {f : Formula} {t u : Trail} {m : Nat} (h : Forced f t u)
    (hm : t.CurrentFrom m) : u.CurrentFrom m := by
  induction h with
  | refl => exact hm
  | moved _ _ ih => exact ih hm
  | pushed _ _ _ ih => exact ih hm.pushed

namespace WatchIndex

variable {n m i : Nat} {cs : List Clause} {w : WatchIndex} {t : Trail} {f : Formula} {s : Step}

/-! ## One step of the trail -/

theorem withList_withList {x : Literal} {list : Array Nat} (h : w.lists[x.code]? = some list) :
    (w.withList x #[]).withList x list = w := by
  have hlt := (Array.getElem?_eq_some_iff.1 h).1
  have hlists : (w.lists.setIfInBounds x.code #[]).setIfInBounds x.code list = w.lists := by
    refine Array.ext_getElem? ?_
    intro j
    by_cases hj : x.code = j
    · subst hj
      rw [h]
      simp [hlt]
    · simp [hj]
  simp only [withList, hlists]

/-- What remains of the list goes back into its empty place. -/
theorem modify_taken {lists : Array (Array Nat)} {code : Nat} (h : lists[code]? = some #[])
    (list : Array Nat) : lists.modify code (list ++ ·) = lists.setIfInBounds code list := by
  have hlt := (Array.getElem?_eq_some_iff.1 h).1
  refine Array.ext_getElem? ?_
  intro j
  by_cases hj : code = j
  · subst hj
    rw [Array.getElem?_modify, if_pos rfl, h]
    simp [hlt]
  · simp [Array.getElem?_modify, hj]

/-- The list is taken out and visited, and what remains of it is put back. -/
theorem falsify_eq {x : Literal} {list : Array Nat} (h : w.lists[x.code]? = some list) :
    falsify f x w t = (visit f x list.size list (w.withList x #[]) t).map fun r =>
      (r.1, { r.2.2.1 with lists := r.2.2.1.lists.modify x.code (r.2.1 ++ ·) }, r.2.2.2) := by
  rcases w with ⟨lists, positions, units, empties⟩
  simp only [falsify, h, withList]
  cases visit f x list.size list ⟨lists.setIfInBounds x.code #[], positions, units, empties⟩ t <;>
    rfl

/-- The list of the literal that the step at the head falsifies is taken out to be visited. -/
theorem Watchful.underVisit {list : Array Nat} (h : Watchful f t t.head w)
    (ht : t.WellFormed f.numVars) (hs : t.steps[t.head]? = some s)
    (hlist : w.lists[s.literal.negate.code]? = some list) :
    UnderVisit f t.head s.literal.negate list (w.withList s.literal.negate #[]) t.advance [] := by
  have hlt := (Array.getElem?_eq_some_iff.1 hlist).1
  refine ⟨ht.withHead, ⟨s, Array.mem_of_getElem? hs, by simp⟩,
    (Array.getElem?_eq_some_iff.1 hs).1.le, by simp [withList, hlt], ?_, ?_, by simp⟩
  · rw [withList_withList hlist]
    exact h.indexes
  · intro i a b hab
    exact h.guards i a b (watches_withList.1 hab)

/-- One more position is guarded once all clauses that watch its literal have been made up for. -/
theorem Guards.succ (h : Guards cs t m w) (ht : t.WellFormed n) (hcurrent : t.CurrentFrom m)
    (hs : t.steps[m]? = some s)
    (hmade : ∀ i b, Watches cs w i s.literal.negate b → t.Assigns b) : Guards cs t (m + 1) w := by
  intro i a b hab j hj
  rcases Nat.lt_succ_iff_lt_or_eq.1 hj with hj | rfl
  · exact h i a b hab j hj
  · intro s' hs' ha
    obtain rfl : s = s' := Option.some.inj (hs.symm.trans hs')
    obtain rfl : a = s.literal.negate := by simp [ha]
    rw [hcurrent _ _ le_rfl hs]
    exact ht.toLevelled.trueBy_level.2 (hmade i b hab)

/-- Visiting the clauses that watch the literal falsified by the step at the head guards that step,
or finds a clause that fails. -/
theorem falsify_spec (hf : f.Proper) (ht : t.WellFormed f.numVars)
    (hw : Watchful f t t.head w) (hs : t.steps[t.head]? = some s) :
    ∃ failed w' u, falsify f s.literal.negate w t.advance = .ok (failed, w', u) ∧ Forced f t u ∧
      u.head = t.head + 1 ∧
      match failed with
      | none => Watchful f u (t.head + 1) w'
      | some i => Watchful f u t.head w' ∧ ∃ c, f.clause? i = some c ∧ u.Falsifies c := by
  have hlt := (Array.getElem?_eq_some_iff.1 hs).1
  have hvar : s.literal.negate.var < f.numVars := ht.var_lt (Array.mem_of_getElem? hs)
  rcases hw.indexes.exists_list hvar with ⟨list, hlist⟩
  rcases visit_spec hf list.size list _ t.advance [] list.toList rfl (by simp)
      (hw.underVisit ht hs hlist) with
    ⟨failed, list', w', u, hvisit, hforced, hhead, htaken, hindexes, hguards, hend⟩
  have hforced : Forced f t u := .moved _ hforced
  have hu := hforced.wellFormed hf ht
  have hcurrent := hforced.currentFrom hw.current
  have hsize := hforced.size_le
  have hhead : u.head = t.head + 1 := hhead
  have hguards' : Guards f.clauses u t.head (w'.withList s.literal.negate list') := by
    intro i a b hab
    exact hguards i a b (watches_withList.1 hab)
  refine ⟨failed, w'.withList s.literal.negate list', u, ?_, hforced, hhead, ?_⟩
  · rw [falsify_eq hlist, hvisit, Except.map, modify_taken htaken list']
    rfl
  · cases failed with
    | some i => exact ⟨⟨hindexes, hguards', hcurrent, by omega, by omega⟩, hend⟩
    | none =>
        have hself : (w'.withList s.literal.negate list').lists[s.literal.negate.code]? =
            some list' := by
          have := (Array.getElem?_eq_some_iff.1 htaken).1
          simp [withList, this]
        refine ⟨hindexes, hguards'.succ hu hcurrent (hforced.getElem?_of_getElem? hs) ?_,
          fun j s' hj => hcurrent j s' (by omega), by omega, by omega⟩
        -- What watches the literal stands on its list, and all of that list was visited.
        intro i b hab
        have hi := (hindexes.mem_list _ _ hself i).2 ⟨b, hab⟩
        exact hend i hi b (watches_withList.1 hab)

/-! ## The clauses of one literal -/

/-- The literals of the listed clauses of one literal become true, unless one of them is false. -/
theorem assertUnits_spec (hf : f.Proper) (units : List Nat) : ∀ t : Trail,
    t.WellFormed f.numVars →
    (∀ i ∈ units, ∃ c l, f.clause? i = some c ∧ c.literals = [l]) →
    ∃ failed u, assertUnits f units t = .ok (failed, u) ∧ Forced f t u ∧ u.head = t.head ∧
      match failed with
      | none => ∀ i ∈ units, ∀ c, f.clause? i = some c → ∃ l ∈ c.literals, u.Assigns l
      | some i => ∃ c, f.clause? i = some c ∧ u.Falsifies c := by
  induction units with
  | nil =>
      intro t _ _
      exact ⟨none, t, rfl, .refl t, rfl, by simp⟩
  | cons i units ih =>
      intro t ht hunits
      rcases hunits i List.mem_cons_self with ⟨c, l, hc, hl⟩
      have hunits' : ∀ i ∈ units, ∃ c l, f.clause? i = some c ∧ c.literals = [l] :=
        fun i hi => hunits i (List.mem_cons_of_mem _ hi)
      have hmem : l ∈ c.literals := by simp [hl]
      -- Once the literal of the first clause is true, the rest decides.
      have hrest : ∀ {t' : Trail}, t'.WellFormed f.numVars → t'.head = t.head → t'.Assigns l →
          ∃ failed u, assertUnits f units t' = .ok (failed, u) ∧ Forced f t' u ∧
            u.head = t.head ∧
            match failed with
            | none => ∀ j ∈ i :: units, ∀ c, f.clause? j = some c → ∃ l ∈ c.literals, u.Assigns l
            | some i => ∃ c, f.clause? i = some c ∧ u.Falsifies c := by
        intro t' ht' hhead htrue
        rcases ih t' ht' hunits' with ⟨failed, u, hok, hforced, hhead', hend⟩
        refine ⟨failed, u, hok, hforced, hhead'.trans hhead, ?_⟩
        cases failed with
        | some j => exact hend
        | none =>
            intro j hj c' hc'
            rcases List.mem_cons.1 hj with rfl | hj
            · obtain rfl : c = c' := Option.some.inj (hc.symm.trans hc')
              exact ⟨l, hmem, hforced.assigns htrue⟩
            · exact hend j hj c' hc'
      unfold assertUnits
      simp only [hc, hl]
      cases hval : t.values.literal? l with
      | none =>
          have hfree := ht.literal?_eq_none.1 hval
          have hlt := (hf c (Formula.mem_of_clause? hc)).inRange l hmem
          have hforces : t.Forces c l := by
            refine ⟨hmem, hfree, ?_⟩
            intro a ha hal
            exact absurd (by simpa [hl] using ha) hal
          rcases hrest (ht.pushed hlt hfree) rfl (assigns_pushed.2 (.inr rfl)) with
            ⟨failed, u, hok, hforced, rest⟩
          refine ⟨failed, u, ?_, .pushed hc hforces hforced, rest⟩
          simp only [push_eq ht.toRecorded hlt hfree]
          exact hok
      | some b =>
          cases b with
          | true => exact hrest ht rfl (ht.literal?_eq_true.1 hval)
          | false =>
              refine ⟨some i, t, rfl, .refl t, rfl, c, hc, ?_⟩
              intro a ha
              obtain rfl : a = l := by simpa [hl] using ha
              exact ht.literal?_eq_false.1 hval

/-! ## Draining -/

/-- What watching ends with: at a fixpoint the whole trail is guarded, and a failed clause leaves a
part of it guarded. -/
def Ends (f : Formula) (w : WatchIndex) (t : Trail) : Outcome → Prop
  | .fixpoint => Watchful f t t.head w ∧ t.head = t.steps.size
  | .conflict i => (∃ m, Watchful f t m w) ∧ ∃ c, f.clause? i = some c ∧ t.Falsifies c

/-- Every round moves the head on, and the head cannot move past the number of variables. -/
theorem drain_spec (hf : f.Proper) (fuel : Nat) : ∀ (w : WatchIndex) (t : Trail),
    t.WellFormed f.numVars → Watchful f t t.head w → f.numVars ≤ fuel + t.head →
    ∃ o w' u, drain f fuel w t = .ok (o, w', u) ∧ Forced f t u ∧ Ends f w' u o := by
  induction fuel with
  | zero =>
      intro w t ht hw hfuel
      have := ht.size_le
      have := hw.head_le
      exact ⟨.fixpoint, w, t, rfl, .refl t, hw, by omega⟩
  | succ fuel ih =>
      intro w t ht hw hfuel
      cases hs : t.steps[t.head]? with
      | none =>
          have := Array.getElem?_eq_none_iff.1 hs
          have := hw.head_le
          exact ⟨.fixpoint, w, t, by simp only [drain, hs], .refl t, hw, by omega⟩
      | some s =>
          rcases falsify_spec hf ht hw hs with ⟨failed, w', u, hok, hforced, hhead, hend⟩
          cases failed with
          | some i =>
              exact ⟨.conflict i, w', u, by simp only [drain, hs, hok], hforced, ⟨_, hend.1⟩,
                hend.2⟩
          | none =>
              -- The head has moved on by one.
              rcases ih w' u (hforced.wellFormed hf ht) (hhead ▸ hend) (by omega) with
                ⟨o, w'', u', hok', hforced', hend'⟩
              exact ⟨o, w'', u', by simp only [drain, hs, hok, hok'], hforced.trans hforced', hend'⟩

theorem Watchful.forced {u : Trail} (h : Watchful f t m w) (hu : Forced f t u)
    (hhead : u.head = t.head) : Watchful f u m w := by
  have hm : m ≤ t.steps.size := h.le_head.trans h.head_le
  refine ⟨h.indexes, h.guards.forced hm hu, hu.currentFrom h.current, hhead ▸ h.le_head, ?_⟩
  exact hhead ▸ h.head_le.trans hu.size_le

/-- What is listed as a clause of one literal is one. -/
theorem Indexes.exists_unit (h : Indexes f.numVars f.clauses w) (hi : i ∈ w.units) :
    ∃ c l, f.clause? i = some c ∧ c.literals = [l] := by
  rcases (h.mem_units i).1 hi with ⟨c, hc, hlen⟩
  rcases List.length_eq_one_iff.1 hlen with ⟨l, hl⟩
  exact ⟨c, l, by rw [Formula.clause?_eq_getElem?, hc], hl⟩

/-- What is listed as a clause without literals is one. -/
theorem Indexes.exists_empty (h : Indexes f.numVars f.clauses w) (hi : i ∈ w.empties) :
    ∃ c, f.clause? i = some c ∧ c.literals = [] := by
  rcases (h.mem_empties i).1 hi with ⟨c, hc, hlen⟩
  exact ⟨c, by rw [Formula.clause?_eq_getElem?, hc], List.eq_nil_of_length_eq_zero hlen⟩

/-- An index that lists no clause without literals describes none. -/
theorem Indexes.length_ne_zero {c : Clause} (h : Indexes n cs w) (hempty : w.empties[0]? = none)
    (hc : c ∈ cs) : c.length ≠ 0 := by
  intro hlen
  rcases List.mem_iff_getElem?.1 hc with ⟨i, hi⟩
  have hmem := (h.mem_empties i).2 ⟨c, hi, hlen⟩
  have hpos := Array.size_pos_of_mem hmem
  have := Array.getElem?_eq_none_iff.1 hempty
  omega

/-- Under a trail that is guarded all along and makes the clauses of one literal true, every clause
is quiet. -/
theorem Watchful.quiet {c : Clause} (h : Watchful f t t.head w) (hf : f.Proper)
    (ht : t.WellFormed f.numVars) (hdone : t.head = t.steps.size) (hc : c ∈ f.clauses)
    (hpos : c.length ≠ 0) (hone : c.length = 1 → ∃ l ∈ c.literals, t.Assigns l) :
    t.Quiet t.level c := by
  rcases List.mem_iff_getElem?.1 hc with ⟨i, hi⟩
  by_cases hlen : c.length = 1
  · rcases hone hlen with ⟨l, hl, htrue⟩
    exact .inl ⟨l, hl, ht.toLevelled.trueBy_level.2 htrue⟩
  · rcases h.indexes.watched i c hi (by omega) with ⟨a, b, hab⟩
    have hguards := h.guards
    rw [hdone] at hguards
    exact hguards.quiet ht.toLevelled (fun c hc => (hf c hc).nodup) hi hab

/-- Watching reaches a fixpoint, or finds a clause that fails. -/
theorem propagate_spec (hf : f.Proper) (ht : t.WellFormed f.numVars)
    (hw : Watchful f t t.head w) :
    ∃ o w' u, w.propagate f t = .ok (o, w', u) ∧ Forced f t u ∧ Ends f w' u o ∧ o.Reports f u := by
  unfold propagate
  cases hempty : w.empties[0]? with
  | some i =>
      rcases hw.indexes.exists_empty (Array.mem_of_getElem? hempty) with ⟨c, hc, hnil⟩
      have hfalse : t.Falsifies c := by
        intro l hl
        rw [hnil] at hl
        cases hl
      exact ⟨.conflict i, w, t, rfl, .refl t, ⟨⟨_, hw⟩, c, hc, hfalse⟩, c, hc, hfalse⟩
  | none =>
      have hunits : ∀ i ∈ w.units.toList, ∃ c l, f.clause? i = some c ∧ c.literals = [l] :=
        fun i hi => hw.indexes.exists_unit (by simpa using hi)
      rcases assertUnits_spec hf _ t ht hunits with ⟨failed, t₁, hok, hforced, hhead, hend⟩
      simp only [hok]
      have hw₁ := hw.forced hforced hhead
      cases failed with
      | some i => exact ⟨.conflict i, w, t₁, rfl, hforced, ⟨⟨_, hw₁⟩, hend⟩, hend⟩
      | none =>
          have ht₁ := hforced.wellFormed hf ht
          -- The rounds that are allowed are at least as many as steps can follow.
          have hfuel : f.numVars ≤ t₁.length + t₁.values.size + t₁.head := by
            have : t₁.values.size = f.numVars := ht₁.values_size
            omega
          rcases drain_spec hf _ w t₁ ht₁ (hhead ▸ hw₁) hfuel with ⟨o, w', u, hok', hforced', hends⟩
          refine ⟨o, w', u, hok', hforced.trans hforced', hends, ?_⟩
          cases o with
          | conflict i => exact hends.2
          | fixpoint =>
              intro c hc
              have hu := hforced'.wellFormed hf ht₁
              -- The clauses of one literal were made true at the start and stay so.
              apply hends.1.quiet hf hu hends.2 hc (hw.indexes.length_ne_zero hempty hc)
              intro hlen
              rcases Formula.exists_clause?_of_mem hc with ⟨i, hi⟩
              have hi' : f.clauses[i]? = some c := by
                rw [← Formula.clause?_eq_getElem?, hi]
              have hmem := (hw.indexes.mem_units i).2 ⟨c, hi', hlen⟩
              rcases hend i (by simpa using hmem) c hi with ⟨l, hl, htrue⟩
              exact ⟨l, hl, hforced'.assigns htrue⟩

end WatchIndex
end SatSearch
