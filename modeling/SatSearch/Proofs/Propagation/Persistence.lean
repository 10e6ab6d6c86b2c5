import SatSearch.Proofs.Propagation.WatchLists

/-!
# Persistence — the operations on an index come to a result and keep every watch

An index can be used with a formula if it has a list for every literal and names no clause that is
too short where it stands. Then, under a trail that agrees with its assignment, propagating and
taking in a clause come to a result, and the clauses stay watched as the counts of their entries
say.
-/

namespace SatSearch

open Trail

namespace WatchIndex

variable {n i : Nat} {w w' : WatchIndex} {x : Literal} {t : Trail} {f : Formula} {c : Clause}

/-! ## Coming to a result -/

/-- The index can be used with the formula: it has a list for every literal, only clauses of two or
more literals stand in them, and what is listed as a clause of one literal is not an empty one. -/
structure Usable (f : Formula) (w : WatchIndex) : Prop where
  lists_size : w.lists.size = 2 * f.numVars
  long : ∀ (l : Literal) (i : Nat) (c : Clause), entries w.lists l i ≠ 0 →
    f.clauses[i]? = some c → 2 ≤ c.length
  unit : ∀ i ∈ w.units, ∃ c, f.clauses[i]? = some c ∧ c.literals ≠ []

theorem Usable.retained (h : Usable f w) (hretains : Retains f.clauses w w') : Usable f w' := by
  refine ⟨hretains.size_eq.trans h.lists_size, ?_, hretains.units_eq ▸ h.unit⟩
  intro l i c hi hc
  by_contra hlen
  rw [hretains.shorts i c hc (by omega)] at hi
  exact hlen (h.long l i c hi hc)

/-- The visit of a list comes to a result. -/
theorem WatchedOnce.visit_ok (hf : f.Proper) (left : Nat) :
    ∀ (list : Array Nat) (w : WatchIndex) (t : Trail), w.lists[x.code]? = some #[] →
      WatchedOnce f.clauses (w.withList x list) → Usable f (w.withList x list) →
      t.Recorded f.numVars → t.Assigns x.negate →
      ∃ failed list' w' u, visit f x left list w t = .ok (failed, list', w', u) ∧
        u.Recorded f.numVars := by
  induction left with
  | zero =>
      intro list w t _ _ _ ht _
      exact ⟨none, list, w, t, rfl, ht⟩
  | succ left ih =>
      intro list w t htaken hw husable ht hx
      cases hentry : list[list.size - (left + 1)]? with
      | none => exact ⟨none, list, w, t, by simp only [visit, hentry], ht⟩
      | some i =>
          have hlt : x.code < w.lists.size := (Array.getElem?_eq_some_iff.1 htaken).1
          have hlisted : entries (w.withList x list).lists x i ≠ 0 := by
            rw [entries_withList hlt, if_pos rfl]
            exact (Array.count_pos_iff.2 (Array.mem_of_getElem? hentry)).ne'
          -- What stands in the list is a clause that watches `x` and another literal.
          have hget := List.getElem?_eq_getElem (hw.stored x i hlisted)
          have hlen := husable.long x i _ hlisted hget
          rcases hw.exists_watches htaken hentry hget hlen with ⟨o, hab⟩
          have hproper := hf _ (List.mem_of_getElem? hget)
          have hclause : f.clause? i = some _ := (f.clause?_eq_getElem? i).trans hget
          have hsize : w.lists.size = 2 * f.numVars := by
            simpa [withList] using husable.lists_size
          rcases visited_of_watches left ht hclause hproper hsize hentry hab hx with
            ⟨_, heq⟩ | ⟨l, y, hl, hlx, hlo, _, hy, heq⟩ | ⟨_, heq⟩ | ⟨hforces, heq⟩
          · rw [heq]
            exact ih list w t htaken hw husable ht hx
          · rw [heq]
            have hwatch := watch?_eq (i := i) hsize (hproper.inRange l hl)
            have hretains := hw.moved htaken hab hget (fun c hc => (hf c hc).nodup) hlx hlo hy
              hwatch (count_dropBySwap hentry)
            exact ih _ _ t (taken_moved htaken hlx) hretains.once (husable.retained hretains) ht hx
          · exact ⟨some i, list, w, t, heq, ht⟩
          · rw [heq]
            have ht' := ht.pushed (r := .clause i) (hproper.inRange o hforces.mem) hforces.free
            exact ih list w _ htaken hw husable ht' (assigns_pushed.2 (.inl hx))

theorem WatchedOnce.falsify_ok (h : WatchedOnce f.clauses w) (hf : f.Proper) (husable : Usable f w)
    (ht : t.Recorded f.numVars) (hx : t.Assigns x.negate) :
    ∃ failed w' u, WatchIndex.falsify f x w t = .ok (failed, w', u) ∧ u.Recorded f.numVars := by
  have hvar : x.var < f.numVars := by
    rcases hx with ⟨s, hs, hsx⟩
    simpa [hsx] using ht.var_lt hs
  have hcode : x.code < w.lists.size := husable.lists_size ▸ Literal.code_lt hvar
  have hlist := Array.getElem?_eq_getElem hcode
  have hvisit := h.onVisit (t := t) hlist
  rcases visit_ok hf w.lists[x.code].size _ _ t hvisit.taken hvisit.retains.once
      (husable.retained hvisit.retains) ht hx with
    ⟨failed, list', w', u, hok, hu⟩
  rw [falsify_eq hlist, hok]
  exact ⟨failed, _, u, rfl, hu⟩

theorem WatchedOnce.drain_ok (hf : f.Proper) (fuel : Nat) : ∀ (w : WatchIndex) (t : Trail),
    WatchedOnce f.clauses w → Usable f w → t.Recorded f.numVars →
    ∃ outcome w' u, WatchIndex.drain f fuel w t = .ok (outcome, w', u) := by
  induction fuel with
  | zero =>
      intro w t _ _ _
      exact ⟨.fixpoint, w, t, rfl⟩
  | succ fuel ih =>
      intro w t h husable ht
      cases hs : t.steps[t.head]? with
      | none => exact ⟨.fixpoint, w, t, by simp only [WatchIndex.drain, hs]⟩
      | some s =>
          have hx : t.advance.Assigns s.literal.negate.negate :=
            ⟨s, Array.mem_of_getElem? hs, by simp⟩
          have ht' : t.advance.Recorded f.numVars := ht.withHead
          rcases h.falsify_ok hf husable ht' hx with ⟨failed, w', u, hok, hu⟩
          cases failed with
          | some i => exact ⟨.conflict i, w', u, by simp only [WatchIndex.drain, hs, hok]⟩
          | none =>
              have hretains := h.falsify (fun c hc => (hf c hc).nodup) hok
              rcases ih w' u hretains.once (husable.retained hretains) hu with
                ⟨outcome, w'', u', hok'⟩
              exact ⟨outcome, w'', u', by simp only [WatchIndex.drain, hs, hok, hok']⟩

theorem assertUnits_ok (hf : f.Proper) (units : List Nat) : ∀ t : Trail, t.Recorded f.numVars →
    (∀ i ∈ units, ∃ c, f.clauses[i]? = some c ∧ c.literals ≠ []) →
    ∃ failed u, assertUnits f units t = .ok (failed, u) ∧ u.Recorded f.numVars := by
  induction units with
  | nil =>
      intro t ht _
      exact ⟨none, t, rfl, ht⟩
  | cons i units ih =>
      intro t ht hunits
      have hrest : ∀ j ∈ units, ∃ c, f.clauses[j]? = some c ∧ c.literals ≠ [] :=
        fun j hj => hunits j (List.mem_cons_of_mem _ hj)
      -- Only the first literal is looked at, so there has to be one.
      rcases hunits i List.mem_cons_self with ⟨c, hc, hne⟩
      rcases List.exists_cons_of_ne_nil hne with ⟨l, ls, hl⟩
      have hclause : f.clause? i = some c := (f.clause?_eq_getElem? i).trans hc
      unfold assertUnits
      simp only [hclause, hl]
      cases hval : t.values.literal? l with
      | none =>
          have hfree := ht.literal?_eq_none.1 hval
          have hlt := (hf c (List.mem_of_getElem? hc)).inRange l (by simp [hl])
          simp only [push_eq ht hlt hfree]
          exact ih _ (ht.pushed hlt hfree) hrest
      | some b =>
          cases b with
          | true => exact ih t ht hrest
          | false => exact ⟨some i, t, rfl, ht⟩

/-- Propagation comes to a result. -/
theorem WatchedOnce.propagate_ok (h : WatchedOnce f.clauses w) (hf : f.Proper)
    (husable : Usable f w) (ht : t.Recorded f.numVars) :
    ∃ outcome w' u, w.propagate f t = .ok (outcome, w', u) := by
  unfold WatchIndex.propagate
  cases w.empties[0]? with
  | some i => exact ⟨.conflict i, w, t, rfl⟩
  | none =>
      rcases assertUnits_ok hf w.units.toList t ht (by simpa using husable.unit) with
        ⟨failed, u, hok, hu⟩
      simp only [hok]
      cases failed with
      | some i => exact ⟨.conflict i, w, u, rfl⟩
      | none => exact drain_ok hf _ w u h husable hu

/-! ## Indices that are built -/

/-- An index that says what the clauses watch can be used. -/
theorem Indexes.usable (h : Indexes f.numVars f.clauses w) : Usable f w := by
  refine ⟨h.lists_size, ?_, ?_⟩
  · intro l i c hi hc
    rcases h.watches_of_entries hi with ⟨b, hb⟩
    exact hb.two_le hc
  · intro i hi
    rcases h.exists_unit hi with ⟨c, l, hc, hl⟩
    rw [Formula.clause?_eq_getElem?] at hc
    exact ⟨c, hc, by simp [hl]⟩

/-! ## All operations -/

/-- Propagation keeps every clause of two or more literals watched by two of them, once each, under
any trail and also where it stops half-way through a list, and it leaves the lists of the short
clauses as they are. At no point of a visit has the list under visit gained an entry. A clause
that was appended to the formula and is taken in is watched in the same way. The operations come to
a result if the trail agrees with its assignment and the index can be used with the formula. -/
theorem WatchedOnce.persists (h : WatchedOnce f.clauses w)
    (hf : ∀ c ∈ f.clauses, c.literals.Nodup) :
    (∀ t outcome w' u, w.propagate f t = .ok (outcome, w', u) → Retains f.clauses w w') ∧
    (∀ x list t, w.lists[x.code]? = some list →
      (∀ failed list' w' u,
        visit f x list.size list (w.withList x #[]) t = .ok (failed, list', w', u) →
        ∃ left, Reaches (Passes f x) ⟨list.size, list, w.withList x #[], t⟩ ⟨left, list', w', u⟩) ∧
      ∀ v, Reaches (Passes f x) ⟨list.size, list, w.withList x #[], t⟩ v →
        OnVisit f.clauses x list w v) ∧
    (∀ f' c t w', f'.clauses = f.clauses ++ [c] → c.literals.Nodup →
      w.register f' t f.clauses.length = .ok w' → WatchedOnce f'.clauses w' ∧
        ∀ l, ∀ i ≠ f.clauses.length, entries w'.lists l i = entries w.lists l i) ∧
    (f.Proper → Usable f w → ∀ t, t.Recorded f.numVars →
      (∃ outcome w' u, w.propagate f t = .ok (outcome, w', u)) ∧
      ∀ f' c, f'.clauses = f.clauses ++ [c] → c.Proper f.numVars →
        ∃ w', w.register f' t f.clauses.length = .ok w') := by
  refine ⟨?_, ?_, ?_, ?_⟩
  · intro t outcome w' u hok
    exact h.propagate hf hok
  · intro x list t hlist
    refine ⟨fun _ _ _ _ hvisit => visit_reaches _ _ _ _ hvisit, ?_⟩
    intro v hreaches
    exact (h.onVisit hlist).reaches hf hreaches
  · intro f' c t w' hclauses hc hok
    exact h.register hc hclauses hok
  · intro hproper husable t ht
    refine ⟨h.propagate_ok hproper husable ht, ?_⟩
    intro f' c hclauses hc
    have hlast : f'.clause? f.clauses.length = some c := by
      simp [Formula.clause?_eq_getElem?, hclauses]
    exact register_ok ht husable.lists_size hlast hc

end WatchIndex

/-- Four clauses over four variables, all of which contain the complement of the first variable;
the second and the fourth one clash once that variable is true, and the third one is always
true. -/
def Formula.clashing : Formula :=
  ⟨4, #[⟨[⟨0, false⟩, ⟨1, true⟩, ⟨2, true⟩], false⟩, ⟨[⟨0, false⟩, ⟨3, false⟩], false⟩,
    ⟨[⟨0, false⟩, ⟨1, true⟩, ⟨1, false⟩], false⟩, ⟨[⟨0, false⟩, ⟨3, true⟩], false⟩], #[]⟩

theorem Formula.built_clashing : clashing.Built :=
  .ofSigned (show Formula.ofSigned [[-1, 2, 3], [-1, -4], [-1, 2, -2], [-1, 4]] = .ok clashing by
    rfl)

namespace WatchIndex

/-- With the first variable decided, the first clause moves to another list, the last one forces its
variable and the second one fails, before the third one is visited; then a clause is learned and
taken in. -/
theorem WatchedOnce.persists_sample : ∃ (w w₁ w₂ : WatchIndex) (t u : Trail),
    ofFormula .clashing = .ok w ∧ t.steps = #[⟨⟨0, true⟩, 1, .decision⟩] ∧
    w.propagate .clashing t = .ok (.conflict 1, w₁, u) ∧
    w.lists = #[#[], #[0, 1, 2, 3], #[0, 2], #[], #[], #[], #[3], #[1]] ∧
    w₁.lists = #[#[], #[3, 1, 2], #[0, 2], #[], #[0], #[], #[3], #[1]] ∧
    Retains Formula.clashing.clauses w w₁ ∧
    w₁.register (Formula.clashing.learn ⟨[⟨0, false⟩, ⟨2, true⟩], true⟩).2 u 4 = .ok w₂ ∧
    WatchedOnce (Formula.clashing.learn ⟨[⟨0, false⟩, ⟨2, true⟩], true⟩).2.clauses w₂ := by
  have hproper := Formula.built_clashing.pristine.proper
  have hf : ∀ c ∈ Formula.clashing.clauses, c.literals.Nodup := fun c hc => (hproper c hc).nodup
  have ht : ((Trail.empty 4).newLevel.pushed ⟨0, true⟩ .decision).Recorded 4 :=
    ((wellFormed_empty 4).newLevel.pushed (by decide) (by simp [Free, Trail.empty])).toRecorded
  rcases ofFormula_spec hproper with ⟨w, hw, hindexes⟩
  rcases (hindexes.watchedOnce hproper).persists hf with ⟨hretains, _, _, hresult⟩
  rcases hresult hproper hindexes.usable _ ht with ⟨⟨outcome, w₁, u, hok⟩, _⟩
  have hrun : ((ofFormula .clashing).bind fun w =>
      (w.propagate .clashing ((Trail.empty 4).newLevel.pushed ⟨0, true⟩ .decision)).map fun r =>
        (w.lists, r.1, r.2.1.lists, (r.2.1.register
          (Formula.clashing.learn ⟨[⟨0, false⟩, ⟨2, true⟩], true⟩).2 r.2.2 4).isOk)) =
      .ok (#[#[], #[0, 1, 2, 3], #[0, 2], #[], #[], #[], #[3], #[1]], .conflict 1,
        #[#[], #[3, 1, 2], #[0, 2], #[], #[0], #[], #[3], #[1]], true) := by
    decide +kernel
  rw [hw, Except.bind, hok, Except.map, Except.ok.injEq, Prod.mk.injEq, Prod.mk.injEq,
    Prod.mk.injEq] at hrun
  rcases hrun with ⟨hlists, rfl, hlists₁, hregister⟩
  have hretains₁ := hretains _ _ _ _ hok
  cases hw₂ : w₁.register (Formula.clashing.learn ⟨[⟨0, false⟩, ⟨2, true⟩], true⟩).2 u 4 with
  | error e =>
      rw [hw₂] at hregister
      cases hregister
  | ok w₂ =>
      rcases hretains₁.once.persists hf with ⟨_, _, hadded, _⟩
      have hlearned := hadded _ ⟨[⟨0, false⟩, ⟨2, true⟩], true⟩ u w₂ Formula.clauses_learn
        (by decide) hw₂
      exact ⟨w, w₁, w₂, _, u, hw, rfl, hok, hlists, hlists₁, hretains₁, hw₂, hlearned.1⟩

end WatchIndex
end SatSearch
