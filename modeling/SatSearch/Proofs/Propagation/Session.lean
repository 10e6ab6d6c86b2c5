import Mathlib.Data.Finset.Card
import SatSearch.Proofs.Conflict.Analysis
import SatSearch.Proofs.Propagation.Confluence

/-!
# Session — a watch index in use, against reading every clause

A watch index is carried through any use that a search may make of it: levels are opened once the
whole trail has been propagated, literals are pushed, the trail is stepped back or cleared, clauses
are added with nothing assigned, and learned with two literals that are not false or to be asserted
at once. After a conflict the trail has to be stepped back, or cleared, before anything else is
pushed. Under this discipline the index always guards the trail up to its head, so propagating with
it and reading every clause come to the same end.
-/

namespace SatSearch

open Trail

namespace WatchIndex

/-- Where the use of a watch index may have led: the formula, the index, the trail, and whether a
conflict is waiting to be stepped back from. -/
inductive Session : Formula → WatchIndex → Trail → Bool → Prop
  | started {f : Formula} {w : WatchIndex} :
      f.Proper → ofFormula f = .ok w → Session f w (.empty f.numVars) false
  | propagated {f : Formula} {w w' : WatchIndex} {t t' : Trail} :
      Session f w t false → w.propagate f t = .ok (.fixpoint, w', t') → Session f w' t' false
  | failed {f : Formula} {w w' : WatchIndex} {t t' : Trail} {i : Nat} :
      Session f w t false → w.propagate f t = .ok (.conflict i, w', t') → Session f w' t' true
  /-- All steps have been propagated, as they are when propagation has reached a fixpoint or the
  trail has been stepped back. -/
  | opened {f : Formula} {w : WatchIndex} {t : Trail} :
      Session f w t false → t.head = t.length → Session f w t.newLevel false
  | pushed {f : Formula} {w : WatchIndex} {t t' : Trail} {l : Literal} {r : Reason} :
      Session f w t false → t.push l r = .ok t' → Session f w t' false
  | steppedBack {f : Formula} {w : WatchIndex} {t t' : Trail} {waiting : Bool} {k : Nat} :
      Session f w t waiting → k < t.level → t.backstep k = .ok t' → Session f w t' false
  | cleared {f : Formula} {w : WatchIndex} {t : Trail} {waiting : Bool} :
      Session f w t waiting → Session f w t.clear false
  /-- A given clause that would move learned ones needs all clauses to be taken in anew. -/
  | added {f f' : Formula} {w w' : WatchIndex} {t : Trail} {waiting : Bool} {i : Nat}
      {ls : List Literal} :
      Session f w t waiting → t.length = 0 → f.add ls = .ok (i, f') →
      (f.learnts = #[] ∧ w.register f' t i = .ok w' ∨ ofFormula f' = .ok w') →
      Session f' w' t waiting
  /-- Two literals of the learned clause are not false. -/
  | learned {f : Formula} {w w' : WatchIndex} {t : Trail} {waiting : Bool} {c : Clause}
      {a b : Literal} :
      Session f w t waiting → c.Proper f.numVars → a ∈ c.literals → b ∈ c.literals → a ≠ b →
      t.values.literal? a ≠ some false → t.values.literal? b ≠ some false →
      w.register (f.learn c).2 t (f.learn c).1 = .ok w' → Session (f.learn c).2 w' t waiting
  /-- All literals of the learned clause but one are false, by the current level and no sooner, and
  that one is pushed. -/
  | asserted {f : Formula} {w w' : WatchIndex} {t t' : Trail} {c : Clause} {l : Literal} :
      Session f w t false → c.Proper f.numVars → l ∈ c.literals → t.values.literal? l = none →
      (∀ a ∈ c.literals, a ≠ l → t.values.literal? a = some false) →
      deepestLevel t (c.literals.filter (· ≠ l)) = .ok t.level →
      w.register (f.learn c).2 t (f.learn c).1 = .ok w' →
      t.push l (.clause (f.learn c).1) = .ok t' → Session (f.learn c).2 w' t' false

/-- What a session keeps: the index guards a part of the trail, up to the head unless a conflict is
waiting. -/
structure Kept (f : Formula) (w : WatchIndex) (t : Trail) (waiting : Bool) : Prop where
  proper : f.Proper
  wellFormed : t.WellFormed f.numVars
  watchful : ∃ m, Watchful f t m w ∧ (waiting = false → m = t.head)

namespace Kept

variable {f f' : Formula} {w w' : WatchIndex} {t t' : Trail} {waiting : Bool} {c : Clause}
variable {a b l : Literal} {r : Reason} {o : Outcome} {ls : List Literal} {i k : Nat}

theorem guarded (h : Kept f w t false) : Watchful f t t.head w := by
  rcases h.watchful with ⟨m, hw, hm⟩
  exact hm rfl ▸ hw

/-- With nothing assigned, an index that describes the formula is all that is needed. -/
theorem of_indexes (hf : f.Proper) (ht : t.WellFormed f.numVars)
    (hw : Indexes f.numVars f.clauses w) (hsteps : t.steps = #[]) (hhead : t.head = 0) :
    Kept f w t waiting :=
  ⟨hf, ht, t.head, .of_indexes hw hsteps hhead, fun _ => rfl⟩

/-! ## Operation by operation -/

theorem propagate (h : Kept f w t false) (hok : w.propagate f t = .ok (o, w', t')) :
    Kept f w' t' (o != .fixpoint) := by
  rcases propagate_spec h.proper h.wellFormed h.guarded with ⟨o', w₁, u, hu, hforced, hends, _⟩
  rw [hu] at hok
  cases hok
  refine ⟨h.proper, hforced.wellFormed h.proper h.wellFormed, ?_⟩
  cases o with
  | fixpoint => exact ⟨t'.head, hends.1, fun _ => rfl⟩
  | conflict i =>
      rcases hends.1 with ⟨m, hm⟩
      exact ⟨m, hm, fun hwaiting => by cases hwaiting⟩

theorem newLevel (h : Kept f w t false) (hhead : t.head = t.length) :
    Kept f w t.newLevel false := by
  have hw := h.guarded
  rw [hhead] at hw
  exact ⟨h.proper, h.wellFormed.newLevel, t.length, hw.newLevel, fun _ => hhead.symm⟩

theorem push (h : Kept f w t false) (hok : t.push l r = .ok t') : Kept f w t' false := by
  rcases push_eq_ok h.wellFormed.toRecorded hok with ⟨hl, hfree, rfl⟩
  exact ⟨h.proper, h.wellFormed.pushed hl hfree, t.head, h.guarded.pushed, fun _ => rfl⟩

theorem backstep (h : Kept f w t waiting) (hk : k < t.level) (hok : t.backstep k = .ok t') :
    Kept f w t' false := by
  rcases backstep_spec h.wellFormed k with ⟨u, hu, hwf, hback⟩
  rw [hu] at hok
  cases hok
  rcases h.watchful with ⟨m, hw, _⟩
  have hw' := hw.steppedBack hback hk
  exact ⟨h.proper, hwf, t'.steps.size, hw', fun _ => hw'.head_eq.symm⟩

theorem clear (h : Kept f w t waiting) : Kept f w t.clear false := by
  rcases h.watchful with ⟨m, hw, _⟩
  rw [clear_eq h.wellFormed.toRecorded]
  exact of_indexes h.proper (wellFormed_empty f.numVars) hw.indexes rfl rfl

theorem add (h : Kept f w t waiting) (hlen : t.length = 0) (hadd : f.add ls = .ok (i, f'))
    (hindex : f.learnts = #[] ∧ w.register f' t i = .ok w' ∨ ofFormula f' = .ok w') :
    Kept f' w' t waiting := by
  rcases h.watchful with ⟨m, hw, _⟩
  rcases Formula.add_eq_ok hadd with ⟨rfl, rfl, hrange⟩
  have hproper := h.proper.extended hrange
  have hhead : t.head = 0 := Nat.le_zero.1 (hlen ▸ hw.head_le)
  have hindexes : Indexes (f.extended ls).numVars (f.extended ls).clauses w' := by
    rcases hindex with ⟨hnone, hok⟩ | hok
    · rcases register_extended h.wellFormed hw.indexes hnone hproper with ⟨w₁, hw₁, hindexes⟩
      rw [hw₁] at hok
      cases hok
      exact hindexes
    · rcases ofFormula_spec hproper with ⟨w₁, hw₁, hindexes⟩
      rw [hw₁] at hok
      cases hok
      exact hindexes
  exact of_indexes hproper h.wellFormed hindexes (Array.size_eq_zero_iff.1 hlen) hhead

theorem learn (h : Kept f w t waiting) (hc : c.Proper f.numVars) (ha : a ∈ c.literals)
    (hb : b ∈ c.literals) (hab : a ≠ b) (hat : t.values.literal? a ≠ some false)
    (hbt : t.values.literal? b ≠ some false)
    (hok : w.register (f.learn c).2 t (f.learn c).1 = .ok w') :
    Kept (f.learn c).2 w' t waiting := by
  have hrec := h.wellFormed.toRecorded
  rcases h.watchful with ⟨m, hw, hm⟩
  rcases hw.learn h.wellFormed hc ha hb hab (fun hfalse => hat (hrec.literal?_eq_false.2 hfalse))
      (fun hfalse => hbt (hrec.literal?_eq_false.2 hfalse)) with
    ⟨w₁, hw₁, hw'⟩
  rw [Formula.fst_learn, hw₁] at hok
  cases hok
  exact ⟨h.proper.learn hc, h.wellFormed, m, hw', hm⟩

theorem assert (h : Kept f w t false) (hc : c.Proper f.numVars) (hl : l ∈ c.literals)
    (hfree : t.values.literal? l = none)
    (hothers : ∀ a ∈ c.literals, a ≠ l → t.values.literal? a = some false)
    (hdeepest : deepestLevel t (c.literals.filter (· ≠ l)) = .ok t.level)
    (hok : w.register (f.learn c).2 t (f.learn c).1 = .ok w')
    (hpush : t.push l (.clause (f.learn c).1) = .ok t') : Kept (f.learn c).2 w' t' false := by
  have hrec := h.wellFormed.toRecorded
  have hlfree := hrec.literal?_eq_none.1 hfree
  have hfalse : ∀ a ∈ c.literals, a ≠ l → t.Assigns a.negate :=
    fun a ha hal => hrec.literal?_eq_false.1 (hothers a ha hal)
  have hrest : ∀ a ∈ c.literals.filter (· ≠ l), t.Assigns a.negate := by
    simpa using hfalse
  rcases deepestLevel_spec h.wellFormed hrest with ⟨d, hd, _, hreached⟩
  obtain rfl : t.level = d := Except.ok.inj (hdeepest.symm.trans hd)
  -- If the clause has a second literal, one of the others was falsified at the current level.
  have hsecond : 2 ≤ c.length → ∃ a ∈ c.literals, a ≠ l ∧
      ∃ s ∈ t.steps, s.literal = a.negate ∧ s.level = t.level := by
    intro hlen
    rcases Nat.eq_zero_or_pos t.level with hzero | hpos
    · have hcard : 1 < c.literals.toFinset.card := by
        rw [List.toFinset_card_of_nodup hc.nodup]
        exact hlen
      rcases Finset.exists_mem_ne hcard l with ⟨a, ha, hal⟩
      rcases hfalse a (List.mem_toFinset.1 ha) hal with ⟨s, hs, hsa⟩
      have hle := h.wellFormed.le_level s hs
      exact ⟨a, List.mem_toFinset.1 ha, hal, s, hs, hsa, by omega⟩
    · rcases hreached hpos with ⟨a, ha, hstep⟩
      have : a ∈ c.literals ∧ a ≠ l := by simpa using ha
      exact ⟨a, this.1, this.2, hstep⟩
  rcases h.guarded.assert (r := .clause (f.learn c).1) h.wellFormed hc hl
      hlfree.not_assigns_negate hfalse hsecond with
    ⟨w₁, hw₁, hw'⟩
  rw [Formula.fst_learn, hw₁] at hok
  cases hok
  rcases push_eq_ok hrec hpush with ⟨hlt, _, rfl⟩
  exact ⟨h.proper.learn hc, h.wellFormed.pushed hlt hlfree, t.head, hw', fun _ => rfl⟩

end Kept

variable {f : Formula} {w : WatchIndex} {t : Trail} {waiting : Bool}

theorem Session.kept (h : Session f w t waiting) : Kept f w t waiting := by
  induction h with
  | started hf hok =>
      rcases ofFormula_spec hf with ⟨w₁, hw₁, hindexes⟩
      rw [hw₁] at hok
      cases hok
      exact .of_indexes hf (wellFormed_empty _) hindexes rfl rfl
  | propagated _ hok ih => exact ih.propagate hok
  | failed _ hok ih => exact ih.propagate hok
  | opened _ hhead ih => exact ih.newLevel hhead
  | pushed _ hok ih => exact ih.push hok
  | steppedBack _ hk hok ih => exact ih.backstep hk hok
  | cleared _ ih => exact ih.clear
  | added _ hlen hadd hindex ih => exact ih.add hlen hadd hindex
  | learned _ hc ha hb hab hat hbt hok ih => exact ih.learn hc ha hb hab hat hbt hok
  | asserted _ hc hl hfree hothers hdeepest hok hpush ih =>
      exact ih.assert hc hl hfree hothers hdeepest hok hpush

/-- Unless a conflict is waiting, the watch index and the reading of every clause, started under the
same trail, both find a clause that fails, or both reach a fixpoint and assign the same. -/
theorem Session.propagate_agrees_scan (h : Session f w t false) :
    ∃ o w' u o' u', w.propagate f t = .ok (o, w', u) ∧ Scan.propagate f t = .ok (o', u') ∧
      ((∃ i j, o = .conflict i ∧ o' = .conflict j) ∨
        o = .fixpoint ∧ o' = .fixpoint ∧ Alike u u') := by
  have hkept := h.kept
  rcases WatchIndex.propagate_spec hkept.proper hkept.wellFormed hkept.guarded with
    ⟨o, w', u, hok, _⟩
  rcases Scan.propagate_spec hkept.proper hkept.wellFormed with ⟨o', u', hok', _⟩
  have hready : (Propagator.watch w).Ready f t := hkept.guarded
  have hscan : Propagator.scan.Ready f t := trivial
  rcases Propagator.propagate_agree hkept.proper hkept.wellFormed hready hscan with
    ⟨o₁, q, u₁, o₂, q', u₂, h₁, h₂, hagree⟩
  simp only [Propagator.propagate, hok, hok'] at h₁ h₂
  cases h₁
  cases h₂
  exact ⟨o, w', u, o', u', hok, hok', hagree⟩

/-- Over two clauses that refute the first variable, deciding it fails, so its complement is learned
and asserted at level zero. -/
theorem Session.propagate_agrees_scan_sample :
    ∃ f w t, Session f w t false ∧ f = (Formula.refuting.learn (.learned [⟨0, false⟩])).2 ∧
      t.steps = #[⟨⟨0, false⟩, 0, .clause 2⟩] ∧
      ∃ o w' u o' u', w.propagate f t = .ok (o, w', u) ∧ Scan.propagate f t = .ok (o', u') ∧
        ((∃ i j, o = .conflict i ∧ o' = .conflict j) ∨
          o = .fixpoint ∧ o' = .fixpoint ∧ Alike u u') := by
  have hopened := (Session.started Formula.built_refuting.pristine.proper rfl).opened rfl
  have hfailed := (hopened.pushed (l := ⟨0, true⟩) (r := .decision) rfl).failed rfl
  have hback := hfailed.steppedBack (k := 0) (by decide) rfl
  have hsession := hback.asserted (c := .learned [⟨0, false⟩]) (l := ⟨0, false⟩)
    ⟨by decide, by decide⟩ (by decide) (by decide) (by decide) (by decide) rfl rfl
  exact ⟨_, _, _, hsession, rfl, rfl, hsession.propagate_agrees_scan⟩

end WatchIndex
end SatSearch
