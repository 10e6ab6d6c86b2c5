import SatSearch.Propagation.Watch
import SatSearch.Proofs.Trail.Justified

/-!
# WatchIndex — what a watch index has to say about clauses and trail

An index describes a list of clauses: every clause of two or more literals watches two of them and
stands once in the list of each, every shorter clause stands once in the list of the units or of the
empty clauses, and nothing else stands anywhere. It guards a trail up to a position if every watched
literal that was falsified before that position is made up for by the other watched literal of its
clause, which is true and not assigned at a higher level. That is what stepping back preserves, and
what makes a clause quiet once all of the trail is guarded.
-/

namespace SatSearch

open Trail

namespace WatchIndex

variable {n m i : Nat} {cs : List Clause} {w w' : WatchIndex} {a b a' b' l : Literal}
variable {t t' u : Trail} {f : Formula} {c : Clause}

/-- Clause `i` watches the two literals, at two different positions. -/
def Watches (cs : List Clause) (w : WatchIndex) (i : Nat) (a b : Literal) : Prop :=
  ∃ c p q, cs[i]? = some c ∧ (w.positions[i]? = some (p, q) ∨ w.positions[i]? = some (q, p)) ∧
    p ≠ q ∧ c.literals[p]? = some a ∧ c.literals[q]? = some b

/-- The index says what the clauses watch, and nothing else. -/
structure Indexes (n : Nat) (cs : List Clause) (w : WatchIndex) : Prop where
  lists_size : w.lists.size = 2 * n
  positions_size : w.positions.size = cs.length
  watched : ∀ (i : Nat) (c : Clause), cs[i]? = some c → 2 ≤ c.length → ∃ a b, Watches cs w i a b
  mem_list : ∀ (l : Literal) (list : Array Nat), w.lists[l.code]? = some list →
    ∀ i, i ∈ list ↔ ∃ b, Watches cs w i l b
  nodup_list : ∀ (l : Literal) (list : Array Nat), w.lists[l.code]? = some list →
    list.toList.Nodup
  mem_units : ∀ i : Nat, i ∈ w.units ↔ ∃ c, cs[i]? = some c ∧ c.length = 1
  nodup_units : w.units.toList.Nodup
  mem_empties : ∀ i : Nat, i ∈ w.empties ↔ ∃ c, cs[i]? = some c ∧ c.length = 0
  nodup_empties : w.empties.toList.Nodup

/-- If the step at position `j` falsifies `a`, then `b` is true by the level of that step. -/
def Guarded (t : Trail) (a b : Literal) (j : Nat) : Prop :=
  ∀ s, t.steps[j]? = some s → s.literal = a.negate → t.TrueBy s.level b

/-- Watched literals that were falsified before position `m` are made up for. -/
def Guards (cs : List Clause) (t : Trail) (m : Nat) (w : WatchIndex) : Prop :=
  ∀ i a b, Watches cs w i a b → ∀ j < m, Guarded t a b j

/-! ## Watched literals -/

theorem Watches.symm (h : Watches cs w i a b) : Watches cs w i b a := by
  rcases h with ⟨c, p, q, hc, hpos, hpq, ha, hb⟩
  exact ⟨c, q, p, hc, hpos.symm, hpq.symm, hb, ha⟩

theorem Watches.clause (h : Watches cs w i a b) :
    ∃ c, cs[i]? = some c ∧ a ∈ c.literals ∧ b ∈ c.literals := by
  rcases h with ⟨c, p, q, hc, _, _, ha, hb⟩
  exact ⟨c, hc, List.mem_of_getElem? ha, List.mem_of_getElem? hb⟩

/-- The two watched literals differ, as no clause repeats one. -/
theorem Watches.ne (h : Watches cs w i a b) (hcs : ∀ c ∈ cs, c.literals.Nodup) : a ≠ b := by
  rcases h with ⟨c, p, q, hc, _, hpq, ha, hb⟩
  rintro rfl
  have hlt := (List.getElem?_eq_some_iff.1 ha).1
  exact hpq ((List.getElem?_inj hlt (hcs c (List.mem_of_getElem? hc))).1 (ha.trans hb.symm))

/-- A clause watches one pair only. -/
theorem Watches.unique (h : Watches cs w i a b) (h' : Watches cs w i a' b') :
    a' = a ∧ b' = b ∨ a' = b ∧ b' = a := by
  rcases h with ⟨c, p, q, hc, hpos, _, ha, hb⟩
  rcases h' with ⟨c', p', q', hc', hpos', _, ha', hb'⟩
  obtain rfl : c' = c := Option.some.inj (hc'.symm.trans hc)
  have hsame : p' = p ∧ q' = q ∨ p' = q ∧ q' = p := by
    rcases hpos with hpos | hpos <;> rcases hpos' with hpos' | hpos' <;>
      simp only [hpos, Option.some.injEq, Prod.mk.injEq] at hpos' <;> omega
  rcases hsame with ⟨rfl, rfl⟩ | ⟨rfl, rfl⟩
  · left
    exact ⟨Option.some.inj (ha'.symm.trans ha), Option.some.inj (hb'.symm.trans hb)⟩
  · right
    exact ⟨Option.some.inj (ha'.symm.trans hb), Option.some.inj (hb'.symm.trans ha)⟩

theorem Watches.partner_unique (h : Watches cs w i a b) (h' : Watches cs w i a b')
    (hcs : ∀ c ∈ cs, c.literals.Nodup) : b' = b := by
  rcases h.unique h' with ⟨_, hb⟩ | ⟨hab, _⟩
  · exact hb
  · exact absurd hab (h.ne hcs)

/-- What a clause watches depends on its own positions only. -/
theorem watches_congr (hpos : w'.positions[i]? = w.positions[i]?) :
    Watches cs w' i a b ↔ Watches cs w i a b := by
  simp only [Watches, hpos]

/-! ## Guarding a trail -/

/-- More steps at the end change nothing for the positions that are there. -/
theorem Guarded.mono {j : Nat} (h : Guarded t a b j) (hj : j < t.steps.size)
    (hmem : ∀ s ∈ t.steps, s ∈ u.steps)
    (hget : ∀ (k : Nat) (s : Step), t.steps[k]? = some s → u.steps[k]? = some s) :
    Guarded u a b j := by
  intro s hs hsa
  obtain ⟨s', hs'⟩ : ∃ s', t.steps[j]? = some s' := ⟨_, Array.getElem?_eq_getElem hj⟩
  obtain rfl : s' = s := Option.some.inj ((hget j s' hs').symm.trans hs)
  rcases h s' hs' hsa with ⟨s₁, hs₁, hb, hle⟩
  exact ⟨s₁, hmem s₁ hs₁, hb, hle⟩

theorem Guards.forced (h : Guards cs t m w) (hm : m ≤ t.steps.size) (hu : Forced f t u) :
    Guards cs u m w := by
  intro i a b hw j hj
  exact (h i a b hw j hj).mono (by omega) (fun s => hu.mem) fun k s => hu.getElem?_of_getElem?

theorem Guards.pushed {r : Reason} (h : Guards cs t m w) (hm : m ≤ t.steps.size) :
    Guards cs (t.pushed l r) m w := by
  intro i a b hw j hj
  exact (h i a b hw j hj).mono (by omega) (fun s hs => mem_pushed.2 (.inl hs))
    fun k s hk => getElem?_pushed.2 (.inl hk)

/-- Stepping back keeps the guards: with a falsified literal also its partner, assigned no higher,
remains. -/
theorem Guards.steppedBack {k : Nat} (h : Guards cs t m w) (hback : SteppedBack k t t')
    (hm : t'.steps.size ≤ m) : Guards cs t' t'.steps.size w := by
  intro i a b hw j hj s hs hsa
  rcases (hback.getElem?_iff j s).1 hs with ⟨hs, hk⟩
  rcases h i a b hw j (by omega) s hs hsa with ⟨s', hs', hb, hle⟩
  exact ⟨s', hback.mem_iff.2 ⟨hs', hle.trans hk⟩, hb, hle⟩

/-- A clause that watches two literals under a fully guarded trail is quiet. -/
theorem Guards.quiet (h : Guards cs t t.steps.size w) (ht : t.Levelled)
    (hcs : ∀ c ∈ cs, c.literals.Nodup) (hc : cs[i]? = some c) (hw : Watches cs w i a b) :
    t.Quiet t.level c := by
  rcases hw.clause with ⟨c', hc', ha, hb⟩
  obtain rfl : c' = c := Option.some.inj (hc'.symm.trans hc)
  -- Either literal, once falsified, is made up for by the other one.
  have hside : ∀ x y, Watches cs w i x y → x ∈ c'.literals → y ∈ c'.literals →
      t.Assigns x.negate → t.Quiet t.level c' := by
    rintro x y hw _ hy ⟨s, hs, hsx⟩
    rcases Array.mem_iff_getElem?.1 hs with ⟨j, hj⟩
    have htrue := h i x y hw j (Array.getElem?_eq_some_iff.1 hj).1 s hj hsx
    exact .inl ⟨y, hy, htrue.mono (ht.le_level s hs)⟩
  by_cases hfa : t.Assigns a.negate
  · exact hside a b hw ha hb hfa
  · by_cases hfb : t.Assigns b.negate
    · exact hside b a hw.symm hb ha hfb
    · exact .inr ⟨a, ha, b, hb, hw.ne hcs, fun h => hfa h.assigns, fun h => hfb h.assigns⟩

/-! ## The state between operations -/

/-- The index describes the formula and guards the trail up to position `m`; what comes later
belongs to the current level. -/
structure Watchful (f : Formula) (t : Trail) (m : Nat) (w : WatchIndex) : Prop where
  indexes : Indexes f.numVars f.clauses w
  guards : Guards f.clauses t m w
  current : t.CurrentFrom m
  le_head : m ≤ t.head
  head_le : t.head ≤ t.steps.size

namespace Watchful

/-- With nothing assigned there is nothing to guard. -/
theorem of_indexes (h : Indexes f.numVars f.clauses w) (hsteps : t.steps = #[])
    (hhead : t.head = 0) : Watchful f t t.head w := by
  refine ⟨h, ?_, ?_, le_rfl, by simp [hhead]⟩
  · intro i a b _ j hj
    omega
  · intro j s _ hs
    simp [hsteps] at hs

/-- A literal that is made true has not been propagated yet. -/
theorem pushed {r : Reason} (h : Watchful f t m w) : Watchful f (t.pushed l r) m w := by
  refine ⟨h.indexes, h.guards.pushed (h.le_head.trans h.head_le), h.current.pushed, h.le_head, ?_⟩
  have := h.head_le
  simp only [head_pushed, steps_pushed, Array.size_push]
  omega

/-- A level may be opened once the whole trail is guarded. -/
theorem newLevel (h : Watchful f t t.steps.size w) : Watchful f t.newLevel t.steps.size w :=
  ⟨h.indexes, h.guards, currentFrom_size (t := t.newLevel), h.le_head, h.head_le⟩

/-- Stepping back below the current level drops all that was not propagated to the end. -/
theorem steppedBack {k : Nat} (h : Watchful f t m w) (hback : SteppedBack k t t')
    (hk : k < t.level) : Watchful f t' t'.steps.size w := by
  -- What is guarded reaches at least to the end of what stays.
  have hm := hback.size_le hk h.current
  have hhead := hback.head_eq h.head_le
  have := h.le_head
  exact ⟨h.indexes, h.guards.steppedBack hback hm, currentFrom_size, by omega, by omega⟩

/-- A trail that is guarded to its end has been propagated to its end. -/
theorem head_eq (h : Watchful f t t.steps.size w) : t.head = t.steps.size :=
  le_antisymm h.head_le h.le_head

end Watchful
end WatchIndex
end SatSearch
