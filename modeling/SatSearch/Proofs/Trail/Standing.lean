import SatSearch.Proofs.Store
import SatSearch.Proofs.Trail.WellFormed

/-!
# Standing — how clauses stand under a trail, level by level

A clause is falsified if the trail makes all its literals false, and forces a literal if that one is
free and all others are false. It is quiet at a level if, with the assignments of that level and
below alone, it is neither: some literal is true, or two different ones are not false. What was
assigned by a level does not change while the search goes on above it, so quietness stays.
-/

namespace SatSearch
namespace Trail

variable {n k : Nat} {t t' : Trail} {l : Literal} {c : Clause}

/-- The trail makes the literal true at level `k` or below. -/
def TrueBy (t : Trail) (k : Nat) (l : Literal) : Prop :=
  ∃ s ∈ t.steps, s.literal = l ∧ s.level ≤ k

/-- Every literal of the clause is false. -/
def Falsifies (t : Trail) (c : Clause) : Prop :=
  ∀ l ∈ c.literals, t.Assigns l.negate

/-- The literal is free, and every other one of the clause is false. -/
structure Forces (t : Trail) (c : Clause) (l : Literal) : Prop where
  mem : l ∈ c.literals
  free : t.Free l.var
  others : ∀ a ∈ c.literals, a ≠ l → t.Assigns a.negate

/-- By level `k` some literal is true, or two different literals are not false. -/
def Quiet (t : Trail) (k : Nat) (c : Clause) : Prop :=
  (∃ l ∈ c.literals, t.TrueBy k l) ∨
    ∃ a ∈ c.literals, ∃ b ∈ c.literals, a ≠ b ∧ ¬ t.TrueBy k a.negate ∧ ¬ t.TrueBy k b.negate

/-- The two trails make the same literals true by level `k`. -/
def AgreeBy (k : Nat) (t t' : Trail) : Prop :=
  ∀ l, t.TrueBy k l ↔ t'.TrueBy k l

/-- From position `m` on the steps belong to the current level. -/
def CurrentFrom (t : Trail) (m : Nat) : Prop :=
  ∀ (j : Nat) (s : Step), m ≤ j → t.steps[j]? = some s → s.level = t.level

/-! ## By a level -/

theorem TrueBy.assigns (h : t.TrueBy k l) : t.Assigns l := by
  rcases h with ⟨s, hs, hl, _⟩
  exact ⟨s, hs, hl⟩

theorem TrueBy.mono {j : Nat} (h : t.TrueBy k l) (hkj : k ≤ j) : t.TrueBy j l := by
  rcases h with ⟨s, hs, hl, hk⟩
  exact ⟨s, hs, hl, hk.trans hkj⟩

theorem Levelled.trueBy_level (h : t.Levelled) : t.TrueBy t.level l ↔ t.Assigns l := by
  constructor
  · exact TrueBy.assigns
  · rintro ⟨s, hs, hl⟩
    exact ⟨s, hs, hl, h.le_level s hs⟩

theorem AgreeBy.trans {u : Trail} (h : AgreeBy k t t') (h' : AgreeBy k t' u) : AgreeBy k t u :=
  fun l => (h l).trans (h' l)

theorem AgreeBy.quiet (h : AgreeBy k t t') (hc : t.Quiet k c) : t'.Quiet k c := by
  rcases hc with ⟨l, hl, htrue⟩ | ⟨a, ha, b, hb, hab, hna, hnb⟩
  · exact .inl ⟨l, hl, (h l).1 htrue⟩
  · exact .inr ⟨a, ha, b, hb, hab, fun hta => hna ((h _).2 hta), fun htb => hnb ((h _).2 htb)⟩

theorem agreeBy_pushed {r : Reason} (hk : k < t.level) : AgreeBy k t (t.pushed l r) := by
  intro a
  constructor
  · rintro ⟨s, hs, ha, hle⟩
    exact ⟨s, mem_pushed.2 (.inl hs), ha, hle⟩
  · rintro ⟨s, hs, ha, hle⟩
    rcases mem_pushed.1 hs with hs | rfl
    · exact ⟨s, hs, ha, hle⟩
    · exact absurd hle (by simpa using hk)

theorem agreeBy_newLevel : AgreeBy k t t.newLevel :=
  fun _ => Iff.rfl

theorem SteppedBack.agreeBy {j : Nat} (h : SteppedBack k t t') (hj : j ≤ k) :
    AgreeBy j t t' := by
  intro a
  constructor
  · rintro ⟨s, hs, ha, hle⟩
    exact ⟨s, h.mem_iff.2 ⟨hs, hle.trans hj⟩, ha, hle⟩
  · rintro ⟨s, hs, ha, hle⟩
    exact ⟨s, (h.mem_iff.1 hs).1, ha, hle⟩

/-- Stepping back below the current level leaves nothing of the steps of this level. -/
theorem SteppedBack.size_le {m : Nat} (h : SteppedBack k t t') (hk : k < t.level)
    (hm : t.CurrentFrom m) : t'.steps.size ≤ m := by
  by_contra hlt
  have hi : t'.steps[m]? = some t'.steps[m] := Array.getElem?_eq_getElem (by omega)
  rcases (h.getElem?_iff _ _).1 hi with ⟨hs, hle⟩
  have := hm m _ le_rfl hs
  omega

theorem CurrentFrom.pushed {m : Nat} {r : Reason} (h : t.CurrentFrom m) :
    (t.pushed l r).CurrentFrom m := by
  intro j s hj hs
  rcases getElem?_pushed.1 hs with hs | ⟨_, rfl⟩
  · exact h j s hj hs
  · rfl

theorem currentFrom_size : t.CurrentFrom t.steps.size := by
  intro j s hj hs
  have := (Array.getElem?_eq_some_iff.1 hs).1
  omega

theorem SteppedBack.assigns_iff (h : SteppedBack k t t') : t'.Assigns l ↔ t.TrueBy k l := by
  constructor
  · rintro ⟨s, hs, hl⟩
    have := h.mem_iff.1 hs
    exact ⟨s, this.1, hl, this.2⟩
  · rintro ⟨s, hs, hl, hle⟩
    exact ⟨s, h.mem_iff.2 ⟨hs, hle⟩, hl⟩

/-! ## Quiet clauses -/

/-- A quiet clause that becomes falsified has two literals that were falsified above the level. -/
theorem Quiet.two_above (hrec : t.Recorded n) (hq : t.Quiet k c) (hf : t.Falsifies c) :
    ∃ a ∈ c.literals, ∃ b ∈ c.literals, a ≠ b ∧ ¬ t.TrueBy k a.negate ∧ ¬ t.TrueBy k b.negate := by
  rcases hq with ⟨l, hl, htrue⟩ | h
  · exact absurd (hf l hl) (hrec.not_assigns_negate htrue.assigns)
  · exact h

/-- A literal of a quiet clause whose others are all false is true. -/
theorem Quiet.trueBy_of_others (hrec : t.Recorded n) (hq : t.Quiet k c)
    (hothers : ∀ a ∈ c.literals, a ≠ l → t.TrueBy k a.negate) : t.TrueBy k l := by
  rcases hq with ⟨a, ha, htrue⟩ | ⟨a, ha, b, hb, hab, hna, hnb⟩
  · by_cases hal : a = l
    · exact hal ▸ htrue
    · exact absurd (hothers a ha hal).assigns (hrec.not_assigns_negate htrue.assigns)
  · -- Only one of the two that are not false can be the literal itself.
    by_cases hal : a = l
    · exact absurd (hothers b hb fun hbl => hab (hal.trans hbl.symm)) hnb
    · exact absurd (hothers a ha hal) hna

/-! ## Reading a clause from left to right -/

section Standing

variable {free : Option Literal} {others : Bool} {ls : List Literal}

/-- If all remaining literals are false, the free ones met so far decide. -/
theorem standing_falsified (h : t.Recorded n)
    (hst : Clause.standing t.values free others ls = .falsified) :
    free = none ∧ ∀ a ∈ ls, t.Assigns a.negate := by
  -- By induction on the literals that are left to read, for any that were met so far.
  induction ls generalizing free others with
  | nil =>
      cases free with
      | none => simp
      | some l => cases others <;> simp [Clause.standing] at hst
  | cons a ls ih =>
      unfold Clause.standing at hst
      split at hst
      · cases hst
      · rename_i hval
        rcases ih hst with ⟨hfree, hall⟩
        refine ⟨hfree, ?_⟩
        intro b hb
        rcases List.mem_cons.1 hb with rfl | hb
        · exact h.literal?_eq_false.1 hval
        · exact hall b hb
      · rcases ih hst with ⟨hfree, _⟩
        cases hfree

theorem standing_satisfied (h : t.Recorded n)
    (hst : Clause.standing t.values free others ls = .satisfied) : ∃ a ∈ ls, t.Assigns a := by
  induction ls generalizing free others with
  | nil =>
      cases free with
      | none => simp [Clause.standing] at hst
      | some l => cases others <;> simp [Clause.standing] at hst
  | cons a ls ih =>
      unfold Clause.standing at hst
      split at hst
      · rename_i hval
        exact ⟨a, List.mem_cons_self, h.literal?_eq_true.1 hval⟩
      · rcases ih hst with ⟨b, hb, htrue⟩
        exact ⟨b, List.mem_cons_of_mem _ hb, htrue⟩
      · rcases ih hst with ⟨b, hb, htrue⟩
        exact ⟨b, List.mem_cons_of_mem _ hb, htrue⟩

/-- A clause ends up unit in the free literal met before if all remaining ones are false, or in its
only remaining free one. -/
theorem standing_unit (h : t.Recorded n)
    (hst : Clause.standing t.values free others ls = .unit l) :
    free = some l ∧ others = false ∧ (∀ a ∈ ls, t.Assigns a.negate) ∨
      free = none ∧ l ∈ ls ∧ t.Free l.var ∧ ∀ a ∈ ls, a ≠ l → t.Assigns a.negate := by
  induction ls generalizing free others with
  | nil =>
      cases free with
      | none => simp [Clause.standing] at hst
      | some a =>
          cases others with
          | true => simp [Clause.standing] at hst
          | false =>
              left
              simpa [Clause.standing] using hst
  | cons a ls ih =>
      unfold Clause.standing at hst
      split at hst
      · cases hst
      · -- A false literal leaves open which of the two cases it is.
        rename_i hval
        have hfalse := h.literal?_eq_false.1 hval
        rcases ih hst with ⟨hfree, hothers, hall⟩ | ⟨hfree, hmem, hl, hall⟩
        · left
          refine ⟨hfree, hothers, ?_⟩
          intro b hb
          rcases List.mem_cons.1 hb with rfl | hb
          · exact hfalse
          · exact hall b hb
        · right
          refine ⟨hfree, List.mem_cons_of_mem _ hmem, hl, ?_⟩
          intro b hb hbl
          rcases List.mem_cons.1 hb with rfl | hb
          · exact hfalse
          · exact hall b hb hbl
      · rename_i hval
        -- A free literal is the one, if no other was or will be met.
        have hafree := h.literal?_eq_none.1 hval
        rcases ih hst with ⟨hfree, hothers, hall⟩ | ⟨hfree, _⟩
        · obtain rfl : a = l := by simpa using hfree
          right
          refine ⟨by simpa using hothers, List.mem_cons_self, hafree, ?_⟩
          intro b hb hba
          rcases List.mem_cons.1 hb with rfl | hb
          · exact absurd rfl hba
          · exact hall b hb
        · cases hfree

/-- A clause ends up unresolved if two free literals are met. -/
theorem standing_unresolved (h : t.Recorded n)
    (hst : Clause.standing t.values free others ls = .unresolved) :
    free.isSome ∧ others = true ∨ free.isSome ∧ (∃ a ∈ ls, t.Free a.var) ∨
      ∃ (i j : Nat) (a b : Literal), i < j ∧ ls[i]? = some a ∧ ls[j]? = some b ∧
        t.Free a.var ∧ t.Free b.var := by
  induction ls generalizing free others with
  | nil =>
      cases free with
      | none => simp [Clause.standing] at hst
      | some a =>
          cases others with
          | false => simp [Clause.standing] at hst
          | true => simp
  | cons a ls ih =>
      unfold Clause.standing at hst
      split at hst
      · cases hst
      · rcases ih hst with hmet | ⟨hmet, b, hb, hfree⟩ | ⟨i, j, b, b', hij, hi, hj, hfree⟩
        · exact .inl hmet
        · exact .inr (.inl ⟨hmet, b, List.mem_cons_of_mem _ hb, hfree⟩)
        · exact .inr (.inr ⟨i + 1, j + 1, b, b', by omega, by simpa using hi, by simpa using hj,
            hfree⟩)
      · rename_i hval
        have hafree := h.literal?_eq_none.1 hval
        rcases ih hst with ⟨_, hmet⟩ | ⟨_, b, hb, hfree⟩ | ⟨i, j, b, b', hij, hi, hj, hfree⟩
        · exact .inr (.inl ⟨hmet, a, List.mem_cons_self, hafree⟩)
        · rcases List.mem_iff_getElem?.1 hb with ⟨j, hj⟩
          exact .inr (.inr ⟨0, j + 1, a, b, by omega, rfl, by simpa using hj, hafree, hfree⟩)
        · exact .inr (.inr ⟨i + 1, j + 1, b, b', by omega, by simpa using hi, by simpa using hj,
            hfree⟩)

end Standing

theorem falsifies_of_state (h : t.Recorded n) (hst : c.state t.values = .falsified) :
    t.Falsifies c :=
  (standing_falsified h hst).2

theorem forces_of_state (h : t.Recorded n) (hst : c.state t.values = .unit l) :
    t.Forces c l := by
  rcases standing_unit h hst with ⟨hfree, _⟩ | ⟨_, hmem, hfree, hall⟩
  · cases hfree
  · exact ⟨hmem, hfree, hall⟩

/-- A free literal is not false. -/
theorem Free.not_assigns_negate (h : t.Free l.var) : ¬ t.Assigns l.negate := by
  rintro ⟨s, hs, hsl⟩
  exact h s hs (by simp [hsl])

theorem Free.not_trueBy_negate (h : t.Free l.var) : ¬ t.TrueBy k l.negate :=
  fun htrue => h.not_assigns_negate htrue.assigns

/-- A clause that is neither falsified nor unit is quiet at the current level. -/
theorem quiet_of_state (h : t.WellFormed n) (hc : c.literals.Nodup)
    (hst : c.state t.values = .satisfied ∨ c.state t.values = .unresolved) :
    t.Quiet t.level c := by
  rcases hst with hst | hst
  · rcases standing_satisfied h.toRecorded hst with ⟨a, ha, htrue⟩
    exact .inl ⟨a, ha, h.toLevelled.trueBy_level.2 htrue⟩
  · rcases standing_unresolved h.toRecorded hst with ⟨hmet, _⟩ | ⟨hmet, _⟩ | htwo
    · cases hmet
    · cases hmet
    · rcases htwo with ⟨i, j, a, b, hij, hi, hj, ha, hb⟩
      refine .inr ⟨a, List.mem_of_getElem? hi, b, List.mem_of_getElem? hj, ?_,
        ha.not_trueBy_negate, hb.not_trueBy_negate⟩
      -- Two positions without repetition hold two literals.
      rintro rfl
      have hlt := (List.getElem?_eq_some_iff.1 hi).1
      have := (List.getElem?_inj hlt hc).1 (hi.trans hj.symm)
      omega

end Trail
end SatSearch
