import SatSearch.Proofs.Trail.Standing

/-!
# Justified — why the literals of a trail are true

A justified trail is an implication graph: every level above zero starts with its branch and has no
other one, every other step was forced by a clause whose other literals were falsified earlier, and
a flipped branch follows from the decisions below it. So every step follows from the formula and
the decisions of its level and below, and a clause that is falsified refutes those decisions.

`Forced` is what propagation does to a trail: one forced literal after the other.
-/

namespace SatSearch

/-- A branch was chosen, or flipped after its complement failed. -/
def Reason.IsBranch : Reason → Prop
  | .decision => True
  | .flipped => True
  | .clause _ => False

namespace Trail

variable {n k i : Nat} {t t' u : Trail} {l : Literal} {s : Step} {r : Reason}
variable {f f' : Formula} {c : Clause} {v : Valuation}

/-- The clause with the given index explains the step at position `i`. -/
def Explained (f : Formula) (t : Trail) (i : Nat) (l : Literal) (index : Nat) : Prop :=
  ∃ c, f.clause? index = some c ∧ l ∈ c.literals ∧
    ∀ a ∈ c.literals, a ≠ l → ∃ j < i, ∃ s, t.steps[j]? = some s ∧ s.literal = a.negate

structure Justified (f : Formula) (t : Trail) : Prop where
  branch_start : ∀ (i : Nat) (s : Step), t.steps[i]? = some s → s.reason.IsBranch →
    0 < s.level ∧ t.levelStarts[s.level - 1]? = some i
  start_branch : ∀ (k start : Nat), t.levelStarts[k]? = some start →
    ∃ s, t.steps[start]? = some s ∧ s.level = k + 1 ∧ s.reason.IsBranch
  explained : ∀ (i index : Nat) (s : Step), t.steps[i]? = some s → s.reason = .clause index →
    Explained f t i s.literal index
  flipped : ∀ s ∈ t.steps, s.reason = .flipped → ∀ v, f.Holds v →
    (∀ d ∈ t.steps, d.reason = .decision → d.level < s.level → d.literal.Holds v) →
    s.literal.Holds v

/-- Pushing forced literals one after the other, the head moving as it likes. -/
inductive Forced (f : Formula) : Trail → Trail → Prop
  | refl (t : Trail) : Forced f t t
  | moved {t u : Trail} (head : Nat) : Forced f (t.withHead head) u → Forced f t u
  | pushed {t u : Trail} {index : Nat} {c : Clause} {l : Literal} :
      f.clause? index = some c → t.Forces c l → Forced f (t.pushed l (.clause index)) u →
      Forced f t u

/-! ## Forced literals -/

namespace Forced

theorem trans (h : Forced f t u) {w : Trail} (h' : Forced f u w) : Forced f t w := by
  induction h with
  | refl => exact h'
  | moved head _ ih => exact .moved head (ih h')
  | pushed hc hforces _ ih => exact .pushed hc hforces (ih h')

theorem level_eq (h : Forced f t u) : u.level = t.level := by
  induction h with
  | refl => rfl
  | moved _ _ ih => exact ih
  | pushed _ _ _ ih => exact ih

/-- Steps stay where they are. -/
theorem getElem?_of_getElem? (h : Forced f t u) (hi : t.steps[i]? = some s) :
    u.steps[i]? = some s := by
  induction h with
  | refl => exact hi
  | moved _ _ ih => exact ih hi
  | pushed _ _ _ ih => exact ih (getElem?_pushed.2 (.inl hi))

theorem size_le (h : Forced f t u) : t.steps.size ≤ u.steps.size := by
  induction h with
  | refl => exact le_rfl
  | moved _ _ ih => exact ih
  | pushed _ _ _ ih =>
      simp only [steps_pushed, Array.size_push] at ih
      omega

theorem mem (h : Forced f t u) (hs : s ∈ t.steps) : s ∈ u.steps := by
  rcases Array.mem_iff_getElem?.1 hs with ⟨i, hi⟩
  exact Array.mem_of_getElem? (h.getElem?_of_getElem? hi)

theorem assigns (h : Forced f t u) (hl : t.Assigns l) : u.Assigns l := by
  rcases hl with ⟨s, hs, hsl⟩
  exact ⟨s, h.mem hs, hsl⟩

/-- New steps belong to the current level and are no branches. -/
theorem mem_new (h : Forced f t u) (hs : s ∈ u.steps) :
    s ∈ t.steps ∨ s.level = t.level ∧ ¬ s.reason.IsBranch := by
  induction h with
  | refl => exact .inl hs
  | moved _ _ ih => exact ih hs
  | pushed _ _ _ ih =>
      rcases ih hs with hs | hs
      · rcases mem_pushed.1 hs with hs | rfl
        · exact .inl hs
        · exact .inr ⟨rfl, id⟩
      · exact .inr hs

theorem agreeBy (h : Forced f t u) (hk : k < t.level) : AgreeBy k t u := by
  induction h with
  | refl => exact fun _ => Iff.rfl
  | moved _ _ ih => exact ih hk
  | pushed _ _ _ ih => exact (agreeBy_pushed hk).trans (ih hk)

theorem wellFormed (h : Forced f t u) (hf : f.Proper) (ht : t.WellFormed f.numVars) :
    u.WellFormed f.numVars := by
  induction h with
  | refl => exact ht
  | moved _ _ ih => exact ih ht.withHead
  | pushed hc hforces _ ih =>
      have hlt := (hf _ (Formula.mem_of_clause? hc)).inRange _ hforces.mem
      exact ih (ht.pushed hlt hforces.free)

end Forced

/-! ## Keeping trails justified -/

theorem Explained.mono (h : Explained f t i l k)
    (hsteps : ∀ j < i, ∀ s, t.steps[j]? = some s → t'.steps[j]? = some s) :
    Explained f t' i l k := by
  rcases h with ⟨c, hc, hl, hothers⟩
  refine ⟨c, hc, hl, ?_⟩
  intro a ha hal
  rcases hothers a ha hal with ⟨j, hj, s, hs, hsa⟩
  exact ⟨j, hj, s, hsteps j hj s hs, hsa⟩

namespace Justified

theorem empty : Justified f (.empty n) where
  branch_start := by simp [Trail.empty]
  start_branch := by simp [Trail.empty]
  explained := by simp [Trail.empty]
  flipped := by simp [Trail.empty]

theorem withHead (h : Justified f t) (head : Nat) : Justified f (t.withHead head) :=
  ⟨h.branch_start, h.start_branch, h.explained, h.flipped⟩

/-- A trail stays justified under a formula that keeps the clauses at their indices. -/
theorem formula (h : Justified f t) (hclause : ∀ i c, f.clause? i = some c → f'.clause? i = some c)
    (hholds : ∀ v, f'.Holds v → f.Holds v) : Justified f' t where
  branch_start := h.branch_start
  start_branch := h.start_branch
  explained := by
    intro i index s hi hs
    rcases h.explained i index s hi hs with ⟨c, hc, rest⟩
    exact ⟨c, hclause index c hc, rest⟩
  flipped := fun s hs hr v hv => h.flipped s hs hr v (hholds v hv)

theorem learn (h : Justified f t) (c : Clause) : Justified (f.learn c).2 t :=
  h.formula (fun _ _ => Formula.clause?_learn) fun _ => id

/-- A forced literal is explained by the clause that forces it. -/
theorem pushed (h : Justified f t) (hc : f.clause? k = some c) (hforces : t.Forces c l) :
    Justified f (t.pushed l (.clause k)) where
  branch_start := by
    intro i s hi hs
    rcases getElem?_pushed.1 hi with hi | ⟨rfl, rfl⟩
    · exact h.branch_start i s hi hs
    · exact hs.elim
  start_branch := by
    intro j start hj
    rcases h.start_branch j start hj with ⟨s, hs, rest⟩
    exact ⟨s, getElem?_pushed.2 (.inl hs), rest⟩
  explained := by
    intro i index s hi hs
    rcases getElem?_pushed.1 hi with hi | ⟨rfl, rfl⟩
    · exact (h.explained i index s hi hs).mono fun j _ s hj => getElem?_pushed.2 (.inl hj)
    · obtain rfl : k = index := by simpa using hs
      -- The other literals of the clause were false when it forced the literal.
      refine ⟨c, hc, hforces.mem, ?_⟩
      intro a ha hal
      rcases hforces.others a ha hal with ⟨s, hs, hsa⟩
      rcases Array.mem_iff_getElem?.1 hs with ⟨j, hj⟩
      exact ⟨j, (Array.getElem?_eq_some_iff.1 hj).1, s, getElem?_pushed.2 (.inl hj), hsa⟩
  flipped := by
    intro s hs hr v hv hdec
    rcases mem_pushed.1 hs with hs | rfl
    · exact h.flipped s hs hr v hv fun d hd => hdec d (mem_pushed.2 (.inl hd))
    · cases hr

theorem forced (h : Justified f t) (hu : Forced f t u) : Justified f u := by
  induction hu with
  | refl => exact h
  | moved head _ ih => exact ih (h.withHead head)
  | pushed hc hforces _ ih => exact ih (h.pushed hc hforces)

/-- A new level starts with its branch. A flipped one has to follow from the decisions below. -/
theorem branch (h : Justified f t) (hlev : t.Levelled) (hr : r.IsBranch)
    (hflip : r = .flipped → ∀ v, f.Holds v →
      (∀ d ∈ t.steps, d.reason = .decision → d.literal.Holds v) → l.Holds v) :
    Justified f (t.newLevel.pushed l r) where
  branch_start := by
    intro i s hi hs
    rcases getElem?_pushed.1 hi with hi | ⟨rfl, rfl⟩
    · rcases h.branch_start i s hi hs with ⟨hpos, hstart⟩
      refine ⟨hpos, ?_⟩
      have hlt := (Array.getElem?_eq_some_iff.1 hstart).1
      rw [levelStarts_pushed, levelStarts_newLevel, Array.getElem?_push, if_neg (by omega)]
      exact hstart
    · simp [level]
  start_branch := by
    intro j start hj
    rw [levelStarts_pushed, levelStarts_newLevel, Array.getElem?_push] at hj
    split at hj
    · rename_i hlevel
      cases hj
      refine ⟨_, getElem?_pushed.2 (.inr ⟨rfl, rfl⟩), ?_, hr⟩
      simp [hlevel, level]
    · rcases h.start_branch j start hj with ⟨s, hs, rest⟩
      exact ⟨s, getElem?_pushed.2 (.inl hs), rest⟩
  explained := by
    intro i index s hi hs
    rcases getElem?_pushed.1 hi with hi | ⟨rfl, rfl⟩
    · exact (h.explained i index s hi hs).mono fun j _ s hj => getElem?_pushed.2 (.inl hj)
    · dsimp only at hs
      subst hs
      exact hr.elim
  flipped := by
    intro s hs hreason v hv hdec
    have hold : ∀ d ∈ t.steps, d ∈ (t.newLevel.pushed l r).steps :=
      fun d hd => mem_pushed.2 (.inl hd)
    rcases mem_pushed.1 hs with hs | rfl
    · exact h.flipped s hs hreason v hv fun d hd => hdec d (hold d hd)
    · refine hflip hreason v hv fun d hd hd' => hdec d (hold d hd) hd' ?_
      -- All decisions that are there belong to levels below the new one.
      have := hlev.le_level d hd
      simp only [level_newLevel]
      omega

theorem steppedBack (h : Justified f t) (hlev : t.Levelled) (hback : SteppedBack k t t') :
    Justified f t' where
  branch_start := by
    intro i s hi hs
    rcases (hback.getElem?_iff i s).1 hi with ⟨hi, hk⟩
    rcases h.branch_start i s hi hs with ⟨hpos, hstart⟩
    exact ⟨hpos, (hback.starts_eq _ (by omega)).trans hstart⟩
  start_branch := by
    intro j start hj
    have hjk : j < k := by
      have hlt : j < t'.level := (Array.getElem?_eq_some_iff.1 hj).1
      rw [hback.level_eq] at hlt
      omega
    rcases h.start_branch j start ((hback.starts_eq j hjk).symm.trans hj) with
      ⟨s, hs, hlevel, hbranch⟩
    exact ⟨s, (hback.getElem?_iff start s).2 ⟨hs, by omega⟩, hlevel, hbranch⟩
  explained := by
    intro i index s hi hs
    rcases (hback.getElem?_iff i s).1 hi with ⟨hi, hk⟩
    refine (h.explained i index s hi hs).mono ?_
    -- Earlier steps are of no higher level, so they stay with what they explain.
    intro j hj s' hs'
    exact (hback.getElem?_iff j s').2 ⟨hs', (hlev.level_mono hj.le hs' hi).trans hk⟩
  flipped := by
    intro s hs hr v hv hdec
    rcases hback.mem_iff.1 hs with ⟨hs, hk⟩
    refine h.flipped s hs hr v hv fun d hd hd' hlt => hdec d ?_ hd' hlt
    exact hback.mem_iff.2 ⟨hd, by omega⟩

/-! ## What follows from the decisions -/

/-- Every step of level `k` or below follows from the decisions of these levels. -/
theorem holds_of_decisions (h : Justified f t) (hlev : t.Levelled) (hf : f.Sound)
    (hv : f.Holds v)
    (hdec : ∀ d ∈ t.steps, d.reason = .decision → d.level ≤ k → d.literal.Holds v)
    (hs : s ∈ t.steps) (hk : s.level ≤ k) : s.literal.Holds v := by
  rcases Array.mem_iff_getElem?.1 hs with ⟨i, hi⟩
  -- The clause that explains a step mentions earlier steps only.
  induction i using Nat.strong_induction_on generalizing s with
  | _ i ih =>
      cases hr : s.reason with
      | decision => exact hdec s hs hr hk
      | flipped =>
          exact h.flipped s hs hr v hv fun d hd hd' hlt => hdec d hd hd' (by omega)
      | clause index =>
          rcases h.explained i index s hi hr with ⟨c, hc, _, hothers⟩
          rcases hf.holds_clauses hv c (Formula.mem_of_clause? hc) with ⟨a, ha, hholds⟩
          by_cases hal : a = s.literal
          · exact hal ▸ hholds
          · rcases hothers a ha hal with ⟨j, hj, s', hs', hneg⟩
            have hle := hlev.level_mono hj.le hs' hi
            have := ih j hj (Array.mem_of_getElem? hs') (by omega) hs'
            rw [hneg, Literal.holds_negate] at this
            exact absurd hholds this

/-- What is true at level zero holds, as there are no decisions. -/
theorem holds_of_ground (h : Justified f t) (hlev : t.Levelled) (hf : f.Sound) (hv : f.Holds v)
    (hl : t.TrueBy 0 l) : l.Holds v := by
  rcases hl with ⟨s, hs, rfl, hzero⟩
  refine h.holds_of_decisions hlev hf hv ?_ hs hzero
  intro d hd hdec hle
  rcases Array.mem_iff_getElem?.1 hd with ⟨i, hi⟩
  have := (h.branch_start i d hi (by simp [hdec, Reason.IsBranch])).1
  omega

/-- A clause that is false by level `k` refutes the decisions of this level and below. -/
theorem refutes (h : Justified f t) (hlev : t.Levelled) (hf : f.Sound) (hc : c ∈ f.clauses)
    (hfalse : ∀ l ∈ c.literals, t.TrueBy k l.negate) (hv : f.Holds v) :
    ¬ ∀ d ∈ t.steps, d.reason = .decision → d.level ≤ k → d.literal.Holds v := by
  intro hdec
  rcases hf.holds_clauses hv c hc with ⟨a, ha, hholds⟩
  rcases hfalse a ha with ⟨s, hs, hsa, hk⟩
  have := h.holds_of_decisions hlev hf hv hdec hs hk
  rw [hsa, Literal.holds_negate] at this
  exact this hholds

/-! ## Open branches -/

/-- Two branches of one level are the same. -/
theorem branch_unique (h : Justified f t) {s s' : Step} (hs : s ∈ t.steps) (hs' : s' ∈ t.steps)
    (hb : s.reason.IsBranch) (hb' : s'.reason.IsBranch) (hlevel : s.level = s'.level) : s = s' := by
  rcases Array.mem_iff_getElem?.1 hs with ⟨i, hi⟩
  rcases Array.mem_iff_getElem?.1 hs' with ⟨j, hj⟩
  have h1 := (h.branch_start i s hi hb).2
  have h2 := (h.branch_start j s' hj hb').2
  rw [hlevel, h2] at h1
  cases h1
  exact Option.some.inj (hi.symm.trans hj)

theorem branchAt?_eq_some (h : Justified f t) (hk : k < t.level) :
    ∃ s, t.branchAt? (k + 1) = some s ∧ s ∈ t.steps ∧ s.level = k + 1 ∧ s.reason.IsBranch := by
  have hstart : t.levelStarts[k]? = some t.levelStarts[k] := Array.getElem?_eq_getElem hk
  rcases h.start_branch _ _ hstart with ⟨s, hs, hlevel, hbranch⟩
  refine ⟨s, ?_, Array.mem_of_getElem? hs, hlevel, hbranch⟩
  simp only [branchAt?, hstart]
  rw [hs]
  simp [hlevel]

theorem openBranchUpTo?_spec (h : Justified f t) : ∀ k ≤ t.level,
    match t.openBranchUpTo? k with
    | none => ∀ d ∈ t.steps, d.reason = .decision → k < d.level
    | some s => s ∈ t.steps ∧ s.reason = .decision ∧ 0 < s.level ∧ s.level ≤ k ∧
        ∀ d ∈ t.steps, d.reason = .decision → d.level ≤ k → d.level ≤ s.level := by
  intro k
  induction k with
  | zero =>
      intro _ d hd hdec
      rcases Array.mem_iff_getElem?.1 hd with ⟨i, hi⟩
      exact (h.branch_start i d hi (by simp [hdec, Reason.IsBranch])).1
  | succ k ih =>
      intro hk
      rcases h.branchAt?_eq_some hk with ⟨b, hb, hmem, hlevel, hbranch⟩
      simp only [openBranchUpTo?, hb]
      by_cases hdec : b.reason = .decision
      · rw [if_pos hdec]
        exact ⟨hmem, hdec, by omega, by omega, fun d _ _ hle => by omega⟩
      · rw [if_neg hdec]
        -- The branch of level `k + 1` is flipped, so no decision has this level.
        have hnone : ∀ d ∈ t.steps, d.reason = .decision → d.level ≠ k + 1 := by
          intro d hd hd' heq
          have : d = b := h.branch_unique hd hmem (by simp [hd', Reason.IsBranch]) hbranch
            (by omega)
          exact hdec (this ▸ hd')
        have := ih (by omega)
        split at this
        · intro d hd hd'
          have h1 := this d hd hd'
          have h2 := hnone d hd hd'
          omega
        · rcases this with ⟨hs, hsd, hpos, hle, hmax⟩
          refine ⟨hs, hsd, hpos, by omega, ?_⟩
          intro d hd hd' hle'
          have h2 := hnone d hd hd'
          exact hmax d hd hd' (by omega)

/-- No open branch up to a level means no decision up to that level. -/
theorem no_decision_of_openBranch? (h : Justified f t) (hlev : t.Levelled)
    (hnone : t.openBranch? k = none) : ∀ d ∈ t.steps, d.reason = .decision → k < d.level := by
  intro d hd hdec
  have hspec := h.openBranchUpTo?_spec (min k t.level) (by omega)
  unfold openBranch? at hnone
  rw [hnone] at hspec
  have h1 := hspec d hd hdec
  have h2 := hlev.le_level d hd
  omega

/-- An open branch is a decision, and the highest one up to the level. -/
theorem openBranch?_eq_some (h : Justified f t) (hlev : t.Levelled)
    (hsome : t.openBranch? k = some s) :
    s ∈ t.steps ∧ s.reason = .decision ∧ 0 < s.level ∧ s.level ≤ k ∧
      ∀ d ∈ t.steps, d.reason = .decision → d.level ≤ k → d.level ≤ s.level := by
  have hspec := h.openBranchUpTo?_spec (min k t.level) (by omega)
  unfold openBranch? at hsome
  rw [hsome] at hspec
  rcases hspec with ⟨hs, hdec, hpos, hle, hmax⟩
  refine ⟨hs, hdec, hpos, by omega, ?_⟩
  intro d hd hd' hle'
  have := hlev.le_level d hd
  exact hmax d hd hd' (by omega)

end Justified
end Trail
end SatSearch
