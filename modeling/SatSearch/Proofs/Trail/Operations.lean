import Mathlib.Order.Bounds.Basic
import SatSearch.Proofs.Trail.WellFormed

/-!
# Operations — what a trail says after any operations in any order

A trail is worked on by opening levels, pushing literals, moving its head, stepping back and taking
everything back. Whatever the order, as long as only literals without a value are pushed, no
operation fails and steps, level starts and tables tell the same story: a trail is `Coherent` if
everything it can be asked is an account of its steps. Levels may be empty, and any literal may be
pushed for any reason, so the first step of a level need not be a branch.
-/

namespace SatSearch
namespace Trail

variable {n k m : Nat} {t t' : Trail} {s : Step}

/-! ## Performing operations -/

inductive Operation
  | newLevel
  | push (literal : Literal) (reason : Reason)
  /-- All steps count as propagated. -/
  | settle
  /-- The next step counts as propagated. -/
  | advance
  | backstep (level : Nat)
  | clear
  deriving DecidableEq, Repr

def Operation.perform (t : Trail) : Operation → Except Fault Trail
  | .newLevel => .ok t.newLevel
  | .push l r => t.push l r
  | .settle => .ok t.settle
  | .advance => .ok t.advance
  | .backstep k => t.backstep k
  | .clear => .ok t.clear

/-- Performs the operations in order. -/
def performAll : List Operation → Trail → Except Fault Trail
  | [], t => .ok t
  | op :: ops, t =>
    match op.perform t with
    | .error e => .error e
    | .ok t => performAll ops t

/-- A literal may be pushed if it is in range and has no value. -/
def Admits (t : Trail) : Operation → Prop
  | .push l _ => l.var < t.values.size ∧ t.values.value? l.var = none
  | _ => True

/-- Each literal may be pushed when its turn comes. -/
def AdmitsAll : List Operation → Trail → Prop
  | [], _ => True
  | op :: ops, t => t.Admits op ∧ ∀ t', op.perform t = .ok t' → AdmitsAll ops t'

instance decidableAdmits (t : Trail) : DecidablePred t.Admits
  | .push l _ =>
    inferInstanceAs (Decidable (l.var < t.values.size ∧ t.values.value? l.var = none))
  | .newLevel => .isTrue trivial
  | .settle => .isTrue trivial
  | .advance => .isTrue trivial
  | .backstep _ => .isTrue trivial
  | .clear => .isTrue trivial

theorem admitsAll_of_error {op : Operation} {ops : List Operation} {e : Fault}
    (h : op.perform t = .error e) : AdmitsAll (op :: ops) t ↔ t.Admits op := by
  simp [AdmitsAll, h]

theorem admitsAll_of_ok {op : Operation} {ops : List Operation} (h : op.perform t = .ok t') :
    AdmitsAll (op :: ops) t ↔ t.Admits op ∧ AdmitsAll ops t' := by
  simp [AdmitsAll, h]

instance decidableAdmitsAll : (ops : List Operation) → (t : Trail) → Decidable (AdmitsAll ops t)
  | [], _ => .isTrue trivial
  | op :: ops, t =>
    match h : op.perform t with
    | .error _ => decidable_of_iff _ (admitsAll_of_error h).symm
    | .ok t' =>
      have := decidableAdmitsAll ops t'
      decidable_of_iff _ (admitsAll_of_ok h).symm

/-- An operation that may be performed is performed, and leaves the trail well formed. -/
theorem WellFormed.perform {op : Operation} (h : t.WellFormed n) (hop : t.Admits op) :
    ∃ t', op.perform t = .ok t' ∧ t'.WellFormed n := by
  cases op with
  | newLevel => exact ⟨_, rfl, h.newLevel⟩
  | push l r =>
      rcases hop with ⟨hlt, hnone⟩
      have hlt : l.var < n := by rwa [Assignment.size, h.values_size] at hlt
      have hfree : t.Free l.var := by
        rw [← h.literal?_eq_none, Assignment.literal?, hnone]
        rfl
      exact ⟨_, push_eq h.toRecorded hlt hfree, h.pushed hlt hfree⟩
  | settle => exact ⟨t.withHead t.steps.size, rfl, h.withHead⟩
  | advance => exact ⟨t.withHead (t.head + 1), rfl, h.withHead⟩
  | backstep k =>
      rcases backstep_spec h k with ⟨t', hok, ht', _⟩
      exact ⟨t', hok, ht'⟩
  | clear =>
      rw [Operation.perform, clear_eq h.toRecorded]
      exact ⟨_, rfl, wellFormed_empty n⟩

theorem WellFormed.performAll (ops : List Operation) : ∀ t : Trail, t.WellFormed n →
    AdmitsAll ops t → ∃ t', performAll ops t = .ok t' ∧ t'.WellFormed n := by
  induction ops with
  | nil =>
      intro t ht _
      exact ⟨t, rfl, ht⟩
  | cons op ops ih =>
      rintro t ht ⟨hop, hops⟩
      rcases ht.perform hop with ⟨t₁, hok, ht₁⟩
      rcases ih t₁ ht₁ (hops t₁ hok) with ⟨t', hok', ht'⟩
      exact ⟨t', by simp only [Trail.performAll, hok, hok'], ht'⟩

/-! ## Steps by variable -/

/-- The step that is about the variable. -/
def stepOf? (t : Trail) (v : Nat) : Option Step :=
  t.steps.find? (·.literal.var == v)

theorem Recorded.stepOf?_eq_some_iff (h : t.Recorded n) {v : Nat} :
    t.stepOf? v = some s ↔ s ∈ t.steps ∧ s.literal.var = v := by
  constructor
  · intro hs
    exact ⟨Array.mem_of_find?_eq_some hs, by simpa using Array.find?_some hs⟩
  · rintro ⟨hs, hv⟩
    cases hfound : t.stepOf? v with
    | none => exact absurd (by simpa using hv) (Array.find?_eq_none.1 hfound s hs)
    | some s' =>
        have hs' : s' ∈ t.steps := Array.mem_of_find?_eq_some hfound
        have hv' : s'.literal.var = v := by simpa using Array.find?_some hfound
        rw [h.step_unique hs' hs (hv'.trans hv.symm)]

/-- The values are those of the steps. -/
theorem Recorded.value?_eq (h : t.Recorded n) (v : Nat) :
    t.values.value? v = (t.stepOf? v).map (·.literal.positive) := by
  refine Option.ext fun b => ?_
  rw [h.value?_eq_some_iff, Option.map_eq_some_iff]
  simp only [h.stepOf?_eq_some_iff]
  constructor
  · rintro ⟨s, hs, hsl⟩
    exact ⟨s, ⟨hs, by rw [hsl]⟩, by rw [hsl]⟩
  · rintro ⟨s, ⟨hs, rfl⟩, rfl⟩
    exact ⟨s, hs, rfl⟩

/-- The origins are those of the steps. -/
theorem Recorded.origin_eq (h : t.Recorded n) {v : Nat} (hv : v < n) :
    t.origins[v]? = some ((t.stepOf? v).map fun s => ⟨s.level, s.reason⟩) := by
  cases hfound : t.stepOf? v with
  | none =>
      refine h.origins_of_free hv fun s hs => ?_
      simpa using Array.find?_eq_none.1 hfound s hs
  | some s =>
      rcases h.stepOf?_eq_some_iff.1 hfound with ⟨hs, hsv⟩
      exact (h.origin_iff v _).2 ⟨s, hs, hsv, rfl⟩

/-! ## Steps by level -/

/-- Where a level starts. Level zero starts in front, and a level above the current one behind the
last step. -/
def startOf (t : Trail) : Nat → Nat
  | 0 => 0
  | k + 1 => (t.levelStarts[k]?).getD t.steps.size

/-- The first step of a level, if the level has any. -/
def firstOf? (t : Trail) (k : Nat) : Option Step :=
  t.steps.find? (·.level == k)

/-- The first step of the level was chosen, and is not the other side of one that failed. -/
def StartsOpen (t : Trail) (k : Nat) : Prop :=
  ∃ s, t.firstOf? k = some s ∧ s.reason = .decision

namespace Levelled

/-- The steps of a level and below are those in front of where the next one starts. -/
theorem level_le_iff_lt_startOf (h : t.Levelled) {i : Nat} (hi : t.steps[i]? = some s) :
    s.level ≤ k ↔ i < t.startOf (k + 1) := by
  rw [startOf]
  cases hstart : t.levelStarts[k]? with
  | some start => exact h.level_le_iff k start hstart i s hi
  | none =>
      -- There is no next level, so all steps are of this one and below.
      have hle : t.level ≤ k := Array.getElem?_eq_none_iff.1 hstart
      have := h.le_level s (Array.mem_of_getElem? hi)
      have hlt := (Array.getElem?_eq_some_iff.1 hi).1
      exact iff_of_true (by omega) hlt

/-- The steps of a level are those from its start up to the start of the next one. -/
theorem level_eq_iff (h : t.Levelled) {i : Nat} (hi : t.steps[i]? = some s) :
    s.level = k ↔ t.startOf k ≤ i ∧ i < t.startOf (k + 1) := by
  rw [← h.level_le_iff_lt_startOf hi]
  cases k with
  | zero =>
      rw [startOf]
      omega
  | succ k =>
      have := h.level_le_iff_lt_startOf (k := k) hi
      omega

theorem pairwise_level (h : t.Levelled) : (t.steps.toList.map (·.level)).Pairwise (· ≤ ·) := by
  rw [List.pairwise_map, List.pairwise_iff_getElem]
  intro i j hi hj hij
  exact h.level_mono (i := i) (j := j) hij.le (by simp) (by simp)

/-- If a level has steps, the first one stands where the level starts. -/
theorem firstOf?_succ_eq_some_iff (h : t.Levelled) : t.firstOf? (k + 1) = some s ↔
    ∃ start, t.levelStarts[k]? = some start ∧ t.steps[start]? = some s ∧ s.level = k + 1 := by
  rw [firstOf?, Array.find?_eq_some_iff_getElem]
  simp only [beq_iff_eq, Bool.not_eq_true', beq_eq_false_iff_ne]
  constructor
  · rintro ⟨hlevel, i, hlt, hi, hbefore⟩
    have hget : t.steps[i]? = some s := by rw [Array.getElem?_eq_getElem hlt, hi]
    have hk : k < t.levelStarts.size := by
      have := h.le_level s (Array.mem_of_getElem? hget)
      rw [level] at this
      omega
    have hstart := Array.getElem?_eq_getElem hk
    have hle : t.levelStarts[k] ≤ i := by
      have := (h.level_le_iff k _ hstart i s hget).not
      omega
    refine ⟨_, hstart, ?_, hlevel⟩
    -- Nothing of the level stands between its start and its first step.
    rcases Nat.eq_or_lt_of_le hle with heq | hlt'
    · rw [heq, hget]
    · have hget' := Array.getElem?_eq_getElem (hlt'.trans hlt)
      have hle' := h.level_mono hle hget' hget
      have hnot := (h.level_le_iff k _ hstart _ _ hget').not
      exact absurd (by omega) (hbefore _ hlt')
  · rintro ⟨start, hstart, hs, hlevel⟩
    rcases Array.getElem?_eq_some_iff.1 hs with ⟨hlt, hget⟩
    refine ⟨hlevel, start, hlt, hget, ?_⟩
    intro j hj
    have := (h.level_le_iff k start hstart j _ (Array.getElem?_eq_getElem (hj.trans hlt))).2 hj
    omega

/-- A level above zero branches with its first step, whatever the reason of that is. -/
theorem branchAt?_succ (h : t.Levelled) (k : Nat) : t.branchAt? (k + 1) = t.firstOf? (k + 1) := by
  refine Option.ext fun s => ?_
  rw [h.firstOf?_succ_eq_some_iff, branchAt?]
  cases t.levelStarts[k]? with
  | none => simp
  | some start => simp [Option.filter_eq_some_iff]

theorem le_level_of_startsOpen (h : t.Levelled) (hk : t.StartsOpen k) : k ≤ t.level := by
  rcases hk with ⟨s, hs, _⟩
  have hlevel : s.level = k := by simpa using Array.find?_some hs
  exact hlevel ▸ h.le_level s (Array.mem_of_find?_eq_some hs)

theorem openBranchUpTo?_of_decision (h : t.Levelled) (hs : t.firstOf? (k + 1) = some s)
    (hr : s.reason = .decision) : t.openBranchUpTo? (k + 1) = some s := by
  rw [openBranchUpTo?, h.branchAt?_succ, hs]
  exact if_pos hr

/-- A level that does not start open is passed over. -/
theorem openBranchUpTo?_of_not_startsOpen (h : t.Levelled) (hk : ¬ t.StartsOpen (k + 1)) :
    t.openBranchUpTo? (k + 1) = t.openBranchUpTo? k := by
  rw [openBranchUpTo?, h.branchAt?_succ]
  cases hs : t.firstOf? (k + 1) with
  | none => rfl
  | some s => exact if_neg fun hr => hk ⟨s, hs, hr⟩

/-- The levels up to `k` are searched downwards for one that starts open. -/
theorem openBranchUpTo?_eq_some_iff (h : t.Levelled) (k : Nat) : t.openBranchUpTo? k = some s ↔
    IsGreatest {j | 0 < j ∧ j ≤ k ∧ t.StartsOpen j} s.level ∧ t.firstOf? s.level = some s := by
  -- By induction on the levels that are left; the highest of them is the answer or is passed over.
  induction k with
  | zero =>
      simp only [openBranchUpTo?, reduceCtorEq, false_iff]
      rintro ⟨⟨⟨hpos, hle, _⟩, _⟩, _⟩
      omega
  | succ k ih =>
      by_cases hopen : t.StartsOpen (k + 1)
      · rcases hopen with ⟨b, hb, hr⟩
        have hlevel : b.level = k + 1 := by simpa using Array.find?_some hb
        rw [h.openBranchUpTo?_of_decision hb hr, Option.some_inj]
        constructor
        · rintro rfl
          rw [hlevel]
          exact ⟨⟨⟨Nat.succ_pos k, le_rfl, b, hb, hr⟩, fun j hj => hj.2.1⟩, hb⟩
        · rintro ⟨⟨⟨_, hle, _⟩, hgreatest⟩, hs⟩
          have hge := hgreatest ⟨Nat.succ_pos k, le_rfl, b, hb, hr⟩
          rw [le_antisymm hle hge, hb] at hs
          exact Option.some.inj hs
      · have hsame : {j | 0 < j ∧ j ≤ k + 1 ∧ t.StartsOpen j} =
            {j | 0 < j ∧ j ≤ k ∧ t.StartsOpen j} := by
          ext j
          refine and_congr_right fun _ => and_congr_left fun hj => ?_
          have hne : j ≠ k + 1 := fun heq => hopen (heq ▸ hj)
          omega
        rw [h.openBranchUpTo?_of_not_startsOpen hopen, ih, hsame]

theorem openBranch?_eq_some_iff (h : t.Levelled) (m : Nat) : t.openBranch? m = some s ↔
    IsGreatest {j | 0 < j ∧ j ≤ m ∧ t.StartsOpen j} s.level ∧ t.firstOf? s.level = some s := by
  -- No level above the current one starts open.
  have hsame : {j | 0 < j ∧ j ≤ min m t.level ∧ t.StartsOpen j} =
      {j | 0 < j ∧ j ≤ m ∧ t.StartsOpen j} := by
    ext j
    refine and_congr_right fun _ => and_congr_left fun hj => ?_
    have := h.le_level_of_startsOpen hj
    omega
  rw [openBranch?, h.openBranchUpTo?_eq_some_iff, hsame]

end Levelled

/-! ## One story -/

/-- What the trail can be asked is an account of its steps. -/
structure Coherent (n : Nat) (t : Trail) : Prop where
  nodup : (t.steps.toList.map (·.literal.var)).Nodup
  var_lt : ∀ s ∈ t.steps, s.literal.var < n
  /-- A variable has the value of its step, and none without a step. -/
  value?_eq : ∀ v, t.values.value? v = (t.stepOf? v).map (·.literal.positive)
  /-- A variable has the level and the reason of its step, and none without a step. -/
  origin_eq : ∀ v < n, t.origins[v]? = some ((t.stepOf? v).map fun s => ⟨s.level, s.reason⟩)
  assigned_eq : t.values.assigned = t.steps.size
  pairwise_level : (t.steps.toList.map (·.level)).Pairwise (· ≤ ·)
  le_level : ∀ s ∈ t.steps, s.level ≤ t.level
  /-- The steps of a level are those from its start up to the start of the next one. -/
  level_eq_iff : ∀ (k i : Nat) (s : Step), t.steps[i]? = some s →
    (s.level = k ↔ t.startOf k ≤ i ∧ i < t.startOf (k + 1))
  /-- A level branches with its first step. Level zero has no branch. -/
  branchAt?_eq : ∀ k, t.branchAt? k = if k = 0 then none else t.firstOf? k
  /-- The open branch is that of the highest level above zero that starts open. -/
  openBranch?_eq_some_iff : ∀ m s, t.openBranch? m = some s ↔
    IsGreatest {k | 0 < k ∧ k ≤ m ∧ t.StartsOpen k} s.level ∧ t.firstOf? s.level = some s

theorem WellFormed.coherent (h : t.WellFormed n) : t.Coherent n where
  nodup := h.nodup
  var_lt := fun _ hs => h.var_lt hs
  value?_eq := h.value?_eq
  origin_eq := fun _ hv => h.origin_eq hv
  assigned_eq := h.assigned_eq
  pairwise_level := h.pairwise_level
  le_level := h.le_level
  level_eq_iff := fun _ _ _ hi => h.toLevelled.level_eq_iff hi
  branchAt?_eq := by
    intro k
    cases k with
    | zero => rfl
    | succ k => exact h.branchAt?_succ k
  openBranch?_eq_some_iff := fun m _ => h.toLevelled.openBranch?_eq_some_iff m

/-- Whatever is done to a trail, as long as only literals without a value are pushed, nothing fails
and all that the trail can be asked is an account of its steps. -/
theorem performAll_coherent (n : Nat) (ops : List Operation) (h : AdmitsAll ops (empty n)) :
    ∃ t, performAll ops (empty n) = .ok t ∧ t.Coherent n := by
  rcases (wellFormed_empty n).performAll ops _ h with ⟨t, hok, ht⟩
  exact ⟨t, hok, ht.coherent⟩

/-- The first of three levels is left empty, the third one is stepped back from and opened again.
Then everything is cleared, and other literals are pushed. -/
def Operation.sample : List Operation :=
  [.push ⟨0, true⟩ (.clause 4), .newLevel, .newLevel, .push ⟨1, false⟩ .decision, .newLevel,
    .push ⟨2, true⟩ .flipped, .backstep 2, .newLevel, .push ⟨2, false⟩ (.clause 1), .clear,
    .push ⟨1, true⟩ (.clause 0), .newLevel, .push ⟨0, false⟩ .decision]

/-- Of what was assigned before everything was cleared, nothing is left in the tables. -/
theorem performAll_coherent_sample :
    AdmitsAll Operation.sample (empty 3) ∧
    ∃ t, performAll Operation.sample (empty 3) = .ok t ∧ t.Coherent 3 ∧
      t.steps = #[⟨⟨1, true⟩, 0, .clause 0⟩, ⟨⟨0, false⟩, 1, .decision⟩] ∧
      t.values = ⟨#[some false, some true, none], 2⟩ ∧
      t.origins = #[some ⟨1, .decision⟩, some ⟨0, .clause 0⟩, none] := by
  have hadmits : AdmitsAll Operation.sample (empty 3) := by decide +kernel
  refine ⟨hadmits, ?_⟩
  rcases performAll_coherent 3 _ hadmits with ⟨t, hok, ht⟩
  cases hok
  exact ⟨_, rfl, ht, rfl, rfl, rfl⟩

/-- Level zero has no branch, even if it starts with a step that was chosen. -/
theorem startsOpen_zero_without_branch :
    AdmitsAll [.push ⟨0, true⟩ .decision] (empty 1) ∧
    ∃ t, performAll [.push ⟨0, true⟩ .decision] (empty 1) = .ok t ∧
      t.firstOf? 0 = some ⟨⟨0, true⟩, 0, .decision⟩ ∧ t.branchAt? 0 = none ∧
      IsGreatest {k | k ≤ 0 ∧ t.StartsOpen k} 0 ∧ t.openBranch? 0 = none := by
  refine ⟨by decide +kernel, _, rfl, rfl, rfl, ⟨⟨le_rfl, _, rfl, rfl⟩, fun k hk => hk.1⟩, rfl⟩

end Trail
end SatSearch
