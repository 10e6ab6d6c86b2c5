import Mathlib.Data.List.Nodup
import Mathlib.Data.Finset.Card
import SatSearch.Proofs.Assignment
import SatSearch.Proofs.Valuation
import SatSearch.Trail

/-!
# WellFormed — trails whose tables and level starts agree with their steps

The steps of a trail say everything: which literals are true, at which level and why. `Recorded`
says that the tables of values and origins say the same, and `Levelled` that levels start where
`levelStarts` says. Both are kept by every operation, and no operation fails on a trail that has
them: pushing a literal whose variable is free appends one step, and stepping back to a level keeps
exactly the steps of that level and below, at their positions.
-/

namespace SatSearch
namespace Trail

variable {n k : Nat} {t t' : Trail} {l : Literal} {s s' : Step}

/-! ## What the steps say -/

/-- The trail makes the literal true. -/
def Assigns (t : Trail) (l : Literal) : Prop :=
  ∃ s ∈ t.steps, s.literal = l

/-- No step is about the variable. -/
def Free (t : Trail) (v : Nat) : Prop :=
  ∀ s ∈ t.steps, s.literal.var ≠ v

/-- The variables that the steps are about. -/
def assigned (t : Trail) : Finset Nat :=
  (t.steps.toList.map (·.literal.var)).toFinset

theorem mem_assigned {v : Nat} : v ∈ t.assigned ↔ ¬ t.Free v := by
  simp [assigned, Free]

/-- The tables of values and origins say what the steps say. -/
structure Recorded (n : Nat) (t : Trail) : Prop where
  values_size : t.values.values.size = n
  origins_size : t.origins.size = n
  nodup : (t.steps.toList.map (·.literal.var)).Nodup
  value_iff : ∀ (v : Nat) (b : Bool), t.values.values[v]? = some (some b) ↔ t.Assigns ⟨v, b⟩
  origin_iff : ∀ (v : Nat) (o : Origin), t.origins[v]? = some (some o) ↔
    ∃ s ∈ t.steps, s.literal.var = v ∧ o = ⟨s.level, s.reason⟩
  assigned_eq : t.values.assigned = t.steps.size

/-- Level `k + 1` starts at position `levelStarts[k]`. -/
structure Levelled (t : Trail) : Prop where
  le_level : ∀ s ∈ t.steps, s.level ≤ t.level
  start_le : ∀ (k start : Nat), t.levelStarts[k]? = some start → start ≤ t.steps.size
  level_le_iff : ∀ (k start : Nat), t.levelStarts[k]? = some start →
    ∀ (i : Nat) (s : Step), t.steps[i]? = some s → (s.level ≤ k ↔ i < start)

structure WellFormed (n : Nat) (t : Trail) : Prop extends Recorded n t, Levelled t

theorem assigns_or_assigns_negate (h : s ∈ t.steps) (hv : s.literal.var = l.var) :
    t.Assigns l ∨ t.Assigns l.negate := by
  rcases Literal.eq_or_eq_negate hv with hs | hs
  · exact .inl ⟨s, h, hs⟩
  · exact .inr ⟨s, h, hs⟩

theorem free_iff : t.Free l.var ↔ ¬ t.Assigns l ∧ ¬ t.Assigns l.negate := by
  constructor
  · intro h
    constructor
    · rintro ⟨s, hs, rfl⟩
      exact h s hs rfl
    · rintro ⟨s, hs, hl⟩
      exact h s hs (by simp [hl])
  · rintro ⟨hl, hn⟩ s hs hv
    rcases assigns_or_assigns_negate hs hv with h | h
    · exact hl h
    · exact hn h

/-- A table of as many entries with the same values is the same table. -/
theorem eq_of_entries {α : Type} {a b : Array (Option α)} (hsize : a.size = b.size)
    (h : ∀ (v : Nat) (x : α), a[v]? = some (some x) ↔ b[v]? = some (some x)) : a = b := by
  refine Array.ext hsize fun v hv hv' => Option.ext fun x => ?_
  simpa [hv, hv'] using h v x

namespace Recorded

theorem var_lt (h : t.Recorded n) (hs : s ∈ t.steps) : s.literal.var < n := by
  have hvalue := (h.value_iff s.literal.var s.literal.positive).2 ⟨s, hs, rfl⟩
  have := (Array.getElem?_eq_some_iff.1 hvalue).1
  rwa [h.values_size] at this

/-- A variable has one step at most. -/
theorem step_unique (h : t.Recorded n) (hs : s ∈ t.steps) (hs' : s' ∈ t.steps)
    (hv : s.literal.var = s'.literal.var) : s = s' :=
  List.inj_on_of_nodup_map h.nodup (by simpa using hs) (by simpa using hs') hv

theorem position_unique (h : t.Recorded n) {i j : Nat} (hi : t.steps[i]? = some s)
    (hj : t.steps[j]? = some s') (hv : s.literal.var = s'.literal.var) : i = j := by
  have hi' : (t.steps.toList.map (·.literal.var))[i]? = some s.literal.var := by
    simp [hi]
  have hj' : (t.steps.toList.map (·.literal.var))[j]? = some s.literal.var := by
    simp [hj, hv]
  have hlt : i < (t.steps.toList.map (·.literal.var)).length :=
    (List.getElem?_eq_some_iff.1 hi').1
  exact (List.getElem?_inj hlt h.nodup).1 (hi'.trans hj'.symm)

theorem not_assigns_negate (h : t.Recorded n) (hl : t.Assigns l) : ¬ t.Assigns l.negate := by
  rintro ⟨s', hs', hs'l⟩
  rcases hl with ⟨s, hs, rfl⟩
  have heq : s = s' := h.step_unique hs hs' (by simp [hs'l])
  subst heq
  exact Literal.negate_ne _ hs'l.symm

theorem value?_eq_some_iff (h : t.Recorded n) {v : Nat} {b : Bool} :
    t.values.value? v = some b ↔ t.Assigns ⟨v, b⟩ := by
  rw [← h.value_iff, Assignment.value?, Option.join_eq_some_iff]

theorem literal?_eq_true (h : t.Recorded n) :
    t.values.literal? l = some true ↔ t.Assigns l := by
  constructor
  · intro hl
    rcases Option.map_eq_some_iff.1 hl with ⟨b, hb, heq⟩
    obtain rfl : b = l.positive := by simpa using heq
    exact h.value?_eq_some_iff.1 hb
  · intro hl
    have hvalue : t.values.value? l.var = some l.positive := h.value?_eq_some_iff.2 hl
    simp [Assignment.literal?, hvalue]

theorem literal?_eq_false (h : t.Recorded n) :
    t.values.literal? l = some false ↔ t.Assigns l.negate := by
  constructor
  · intro hl
    rcases Option.map_eq_some_iff.1 hl with ⟨b, hb, heq⟩
    have hbl : b = !l.positive := by
      cases b <;> cases hp : l.positive <;> simp_all
    subst hbl
    exact h.value?_eq_some_iff.1 hb
  · intro hl
    have hvalue : t.values.value? l.var = some (!l.positive) := h.value?_eq_some_iff.2 hl
    simp [Assignment.literal?, hvalue]

theorem literal?_eq_none (h : t.Recorded n) :
    t.values.literal? l = none ↔ t.Free l.var := by
  rw [free_iff, ← h.literal?_eq_true, ← h.literal?_eq_false]
  cases t.values.literal? l with
  | none => simp
  | some b => cases b <;> simp

theorem free_var_iff (h : t.Recorded n) {v : Nat} (hv : v < n) :
    t.Free v ↔ t.values.values[v]? = some none := by
  have hlt : v < t.values.values.size := by rwa [h.values_size]
  constructor
  · intro hfree
    -- A value in the table would come from a step.
    cases hval : t.values.values[v] with
    | none => simp [Array.getElem?_eq_getElem hlt, hval]
    | some b =>
        have : t.values.values[v]? = some (some b) := by
          simp [Array.getElem?_eq_getElem hlt, hval]
        rcases (h.value_iff v b).1 this with ⟨s, hs, hsl⟩
        exact absurd (by simp [hsl]) (hfree s hs)
  · rintro hnone s hs rfl
    have := (h.value_iff s.literal.var s.literal.positive).2 ⟨s, hs, rfl⟩
    rw [hnone] at this
    cases this

theorem origins_of_free (h : t.Recorded n) {v : Nat} (hv : v < n) (hfree : t.Free v) :
    t.origins[v]? = some none := by
  have hlt : v < t.origins.size := by rwa [h.origins_size]
  cases horigin : t.origins[v] with
  | none => simp [Array.getElem?_eq_getElem hlt, horigin]
  | some o =>
      have : t.origins[v]? = some (some o) := by
        simp [Array.getElem?_eq_getElem hlt, horigin]
      rcases (h.origin_iff v o).1 this with ⟨s, hs, hsv, _⟩
      exact absurd hsv (hfree s hs)

theorem levelOf_step (h : t.Recorded n) (hs : s ∈ t.steps) :
    t.levelOf s.literal.var = .ok s.level := by
  have := (h.origin_iff s.literal.var ⟨s.level, s.reason⟩).2 ⟨s, hs, rfl, rfl⟩
  simp [levelOf, this]

/-- A false literal is of the level of the step that made it false. -/
theorem levelOf_negate (h : t.Recorded n) (hs : s ∈ t.steps) (hsl : s.literal = l.negate) :
    t.levelOf l.var = .ok s.level := by
  have hlevel := h.levelOf_step hs
  rwa [hsl, Literal.negate_var] at hlevel

theorem levelOf_free (h : t.Recorded n) {v : Nat} (hv : v < n) (hfree : t.Free v) :
    t.levelOf v = .ok 0 := by
  simp [levelOf, h.origins_of_free hv hfree]

theorem card_assigned (h : t.Recorded n) : t.assigned.card = t.steps.size := by
  rw [assigned, List.toFinset_card_of_nodup h.nodup]
  simp

theorem assigned_subset (h : t.Recorded n) : t.assigned ⊆ Finset.range n := by
  intro v hv
  obtain ⟨s, hs, rfl⟩ : ∃ s ∈ t.steps, s.literal.var = v := by simpa [assigned] using hv
  exact Finset.mem_range.2 (h.var_lt hs)

theorem size_le (h : t.Recorded n) : t.steps.size ≤ n := by
  calc t.steps.size = t.assigned.card := h.card_assigned.symm
    _ ≤ (Finset.range n).card := Finset.card_le_card h.assigned_subset
    _ = n := Finset.card_range n

/-- The count has reached the number of variables exactly if no variable is free. -/
theorem isComplete_iff (h : t.Recorded n) :
    t.values.isComplete = true ↔ ∀ v < n, ¬ t.Free v := by
  have hsize : t.values.size = n := h.values_size
  rw [Assignment.isComplete, hsize, h.assigned_eq, beq_iff_eq, ← h.card_assigned]
  constructor
  · intro hfull v hv
    -- As many variables as there are can only be all of them.
    have heq := Finset.eq_of_subset_of_card_le h.assigned_subset (by simp [hfull])
    exact mem_assigned.1 (heq ▸ Finset.mem_range.2 hv)
  · intro hall
    have heq : t.assigned = Finset.range n := by
      refine Finset.Subset.antisymm h.assigned_subset ?_
      intro v hv
      exact mem_assigned.2 (hall v (Finset.mem_range.1 hv))
    rw [heq, Finset.card_range]

/-- Trails of as many steps that make the same literals true have the same values. -/
theorem values_eq (h : t.Recorded n) (h' : t'.Recorded n) (hsize : t.steps.size = t'.steps.size)
    (hassigns : ∀ a, t.Assigns a ↔ t'.Assigns a) : t.values = t'.values := by
  have hvalues : t.values.values = t'.values.values := by
    refine eq_of_entries (h.values_size.trans h'.values_size.symm) fun v b => ?_
    rw [h.value_iff, h'.value_iff, hassigns]
  have hassigned : t.values.assigned = t'.values.assigned := by
    rw [h.assigned_eq, h'.assigned_eq, hsize]
  exact congrArg₂ Assignment.mk hvalues hassigned

/-- The steps determine both tables. -/
theorem tables_eq (h : t.Recorded n) (h' : t'.Recorded n) (hsteps : t.steps = t'.steps) :
    t.values = t'.values ∧ t.origins = t'.origins := by
  constructor
  · exact h.values_eq h' (congrArg Array.size hsteps) fun a => by rw [Assigns, Assigns, hsteps]
  · refine eq_of_entries (h.origins_size.trans h'.origins_size.symm) fun v o => ?_
    rw [h.origin_iff, h'.origin_iff, hsteps]

end Recorded

namespace Levelled

/-- Levels never decrease along the trail. -/
theorem level_mono (h : t.Levelled) {i j : Nat} (hij : i ≤ j) (hi : t.steps[i]? = some s)
    (hj : t.steps[j]? = some s') : s.level ≤ s'.level := by
  have hs' := h.le_level s' (Array.mem_of_getElem? hj)
  by_cases hlt : s'.level < t.level
  · obtain ⟨start, hstart⟩ : ∃ start, t.levelStarts[s'.level]? = some start :=
      ⟨_, Array.getElem?_eq_getElem hlt⟩
    have hj' := (h.level_le_iff _ _ hstart j s' hj).1 le_rfl
    exact (h.level_le_iff _ _ hstart i s hi).2 (by omega)
  · have hs := h.le_level s (Array.mem_of_getElem? hi)
    omega

end Levelled

/-! ## The empty trail -/

theorem wellFormed_empty (n : Nat) : (empty n).WellFormed n where
  values_size := by simp [empty, Assignment.empty]
  origins_size := by simp [empty]
  nodup := by simp [empty]
  value_iff := by
    intro v b
    simp [empty, Assignment.empty, Assigns, Array.getElem?_replicate]
  origin_iff := by
    intro v o
    simp [empty, Array.getElem?_replicate]
  assigned_eq := by simp [empty, Assignment.empty]
  le_level := by simp [empty]
  start_le := by simp [empty]
  level_le_iff := by simp [empty]

/-! ## Clearing -/

@[simp] theorem size_forget (steps : List Step) : ∀ origins : Array (Option Origin),
    (forget steps origins).size = origins.size := by
  induction steps with
  | nil =>
      intro origins
      rfl
  | cons s steps ih =>
      intro origins
      rw [forget, ih, Array.size_setIfInBounds]

/-- Only variables that no step is about keep their origins. -/
theorem getElem?_forget {v : Nat} {o : Origin} (steps : List Step) :
    ∀ origins : Array (Option Origin), (forget steps origins)[v]? = some (some o) →
      origins[v]? = some (some o) ∧ ∀ s ∈ steps, s.literal.var ≠ v := by
  induction steps with
  | nil =>
      intro origins h
      exact ⟨h, by simp⟩
  | cons s steps ih =>
      intro origins h
      rcases ih _ h with ⟨ho, hsteps⟩
      rw [Array.getElem?_setIfInBounds] at ho
      split at ho
      · split at ho <;> cases ho
      · rename_i hne
        exact ⟨ho, List.forall_mem_cons.2 ⟨hne, hsteps⟩⟩

/-- Where the steps are all that the table says, no origin is left. -/
theorem Recorded.forget_origins (h : t.Recorded n) :
    forget t.steps.toList t.origins = Array.replicate n none := by
  refine eq_of_entries (by rw [size_forget, h.origins_size, Array.size_replicate]) fun v o => ?_
  constructor
  · intro ho
    rcases getElem?_forget _ _ ho with ⟨hbefore, hsteps⟩
    rcases (h.origin_iff v o).1 hbefore with ⟨s, hs, hv, _⟩
    exact absurd hv (hsteps s (Array.mem_toList_iff.2 hs))
  · intro ho
    rw [Array.getElem?_replicate] at ho
    split at ho <;> cases ho

/-- Taking every step back leaves the empty trail: nothing is in the tables that the steps do not
account for. -/
theorem clear_eq (h : t.Recorded n) : t.clear = empty n := by
  have horigins := h.forget_origins
  have hvalues := Assignment.clear_eq t.values
  rw [Assignment.size, h.values_size] at hvalues
  rcases t with ⟨steps, levelStarts, origins, values, head⟩
  rw [clear, horigins, hvalues, empty]

/-! ## Pushing -/

/-- The trail with the literal made true at the current level. -/
def pushed (t : Trail) (l : Literal) (r : Reason) : Trail :=
  ⟨t.steps.push ⟨l, t.level, r⟩, t.levelStarts,
    t.origins.setIfInBounds l.var (some ⟨t.level, r⟩),
    ⟨t.values.values.setIfInBounds l.var (some l.positive), t.values.assigned + 1⟩, t.head⟩

section Pushed

variable {r : Reason}

@[simp] theorem steps_pushed : (t.pushed l r).steps = t.steps.push ⟨l, t.level, r⟩ := rfl

@[simp] theorem levelStarts_pushed : (t.pushed l r).levelStarts = t.levelStarts := rfl

@[simp] theorem level_pushed : (t.pushed l r).level = t.level := rfl

@[simp] theorem head_pushed : (t.pushed l r).head = t.head := rfl

theorem mem_pushed : s ∈ (t.pushed l r).steps ↔ s ∈ t.steps ∨ s = ⟨l, t.level, r⟩ := by
  simp

theorem getElem?_pushed {i : Nat} : (t.pushed l r).steps[i]? = some s ↔
    t.steps[i]? = some s ∨ i = t.steps.size ∧ s = ⟨l, t.level, r⟩ := by
  rw [steps_pushed, Array.getElem?_push]
  split
  · rename_i hi
    subst hi
    simp [eq_comm]
  · rename_i hi
    simp [hi]

theorem assigns_pushed {a : Literal} : (t.pushed l r).Assigns a ↔ t.Assigns a ∨ a = l := by
  simp only [Assigns, mem_pushed]
  constructor
  · rintro ⟨s, hs | rfl, rfl⟩
    · exact .inl ⟨s, hs, rfl⟩
    · exact .inr rfl
  · rintro (⟨s, hs, rfl⟩ | rfl)
    · exact ⟨s, .inl hs, rfl⟩
    · exact ⟨_, .inr rfl, rfl⟩

theorem push_eq (h : t.Recorded n) (hl : l.var < n) (hfree : t.Free l.var) :
    t.push l r = .ok (t.pushed l r) := by
  have horigin := h.origins_of_free hl hfree
  have hvalue := (h.free_var_iff hl).1 hfree
  rcases t with ⟨steps, levelStarts, origins, ⟨values, assigned⟩, head⟩
  dsimp only at horigin hvalue
  simp only [push, horigin, Assignment.assign?, hvalue]
  rfl

/-- Only a free literal in range can be pushed. -/
theorem push_eq_ok {t' : Trail} (h : t.Recorded n) (hpush : t.push l r = .ok t') :
    l.var < n ∧ t.Free l.var ∧ t' = t.pushed l r := by
  have horigin : t.origins[l.var]? = some none := by
    rcases t with ⟨steps, levelStarts, origins, values, head⟩
    simp only [push] at hpush
    split at hpush
    · assumption
    · cases hpush
  have hl : l.var < n := by
    rw [← h.origins_size]
    exact (Array.getElem?_eq_some_iff.1 horigin).1
  have hfree : t.Free l.var := by
    intro s hs hsl
    have := (h.origin_iff l.var ⟨s.level, s.reason⟩).2 ⟨s, hs, hsl, rfl⟩
    rw [horigin] at this
    cases this
  rw [push_eq h hl hfree] at hpush
  exact ⟨hl, hfree, (Except.ok.inj hpush).symm⟩

theorem Recorded.pushed (h : t.Recorded n) (hl : l.var < n) (hfree : t.Free l.var) :
    (t.pushed l r).Recorded n where
  values_size := by simpa [Trail.pushed] using h.values_size
  origins_size := by simpa [Trail.pushed] using h.origins_size
  nodup := by
    have hnot : l.var ∉ t.steps.toList.map (·.literal.var) := by
      simpa [Free] using hfree
    simpa [List.nodup_append, h.nodup] using fun s hs => hfree s hs
  value_iff := by
    intro v b
    have hsize := h.values_size
    rw [assigns_pushed, ← h.value_iff]
    have hnone := (h.free_var_iff hl).1 hfree
    rcases l with ⟨w, p⟩
    simp only [Trail.pushed, Array.getElem?_setIfInBounds, Literal.mk.injEq]
    -- The table changes for the variable that is pushed, and for no other.
    by_cases hv : w = v
    · subst hv
      have hl' : w < t.values.values.size := hsize ▸ hl
      simp only [if_true, hl', hnone]
      constructor
      · intro hp
        exact .inr ⟨trivial, by simpa [eq_comm] using hp⟩
      · rintro (hp | ⟨_, rfl⟩)
        · cases hp
        · rfl
    · simp [hv, Ne.symm hv]
  origin_iff := by
    intro v o
    have hsize := h.origins_size
    have hnone := h.origins_of_free hl hfree
    simp only [mem_pushed]
    simp only [Trail.pushed, Array.getElem?_setIfInBounds]
    by_cases hv : l.var = v
    · subst hv
      simp only [hsize, hl, if_true]
      constructor
      · intro ho
        exact ⟨_, .inr rfl, rfl, by simpa [eq_comm] using ho⟩
      · rintro ⟨s, hs | rfl, hsv, rfl⟩
        · exact absurd hsv (hfree s hs)
        · rfl
    · simp only [hv, if_false]
      rw [h.origin_iff]
      constructor
      · rintro ⟨s, hs, rest⟩
        exact ⟨s, .inl hs, rest⟩
      · rintro ⟨s, hs | rfl, hsv, ho⟩
        · exact ⟨s, hs, hsv, ho⟩
        · exact absurd hsv hv
  assigned_eq := by
    simpa [Trail.pushed] using h.assigned_eq

theorem Levelled.pushed (h : t.Levelled) : (t.pushed l r).Levelled where
  le_level := by
    intro s hs
    rcases mem_pushed.1 hs with hs | rfl
    · exact h.le_level s hs
    · exact le_rfl
  start_le := by
    intro k start hk
    have := h.start_le k start hk
    simp only [steps_pushed, Array.size_push]
    omega
  level_le_iff := by
    intro k start hk i s hi
    rcases getElem?_pushed.1 hi with hi | ⟨rfl, rfl⟩
    · exact h.level_le_iff k start hk i s hi
    · have hstart := h.start_le k start hk
      have hlt : k < t.level := (Array.getElem?_eq_some_iff.1 hk).1
      constructor
      · intro hle
        exact absurd hle (by simpa using hlt)
      · intro hlt'
        omega

theorem WellFormed.pushed (h : t.WellFormed n) (hl : l.var < n) (hfree : t.Free l.var) :
    (t.pushed l r).WellFormed n :=
  ⟨h.toRecorded.pushed hl hfree, h.toLevelled.pushed⟩

end Pushed

/-! ## Opening a level, moving the head -/

@[simp] theorem steps_newLevel : t.newLevel.steps = t.steps := rfl

@[simp] theorem level_newLevel : t.newLevel.level = t.level + 1 := by
  simp [newLevel, level]

@[simp] theorem levelStarts_newLevel : t.newLevel.levelStarts = t.levelStarts.push t.steps.size :=
  rfl

theorem Recorded.newLevel (h : t.Recorded n) : t.newLevel.Recorded n :=
  ⟨h.values_size, h.origins_size, h.nodup, h.value_iff, h.origin_iff, h.assigned_eq⟩

theorem Levelled.newLevel (h : t.Levelled) : t.newLevel.Levelled where
  le_level := by
    intro s hs
    have := h.le_level s hs
    simp only [level_newLevel]
    omega
  start_le := by
    intro k start hk
    rw [levelStarts_newLevel, Array.getElem?_push] at hk
    split at hk
    · cases hk
      exact le_rfl
    · exact h.start_le k start hk
  level_le_iff := by
    intro k start hk i s hi
    rw [levelStarts_newLevel, Array.getElem?_push] at hk
    split at hk
    · rename_i hlevel
      cases hk
      have hle := h.le_level s (Array.mem_of_getElem? hi)
      have hlt := (Array.getElem?_eq_some_iff.1 hi).1
      simp only [steps_newLevel] at hlt
      exact iff_of_true (by rw [hlevel]; exact hle) hlt
    · exact h.level_le_iff k start hk i s hi

theorem WellFormed.newLevel (h : t.WellFormed n) : t.newLevel.WellFormed n :=
  ⟨h.toRecorded.newLevel, h.toLevelled.newLevel⟩

/-- The trail with another head. -/
def withHead (t : Trail) (head : Nat) : Trail :=
  { t with head }

theorem Recorded.withHead (h : t.Recorded n) {head : Nat} : (t.withHead head).Recorded n :=
  ⟨h.values_size, h.origins_size, h.nodup, h.value_iff, h.origin_iff, h.assigned_eq⟩

theorem WellFormed.withHead (h : t.WellFormed n) {head : Nat} : (t.withHead head).WellFormed n :=
  ⟨h.toRecorded.withHead, h.le_level, h.start_le, h.level_le_iff⟩

/-! ## Stepping back -/

/-- What remains of a trail that is stepped back to level `k`. -/
structure SteppedBack (k : Nat) (t t' : Trail) : Prop where
  level_eq : t'.level = min k t.level
  getElem?_iff : ∀ (i : Nat) (s : Step), t'.steps[i]? = some s ↔ t.steps[i]? = some s ∧ s.level ≤ k
  starts_eq : ∀ j : Nat, j < k → t'.levelStarts[j]? = t.levelStarts[j]?
  head_eq : t.head ≤ t.steps.size → t'.head = min t.head t'.steps.size

theorem SteppedBack.mem_iff (h : SteppedBack k t t') :
    s ∈ t'.steps ↔ s ∈ t.steps ∧ s.level ≤ k := by
  simp only [Array.mem_iff_getElem?, h.getElem?_iff]
  constructor
  · rintro ⟨i, hi, hk⟩
    exact ⟨⟨i, hi⟩, hk⟩
  · rintro ⟨⟨i, hi⟩, hk⟩
    exact ⟨i, hi, hk⟩

/-- The trail without its last step. -/
def popped (t : Trail) (s : Step) : Trail :=
  ⟨t.steps.pop, t.levelStarts, t.origins.setIfInBounds s.literal.var none,
    ⟨t.values.values.setIfInBounds s.literal.var none, t.values.assigned - 1⟩, t.head⟩

theorem mem_popped (h : t.Recorded n) (hs : t.steps.back? = some s) :
    s' ∈ (t.popped s).steps ↔ s' ∈ t.steps ∧ s'.literal.var ≠ s.literal.var := by
  rcases Array.back?_eq_some_iff.1 hs with ⟨init, hinit⟩
  have hnodup : (init.toList.map (·.literal.var) ++ [s.literal.var]).Nodup := by
    simpa [hinit] using h.nodup
  have hnew : ∀ s' ∈ init, s'.literal.var ≠ s.literal.var := by
    have := (List.nodup_append.1 hnodup).2.2
    simpa using this
  simp only [popped, hinit, Array.pop_push, Array.mem_push]
  constructor
  · intro hs'
    exact ⟨.inl hs', hnew s' hs'⟩
  · rintro ⟨hs' | rfl, hne⟩
    · exact hs'
    · exact absurd rfl hne

theorem Recorded.popped (h : t.Recorded n) (hs : t.steps.back? = some s) :
    (t.popped s).Recorded n where
  values_size := by simpa [Trail.popped] using h.values_size
  origins_size := by simpa [Trail.popped] using h.origins_size
  nodup := by
    refine h.nodup.sublist ?_
    refine List.Sublist.map _ ?_
    simpa [Trail.popped, Array.toList_pop] using List.dropLast_sublist _
  value_iff := by
    intro v b
    have hvalue := h.value_iff v b
    simp only [Assigns, mem_popped h hs] at hvalue ⊢
    simp only [Trail.popped, Array.getElem?_setIfInBounds]
    -- The table changes for the variable that is popped, and for no other.
    by_cases hv : s.literal.var = v
    · rw [if_pos hv]
      constructor
      · split <;> simp
      · rintro ⟨s', ⟨_, hne⟩, hl⟩
        exact absurd (by simp [hl, hv]) hne
    · rw [if_neg hv, hvalue]
      constructor
      · rintro ⟨s', hs', hl⟩
        exact ⟨s', ⟨hs', by simpa [hl] using Ne.symm hv⟩, hl⟩
      · rintro ⟨s', ⟨hs', _⟩, hl⟩
        exact ⟨s', hs', hl⟩
  origin_iff := by
    intro v o
    have horigin := h.origin_iff v o
    simp only [mem_popped h hs]
    simp only [Trail.popped, Array.getElem?_setIfInBounds]
    by_cases hv : s.literal.var = v
    · rw [if_pos hv]
      constructor
      · split <;> simp
      · rintro ⟨s', ⟨_, hne⟩, hv', _⟩
        exact absurd (by simp [hv', hv]) hne
    · rw [if_neg hv, horigin]
      constructor
      · rintro ⟨s', hs', rfl, ho⟩
        exact ⟨s', ⟨hs', Ne.symm hv⟩, rfl, ho⟩
      · rintro ⟨s', ⟨hs', _⟩, rest⟩
        exact ⟨s', hs', rest⟩
  assigned_eq := by
    simp [Trail.popped, h.assigned_eq]

theorem unwind_succ (h : t.Recorded n) (hs : t.steps.back? = some s) (count : Nat) :
    t.unwind (count + 1) = (t.popped s).unwind count := by
  have hmem : s ∈ t.steps := Array.mem_of_back? hs
  have hvalue := (h.value_iff s.literal.var s.literal.positive).2 ⟨s, hmem, rfl⟩
  have hpos : 0 < t.values.assigned := by
    rw [h.assigned_eq]
    exact Array.size_pos_of_mem hmem
  rcases t with ⟨steps, levelStarts, origins, ⟨values, assigned⟩, head⟩
  dsimp only at hs hvalue hpos
  obtain ⟨count', rfl⟩ : ∃ c, assigned = c + 1 := ⟨assigned - 1, by omega⟩
  simp only [unwind, hs, Assignment.unassign?, hvalue]
  rfl

/-- Unwinding cuts the last steps off and leaves level starts and head as they are. -/
theorem unwind_spec (count : Nat) : ∀ t : Trail, t.Recorded n → count ≤ t.steps.size →
    ∃ t', t.unwind count = .ok t' ∧ t'.Recorded n ∧
      t'.steps = t.steps.take (t.steps.size - count) ∧ t'.levelStarts = t.levelStarts ∧
      t'.head = t.head := by
  induction count with
  | zero =>
      intro t h _
      exact ⟨t, rfl, h, by simp, rfl, rfl⟩
  | succ count ih =>
      intro t h hcount
      obtain ⟨s, hs⟩ : ∃ s, t.steps.back? = some s :=
        ⟨_, Array.back?_eq_getElem? ▸ Array.getElem?_eq_getElem (by omega)⟩
      have hsize : (t.popped s).steps.size = t.steps.size - 1 := by
        simp [popped]
      rcases ih (t.popped s) (h.popped hs) (by omega) with ⟨t', ht', hrec, hsteps, hstarts, hhead⟩
      -- Cutting one step off and then the rest cuts all of them off.
      refine ⟨t', (unwind_succ h hs count).trans ht', hrec, ?_, hstarts, hhead⟩
      rw [hsteps, hsize]
      have hcut : t.steps.size - 1 - count = t.steps.size - (count + 1) := by omega
      rw [hcut]
      ext i hi hi'
      · simp [popped]
        omega
      · simp [popped]

/-! ### Cutting off levels -/

section Cut

variable {k start : Nat}

/-- The steps up to a level are those in front of where the next one starts. -/
theorem Levelled.getElem?_take (h : t.Levelled) (hstart : t.levelStarts[k]? = some start) (i : Nat)
    (s : Step) : (t.steps.take start)[i]? = some s ↔ t.steps[i]? = some s ∧ s.level ≤ k := by
  rw [Array.take_eq_extract, Array.getElem?_extract]
  simp only [Nat.zero_add]
  have hle := h.start_le k start hstart
  constructor
  · intro hi
    split at hi
    · exact ⟨hi, (h.level_le_iff k start hstart i s hi).2 (by omega)⟩
    · cases hi
  · rintro ⟨hi, hlevel⟩
    have hlt := (h.level_le_iff k start hstart i s hi).1 hlevel
    rw [if_pos (by omega)]
    exact hi

theorem getElem?_take_levelStarts {j : Nat} (hk : k < t.level) (hj : j < k) :
    (t.levelStarts.take k)[j]? = t.levelStarts[j]? := by
  rw [Array.take_eq_extract, Array.getElem?_extract, if_pos (by simp [level] at hk; omega)]
  simp

/-- A later level does not start before an earlier one. -/
theorem Levelled.start_mono {j start' : Nat} (h : t.Levelled)
    (hj : t.levelStarts[j]? = some start') (hk : t.levelStarts[k]? = some start) (hjk : j ≤ k) :
    start' ≤ start := by
  by_contra hlt
  have hs : start < t.steps.size := by
    have := h.start_le j start' hj
    omega
  have hi := Array.getElem?_eq_getElem hs
  have hlow := (h.level_le_iff j start' hj start _ hi).2 (by omega)
  have := (h.level_le_iff k start hk start _ hi).1 (by omega)
  exact absurd this (lt_irrefl start)

/-- The levels that are left when the higher ones are cut off. -/
theorem Levelled.cut {u : Trail} (h : t.Levelled) (hstart : t.levelStarts[k]? = some start)
    (hsteps : u.steps = t.steps.take start) (hstarts : u.levelStarts = t.levelStarts.take k) :
    u.Levelled := by
  have hk : k < t.level := (Array.getElem?_eq_some_iff.1 hstart).1
  have hle := h.start_le k start hstart
  have hget : ∀ (i : Nat) (s : Step),
      u.steps[i]? = some s ↔ t.steps[i]? = some s ∧ s.level ≤ k := by
    intro i s
    rw [hsteps, h.getElem?_take hstart]
  -- Levels that are left start where they did.
  have hold : ∀ {j start' : Nat}, u.levelStarts[j]? = some start' →
      j < k ∧ t.levelStarts[j]? = some start' := by
    intro j start' hj
    have hjk : j < k := by
      have := (Array.getElem?_eq_some_iff.1 hj).1
      simp only [hstarts, Array.take_eq_extract, Array.size_extract] at this
      omega
    rw [hstarts, getElem?_take_levelStarts hk hjk] at hj
    exact ⟨hjk, hj⟩
  refine ⟨?_, ?_, ?_⟩
  · intro s hs
    rcases Array.mem_iff_getElem?.1 hs with ⟨i, hi⟩
    have := ((hget i s).1 hi).2
    simp only [level] at hk ⊢
    simp [hstarts]
    omega
  · intro j start' hj
    rcases hold hj with ⟨hjk, hj⟩
    have := h.start_mono hj hstart hjk.le
    simp [hsteps]
    omega
  · intro j start' hj i s hi
    exact h.level_le_iff j start' (hold hj).2 i s ((hget i s).1 hi).1

end Cut

/-- Stepping back keeps the steps up to the level, where they are. -/
theorem backstep_spec (h : t.WellFormed n) (k : Nat) :
    ∃ t', t.backstep k = .ok t' ∧ t'.WellFormed n ∧ SteppedBack k t t' := by
  unfold backstep
  cases hstart : t.levelStarts[k]? with
  | none =>
      -- There is no higher level to step back from.
      have hle : t.level ≤ k := Array.getElem?_eq_none_iff.1 hstart
      refine ⟨t, rfl, h, ?_, ?_, ?_, ?_⟩
      · omega
      · intro i s
        constructor
        · intro hi
          exact ⟨hi, (h.le_level s (Array.mem_of_getElem? hi)).trans hle⟩
        · exact And.left
      · intro j _
        rfl
      · intro hhead
        omega
  | some start =>
      have hk : k < t.level := (Array.getElem?_eq_some_iff.1 hstart).1
      have hle := h.start_le k start hstart
      rcases unwind_spec (t.steps.size - start) t h.toRecorded (by omega) with
        ⟨u, hu, hrec, hsteps, hstarts, hhead⟩
      have hcut : t.steps.size - (t.steps.size - start) = start := by omega
      rw [hcut] at hsteps
      have hsize : u.steps.size = start := by
        rw [hsteps]
        simp
        omega
      have hlevelled : Levelled ⟨u.steps, u.levelStarts.take k, u.origins, u.values,
          min u.head start⟩ :=
        h.cut hstart hsteps (congrArg (·.take k) hstarts)
      refine ⟨⟨u.steps, u.levelStarts.take k, u.origins, u.values, min u.head start⟩,
        by simp only [hu], ⟨⟨hrec.values_size, hrec.origins_size, hrec.nodup, hrec.value_iff,
          hrec.origin_iff, hrec.assigned_eq⟩, hlevelled⟩, ?_, ?_, ?_, ?_⟩
      · simp [level, hstarts]
      · intro i s
        rw [← h.getElem?_take hstart, hsteps]
      · intro j hj
        simp only [hstarts]
        exact getElem?_take_levelStarts hk hj
      · intro _
        simp only [hhead, hsize]

end Trail
end SatSearch
