import Mathlib.Tactic.Common
import SatSearch.Assignment

/-!
# Assignment — the count is right after any writing

Values may be given and taken away in any order, to a variable that has one already or has none, and
all of them may be taken away at once. As long as only variables are written that there are, nothing
is refused and the running count is that of the variables with a value. So an assignment is complete
exactly if no variable is free.
-/

namespace SatSearch
namespace Assignment

variable {n v : Nat} {a a' : Assignment} {old : Option Bool}

/-! ## Clearing -/

theorem clear_eq (a : Assignment) : a.clear = empty a.size := by
  rcases a with ⟨values, assigned⟩
  rw [clear, List.map_const', Array.length_toList, List.toArray_replicate]
  rfl

theorem clear_clear (a : Assignment) : a.clear.clear = a.clear := by
  simp only [clear_eq, empty, size, Array.size_replicate]

/-! ## Writing -/

/-- What is written to an assignment. -/
inductive Write
  | assign (l : Literal)
  | unassign (v : Nat)
  /-- Every value is taken away. -/
  | clear
  deriving DecidableEq, Repr

def Write.perform (a : Assignment) : Write → Option Assignment
  | .assign l => a.assign? l
  | .unassign v => a.unassign? v
  | .clear => some a.clear

/-- Writes in order. -/
def writeAll : List Write → Assignment → Option Assignment
  | [], a => some a
  | w :: ws, a =>
    match w.perform a with
    | none => none
    | some a => writeAll ws a

/-- What is written concerns one of `n` variables, or all of them. -/
def Write.InRange (n : Nat) : Write → Prop
  | .assign l => l.var < n
  | .unassign v => v < n
  | .clear => True

instance (n : Nat) : DecidablePred (Write.InRange n)
  | .assign l => inferInstanceAs (Decidable (l.var < n))
  | .unassign v => inferInstanceAs (Decidable (v < n))
  | .clear => inferInstanceAs (Decidable True)

/-! ## Counting -/

/-- The variable has no value. -/
def Free (a : Assignment) (v : Nat) : Prop :=
  a.values[v]? = some none

/-- The running count is that of the variables with a value. -/
structure Counted (n : Nat) (a : Assignment) : Prop where
  size_eq : a.values.size = n
  assigned_eq : a.assigned = a.values.countP Option.isSome

theorem counted_empty (n : Nat) : (empty n).Counted n where
  size_eq := Array.size_replicate
  assigned_eq := by simp [empty, Array.countP_replicate]

/-- Overwriting a value changes the count by what is lost and what is gained. -/
theorem countP_setIfInBounds {values : Array (Option Bool)} (h : values[v]? = some old)
    (new : Option Bool) :
    (values.setIfInBounds v new).countP Option.isSome + (if old.isSome then 1 else 0) =
      values.countP Option.isSome + (if new.isSome then 1 else 0) := by
  rcases Array.getElem?_eq_some_iff.1 h with ⟨hv, rfl⟩
  have hle := Array.boole_getElem_le_countP (p := Option.isSome) hv
  rw [Array.setIfInBounds, dif_pos hv, Array.countP_set hv]
  omega

namespace Counted

theorem getElem?_eq (h : a.Counted n) (hv : v < n) : ∃ old, a.values[v]? = some old :=
  ⟨_, Array.getElem?_eq_getElem (by rw [h.size_eq]; exact hv)⟩

/-- A variable that has a value already is not counted again. -/
theorem assign? {l : Literal} (h : a.Counted n) (hl : l.var < n) :
    ∃ a', a.assign? l = some a' ∧ a'.Counted n := by
  rcases h.getElem?_eq hl with ⟨old, hold⟩
  rcases a with ⟨values, assigned⟩
  have hassigned := h.assigned_eq
  have hcount := countP_setIfInBounds hold (some l.positive)
  dsimp only at hold hassigned hcount
  refine ⟨_, by simp only [Assignment.assign?, hold]; rfl, by simpa using h.size_eq, ?_⟩
  cases old with
  | none =>
      simp only [Option.isSome_none, Option.isSome_some, Bool.false_eq_true, if_false, if_true]
        at hcount
      show assigned + 1 = (values.setIfInBounds l.var (some l.positive)).countP Option.isSome
      omega
  | some b =>
      simp only [Option.isSome_some, if_true] at hcount
      show assigned = (values.setIfInBounds l.var (some l.positive)).countP Option.isSome
      omega

/-- A variable with a value has been counted, so the count can be taken back. -/
theorem unassign? (h : a.Counted n) (hv : v < n) :
    ∃ a', a.unassign? v = some a' ∧ a'.Counted n := by
  rcases h.getElem?_eq hv with ⟨old, hold⟩
  rcases a with ⟨values, assigned⟩
  have hassigned := h.assigned_eq
  have hcount := countP_setIfInBounds hold none
  dsimp only at hold hassigned hcount
  cases old with
  | none => exact ⟨_, by simp only [Assignment.unassign?, hold], h⟩
  | some b =>
      simp only [Option.isSome_none, Option.isSome_some, Bool.false_eq_true, if_false, if_true]
        at hcount
      -- The count is not zero, since it counts `v`.
      cases assigned with
      | zero => omega
      | succ count =>
          refine ⟨_, by simp only [Assignment.unassign?, hold]; rfl, by simpa using h.size_eq, ?_⟩
          show count = (values.setIfInBounds v none).countP Option.isSome
          omega

theorem perform {w : Write} (h : a.Counted n) (hw : w.InRange n) :
    ∃ a', w.perform a = some a' ∧ a'.Counted n := by
  cases w with
  | assign l => exact h.assign? hw
  | unassign v => exact h.unassign? hw
  | clear =>
      refine ⟨_, rfl, ?_⟩
      rw [clear_eq, size, h.size_eq]
      exact counted_empty n

theorem writeAll (ws : List Write) : ∀ a : Assignment, a.Counted n → (∀ w ∈ ws, w.InRange n) →
    ∃ a', writeAll ws a = some a' ∧ a'.Counted n := by
  induction ws with
  | nil =>
      intro a h _
      exact ⟨a, rfl, h⟩
  | cons w ws ih =>
      intro a h hws
      rcases h.perform (hws w List.mem_cons_self) with ⟨a₁, hok, h₁⟩
      rcases ih a₁ h₁ fun w' hw' => hws w' (List.mem_cons_of_mem w hw') with ⟨a', hok', h'⟩
      exact ⟨a', by simp only [Assignment.writeAll, hok, hok'], h'⟩

/-- An assignment is complete if no variable is free. -/
theorem isComplete_iff (h : a.Counted n) : a.isComplete = true ↔ ∀ v, ¬ a.Free v := by
  rw [isComplete, beq_iff_eq, h.assigned_eq, size, Array.countP_eq_size]
  constructor
  · intro hall v hfree
    have := hall none (Array.mem_of_getElem? hfree)
    cases this
  · intro hfree x hx
    rcases Array.mem_iff_getElem?.1 hx with ⟨v, hv⟩
    cases x with
    | none => exact absurd hv (hfree v)
    | some b => rfl

end Counted
end Assignment
end SatSearch
