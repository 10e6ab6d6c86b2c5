import Mathlib.Order.Bounds.Defs
import SatSearch.Proofs.Assignment
import SatSearch.Proofs.Branching
import SatSearch.Proofs.Branching.Score

/-!
# Choice — no free variable is ever missed

Rewards and ageing can make the scores of a selector anything: infinite, or not a number. Writing
can give and take values in any order. Whatever the two have come to, a selector finds nothing only
if the assignment is complete, and else it finds the lowest of its best free variables. In fixed
order all of them are as good. By activity the best ones have scores that no other exceeds.
-/

namespace SatSearch

open Assignment (Write writeAll)

/-! ## Updates -/

namespace Selector

/-- What a search tells a selector. -/
inductive Update
  | reward (vs : List Nat)
  | decay
  deriving DecidableEq, Repr

/-- Only variables that there are get rewards. -/
def Update.InRange (n : Nat) : Update → Prop
  | .reward vs => ∀ v ∈ vs, v < n
  | .decay => True

instance (n : Nat) : DecidablePred (Update.InRange n)
  | .reward vs => inferInstanceAs (Decidable (∀ v ∈ vs, v < n))
  | .decay => inferInstanceAs (Decidable True)

variable {σ : Type} [Selector σ] {n : Nat} {P : σ → Prop}

def Update.perform (s : σ) : Update → Except Fault σ
  | .reward vs => Selector.reward s vs
  | .decay => .ok (Selector.decay s)

/-- Updates in order. -/
def updateAll : List Update → σ → Except Fault σ
  | [], s => .ok s
  | u :: us, s =>
    match u.perform s with
    | .error e => .error e
    | .ok s => updateAll us s

theorem Lawful.perform (h : Lawful n P) {u : Update} {s : σ} (hs : P s) (hu : u.InRange n) :
    ∃ s', u.perform s = .ok s' ∧ P s' := by
  cases u with
  | reward vs => exact h.reward s hs vs hu
  | decay => exact ⟨_, rfl, h.decay s hs⟩

theorem Lawful.updateAll (h : Lawful n P) (us : List Update) : ∀ s : σ, P s →
    (∀ u ∈ us, u.InRange n) → ∃ s', updateAll us s = .ok s' ∧ P s' := by
  induction us with
  | nil =>
      intro s hs _
      exact ⟨s, rfl, hs⟩
  | cons u us ih =>
      intro s hs hus
      rcases h.perform hs (hus u List.mem_cons_self) with ⟨s₁, hok, hs₁⟩
      rcases ih s₁ hs₁ fun u' hu' => hus u' (List.mem_cons_of_mem u hu') with ⟨s', hok', hs'⟩
      exact ⟨s', by simp only [Selector.updateAll, hok, hok'], hs'⟩

/-! ## Picking -/

/-- The lowest of the best variables is picked, unless the assignment is complete. -/
structure PicksLeast (s : σ) (a : Assignment) (best : Set Nat) : Prop where
  none_iff : Selector.pick s a = .ok none ↔ a.isComplete = true
  isLeast : a.isComplete = false → ∃ v, Selector.pick s a = .ok (some v) ∧ IsLeast best v

/-- It is enough to look at the result, if that tells whether there are free variables. -/
theorem PicksLeast.of_pick {s : σ} {a : Assignment} {best : Set Nat} {found : Option Nat}
    (ha : a.Counted n) (hok : Selector.pick s a = .ok found)
    (hnone : found = none → ∀ v, ¬ a.Free v)
    (hsome : ∀ v, found = some v → a.Free v ∧ IsLeast best v) : PicksLeast s a best := by
  cases found with
  | none =>
      have hfull := ha.isComplete_iff.2 (hnone rfl)
      exact ⟨iff_of_true hok hfull, fun h => by rw [hfull] at h; cases h⟩
  | some v =>
      rcases hsome v rfl with ⟨hfree, hleast⟩
      have hopen : a.isComplete ≠ true := fun hfull => ha.isComplete_iff.1 hfull v hfree
      refine ⟨iff_of_false ?_ hopen, fun _ => ⟨v, hok, hleast⟩⟩
      rw [hok]
      simp

end Selector

open Selector

variable {n : Nat} {a : Assignment}

namespace FixedOrder

/-- Of the free variables none is better than another. -/
theorem picksLeast (ha : a.Counted n) : PicksLeast (⟨n⟩ : FixedOrder) a {v | a.Free v} := by
  rcases pick_first ha.size_eq with ⟨found, hok, hfirst⟩
  refine .of_pick ha hok ?_ ?_
  · rintro rfl v
    exact hfirst v (Nat.zero_le v)
  · rintro v rfl
    refine ⟨hfirst.1, hfirst.1, fun w hw => ?_⟩
    by_contra hlt
    exact hfirst.2 w (Nat.zero_le w) (Nat.not_le.1 hlt) hw

/-- In fixed order nothing is learned, whichever variables are rewarded. -/
theorem updateAll_eq (us : List Update) (s : FixedOrder) : updateAll us s = .ok s := by
  induction us with
  | nil => rfl
  | cons u us ih => cases u <;> exact ih

end FixedOrder

namespace Activity

/-- A free variable whose score no free variable exceeds. -/
structure Top (s : Activity) (a : Assignment) (v : Nat) : Prop where
  free : a.Free v
  greatest : ∃ y, s.scores[v]? = some y ∧
    ∀ w, a.Free w → ∃ x, s.scores[w]? = some x ∧ Score.AtMost x y

theorem picksLeast {s : Activity} (ha : a.Counted n) (hs : s.scores.size = n) :
    PicksLeast s a {v | s.Top a v} := by
  rcases pick_found (hs.trans ha.size_eq.symm) with ⟨best, hok, hfound⟩
  have hscore : ∀ w, a.Free w → ∃ x, s.scores[w]? = some x := by
    intro w hw
    have hlt := (Array.getElem?_eq_some_iff.1 hw).1
    exact ⟨_, Array.getElem?_eq_getElem (by rw [hs, ← ha.size_eq]; exact hlt)⟩
  refine .of_pick ha hok ?_ ?_
  · intro hnone v hfree
    rw [Option.map_eq_none_iff.1 hnone] at hfound
    rcases hscore v hfree with ⟨x, hx⟩
    exact hfound v (by simpa using (Array.getElem?_eq_some_iff.1 hx).1) hfree
  · intro v hv
    rcases Option.map_eq_some_iff.1 hv with ⟨⟨_, top⟩, rfl, rfl⟩
    rcases hfound.key with ⟨y, hy, rfl⟩
    rw [Array.getElem?_toList] at hy
    refine ⟨hfound.free, ⟨hfound.free, y, hy, fun w hw => ?_⟩, fun w hw => ?_⟩
    · rcases hscore w hw with ⟨x, hx⟩
      refine ⟨x, hx, (Score.scoreKey_le_iff x y).1 (hfound.le w x hw ?_)⟩
      rwa [Array.getElem?_toList]
    · -- A variable before it has a score that is exceeded.
      by_contra hlt
      rcases hw.greatest with ⟨x, hx, hgreatest⟩
      rcases hgreatest _ hfound.free with ⟨y', hy', hle⟩
      obtain rfl : y = y' := Option.some.inj (hy.symm.trans hy')
      have hlt := hfound.lt w x hw.free (by rwa [Array.getElem?_toList]) (Nat.not_le.1 hlt)
      have := (Score.scoreKey_le_iff y x).2 hle
      omega

end Activity

/-- However a selector was updated and whatever was written, it misses no free variable. -/
theorem Selector.never_skips (n : Nat) (decay : Float) (updates : List Update)
    (writes : List Write) (hwrites : ∀ w ∈ writes, w.InRange n) :
    ∃ a, writeAll writes (.empty n) = some a ∧ (a.isComplete = true ↔ a.assigned = n) ∧
      (∃ s : FixedOrder, updateAll updates ⟨n⟩ = .ok s ∧ PicksLeast s a {v | a.Free v}) ∧
      ((∀ u ∈ updates, u.InRange n) → ∃ s : Activity,
        updateAll updates (.empty n decay) = .ok s ∧ PicksLeast s a {v | s.Top a v}) := by
  rcases (Assignment.counted_empty n).writeAll writes _ hwrites with ⟨a, hok, ha⟩
  refine ⟨a, hok, ?_, ⟨⟨n⟩, FixedOrder.updateAll_eq updates ⟨n⟩, FixedOrder.picksLeast ha⟩,
    fun hupdates => ?_⟩
  · rw [Assignment.isComplete, beq_iff_eq, Assignment.size, ha.size_eq]
  · have hempty : (Activity.empty n decay).scores.size = n := Array.size_replicate
    rcases (Activity.lawful n).updateAll updates _ hempty hupdates with ⟨s, hok', hs⟩
    exact ⟨s, hok', Activity.picksLeast ha hs⟩

/-! ## A run whose scores are not numbers -/

/-- With a decay that is not a number, neither are the increment and the scores it is added to. -/
def strained : List Update :=
  [.reward [1], .decay, .reward [2], .decay]

/-- Values given and taken away again, some of them twice. -/
def rewritten : List Write :=
  [.assign ⟨1, true⟩, .clear, .unassign 0, .assign ⟨0, true⟩, .assign ⟨2, true⟩,
    .assign ⟨0, false⟩, .unassign 2, .unassign 2]

/-- One of three variables has a value. The score of the last one is not a number, and above 1. -/
theorem Selector.never_skips_strained :
    (∀ w ∈ rewritten, w.InRange 3) ∧ (∀ u ∈ strained, u.InRange 3) ∧
      ∃ a, writeAll rewritten (.empty 3) = some a ∧ a.assigned = 1 ∧
        IsLeast {v | a.Free v} 1 ∧
        ∃ s : Activity, updateAll strained (.empty 3 (0.0 / 0.0)) = .ok s ∧
          Selector.pick s a = .ok (some 2) ∧ IsLeast {v | s.Top a v} 2 := by
  have hwrites : ∀ w ∈ rewritten, w.InRange 3 := by decide
  have hupdates : ∀ u ∈ strained, u.InRange 3 := by decide
  rcases Selector.never_skips 3 (0.0 / 0.0) strained rewritten hwrites with
    ⟨a, hok, _, ⟨s, hs, hordered⟩, hactive⟩
  rcases hactive hupdates with ⟨s', hs', hactive⟩
  have hvalues : writeAll rewritten (.empty 3) = some ⟨#[some false, none, none], 1⟩ := by decide
  obtain rfl : (⟨#[some false, none, none], 1⟩ : Assignment) = a :=
    Option.some.inj (hvalues.symm.trans hok)
  rcases hordered.isLeast rfl with ⟨v, hv, hleast⟩
  rcases hactive.isLeast rfl with ⟨v', hv', hleast'⟩
  have hfirst : FixedOrder.pick ⟨3⟩ ⟨#[some false, none, none], 1⟩ = .ok (some 1) := by decide
  have hlast : (match updateAll strained (Activity.empty 3 (0.0 / 0.0)) with
      | .ok s => Activity.pick s ⟨#[some false, none, none], 1⟩
      | .error e => .error e) = .ok (some 2) := by decide +kernel
  rw [FixedOrder.updateAll_eq] at hs
  -- What is picked is known from the run, and that it is the least of the best from the theorem.
  rw [hs'] at hlast
  cases hs
  cases hfirst.symm.trans hv
  cases hlast.symm.trans hv'
  exact ⟨hwrites, hupdates, _, hok, rfl, hleast, s', hs', hv', hleast'⟩

end SatSearch
