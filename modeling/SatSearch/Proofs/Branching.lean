import Mathlib.Tactic.Common
import SatSearch.Branching.Branching

/-!
# Branching — selectors that never miss a variable

A selector is lawful for `n` variables, in states that it does not leave, if it picks a variable
without a value as long as there is one and can be rewarded for all variables. Both selectors are,
when they are built for `n` variables. The one in fixed order picks the lowest variable. The one by
activity picks the first of those whose score has the greatest key, which is the lowest one as long
as nothing was rewarded.
-/

namespace SatSearch

/-- What a search relies on a selector for. -/
structure Selector.Lawful {σ : Type} [Selector σ] (n : Nat) (P : σ → Prop) : Prop where
  pick : ∀ s, P s → ∀ a : Assignment, a.values.size = n → (∃ v : Nat, a.values[v]? = some none) →
    ∃ v, Selector.pick s a = .ok (some v) ∧ a.values[v]? = some none
  reward : ∀ s, P s → ∀ vs : List Nat, (∀ v ∈ vs, v < n) →
    ∃ s', Selector.reward s vs = .ok s' ∧ P s'
  decay : ∀ s, P s → P (Selector.decay s)

namespace FixedOrder

variable {n : Nat} {a : Assignment}

/-- The first variable without a value from `start` on, or that there is none. -/
def First (a : Assignment) (start : Nat) : Option Nat → Prop
  | none => ∀ w, start ≤ w → a.values[w]? ≠ some none
  | some v => a.values[v]? = some none ∧ ∀ w, start ≤ w → w < v → a.values[w]? ≠ some none

/-- A variable with a value is passed over. -/
theorem First.pass {found : Option Nat} {start : Nat} (h : First a (start + 1) found)
    (hval : a.values[start]? ≠ some none) : First a start found := by
  have hpass : ∀ w, start ≤ w → start + 1 ≤ w ∨ a.values[w]? ≠ some none := by
    intro w hw
    rcases Nat.eq_or_lt_of_le hw with rfl | hlt
    · exact .inr hval
    · exact .inl hlt
  cases found with
  | none => exact fun w hw => (hpass w hw).elim (h w) id
  | some v => exact ⟨h.1, fun w hw hlt => (hpass w hw).elim (fun hw => h.2 w hw hlt) id⟩

/-- Of a stretch of variables the first one without a value is found. -/
theorem firstFree_spec (ha : a.values.size = n) (count : Nat) : ∀ start : Nat,
    start + count = n → ∃ found, firstFree a (List.range' start count) = .ok found ∧
      First a start found := by
  -- By induction on the variables that are left; the first of them is free or is passed over.
  induction count with
  | zero =>
      intro start hstart
      refine ⟨none, rfl, fun w hw hfree => ?_⟩
      have := (Array.getElem?_eq_some_iff.1 hfree).1
      omega
  | succ count ih =>
      intro start hstart
      have hget := Array.getElem?_eq_getElem (show start < a.values.size by omega)
      rw [List.range'_succ]
      unfold firstFree
      cases hval : a.values[start] with
      | none =>
          rw [hval] at hget
          exact ⟨some start, by simp only [hget], hget, fun w hw hlt => by omega⟩
      | some b =>
          rw [hval] at hget
          rcases ih (start + 1) (by omega) with ⟨found, hok, hfirst⟩
          exact ⟨found, by simp only [hget]; exact hok, hfirst.pass (by simp [hget])⟩

/-- The lowest variable without a value is picked, if there is one. -/
theorem pick_first (ha : a.values.size = n) :
    ∃ found, pick ⟨n⟩ a = .ok found ∧ First a 0 found := by
  rw [pick, List.range_eq_range']
  exact firstFree_spec ha n 0 (Nat.zero_add n)

theorem pick_spec (ha : a.values.size = n) (hfree : ∃ v : Nat, a.values[v]? = some none) :
    ∃ v, pick ⟨n⟩ a = .ok (some v) ∧ a.values[v]? = some none ∧
      ∀ w < v, a.values[w]? ≠ some none := by
  rcases hfree with ⟨v, hv⟩
  rcases pick_first ha with ⟨_ | u, hok, hfirst⟩
  · exact absurd hv (hfirst v (Nat.zero_le v))
  · exact ⟨u, hok, hfirst.1, fun w => hfirst.2 w (Nat.zero_le w)⟩

/-- A selector in fixed order does not change. -/
theorem lawful (n : Nat) : Selector.Lawful n (fun s : FixedOrder => s = ⟨n⟩) where
  pick := by
    rintro _ rfl a ha hfree
    rcases pick_spec ha hfree with ⟨v, hok, hv, _⟩
    exact ⟨v, hok, hv⟩
  reward := fun s hs _ _ => ⟨s, rfl, hs⟩
  decay := fun _ hs => hs

end FixedOrder

namespace Activity

variable {n : Nat} {a : Assignment}

/-- Of the variables without a value whose scores are listed, `v` is the best: none has a greater
key than `v`, and none before it has one as great. -/
structure Leads (a : Assignment) (scores : List Float) (v : Nat) (top : Int) : Prop where
  free : a.values[v]? = some none
  key : ∃ x, scores[v]? = some x ∧ scoreKey x = top
  le : ∀ (w : Nat) (x : Float), a.values[w]? = some none → scores[w]? = some x → scoreKey x ≤ top
  lt : ∀ (w : Nat) (x : Float), a.values[w]? = some none → scores[w]? = some x → w < v →
    scoreKey x < top

/-- The best variable of those whose scores are listed, or that all of them have values. -/
def Found (a : Assignment) (scores : List Float) : Option (Nat × Int) → Prop
  | none => ∀ w < scores.length, a.values[w]? ≠ some none
  | some (v, top) => Leads a scores v top

section Scan

variable {scores : List Float} {v w : Nat} {x y : Float} {top : Int}

theorem getElem?_concat_eq_some :
    (scores ++ [x])[w]? = some y ↔ scores[w]? = some y ∨ w = scores.length ∧ x = y := by
  rcases Nat.lt_trichotomy w scores.length with hlt | rfl | hgt
  · rw [List.getElem?_append_left hlt]
    exact (or_iff_left fun h => Nat.ne_of_lt hlt h.1).symm
  · simp
  · have hlength : (scores ++ [x]).length ≤ w := by
      rw [List.length_append]
      exact hgt
    rw [List.getElem?_eq_none hlength, List.getElem?_eq_none (Nat.le_of_lt hgt)]
    simp [Nat.ne_of_gt hgt]

/-- A variable with a value is passed over. -/
theorem Found.pass {best : Option (Nat × Int)} (h : Found a scores best)
    (hval : a.values[scores.length]? ≠ some none) : Found a (scores ++ [x]) best := by
  have hold : ∀ (w : Nat) (y : Float), a.values[w]? = some none →
      (scores ++ [x])[w]? = some y → scores[w]? = some y := by
    intro w y hfree hw
    rcases getElem?_concat_eq_some.1 hw with hw | ⟨rfl, _⟩
    · exact hw
    · exact absurd hfree hval
  cases best with
  | none =>
      intro w hw hfree
      rw [List.length_append, List.length_singleton] at hw
      rcases Nat.lt_succ_iff_lt_or_eq.1 hw with hw | rfl
      · exact h w hw hfree
      · exact hval hfree
  | some best =>
      rcases h.key with ⟨y, hy, hkey⟩
      exact ⟨h.free, ⟨y, getElem?_concat_eq_some.2 (.inl hy), hkey⟩,
        fun w y hfree hw => h.le w y hfree (hold w y hfree hw),
        fun w y hfree hw => h.lt w y hfree (hold w y hfree hw)⟩

/-- The first variable without a value is the best one, and so is a later one with a greater key. -/
theorem leads_concat (hfree : a.values[scores.length]? = some none)
    (hlt : ∀ (w : Nat) (y : Float), a.values[w]? = some none → scores[w]? = some y →
      scoreKey y < scoreKey x) :
    Leads a (scores ++ [x]) scores.length (scoreKey x) where
  free := hfree
  key := ⟨x, getElem?_concat_eq_some.2 (.inr ⟨rfl, rfl⟩), rfl⟩
  le := by
    intro w y hw hy
    rcases getElem?_concat_eq_some.1 hy with hy | ⟨_, rfl⟩
    · exact Int.le_of_lt (hlt w y hw hy)
    · exact Int.le_refl _
  lt := by
    intro w y hw hy hltv
    rcases getElem?_concat_eq_some.1 hy with hy | ⟨rfl, _⟩
    · exact hlt w y hw hy
    · exact absurd hltv (Nat.lt_irrefl _)

/-- A later variable with the same key or a lower one changes nothing. -/
theorem Leads.stays (h : Leads a scores v top) (hle : scoreKey x ≤ top) :
    Leads a (scores ++ [x]) v top where
  free := h.free
  key := h.key.imp fun _ hy => ⟨getElem?_concat_eq_some.2 (.inl hy.1), hy.2⟩
  le := by
    intro w y hw hy
    rcases getElem?_concat_eq_some.1 hy with hy | ⟨_, rfl⟩
    · exact h.le w y hw hy
    · exact hle
  lt := by
    intro w y hw hy hlt
    rcases getElem?_concat_eq_some.1 hy with hy | ⟨rfl, _⟩
    · exact h.lt w y hw hy hlt
    · rcases h.key with ⟨z, hz, _⟩
      have := (List.getElem?_eq_some_iff.1 hz).1
      omega

end Scan

/-- The scan ends with the best variable of all, whichever scores are numbers. -/
theorem bestFrom_spec (scores : List Float) : ∀ (done : List Float) (best : Option (Nat × Int)),
    done.length + scores.length = a.values.size → Found a done best →
    ∃ best', bestFrom a best done.length scores = .ok (best'.map Prod.fst) ∧
      Found a (done ++ scores) best' := by
  induction scores with
  | nil =>
      intro done best _ hbest
      exact ⟨best, rfl, by rwa [List.append_nil]⟩
  | cons score scores ih =>
      intro done best hsize hbest
      -- The invariant moves from what was scanned to one variable more, whose score is `score`.
      rw [List.length_cons] at hsize
      have hget := Array.getElem?_eq_getElem (show done.length < a.values.size by omega)
      have hnext := ih (done ++ [score])
      simp only [List.length_append, List.length_singleton, List.append_assoc,
        List.singleton_append] at hnext
      unfold bestFrom
      cases hval : a.values[done.length] with
      | some b =>
          rw [hval] at hget
          simp only [hget]
          exact hnext best (by omega) (hbest.pass (by simp [hget]))
      | none =>
          rw [hval] at hget
          simp only [hget]
          cases best with
          | none =>
              refine hnext _ (by omega) (leads_concat hget fun w y hw hy => ?_)
              exact absurd hw (hbest w (List.getElem?_eq_some_iff.1 hy).1)
          | some best =>
              refine hnext _ (by omega) ?_
              split
              case isTrue hlt =>
                exact leads_concat hget fun w y hw hy => Int.lt_of_le_of_lt (hbest.le w y hw hy) hlt
              case isFalse hge => exact hbest.stays (Int.not_lt.1 hge)

theorem pick_found {s : Activity} (hs : s.scores.size = a.values.size) :
    ∃ best, s.pick a = .ok (best.map Prod.fst) ∧ Found a s.scores.toList best :=
  bestFrom_spec s.scores.toList [] none (by simpa using hs) fun w hw => by cases hw

/-- Among equal scores the first variable without a value stays the best one. -/
theorem bestFrom_replicate (x : Float) (count : Nat) : ∀ start : Nat,
    start + count = a.values.size →
    (∀ w, bestFrom a (some (w, scoreKey x)) start (List.replicate count x) = .ok (some w)) ∧
      bestFrom a none start (List.replicate count x) =
        FixedOrder.firstFree a (List.range' start count) := by
  induction count with
  | zero => exact fun start _ => ⟨fun w => rfl, rfl⟩
  | succ count ih =>
      intro start hstart
      rcases ih (start + 1) (by omega) with ⟨hbest, hnone⟩
      have hget := Array.getElem?_eq_getElem (show start < a.values.size by omega)
      rw [List.replicate_succ, List.range'_succ]
      unfold bestFrom FixedOrder.firstFree
      cases hval : a.values[start] with
      | some b =>
          rw [hval] at hget
          simp only [hget]
          exact ⟨hbest, hnone⟩
      | none =>
          rw [hval] at hget
          simp only [hget, Int.lt_irrefl, if_false]
          exact ⟨hbest, hbest start⟩

/-- Before the first reward the lowest variable is picked. -/
theorem pick_empty (decay : Float) (ha : a.values.size = n) :
    (empty n decay).pick a = FixedOrder.pick ⟨n⟩ a := by
  have heq := (bestFrom_replicate (a := a) 0.0 n 0 (by omega)).2
  simpa only [pick, empty, Array.toList_replicate, FixedOrder.pick, List.range_eq_range'] using heq

theorem bump_spec {s : Activity} {v : Nat} (hv : v < s.scores.size) :
    ∃ s', s.bump v = .ok s' ∧ s'.scores.size = s.scores.size := by
  rcases s with ⟨scores, decay, increment⟩
  have hget := Array.getElem?_eq_getElem hv
  dsimp only at hget
  simp only [bump, hget]
  split
  · exact ⟨_, rfl, by simp [rescale]⟩
  · exact ⟨_, rfl, by simp⟩

theorem reward_spec (vs : List Nat) : ∀ s : Activity, (∀ v ∈ vs, v < s.scores.size) →
    ∃ s', s.reward vs = .ok s' ∧ s'.scores.size = s.scores.size := by
  induction vs with
  | nil =>
      intro s _
      exact ⟨s, rfl, rfl⟩
  | cons v vs ih =>
      intro s hvs
      rcases bump_spec (hvs v List.mem_cons_self) with ⟨s₁, hs₁, hsize₁⟩
      rcases ih s₁ fun w hw => hsize₁ ▸ hvs w (List.mem_cons_of_mem v hw) with ⟨s', hs', hsize⟩
      exact ⟨s', by simp only [reward, hs₁, hs'], hsize.trans hsize₁⟩

theorem size_age (s : Activity) : s.age.scores.size = s.scores.size := by
  rcases s with ⟨scores, decay, increment⟩
  simp only [age]
  split
  · simp [rescale]
  · rfl

/-- Rewards and ageing change scores, never how many of them there are. -/
theorem lawful (n : Nat) : Selector.Lawful n (fun s : Activity => s.scores.size = n) where
  pick := by
    rintro s hs a ha ⟨v, hv⟩
    rcases pick_found (hs.trans ha.symm) with ⟨_ | ⟨u, top⟩, hok, hfound⟩
    · have hlt := (Array.getElem?_eq_some_iff.1 hv).1
      exact absurd hv (hfound v (by simpa [hs, ha] using hlt))
    · exact ⟨u, hok, hfound.free⟩
  reward := by
    rintro s rfl vs hvs
    exact reward_spec vs s hvs
  decay := fun s hs => (size_age s).trans hs

end Activity

namespace Branching

variable {n : Nat}

/-- Built for `n` variables, and used since. -/
def Suits (n : Nat) : Branching → Prop
  | .fixedOrder s => s.numVars = n
  | .activity s => s.scores.size = n

/-- Built for `n` variables: in fixed order, or by activity with some decay. -/
inductive Fresh (n : Nat) : Branching → Prop
  | fixedOrder : Fresh n (.fixedOrder ⟨n⟩)
  | activity (decay : Float) : Fresh n (.activity (.empty n decay))

theorem Fresh.suits {s : Branching} (h : s.Fresh n) : s.Suits n := by
  cases h with
  | fixedOrder => rfl
  | activity decay => simp [Suits, Activity.empty]

/-- Before the first reward both selectors pick the same variables. -/
theorem Fresh.pick_eq {s : Branching} {a : Assignment} (h : s.Fresh n) (ha : a.values.size = n) :
    Selector.pick s a = FixedOrder.pick ⟨n⟩ a := by
  cases h with
  | fixedOrder => rfl
  | activity decay => exact Activity.pick_empty decay ha

theorem fresh_build (kind : BranchingKind) (n : Nat) : (build kind n).Fresh n := by
  cases kind with
  | fixedOrder => exact .fixedOrder
  | activity => exact .activity _

/-- Both selectors are lawful. -/
theorem lawful (n : Nat) : Selector.Lawful n (Suits n) where
  pick := by
    intro s hs a ha hfree
    cases s with
    | fixedOrder s =>
        rcases s with ⟨m⟩
        obtain rfl : m = n := hs
        exact (FixedOrder.lawful m).pick ⟨m⟩ rfl a ha hfree
    | activity s => exact (Activity.lawful n).pick s hs a ha hfree
  reward := by
    intro s hs vs hvs
    cases s with
    | fixedOrder s => exact ⟨.fixedOrder s, rfl, hs⟩
    | activity s =>
        rcases (Activity.lawful n).reward s hs vs hvs with ⟨s', hok, hs'⟩
        refine ⟨.activity s', ?_, hs'⟩
        have hok : s.reward vs = .ok s' := hok
        show reward (.activity s) vs = _
        simp only [reward, hok]
  decay := by
    intro s hs
    cases s with
    | fixedOrder s => exact hs
    | activity s => exact (Activity.lawful n).decay s hs

end Branching
end SatSearch
