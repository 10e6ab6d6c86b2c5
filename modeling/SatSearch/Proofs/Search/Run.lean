import Mathlib.Logic.Relation
import SatSearch.Search.Budget

/-!
# Run — the rounds of a call, one after the other

What both searches do in a call: rounds that go on, one after the other, until a round ends with a
verdict, or the budget is reached, or the call is stopped. What every round preserves, a call
preserves.
-/

namespace SatSearch

/-- What is read off a result tells that there is one. -/
theorem exists_of_map_eq_ok {ε α β : Type} {x : Except ε α} {g : α → β} {b : β}
    (h : x.map g = .ok b) : ∃ a, x = .ok a ∧ g a = b := by
  cases x with
  | error e => cases h
  | ok a => exact ⟨a, rfl, Except.ok.inj h⟩

/-- If there is a result in the end, there was one on the way. -/
theorem exists_of_bind_eq_ok {ε α β : Type} {x : Except ε α} {g : α → Except ε β} {b : β}
    (h : x.bind g = .ok b) : ∃ a, x = .ok a ∧ g a = .ok b := by
  cases x with
  | error e => cases h
  | ok a => exact ⟨a, rfl, h⟩

variable {S : Type} {next : S → S → Prop} {ends : S → Verdict → S → Prop} {exhausted : S → Prop}
variable {s s₁ s' : S} {answer : Option Verdict} {I : S → Prop}

/-- Rounds that go on. -/
abbrev Reaches (next : S → S → Prop) : S → S → Prop :=
  Relation.ReflTransGen next

theorem Reaches.invariant (h : Reaches next s s') (hnext : ∀ s s', I s → next s s' → I s')
    (hs : I s) : I s' := by
  induction h with
  | refl => exact hs
  | tail _ hstep ih => exact hnext _ _ ih hstep

/-- How a call goes: it is stopped, the budget is reached, or a round ends it. -/
inductive Ran (next : S → S → Prop) (ends : S → Verdict → S → Prop) (exhausted : S → Prop) (s : S) :
    Option Verdict → S → Prop
  | stopped {s' : S} : Reaches next s s' → Ran next ends exhausted s none s'
  | exhausted {s' : S} : Reaches next s s' → exhausted s' →
      Ran next ends exhausted s (some .unknown) s'
  | ended {s₁ s' : S} {verdict : Verdict} : Reaches next s s₁ → ends s₁ verdict s' →
      Ran next ends exhausted s (some verdict) s'

theorem Ran.head (h : next s s₁) (hran : Ran next ends exhausted s₁ answer s') :
    Ran next ends exhausted s answer s' := by
  cases hran with
  | stopped hreaches => exact .stopped (.head h hreaches)
  | exhausted hreaches hexhausted => exact .exhausted (.head h hreaches) hexhausted
  | ended hreaches hends => exact .ended (.head h hreaches) hends

theorem Ran.invariant (h : Ran next ends exhausted s answer s')
    (hnext : ∀ s s', I s → next s s' → I s') (hends : ∀ s v s', I s → ends s v s' → I s')
    (hs : I s) : I s' := by
  cases h with
  | stopped hreaches => exact hreaches.invariant hnext hs
  | exhausted hreaches _ => exact hreaches.invariant hnext hs
  | ended hreaches hends' => exact hends _ _ _ (hreaches.invariant hnext hs) hends'

end SatSearch
