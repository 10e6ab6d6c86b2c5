import Mathlib.Data.Finset.Powerset
import Mathlib.Data.Finset.Prod
import SatSearch.Proofs.Conflict.Analysis

/-!
# Novelty — a clause that is asserted lies over no clause there is

Nothing learned is ever dropped, and a search that starts over has only what it learned to show for
its work. What it learned is new in a strong sense: resuming where propagation had come to rest, a
clause with one free literal and otherwise false ones cannot contain any clause that is already
there. The sets of literals that contain no clause are finitely many, and every clause that is
asserted takes one of them away.
-/

namespace SatSearch

open Trail

variable {n level : Nat} {f : Formula} {t : Trail} {c learned : Clause}

/-- A clause that asserts at a level where all clauses were quiet contains none of them. -/
theorem Asserting.not_subset (h : Asserting f t t.level learned level) (ht : t.WellFormed n)
    (hquiet : ∀ k < t.level, ∀ c ∈ f.clauses, t.Quiet k c) (hc : c ∈ f.clauses) :
    ¬ c.literals ⊆ learned.literals := by
  intro hsub
  rcases h.split with ⟨l, rest, hsplit, ⟨s, hs, hsl, _⟩, hrest, _, _⟩
  have hfalse : ∀ a ∈ rest, t.TrueBy level a.negate := by
    intro a ha
    rcases hrest a ha with ⟨s', hs', hs'a, _, hle⟩
    exact ⟨s', hs', hs'a, hle⟩
  have hmem : ∀ a ∈ c.literals, a = l ∨ a ∈ rest := by
    intro a ha
    have := hsub ha
    rwa [hsplit, List.mem_cons] at this
  rcases hquiet level h.lt c hc with ⟨a, ha, htrue⟩ | ⟨a, ha, b, hb, hab, hna, hnb⟩
  · -- All literals that the clause could have are false by now.
    apply ht.not_assigns_negate htrue.assigns
    rcases hmem a ha with rfl | ha'
    · exact ⟨s, hs, hsl⟩
    · exact (hfalse a ha').assigns
  · -- Two literals that were not false yet would both be the first one.
    rcases hmem a ha with rfl | ha'
    · rcases hmem b hb with rfl | hb'
      · exact hab rfl
      · exact hnb (hfalse b hb')
    · exact hna (hfalse a ha')

/-! ## Sets of literals without a clause -/

/-- The literals over that many variables. -/
def literalsBelow (n : Nat) : Finset Literal :=
  (Finset.range n ×ˢ (Finset.univ : Finset Bool)).image fun x => ⟨x.1, x.2⟩

theorem mem_literalsBelow {l : Literal} : l ∈ literalsBelow n ↔ l.var < n := by
  constructor
  · intro h
    rcases Finset.mem_image.1 h with ⟨⟨v, b⟩, hx, rfl⟩
    exact Finset.mem_range.1 (Finset.mem_product.1 hx).1
  · intro h
    apply Finset.mem_image.2
    exact ⟨(l.var, l.positive), by simp [h], rfl⟩

namespace Formula

/-- The sets of literals that contain no clause. -/
def uncovered (f : Formula) : Finset (Finset Literal) :=
  (literalsBelow f.numVars).powerset.filter fun set =>
    ∀ c ∈ f.clauses, ¬ ∀ l ∈ c.literals, l ∈ set

theorem mem_uncovered {set : Finset Literal} : set ∈ f.uncovered ↔
    (∀ l ∈ set, l.var < f.numVars) ∧ ∀ c ∈ f.clauses, ¬ ∀ l ∈ c.literals, l ∈ set := by
  rw [uncovered, Finset.mem_filter, Finset.mem_powerset]
  apply and_congr_left'
  constructor
  · intro h l hl
    exact mem_literalsBelow.1 (h hl)
  · intro h l hl
    exact mem_literalsBelow.2 (h l hl)

theorem uncovered_learn_subset : (f.learn c).2.uncovered ⊆ f.uncovered := by
  intro set hset
  rcases mem_uncovered.1 hset with ⟨hrange, hnone⟩
  refine mem_uncovered.2 ⟨hrange, ?_⟩
  intro c' hc'
  apply hnone c'
  rw [clauses_learn]
  exact List.mem_append_left _ hc'

/-- Learning a clause that contains none of the others leaves fewer sets. -/
theorem card_uncovered_learn_lt (hc : c.Proper f.numVars)
    (hnew : ∀ c' ∈ f.clauses, ¬ c'.literals ⊆ c.literals) :
    (f.learn c).2.uncovered.card < f.uncovered.card := by
  -- The literals of the clause are such a set before it is learned, and not afterwards.
  have hold : c.literals.toFinset ∈ f.uncovered := by
    rw [mem_uncovered]
    constructor
    · intro l hl
      exact hc.inRange l (List.mem_toFinset.1 hl)
    · intro c' hc' hsub
      exact hnew c' hc' fun l hl => List.mem_toFinset.1 (hsub l hl)
  have hgone : c.literals.toFinset ∉ (f.learn c).2.uncovered := by
    intro hmem
    rcases mem_uncovered.1 hmem with ⟨_, hnone⟩
    apply hnone (.learned c.literals) (by simp [clauses_learn])
    intro l hl
    exact List.mem_toFinset.2 hl
  have hstrict : (f.learn c).2.uncovered ⊂ f.uncovered :=
    (Finset.ssubset_iff_of_subset uncovered_learn_subset).2 ⟨_, hold, hgone⟩
  exact Finset.card_lt_card hstrict

end Formula
end SatSearch
