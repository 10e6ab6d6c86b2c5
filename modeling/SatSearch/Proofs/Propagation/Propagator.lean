import SatSearch.Propagation.Propagator
import SatSearch.Proofs.Propagation.Watch

/-!
# Propagator — what either way of propagating needs and keeps

A propagator describes a formula if it has taken in all its clauses. Whatever the trail, that is
enough to start over with nothing assigned. It is ready under a trail if it can go on from the head,
settled if all of the trail has been propagated, and left if it may have stopped half-way. Stepping
back below the current level settles a propagator that was left, a settled one is ready once a level
is opened, and a clause learned under a settled propagator keeps it settled or is asserted.
-/

namespace SatSearch

open Trail

namespace Propagator

variable {n k : Nat} {f f' : Formula} {t t' : Trail} {p p' : Propagator} {c : Clause} {l : Literal}
variable {r : Reason}

/-- All clauses have been taken in. -/
def Describes (f : Formula) : Propagator → Prop
  | .scan => True
  | .watch w => w.Indexes f.numVars f.clauses

/-- Propagation can go on from the head. -/
def Ready (f : Formula) (t : Trail) : Propagator → Prop
  | .scan => True
  | .watch w => w.Watchful f t t.head

/-- The whole trail has been propagated. -/
def Settled (f : Formula) (t : Trail) : Propagator → Prop
  | .scan => True
  | .watch w => w.Watchful f t t.steps.size

/-- Part of the trail has been propagated. -/
def Left (f : Formula) (t : Trail) : Propagator → Prop
  | .scan => True
  | .watch w => ∃ m, w.Watchful f t m

theorem Ready.left (h : p.Ready f t) : p.Left f t := by
  cases p with
  | scan => trivial
  | watch w => exact ⟨_, h⟩

theorem Settled.left (h : p.Settled f t) : p.Left f t := by
  cases p with
  | scan => trivial
  | watch w => exact ⟨_, h⟩

theorem Left.describes (h : p.Left f t) : p.Describes f := by
  cases p with
  | scan => trivial
  | watch w =>
      rcases h with ⟨_, h⟩
      exact h.indexes

/-- With nothing assigned there is nothing to guard. -/
theorem Describes.ready (h : p.Describes f) : p.Ready f (.empty n) := by
  cases p with
  | scan => trivial
  | watch w => exact .of_indexes h rfl rfl

/-! ## Taking clauses in -/

theorem ofFormula_spec (kind : PropagatorKind) (hf : f.Proper) :
    ∃ p, ofFormula kind f = .ok p ∧ p.Describes f := by
  cases kind with
  | scan => exact ⟨.scan, rfl, trivial⟩
  | watch =>
      rcases WatchIndex.ofFormula_spec hf with ⟨w, hw, hindexes⟩
      exact ⟨.watch w, by simp only [ofFormula, hw], hindexes⟩

theorem rebuild_spec (p : Propagator) (hf : f.Proper) :
    ∃ p', p.rebuild f = .ok p' ∧ p'.Describes f := by
  cases p with
  | scan => exact ⟨.scan, rfl, trivial⟩
  | watch w => exact ofFormula_spec .watch hf

/-- Without learned clauses a given clause that is added is taken in alone. -/
theorem register_extended {ls : List Literal} (ht : t.WellFormed f.numVars) (h : p.Describes f)
    (hnone : f.learnts = #[]) (hproper : (f.extended ls).Proper) :
    ∃ p', p.register (f.extended ls) t f.given.size = .ok p' ∧ p'.Describes (f.extended ls) := by
  cases p with
  | scan => exact ⟨.scan, rfl, trivial⟩
  | watch w =>
      rcases WatchIndex.register_extended ht h hnone hproper with ⟨w', hw', hindexes⟩
      exact ⟨.watch w', by simp only [register, hw'], hindexes⟩

/-! ## Propagating -/

theorem propagate_spec (hf : f.Proper) (ht : t.WellFormed f.numVars) (h : p.Ready f t) :
    ∃ o p' u, p.propagate f t = .ok (o, p', u) ∧ Forced f t u ∧ o.Reports f u ∧ p'.Left f u ∧
      (o = .fixpoint → p'.Settled f u) := by
  cases p with
  | scan =>
      rcases Scan.propagate_spec hf ht with ⟨o, u, hu, hforced, hreports, _⟩
      exact ⟨o, .scan, u, by simp only [propagate, hu], hforced, hreports, trivial,
        fun _ => trivial⟩
  | watch w =>
      rcases WatchIndex.propagate_spec hf ht h with ⟨o, w', u, hu, hforced, hends, hreports⟩
      refine ⟨o, .watch w', u, by simp only [propagate, hu], hforced, hreports, ?_, ?_⟩
      · cases o with
        | fixpoint => exact ⟨_, hends.1⟩
        | conflict i => exact hends.1
      · rintro rfl
        rcases hends with ⟨hwatchful, hhead⟩
        rw [hhead] at hwatchful
        exact hwatchful

/-! ## Moving on -/

/-- Opening a level after everything has been propagated. -/
theorem Settled.branch (h : p.Settled f t) : p.Ready f (t.newLevel.pushed l r) := by
  cases p with
  | scan => trivial
  | watch w =>
      -- A settled trail has been propagated to its end, so the branch alone is left to do.
      have hready := h.newLevel.pushed (l := l) (r := r)
      rw [← h.head_eq] at hready
      exact hready

/-- Stepping back below the current level drops all that was not propagated to the end. -/
theorem Left.steppedBack (h : p.Left f t) (hback : SteppedBack k t t') (hk : k < t.level) :
    p.Settled f t' := by
  cases p with
  | scan => trivial
  | watch w =>
      rcases h with ⟨m, h⟩
      exact h.steppedBack hback hk

/-! ## Learning -/

/-- Learning a clause with two literals that are not false. -/
theorem Settled.learn {a b : Literal} (h : p.Settled f t) (ht : t.WellFormed f.numVars)
    (hc : c.Proper f.numVars) (ha : a ∈ c.literals) (hb : b ∈ c.literals) (hab : a ≠ b)
    (hat : ¬ t.Assigns a.negate) (hbt : ¬ t.Assigns b.negate) :
    ∃ p', p.register (f.learn c).2 t f.clauses.length = .ok p' ∧ p'.Settled (f.learn c).2 t := by
  cases p with
  | scan => exact ⟨.scan, rfl, trivial⟩
  | watch w =>
      rcases h.learn ht hc ha hb hab hat hbt with ⟨w', hw', hsettled⟩
      exact ⟨.watch w', by simp only [register, hw'], hsettled⟩

/-- Learning a clause and asserting its only literal that is not false, at the level where another
one was falsified last. -/
theorem Settled.assert (h : p.Settled f t) (ht : t.WellFormed f.numVars)
    (hc : c.Proper f.numVars) (hl : l ∈ c.literals) (hfree : ¬ t.Assigns l.negate)
    (hothers : ∀ a ∈ c.literals, a ≠ l → t.Assigns a.negate)
    (hlevel : 2 ≤ c.length → ∃ a ∈ c.literals, a ≠ l ∧
      ∃ s ∈ t.steps, s.literal = a.negate ∧ s.level = t.level) :
    ∃ p', p.register (f.learn c).2 t f.clauses.length = .ok p' ∧
      p'.Ready (f.learn c).2 (t.pushed l r) := by
  cases p with
  | scan => exact ⟨.scan, rfl, trivial⟩
  | watch w =>
      rcases h.assert (r := r) ht hc hl hfree hothers hlevel with ⟨w', hw', hready⟩
      rw [← h.head_eq] at hready
      exact ⟨.watch w', by simp only [register, hw'], hready⟩

end Propagator
end SatSearch
