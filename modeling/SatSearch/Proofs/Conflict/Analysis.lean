import SatSearch.Conflict.Analysis
import SatSearch.Proofs.Trail.Justified

/-!
# Analysis — what a conflict allows to be learned

The analysis of a failed clause fits the conflict if it says `ground` at level zero only, if an
asserting clause is entailed and has one literal of the conflict level and otherwise literals that
are false at the level to resume at, or if a clause to retry with is the failed one and the level is
one below its deepest one.
-/

namespace SatSearch

open Trail

variable {n d : Nat} {f : Formula} {t : Trail} {c : Clause} {ls : List Literal}

/-- The clause is false by level `d`, and at level `d` no sooner unless that is zero. -/
structure Trail.FailsAt (t : Trail) (c : Clause) (d : Nat) : Prop where
  trueBy : ∀ l ∈ c.literals, t.TrueBy d l.negate
  reached : 0 < d → ∃ l ∈ c.literals, ∃ s ∈ t.steps, s.literal = l.negate ∧ s.level = d

theorem deepestLevel_spec (ht : t.WellFormed n) (hls : ∀ l ∈ ls, t.Assigns l.negate) :
    ∃ d, deepestLevel t ls = .ok d ∧ (∀ l ∈ ls, t.TrueBy d l.negate) ∧
      (0 < d → ∃ l ∈ ls, ∃ s ∈ t.steps, s.literal = l.negate ∧ s.level = d) := by
  induction ls with
  | nil => exact ⟨0, rfl, by simp, by simp⟩
  | cons l ls ih =>
      rcases ih fun a ha => hls a (List.mem_cons_of_mem _ ha) with ⟨d, hd, hall, hreached⟩
      rcases hls l List.mem_cons_self with ⟨s, hs, hsl⟩
      have hlevel := ht.levelOf_negate hs hsl
      refine ⟨max s.level d, by simp only [deepestLevel, hlevel, hd], ?_, ?_⟩
      · intro a ha
        rcases List.mem_cons.1 ha with rfl | ha
        · exact ⟨s, hs, hsl, le_max_left _ _⟩
        · exact (hall a ha).mono (le_max_right _ _)
      · -- The maximum is reached by the first literal or by one of the others.
        intro hpos
        rcases Nat.lt_or_ge s.level d with hlt | hge
        · rcases hreached (by omega) with ⟨a, ha, sa, hsa, hneg, hlev⟩
          exact ⟨a, List.mem_cons_of_mem _ ha, sa, hsa, hneg, by omega⟩
        · exact ⟨l, List.mem_cons_self, s, hs, hsl, by omega⟩

theorem failsAt_deepestLevel (ht : t.WellFormed n) (hc : t.Falsifies c) :
    ∃ d, deepestLevel t c.literals = .ok d ∧ t.FailsAt c d := by
  rcases deepestLevel_spec ht hc with ⟨d, hd, htrue, hreached⟩
  exact ⟨d, hd, htrue, hreached⟩

theorem Trail.FailsAt.le_level (h : t.FailsAt c d) (hlev : t.Levelled) : d ≤ t.level := by
  rcases Nat.eq_zero_or_pos d with rfl | hpos
  · exact Nat.zero_le _
  · rcases h.reached hpos with ⟨_, _, s, hs, _, rfl⟩
    exact hlev.le_level s hs

/-- A clause that is quiet below the current level fails at the current level. -/
theorem Trail.FailsAt.eq_level (h : t.FailsAt c d) (ht : t.WellFormed n)
    (hquiet : ∀ k < t.level, t.Quiet k c) : d = t.level := by
  have hle := h.le_level ht.toLevelled
  by_contra hne
  have hfalse : t.Falsifies c := fun l hl => (h.trueBy l hl).assigns
  rcases (hquiet d (by omega)).two_above ht.toRecorded hfalse with ⟨a, ha, _, _, _, hna, _⟩
  exact hna (h.trueBy a ha)

/-- Resuming at `level`, the first literal of the clause is free and all others are false. -/
structure Asserting (f : Formula) (t : Trail) (d : Nat) (c : Clause) (level : Nat) : Prop where
  inRange : ∀ l ∈ c.literals, l.var < f.numVars
  nodup_vars : (c.literals.map Literal.var).Nodup
  entailed : f.Entails c
  lt : level < d
  split : ∃ l rest, c.literals = l :: rest ∧
    (∃ s ∈ t.steps, s.literal = l.negate ∧ s.level = d) ∧
    (∀ a ∈ rest, ∃ s ∈ t.steps, s.literal = a.negate ∧ 0 < s.level ∧ s.level ≤ level) ∧
    (rest = [] → level = 0) ∧
    ∀ b, rest.head? = some b → ∃ s ∈ t.steps, s.literal = b.negate ∧ s.level = level

theorem Asserting.proper {level : Nat} (h : Asserting f t d c level) : c.Proper f.numVars :=
  ⟨h.nodup_vars.of_map _, h.inRange⟩

/-- What is right to do about a failed clause. -/
def Analysis.Fits (f : Formula) (t : Trail) (c : Clause) : Analysis → Prop
  | .ground => t.FailsAt c 0
  | .asserting learned level => ∃ d, t.FailsAt c d ∧ Asserting f t d learned level
  | .retry learned level => t.FailsAt c (level + 1) ∧ learned = .learned c.literals

end SatSearch
