import SatSearch.Conflict.Analyser
import SatSearch.Proofs.Conflict.FirstUip

/-!
# Analyser — either way of analysing fits the conflict
-/

namespace SatSearch

open Trail

variable {f : Formula} {t : Trail} {c : Clause} {index : Nat}

/-- The failed clause itself, to be retried one level below its deepest one. -/
theorem LevelScan.analyse_spec (hf : f.Proper) (ht : t.WellFormed f.numVars)
    (hc : f.clause? index = some c) (hfalse : t.Falsifies c) :
    ∃ analysis vars, LevelScan.analyse f t index = .ok (analysis, vars) ∧
      (∀ v ∈ vars, v < f.numVars) ∧ analysis.Fits f t c ∧
      ∀ learned level, analysis ≠ .asserting learned level := by
  have hvars : ∀ v ∈ c.literals.map Literal.var, v < f.numVars := by
    intro v hv
    rcases List.mem_map.1 hv with ⟨l, hl, rfl⟩
    exact (hf c (Formula.mem_of_clause? hc)).inRange l hl
  rcases failsAt_deepestLevel ht hfalse with ⟨d, hd, hfails⟩
  -- The clause is returned as it is, so all there is to know is the level it fails at.
  cases d with
  | zero => exact ⟨.ground, _, by simp only [LevelScan.analyse, hc, hd], hvars, hfails, nofun⟩
  | succ level =>
      exact ⟨.retry (.learned c.literals) level, _, by simp only [LevelScan.analyse, hc, hd], hvars,
        ⟨hfails, rfl⟩, nofun⟩

namespace Analyser

/-- An analyser of the kind, with nothing left over from conflicts before. -/
def Fresh : AnalyserKind → Analyser → Prop
  | .firstUip, .firstUip marks => marks.Unmarked
  | .levelScan, .levelScan => True
  | _, _ => False

theorem fresh_build (kind : AnalyserKind) (n : Nat) : (build kind n).Fresh kind := by
  cases kind with
  | firstUip => exact FirstUip.unmarked_empty n
  | levelScan => trivial

theorem Fresh.exists_unmarked {a : Analyser} (h : a.Fresh .firstUip) :
    ∃ marks, a = .firstUip marks ∧ marks.Unmarked := by
  cases a with
  | firstUip marks => exact ⟨marks, rfl, h⟩
  | levelScan => exact h.elim

theorem analyse_spec {kind : AnalyserKind} {a : Analyser} (hf : f.Proper) (hsound : f.Sound)
    (ht : t.WellFormed f.numVars) (hj : Justified f t) (hc : f.clause? index = some c)
    (hfalse : t.Falsifies c) (ha : a.Fresh kind) :
    ∃ analysis vars a', a.analyse f t index = .ok (analysis, vars, a') ∧ a'.Fresh kind ∧
      (∀ v ∈ vars, v < f.numVars) ∧ analysis.Fits f t c ∧
      (kind = .firstUip → ∀ learned level, analysis ≠ .retry learned level) ∧
      (kind = .levelScan → ∀ learned level, analysis ≠ .asserting learned level) := by
  cases a with
  | firstUip marks =>
      cases kind with
      | firstUip =>
          rcases FirstUip.analyse_spec hf hsound ht hj hc hfalse ha with
            ⟨analysis, vars, marks', hok, hmarks, hvars, hfits, hretry⟩
          exact ⟨analysis, vars, .firstUip marks', by simp only [analyse, hok], hmarks, hvars,
            hfits, fun _ => hretry, nofun⟩
      | levelScan => exact ha.elim
  | levelScan =>
      cases kind with
      | firstUip => exact ha.elim
      | levelScan =>
          rcases LevelScan.analyse_spec hf ht hc hfalse with
            ⟨analysis, vars, hok, hvars, hfits, hasserting⟩
          exact ⟨analysis, vars, .levelScan, by simp only [analyse, hok], trivial, hvars, hfits,
            nofun, fun _ => hasserting⟩

end Analyser
end SatSearch
