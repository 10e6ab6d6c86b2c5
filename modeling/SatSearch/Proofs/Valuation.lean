import Mathlib.Tactic.Common
import SatSearch.Formula
import SatSearch.Search.Budget

/-!
# Valuation — what clauses and formulas say

A valuation gives every variable a truth value. A clause holds under it if one of its literals does,
and a formula if all its given clauses do; what holds whenever the formula holds is entailed by it.
A model is read as a valuation, under which a formula that the model satisfies holds. A verdict is
right or wrong for a formula.
-/

namespace SatSearch

/-- A truth value for each variable, out of range or not. -/
abbrev Valuation := Nat → Bool

def Literal.Holds (v : Valuation) (l : Literal) : Prop :=
  v l.var = l.positive

def Clause.Holds (v : Valuation) (c : Clause) : Prop :=
  ∃ l ∈ c.literals, l.Holds v

/-- Every given clause holds. Learned clauses do not count. -/
def Formula.Holds (v : Valuation) (f : Formula) : Prop :=
  ∀ c ∈ f.given, c.Holds v

/-- The clause holds wherever the formula does. -/
def Formula.Entails (f : Formula) (c : Clause) : Prop :=
  ∀ v, f.Holds v → c.Holds v

/-! ## Complements -/

namespace Literal

@[simp] theorem negate_var (l : Literal) : l.negate.var = l.var := rfl

@[simp] theorem negate_positive (l : Literal) : l.negate.positive = !l.positive := rfl

theorem negate_ne (l : Literal) : l.negate ≠ l := by
  intro h
  have hsign : (!l.positive) = l.positive := congrArg Literal.positive h
  cases hl : l.positive <;> simp [hl] at hsign

theorem negate_inj {a b : Literal} : a.negate = b.negate ↔ a = b := by
  constructor
  · intro h
    have : a.negate.negate = b.negate.negate := congrArg negate h
    simpa using this
  · rintro rfl
    rfl

/-- Two literals of one variable are equal or complementary. -/
theorem eq_or_eq_negate {a b : Literal} (h : a.var = b.var) : a = b ∨ a = b.negate := by
  rcases a with ⟨v, p⟩
  rcases b with ⟨w, q⟩
  obtain rfl : v = w := h
  cases p <;> cases q <;> simp [negate]

theorem code_inj {a b : Literal} : a.code = b.code ↔ a = b := by
  constructor
  · intro h
    have : ofCode a.code = ofCode b.code := congrArg ofCode h
    simpa [ofCode_code] using this
  · rintro rfl
    rfl

theorem code_lt {l : Literal} {n : Nat} (h : l.var < n) : l.code < 2 * n := by
  unfold code
  split <;> omega

theorem holds_negate {v : Valuation} {l : Literal} : l.negate.Holds v ↔ ¬ l.Holds v := by
  simp only [Holds, negate_var, negate_positive]
  cases v l.var <;> cases l.positive <;> simp

end Literal

/-! ## Models as valuations -/

namespace Model

/-- Variables that the model does not have are read as false. -/
def valuation (m : Model) : Valuation :=
  fun v => (m.value? v).getD false

theorem holds_of_satisfies {m : Model} {l : Literal} (h : m.satisfies l = true) :
    l.Holds m.valuation := by
  have hvalue : m.value? l.var = some l.positive := by
    simpa [satisfies] using h
  simp [Literal.Holds, valuation, hvalue]

theorem satisfies_iff_holds {m : Model} {l : Literal} (h : l.var < m.size) :
    m.satisfies l = true ↔ l.Holds m.valuation := by
  have hvalue : m.value? l.var = some (m.valuation l.var) := by
    have : l.var < m.values.size := h
    simp [valuation, value?, this]
  simp [satisfies, hvalue, Literal.Holds]

end Model

/-! ## Formulas under models -/

namespace Formula

theorem isSatisfiedBy_iff {f : Formula} {m : Model} :
    f.isSatisfiedBy m = true ↔ ∀ c ∈ f.given, ∃ l ∈ c.literals, m.satisfies l = true := by
  simp only [isSatisfiedBy, Clause.isSatisfiedBy, Array.all_eq_true_iff_forall_mem,
    List.any_eq_true]

theorem holds_of_isSatisfiedBy {f : Formula} {m : Model} (h : f.isSatisfiedBy m = true) :
    f.Holds m.valuation := by
  intro c hc
  rcases isSatisfiedBy_iff.1 h c hc with ⟨l, hl, hsat⟩
  exact ⟨l, hl, Model.holds_of_satisfies hsat⟩

end Formula

/-! ## Right verdicts -/

/-- The verdict is right for the formula: the model it comes with gives every variable one value
and satisfies every given clause, or no model does. -/
def Verdict.RightFor (f : Formula) : Verdict → Prop
  | .satisfiable m => m.size = f.numVars ∧ f.isSatisfiedBy m = true
  | .unsatisfiable => ∀ m : Model, m.size = f.numVars → f.isSatisfiedBy m = false
  | .unknown => True

/-- Whether a verdict is right depends on the given clauses and the number of variables only. -/
theorem Verdict.RightFor.congr {f f' : Formula} {verdict : Verdict} (h : verdict.RightFor f)
    (hgiven : f.given = f'.given) (hvars : f.numVars = f'.numVars) : verdict.RightFor f' := by
  cases verdict with
  | satisfiable m => simpa only [RightFor, Formula.isSatisfiedBy, hgiven, hvars] using h
  | unsatisfiable => simpa only [RightFor, Formula.isSatisfiedBy, hgiven, hvars] using h
  | unknown => trivial

/-- A formula that holds under no valuation has no model. -/
theorem Verdict.rightFor_unsatisfiable {f : Formula} (h : ∀ v, ¬ f.Holds v) :
    Verdict.unsatisfiable.RightFor f := by
  intro m _
  cases hm : f.isSatisfiedBy m with
  | false => rfl
  | true => exact absurd (Formula.holds_of_isSatisfiedBy hm) (h _)

end SatSearch
