import SatSearch.Propagation.Scan
import SatSearch.Proofs.Trail.Justified

/-!
# Scan — reading every clause reaches a fixpoint or finds a failed clause

A pass over the clauses pushes forced literals only, and a pass that pushes nothing has found every
clause quiet. The number of variables bounds the number of passes that push something, so the last
pass that is made has pushed nothing, or has met a falsified clause.
-/

namespace SatSearch

open Trail

/-- What the outcome of propagation says about the trail it ends with. -/
def Outcome.Reports (f : Formula) (t : Trail) : Outcome → Prop
  | .fixpoint => ∀ c ∈ f.clauses, t.Quiet t.level c
  | .conflict i => ∃ c, f.clause? i = some c ∧ t.Falsifies c

namespace Scan

variable {f : Formula} {t u : Trail}

/-- What a pass over some of the clauses has found. -/
def Found (f : Formula) (cs : List Clause) (t u : Trail) : Option Nat → Prop
  | some i => ∃ c, f.clause? i = some c ∧ u.Falsifies c
  | none => t.steps.size < u.steps.size ∨ u = t ∧ ∀ c ∈ cs, t.Quiet t.level c

theorem pass_spec (hf : f.Proper) (cs : List Clause) : ∀ (index : Nat) (t : Trail),
    (∀ j, cs[j]? = f.clauses[index + j]?) → t.WellFormed f.numVars →
      ∃ failed u, pass index cs t = .ok (failed, u) ∧ Forced f t u ∧ Found f cs t u failed := by
  induction cs with
  | nil =>
      intro index t _ _
      exact ⟨none, t, rfl, .refl t, .inr ⟨rfl, by simp⟩⟩
  | cons c cs ih =>
      intro index t hcs ht
      have hclause : f.clause? index = some c := by
        rw [Formula.clause?_eq_getElem?]
        simpa using (hcs 0).symm
      have hproper := hf c (Formula.mem_of_clause? hclause)
      have hcs' : ∀ j, cs[j]? = f.clauses[index + 1 + j]? := by
        intro j
        have := hcs (j + 1)
        rw [List.getElem?_cons_succ] at this
        rw [this]
        congr 1
        omega
      -- A clause that asks for nothing leaves it to the rest of the pass.
      have hskip : c.state t.values = .satisfied ∨ c.state t.values = .unresolved →
          ∃ failed u, pass (index + 1) cs t = .ok (failed, u) ∧ Forced f t u ∧
            Found f (c :: cs) t u failed := by
        intro hst
        rcases ih (index + 1) t hcs' ht with ⟨failed, u, hpass, hforced, hfound⟩
        refine ⟨failed, u, hpass, hforced, ?_⟩
        cases failed with
        | some i => exact hfound
        | none =>
            rcases hfound with hlt | ⟨rfl, hall⟩
            · exact .inl hlt
            · refine .inr ⟨rfl, ?_⟩
              intro c' hc'
              rcases List.mem_cons.1 hc' with rfl | hc'
              · exact quiet_of_state ht hproper.nodup hst
              · exact hall c' hc'
      unfold pass
      cases hst : c.state t.values with
      | falsified =>
          exact ⟨some index, t, rfl, .refl t, c, hclause, falsifies_of_state ht.toRecorded hst⟩
      | satisfied => exact hskip (.inl hst)
      | unresolved => exact hskip (.inr hst)
      | unit l =>
          have hforces := forces_of_state ht.toRecorded hst
          have hlt := hproper.inRange l hforces.mem
          rcases ih (index + 1) (t.pushed l (.clause index)) hcs' (ht.pushed hlt hforces.free) with
            ⟨failed, u, hpass, hforced, hfound⟩
          refine ⟨failed, u, ?_, .pushed hclause hforces hforced, ?_⟩
          · simp only [push_eq ht.toRecorded hlt hforces.free]
            exact hpass
          · cases failed with
            | some i => exact hfound
            | none =>
                left
                have := hforced.size_le
                simp only [steps_pushed, Array.size_push] at this
                omega

/-- With fuel for one pass more than there are free variables, the passes end by themselves. -/
theorem passes_spec (hf : f.Proper) (fuel : Nat) : ∀ t : Trail, t.WellFormed f.numVars →
    f.numVars < fuel + t.steps.size →
      ∃ o u, passes f.clauses fuel t = .ok (o, u) ∧ Forced f t u ∧ o.Reports f u ∧
        u.head = u.steps.size := by
  induction fuel with
  | zero =>
      intro t ht hfuel
      have := ht.size_le
      omega
  | succ fuel ih =>
      intro t ht hfuel
      rcases pass_spec hf f.clauses 0 t (fun j => by rw [Nat.zero_add]) ht with
        ⟨failed, u, hpass, hforced, hfound⟩
      have hsettle : Forced f t u.settle := hforced.trans (.moved u.steps.size (.refl _))
      cases failed with
      | some i =>
          exact ⟨.conflict i, u.settle, by simp only [passes, hpass], hsettle, hfound, rfl⟩
      | none =>
          rcases hfound with hlt | ⟨rfl, hquiet⟩
          · -- Something was pushed, which leaves fewer variables free.
            have hne : u.length ≠ t.length := by
              simp only [length]
              omega
            rcases ih u (hforced.wellFormed hf ht) (by omega) with ⟨o, w, hw, hforced', hreports⟩
            refine ⟨o, w, ?_, hforced.trans hforced', hreports⟩
            simp only [passes, hpass, if_neg hne, hw]
          · exact ⟨.fixpoint, u.settle, by simp [passes, hpass], hsettle, hquiet, rfl⟩

theorem propagate_spec (hf : f.Proper) (ht : t.WellFormed f.numVars) :
    ∃ o u, propagate f t = .ok (o, u) ∧ Forced f t u ∧ o.Reports f u ∧
      u.head = u.steps.size := by
  refine passes_spec hf _ t ht ?_
  have : t.values.size = f.numVars := ht.values_size
  omega

end Scan
end SatSearch
