import SatSearch.Proofs.Propagation.Confluence
import SatSearch.Proofs.Search.Position
import SatSearch.Proofs.Trail.OpenLevels

/-!
# Verdict — when a position settles the question

A settled position with a value for every variable satisfies all clauses. A clause that fails
refutes the decisions up to its level: if none of them is open there is no model at all, and if the
highest open one fails, its complement follows from the decisions below it.
-/

namespace SatSearch

open Trail

variable {n k i : Nat} {t : Trail} {f : Formula} {p : Position} {c : Clause} {l : Literal}
variable {v : Valuation}

/-! ## Models of trails -/

@[simp] theorem Model.size_ofAssignment (a : Assignment) :
    (Model.ofAssignment a).size = a.values.size := by
  simp [Model.ofAssignment, Model.size]

theorem Model.value?_ofAssignment {a : Assignment} {u : Nat} {b : Bool}
    (h : a.values[u]? = some (some b)) : (Model.ofAssignment a).value? u = some b := by
  simp [Model.ofAssignment, Model.value?, h]

/-- What the trail makes true is true in the model read off it. -/
theorem Trail.Recorded.satisfies (h : t.Recorded n) (hl : t.Assigns l) :
    (Model.ofAssignment t.values).satisfies l = true := by
  have := Model.value?_ofAssignment ((h.value_iff l.var l.positive).2 hl)
  simp [Model.satisfies, this]

/-- A model read off a trail is right if the trail makes a literal of every given clause true. -/
theorem Trail.Recorded.rightFor (h : t.Recorded f.numVars)
    (hall : ∀ c ∈ f.given, ∃ l ∈ c.literals, t.Assigns l) :
    (Verdict.satisfiable (.ofAssignment t.values)).RightFor f := by
  refine ⟨by simp [h.values_size], Formula.isSatisfiedBy_iff.2 ?_⟩
  intro c hc
  rcases hall c hc with ⟨l, hl, htrue⟩
  exact ⟨l, hl, h.satisfies htrue⟩

/-- With no variable left free, a quiet clause has a true literal. -/
theorem Trail.WellFormed.exists_assigns (h : t.WellFormed n) (hfull : t.values.isComplete = true)
    (hquiet : t.Quiet t.level c) (hrange : ∀ l ∈ c.literals, l.var < n) :
    ∃ l ∈ c.literals, t.Assigns l := by
  rcases hquiet with ⟨l, hl, htrue⟩ | ⟨a, ha, _, _, _, hna, _⟩
  · exact ⟨l, hl, htrue.assigns⟩
  · have hbound := h.isComplete_iff.1 hfull a.var (hrange a ha)
    rw [h.toLevelled.trueBy_level] at hna
    by_contra hnone
    exact hbound (free_iff.2 ⟨fun htrue => hnone ⟨a, ha, htrue⟩, hna⟩)

theorem Position.Settled.exists_assigns (h : p.Settled) (hfull : p.trail.values.isComplete = true)
    (hc : c ∈ p.formula.clauses) : ∃ l ∈ c.literals, p.trail.Assigns l :=
  h.wellFormed.exists_assigns hfull (h.quiet _ le_rfl c hc) (h.proper c hc).inRange

theorem Position.Settled.rightFor (h : p.Settled) (hfull : p.trail.values.isComplete = true) :
    (Verdict.satisfiable (.ofAssignment p.trail.values)).RightFor p.formula :=
  h.wellFormed.rightFor fun _ hc => h.exists_assigns hfull (Formula.mem_clauses.2 (.inl hc))

/-! ## Failed clauses -/

/-- A clause has failed, and has done so at the current level. -/
structure Position.Failed (p : Position) (i : Nat) (c : Clause) : Prop extends Left p where
  clause : p.formula.clause? i = some c
  failsAt : p.trail.FailsAt c p.trail.level

theorem Position.Left.failed (h : p.Left) (hc : p.formula.clause? i = some c)
    (hfalse : p.trail.Falsifies c) : p.Failed i c := by
  rcases failsAt_deepestLevel h.wellFormed hfalse with ⟨d, _, hfails⟩
  have heq := hfails.eq_level h.wellFormed fun k hk => h.quiet k hk c (Formula.mem_of_clause? hc)
  exact ⟨h, hc, heq ▸ hfails⟩

theorem Trail.FailsAt.falsifies {d : Nat} (h : t.FailsAt c d) : t.Falsifies c :=
  fun l hl => (h.trueBy l hl).assigns

/-- The clause was quiet below the current level, so it fails at no other. -/
theorem Position.Failed.eq_level {d : Nat} (h : p.Failed i c) (hd : p.trail.FailsAt c d) :
    d = p.trail.level :=
  hd.eq_level h.wellFormed fun k hk => h.quiet k hk c (Formula.mem_of_clause? h.clause)

/-- No clause has failed at a fixpoint. -/
theorem Position.Failed.not_settled (h : p.Failed i c) (hp : p.Settled) : False :=
  (hp.quiet _ le_rfl c (Formula.mem_of_clause? h.clause)).not_falsifies h.wellFormed
    (fun _ => id) h.failsAt.falsifies

/-- With no open branch a failed clause leaves no model. -/
theorem Position.Failed.unsatisfiable (h : p.Failed i c)
    (hnone : p.trail.openBranch? p.trail.level = none) (v : Valuation) : ¬ p.formula.Holds v := by
  intro hv
  refine h.justified.refutes h.wellFormed.toLevelled h.sound (Formula.mem_of_clause? h.clause)
    h.failsAt.trueBy hv ?_
  intro d hd hdec hle
  have := h.justified.no_decision_of_openBranch? h.wellFormed.toLevelled hnone d hd hdec
  omega

theorem Trail.openBranch?_of_level_eq_zero (h : t.level = 0) : t.openBranch? t.level = none := by
  simp [openBranch?, openBranchUpTo?, h]

/-- The complement of the highest open branch follows from the decisions below it. -/
theorem Position.Failed.follows {s : Step} (h : p.Failed i c)
    (hsome : p.trail.openBranch? p.trail.level = some s) (hv : p.formula.Holds v)
    (hdec : ∀ d ∈ p.trail.steps, d.reason = .decision → d.level < s.level → d.literal.Holds v) :
    s.literal.negate.Holds v := by
  rcases h.justified.openBranch?_eq_some h.wellFormed.toLevelled hsome with ⟨hs, hsdec, _, _, hmax⟩
  rw [Literal.holds_negate]
  -- Would the branch itself hold, then all decisions that the clause refutes would.
  intro hholds
  refine h.justified.refutes h.wellFormed.toLevelled h.sound (Formula.mem_of_clause? h.clause)
    h.failsAt.trueBy hv ?_
  intro d hd hd' hle
  rcases Nat.lt_or_eq_of_le (hmax d hd hd' hle) with hlt | heq
  · exact hdec d hd hd' hlt
  · have : d = s := h.justified.branch_unique hd hs (by simp [hd', Reason.IsBranch])
      (by simp [hsdec, Reason.IsBranch]) heq
    exact this ▸ hholds

/-! ## Flipping -/

/-- After stepping back below a branch its variable is free. -/
theorem Trail.SteppedBack.free {t' : Trail} {s : Step} (h : SteppedBack k t t') (ht : t.Recorded n)
    (hs : s ∈ t.steps) (hk : k < s.level) : t'.Free s.literal.var := by
  intro s' hs' hv
  rcases h.mem_iff.1 hs' with ⟨hs', hle⟩
  obtain rfl : s' = s := ht.step_unique hs' hs hv
  omega

/-- The other side of the highest open branch can be taken once the position is stepped back below
it. -/
theorem Position.Failed.branch {q : Position} {s : Step} (h : p.Failed i c)
    (hsome : p.trail.openBranch? p.trail.level = some s) (hq : q.Settled)
    (hvars : q.formula.numVars = p.formula.numVars)
    (hholds : ∀ v, q.formula.Holds v → p.formula.Holds v)
    (hback : SteppedBack (s.level - 1) p.trail q.trail) :
    ∃ p', q.branch s.literal.negate .flipped = .ok p' ∧ p'.Ready ∧ p'.formula = q.formula ∧
      p'.trail = q.trail.newLevel.pushed s.literal.negate .flipped := by
  rcases h.justified.openBranch?_eq_some h.wellFormed.toLevelled hsome with ⟨hs, _, hpos, _⟩
  refine hq.branch ?_ ?_ trivial ?_
  · rw [hvars]
    exact h.wellFormed.var_lt hs
  · exact hback.free h.wellFormed.toRecorded hs (by omega)
  · -- The decisions that are left are those below the branch.
    intro _ v hv hdec
    refine h.follows hsome (hholds v hv) ?_
    intro d hd hd' hlt
    exact hdec d (hback.mem_iff.2 ⟨hd, by omega⟩) hd'

/-- What is to be done about a failed clause: the highest open branch is flipped, or there is none
and the formula is refuted. -/
def Trail.Backtracked (t : Trail) (verdict? : Option Verdict) (u : Trail) : Prop :=
  verdict? = some .unsatisfiable ∧ t.openBranch? t.level = none ∨
    verdict? = none ∧ ∃ b, Flips b t u

end SatSearch
