import SatSearch.Proofs.Search.Verdict

/-!
# Twins — trails that differ only in what was forced first, and why

Searches over clauses with the same literals may force literals in a different order, for different
reasons, and stop at different clauses. What they branch on need not differ: twins have the same
branches, and assign the same literals at the same levels. Propagating twins ends in a conflict for
both or for neither. At a fixpoint they are twins again; after a conflict the same branch is the
highest open one, and flipping it makes twins of them again, because only the current level was
propagated half-way.
-/

namespace SatSearch

/-- Every clause of the first formula has one of the same literals in the second. -/
def Formula.CopiedIn (f f' : Formula) : Prop :=
  ∀ c ∈ f.clauses, ∃ c' ∈ f'.clauses, c'.literals = c.literals

theorem Formula.CopiedIn.refl (f : Formula) : f.CopiedIn f :=
  fun c hc => ⟨c, hc, rfl⟩

namespace Trail

variable {n k : Nat} {f f' g g' : Formula} {t t' u u' w w' : Trail} {c : Clause} {l : Literal}
variable {b b' : Step}

/-- The trails have the same branches, and assign the same literals at the same levels. -/
structure Twins (t t' : Trail) : Prop where
  level_eq : t.level = t'.level
  mem_branch_iff : ∀ s : Step, s.reason.IsBranch → (s ∈ t.steps ↔ s ∈ t'.steps)
  marked : t.MarkedIn t'
  marked' : t'.MarkedIn t

theorem Twins.refl (t : Trail) : t.Twins t :=
  ⟨rfl, fun _ _ => Iff.rfl, .refl t, .refl t⟩

theorem Twins.symm (h : t.Twins t') : t'.Twins t :=
  ⟨h.level_eq.symm, fun s hs => (h.mem_branch_iff s hs).symm, h.marked', h.marked⟩

theorem Twins.values_eq (h : t.Twins t') (ht : t.Recorded n) (ht' : t'.Recorded n) :
    t.values = t'.values :=
  values_eq_of_markedIn ht ht' h.marked h.marked'

/-- What is quiet depends on the literals of a clause only. -/
theorem quiet_of_copiedIn (hcopied : f.CopiedIn f') (hquiet : ∀ c ∈ f'.clauses, u.Quiet k c) :
    ∀ c ∈ f.clauses, u.Quiet k c := by
  intro c hc
  rcases hcopied c hc with ⟨c', hc', hliterals⟩
  have := hquiet c' hc'
  simpa only [Quiet, hliterals] using this

/-! ## Branches -/

theorem MarkedIn.branch {r : Reason} (h : t.MarkedIn t') (hlevel : t.level = t'.level) :
    (t.newLevel.pushed l r).MarkedIn (t'.newLevel.pushed l r) := by
  intro s hs
  rcases mem_pushed.1 hs with hs | rfl
  · rcases h s hs with ⟨s', hs', hmark⟩
    exact ⟨s', mem_pushed.2 (.inl hs'), hmark⟩
  · exact ⟨_, mem_pushed.2 (.inr rfl), rfl, by simp [hlevel]⟩

/-- Twins that take the same branch stay twins. -/
theorem Twins.branch (h : t.Twins t') (l : Literal) (r : Reason) :
    (t.newLevel.pushed l r).Twins (t'.newLevel.pushed l r) where
  level_eq := by simp [h.level_eq]
  mem_branch_iff := by
    intro s hs
    simp only [mem_pushed, steps_newLevel, level_newLevel, h.level_eq, h.mem_branch_iff s hs]
  marked := h.marked.branch h.level_eq
  marked' := h.marked'.branch h.level_eq.symm

/-- The highest open branch is the decision of the highest level, if there is one. -/
theorem Justified.openBranch?_eq_some_iff (h : Justified f t) (hlev : t.Levelled) :
    t.openBranch? t.level = some b ↔ b ∈ t.steps ∧ b.reason = .decision ∧
      ∀ d ∈ t.steps, d.reason = .decision → d.level ≤ b.level := by
  constructor
  · intro hsome
    rcases h.openBranch?_eq_some hlev hsome with ⟨hb, hdec, _, _, hmax⟩
    exact ⟨hb, hdec, fun d hd hd' => hmax d hd hd' (hlev.le_level d hd)⟩
  · rintro ⟨hb, hdec, hmax⟩
    cases hopen : t.openBranch? t.level with
    | none =>
        have := h.no_decision_of_openBranch? hlev hopen b hb hdec
        have := hlev.le_level b hb
        omega
    | some d =>
        rcases h.openBranch?_eq_some hlev hopen with ⟨hd, hd', _, _, hmax'⟩
        have hlevel := Nat.le_antisymm (hmax d hd hd') (hmax' b hb hdec (hlev.le_level b hb))
        rw [h.branch_unique hd hb (by simp [hd', Reason.IsBranch]) (by simp [hdec, Reason.IsBranch])
          hlevel]

theorem Forced.mem_branch_iff {s : Step} (h : Forced f t u) (hs : s.reason.IsBranch) :
    s ∈ u.steps ↔ s ∈ t.steps := by
  refine ⟨fun hmem => ?_, h.mem⟩
  rcases h.mem_new hmem with hold | ⟨_, hnot⟩
  · exact hold
  · exact absurd hs hnot

/-! ## Propagating twins -/

section Propagated

variable (h : t.Twins t') (hu : Forced f t u) (hu' : Forced f' t' u')
include h hu hu'

theorem Twins.forced_mem_branch_iff {s : Step} (hs : s.reason.IsBranch) :
    s ∈ u.steps ↔ s ∈ u'.steps := by
  rw [hu.mem_branch_iff hs, hu'.mem_branch_iff hs, h.mem_branch_iff s hs]

/-- Where one of them has nothing left to force, the other has not forced more. -/
theorem Twins.assigns_of_quiet (hwf : u'.WellFormed n) (hcopied : f.CopiedIn f')
    (hquiet : ∀ c ∈ f'.clauses, u'.Quiet u'.level c) : ∀ a, u.Assigns a → u'.Assigns a :=
  hu.assigns_of_quiet hwf (quiet_of_copiedIn hcopied hquiet) fun _ ha =>
    hu'.assigns (h.marked.assigns ha)

/-- So no clause fails for one of them if the other has reached a fixpoint. -/
theorem Twins.not_falsifies (hwf : u'.WellFormed n) (hcopied : f.CopiedIn f')
    (hquiet : ∀ c ∈ f'.clauses, u'.Quiet u'.level c) (hc : c ∈ f.clauses) : ¬ u.Falsifies c :=
  (quiet_of_copiedIn hcopied hquiet c hc).not_falsifies hwf
    (h.assigns_of_quiet hu hu' hwf hcopied hquiet)

theorem Twins.markedIn_of_quiet (hrec : u.Recorded n) (hwf : u'.WellFormed n)
    (hcopied : f.CopiedIn f') (hquiet : ∀ c ∈ f'.clauses, u'.Quiet u'.level c) :
    u.MarkedIn u' := fun s hs =>
  hu.exists_step hu' h.level_eq h.marked h.marked' hrec hs
    (h.assigns_of_quiet hu hu' hwf hcopied hquiet s.literal ⟨s, hs, rfl⟩)

/-- Twins are twins when both have reached a fixpoint. -/
theorem Twins.forced (hwf : u.WellFormed n) (hwf' : u'.WellFormed n) (hcopied : f.CopiedIn f')
    (hcopied' : f'.CopiedIn f) (hquiet : ∀ c ∈ f.clauses, u.Quiet u.level c)
    (hquiet' : ∀ c ∈ f'.clauses, u'.Quiet u'.level c) : u.Twins u' where
  level_eq := by rw [hu.level_eq, hu'.level_eq, h.level_eq]
  mem_branch_iff := fun _ hs => h.forced_mem_branch_iff hu hu' hs
  marked := h.markedIn_of_quiet hu hu' hwf.toRecorded hwf' hcopied hquiet'
  marked' := h.symm.markedIn_of_quiet hu' hu hwf'.toRecorded hwf hcopied' hquiet

/-- The same branch is open, wherever propagation stopped. -/
theorem Twins.openBranch?_eq (hj : Justified g u) (hj' : Justified g' u') (hlev : u.Levelled)
    (hlev' : u'.Levelled) : u.openBranch? u.level = u'.openBranch? u'.level := by
  have hdecision : ∀ {s : Step}, s.reason = .decision → (s ∈ u.steps ↔ s ∈ u'.steps) :=
    fun hdec => h.forced_mem_branch_iff hu hu' (by simp [hdec, Reason.IsBranch])
  refine Option.ext fun b => ?_
  rw [hj.openBranch?_eq_some_iff hlev, hj'.openBranch?_eq_some_iff hlev']
  constructor
  · rintro ⟨hb, hdec, hmax⟩
    exact ⟨(hdecision hdec).1 hb, hdec, fun d hd hd' => hmax d ((hdecision hd').2 hd) hd'⟩
  · rintro ⟨hb, hdec, hmax⟩
    exact ⟨(hdecision hdec).2 hb, hdec, fun d hd hd' => hmax d ((hdecision hd').1 hd) hd'⟩

theorem Twins.markedIn_steppedBack (hk : k < t.level) (hback : SteppedBack k u w)
    (hback' : SteppedBack k u' w') : w.MarkedIn w' := by
  intro s hs
  rcases hback.mem_iff.1 hs with ⟨hs, hle⟩
  rcases hu.mem_new hs with hold | ⟨hlevel, _⟩
  · rcases h.marked s hold with ⟨s', hs', hlit, hlevel⟩
    exact ⟨s', hback'.mem_iff.2 ⟨hu'.mem hs', hlevel ▸ hle⟩, hlit, hlevel⟩
  · omega

/-- Below the current level they are twins, wherever propagation stopped. -/
theorem Twins.steppedBack (hk : k < t.level) (hback : SteppedBack k u w)
    (hback' : SteppedBack k u' w') : w.Twins w' where
  level_eq := by
    rw [hback.level_eq, hback'.level_eq, hu.level_eq, hu'.level_eq, h.level_eq]
  mem_branch_iff := by
    intro s hs
    rw [hback.mem_iff, hback'.mem_iff, h.forced_mem_branch_iff hu hu' hs]
  marked := h.markedIn_steppedBack hu hu' hk hback hback'
  marked' := h.symm.markedIn_steppedBack hu' hu (h.level_eq ▸ hk) hback' hback

/-- Flipping a branch, twins stay twins. -/
theorem Twins.flips (hj : Justified g u) (hj' : Justified g' u') (hlev : u.Levelled)
    (hlev' : u'.Levelled) (hw : Flips b u w) (hw' : Flips b' u' w') : w.Twins w' := by
  obtain rfl : b' = b := Option.some.inj
    (hw'.openBranch.symm.trans ((h.openBranch?_eq hu hu' hj hj' hlev hlev').symm.trans
      hw.openBranch))
  rcases hj.openBranch?_eq_some hlev hw.openBranch with ⟨_, _, hpos, hle, _⟩
  rcases hw.trail with ⟨x, hback, rfl⟩
  rcases hw'.trail with ⟨x', hback', rfl⟩
  have hlevel := hu.level_eq
  exact (h.steppedBack hu hu' (by omega) hback hback').branch _ _

end Propagated

end Trail

open Trail

/-! ## Positions -/

namespace Position

/-- With nothing assigned any two trails are twins. -/
theorem twins_clear {p p' : Position} (h : p.Left) (h' : p'.Left)
    (hvars : p.formula.numVars = p'.formula.numVars) : p.clear.trail.Twins p'.clear.trail := by
  rw [h.trail_clear, h'.trail_clear, hvars]
  exact .refl _

section Leads

variable {p p' q q' : Position} {i : Nat} {c : Clause} {w w' : Trail}
variable (h : p.trail.Twins p'.trail) (hq : p.Leads q) (hq' : p'.Leads q')
include h hq hq'

/-- A clause does not fail for one of them if the other is settled. -/
theorem not_failed_of_settled (hcopied : p.formula.CopiedIn p'.formula) (hfailed : q.Failed i c)
    (hsettled : q'.Settled) : False := by
  refine h.not_falsifies hq.forced hq'.forced hsettled.wellFormed hcopied ?_ ?_
    hfailed.failsAt.falsifies
  · rw [← hq'.formula_eq]
    exact hsettled.quiet _ le_rfl
  · rw [← hq.formula_eq]
    exact Formula.mem_of_clause? hfailed.clause

/-- Both have stopped at failed clauses, or both are settled. -/
theorem failed_or_settled (hcopied : p.formula.CopiedIn p'.formula)
    (hcopied' : p'.formula.CopiedIn p.formula) (hend : (∃ i c, q.Failed i c) ∨ q.Settled)
    (hend' : (∃ i c, q'.Failed i c) ∨ q'.Settled) :
    (∃ i c, q.Failed i c) ∧ (∃ i c, q'.Failed i c) ∨ q.Settled ∧ q'.Settled := by
  rcases hend with hfailed | hsettled
  · rcases hend' with hfailed' | hsettled'
    · exact .inl ⟨hfailed, hfailed'⟩
    · rcases hfailed with ⟨i, c, hfailed⟩
      exact (not_failed_of_settled h hq hq' hcopied hfailed hsettled').elim
  · rcases hend' with ⟨i, c, hfailed'⟩ | hsettled'
    · exact (not_failed_of_settled h.symm hq' hq hcopied' hfailed' hsettled).elim
    · exact .inr ⟨hsettled, hsettled'⟩

theorem twins_of_settled (hvars : p.formula.numVars = p'.formula.numVars)
    (hcopied : p.formula.CopiedIn p'.formula) (hcopied' : p'.formula.CopiedIn p.formula)
    (hsettled : q.Settled) (hsettled' : q'.Settled) : q.trail.Twins q'.trail := by
  have hwf := hsettled.wellFormed
  have hwf' := hsettled'.wellFormed
  have hquiet := hsettled.quiet _ le_rfl
  have hquiet' := hsettled'.quiet _ le_rfl
  rw [hq.formula_eq] at hwf hquiet
  rw [hq'.formula_eq, ← hvars] at hwf'
  rw [hq'.formula_eq] at hquiet'
  exact h.forced hq.forced hq'.forced hwf hwf' hcopied hcopied' hquiet hquiet'

/-- Wherever propagation stopped, both backtrack to twins or have nothing to flip. -/
theorem backtracked_twins {verdict? verdict?' : Option Verdict} (hleft : q.Left) (hleft' : q'.Left)
    (hw : q.trail.Backtracked verdict? w) (hw' : q'.trail.Backtracked verdict?' w') :
    verdict?' = verdict? ∧ (verdict? = none → w.Twins w') := by
  have hopen := h.openBranch?_eq hq.forced hq'.forced hleft.justified hleft'.justified
    hleft.wellFormed.toLevelled hleft'.wellFormed.toLevelled
  rcases hw with ⟨rfl, hnone⟩ | ⟨rfl, b, hflips⟩
  · rcases hw' with ⟨rfl, _⟩ | ⟨_, b', hflips'⟩
    · exact ⟨rfl, nofun⟩
    · have := hflips'.openBranch
      rw [← hopen, hnone] at this
      cases this
  · rcases hw' with ⟨_, hnone'⟩ | ⟨rfl, b', hflips'⟩
    · have := hflips.openBranch
      rw [hopen, hnone'] at this
      cases this
    · exact ⟨rfl, fun _ => h.flips hq.forced hq'.forced hleft.justified hleft'.justified
        hleft.wellFormed.toLevelled hleft'.wellFormed.toLevelled hflips hflips'⟩

end Leads

end Position
end SatSearch
