import SatSearch.Proofs.Search.Consequence
import SatSearch.Proofs.Search.ImplicationGraph

/-!
# ImplicationPoint — where all chains back from a conflict meet first

A clause that has failed leads back to the branch of its level in many ways: each chain starts at a
step that falsifies a literal of the clause, and goes on from each step that was forced to one that
falsifies a literal of the clause it was forced by. A walk resolves the steps away in the order of
the trail, the last one first. Every chain passes through one of the marked steps ahead, so it passes
through the last one that is left, the implication point. And every marked step ahead is reached by a
chain that has been at steps already walked past only; so as long as another marked step is ahead, a
chain leads around the step the walk is at.
-/

namespace SatSearch

open Trail

namespace Trail

variable {n d i j k position : Nat} {f : Formula} {t : Trail} {c c₀ : Clause} {s : Step}
variable {path : List Nat}

/-! ## Chains -/

/-- The step at position `i` is of level `d` and falsifies a literal of the clause. -/
def FalsifiedBy (t : Trail) (d : Nat) (c : Clause) (i : Nat) : Prop :=
  ∃ s, t.steps[i]? = some s ∧ s.level = d ∧ ∃ a ∈ c.literals, s.literal = a.negate

/-- A way back along level `d` to its branch, by the positions of its steps. From a step that was
forced it goes on to one that falsifies a literal of the clause it was forced by. -/
inductive Leads (f : Formula) (t : Trail) (d : Nat) : Nat → List Nat → Prop
  | branch {i : Nat} {s : Step} :
      t.steps[i]? = some s → s.level = d → s.reason.IsBranch → Leads f t d i [i]
  | forced {i j index : Nat} {s : Step} {c : Clause} {path : List Nat} :
      t.steps[i]? = some s → s.level = d → s.reason = .clause index → f.clause? index = some c →
      t.FalsifiedBy d c j → Leads f t d j path → Leads f t d i (i :: path)

/-- A chain from a clause that failed at level `d` back to the branch of the level. -/
def Chain (f : Formula) (t : Trail) (d : Nat) (c : Clause) (path : List Nat) : Prop :=
  ∃ i, t.FalsifiedBy d c i ∧ Leads f t d i path

/-- Position `k` is on every chain, and no later one is. -/
structure ImplicationPoint (f : Formula) (t : Trail) (d : Nat) (c : Clause) (k : Nat) : Prop where
  on_all : ∀ path, Chain f t d c path → k ∈ path
  first : ∀ j, k < j → ∃ path, Chain f t d c path ∧ j ∉ path

/-- A step that falsifies a literal of the clause another one was forced by lies before it. -/
theorem FalsifiedBy.lt {index : Nat} (h : t.FalsifiedBy d c j) (ht : t.Recorded n)
    (hj : Justified f t) (hs : t.steps[i]? = some s) (hreason : s.reason = .clause index)
    (hc : f.clause? index = some c) : j < i := by
  rcases h with ⟨u, hu, _, a, ha, hua⟩
  rcases hj.explained i index s hs hreason with ⟨c', hc', _, hothers⟩
  obtain rfl : c = c' := Option.some.inj (hc.symm.trans hc')
  have hne : a ≠ s.literal := by
    rintro rfl
    exact ht.not_assigns_negate ⟨s, Array.mem_of_getElem? hs, rfl⟩ ⟨u, Array.mem_of_getElem? hu, hua⟩
  rcases hothers a ha hne with ⟨i', hi', u', hu', hu'a⟩
  obtain rfl : j = i' := ht.position_unique hu hu' (by rw [hua, hu'a])
  exact hi'

/-- From every step of the level a way leads back, through earlier steps only. -/
theorem exists_leads (ht : t.Recorded n) (hj : Justified f t) (hanchored : Anchored f t)
    (hd : 0 < d) (i : Nat) : ∀ s, t.steps[i]? = some s → s.level = d →
    ∃ path, Leads f t d i path ∧ ∀ x ∈ path, x ≤ i := by
  induction i using Nat.strong_induction_on with
  | _ i ih =>
      intro s hs hlevel
      have hbranch : s.reason.IsBranch → ∃ path, Leads f t d i path ∧ ∀ x ∈ path, x ≤ i :=
        fun hbranch => ⟨[i], .branch hs hlevel hbranch, by simp⟩
      cases hreason : s.reason with
      | decision => exact hbranch (by simp [hreason, Reason.IsBranch])
      | flipped => exact hbranch (by simp [hreason, Reason.IsBranch])
      | clause index =>
          -- An antecedent of the same level lies before the step.
          rcases hanchored s (Array.mem_of_getElem? hs) index hreason (hlevel ▸ hd) with
            ⟨c, hc, a, ha, _, u, hu, hua, hulevel⟩
          rcases Array.mem_iff_getElem?.1 hu with ⟨j, hju⟩
          have hfalse : t.FalsifiedBy d c j := ⟨u, hju, hulevel.trans hlevel, a, ha, hua⟩
          have hlt := hfalse.lt ht hj hs hreason hc
          rcases ih j hlt u hju (hulevel.trans hlevel) with ⟨path, hpath, hle⟩
          refine ⟨i :: path, .forced hs hlevel hreason hc hfalse hpath, ?_⟩
          intro x hx
          rcases List.mem_cons.1 hx with rfl | hx
          · exact le_rfl
          · exact (hle x hx).trans hlt.le

/-- Every way back from position `i` ends a chain that has come through `position` or later steps
before. -/
def ReachedFrom (f : Formula) (t : Trail) (d : Nat) (c : Clause) (position i : Nat) : Prop :=
  ∀ path, Leads f t d i path →
    ∃ before, Chain f t d c (before ++ path) ∧ ∀ x ∈ before, position ≤ x

namespace ReachedFrom

theorem of_falsifiedBy (h : t.FalsifiedBy d c i) : ReachedFrom f t d c position i :=
  fun path hpath => ⟨[], ⟨i, h, hpath⟩, by simp⟩

theorem mono (h : ReachedFrom f t d c (position + 1) i) : ReachedFrom f t d c position i := by
  intro path hpath
  rcases h path hpath with ⟨before, hchain, hge⟩
  exact ⟨before, hchain, fun x hx => Nat.le_of_succ_le (hge x hx)⟩

/-- From a step that was forced, chains go on to what falsifies the clause it was forced by. -/
theorem forced {index : Nat} (h : ReachedFrom f t d c₀ (position + 1) position)
    (hs : t.steps[position]? = some s) (hlevel : s.level = d) (hreason : s.reason = .clause index)
    (hc : f.clause? index = some c) (hfalse : t.FalsifiedBy d c i) :
    ReachedFrom f t d c₀ position i := by
  intro path hpath
  rcases h (position :: path) (.forced hs hlevel hreason hc hfalse hpath) with
    ⟨before, hchain, hge⟩
  refine ⟨before ++ [position], by rwa [List.append_assoc], ?_⟩
  intro x hx
  rcases List.mem_append.1 hx with hx | hx
  · exact Nat.le_of_succ_le (hge x hx)
  · exact (List.mem_singleton.1 hx).ge

/-- A chain to an earlier step of the level goes around the step at `position`. -/
theorem exists_avoiding (h : ReachedFrom f t d c (position + 1) i) (hlt : i < position)
    (ht : t.Recorded n) (hj : Justified f t) (hanchored : Anchored f t) (hd : 0 < d)
    (hs : t.steps[i]? = some s) (hlevel : s.level = d) :
    ∃ path, Chain f t d c path ∧ position ∉ path := by
  rcases exists_leads ht hj hanchored hd i s hs hlevel with ⟨path, hpath, hle⟩
  rcases h path hpath with ⟨before, hchain, hge⟩
  refine ⟨before ++ path, hchain, ?_⟩
  intro hmem
  rcases List.mem_append.1 hmem with hmem | hmem
  · exact absurd (hge _ hmem) (by omega)
  · exact absurd (hle _ hmem) (by omega)

end ReachedFrom

end Trail

/-! ## Along the walk -/

namespace FirstUip

variable {n d k position : Nat} {f : Formula} {t : Trail} {c c₀ : Clause} {s : Step}
variable {r r' : Resolution} {seen : Array Bool}

/-- What falsifies a literal of a clause that was met is marked. -/
theorem Met.ahead {pivot : Option Nat} {i : Nat} (h : Met t pivot c.literals seen r.seen)
    (ht : t.Recorded n) (hd : 0 < d) (hfalse : t.FalsifiedBy d c i) (hi : i < position)
    (hpivot : ∀ u, t.steps[i]? = some u → pivot ≠ some u.literal.var) :
    i ∈ ahead t d r.seen position := by
  rcases hfalse with ⟨u, hu, hlevel, a, ha, hua⟩
  have hvar : u.literal.var = a.var := by rw [hua, Literal.negate_var]
  refine mem_ahead.2 ⟨hi, u, hu, hlevel, ?_⟩
  rw [hvar]
  rcases h.all a ha (hvar ▸ hpivot u hu) with hseen | ⟨u', hu', hu'a, hzero⟩
  · exact hseen
  · -- The step that falsifies the literal is not of level zero.
    obtain rfl : u = u' := ht.step_unique (Array.mem_of_getElem? hu) hu' (by rw [hua, hu'a])
    omega

namespace Resolved

/-- What falsifies a literal of the clause a step is resolved against lies ahead. -/
theorem mem_ahead_of_falsifiedBy {i : Nat} (h : Resolved f t d position s c r r')
    (ht : t.Recorded n) (hj : Justified f t) (hd : 0 < d) (hfalse : t.FalsifiedBy d c i) :
    i ∈ ahead t d r'.seen position := by
  rcases h.clause with ⟨index, hreason, hc⟩
  have hlt := hfalse.lt ht hj h.step hreason hc
  refine h.met.ahead ht hd hfalse hlt ?_
  intro u hu heq
  have := ht.position_unique hu h.step (Option.some.inj heq).symm
  omega

/-- What lies ahead was marked before, or falsifies a literal of the clause. -/
theorem ahead_or_falsifiedBy {i : Nat} (h : Resolved f t d position s c r r') (ht : t.Recorded n)
    (hj : Justified f t) (hi : i ∈ ahead t d r'.seen position) :
    i ∈ ahead t d r.seen (position + 1) ∨ t.FalsifiedBy d c i := by
  rcases mem_ahead.1 hi with ⟨hlt, u, hu, hlevel, hmark⟩
  rcases h.met.only _ hmark with hmark | ⟨a, ha, hvar⟩
  · exact .inl (mem_ahead.2 ⟨hlt.trans (Nat.lt_succ_self _), u, hu, hlevel, hmark⟩)
  · rcases h.clause with ⟨index, hreason, hc⟩
    rcases hj.explained _ index s h.step hreason with ⟨c', hc', _, hothers⟩
    obtain rfl : c = c' := Option.some.inj (hc.symm.trans hc')
    have hne : a ≠ s.literal := by
      rintro rfl
      have := ht.position_unique h.step hu hvar
      omega
    rcases hothers a ha hne with ⟨j, _, u', hu', hu'a⟩
    obtain rfl : u' = u := ht.step_unique (Array.mem_of_getElem? hu') (Array.mem_of_getElem? hu)
      (by rw [hu'a, Literal.negate_var, hvar])
    exact .inr ⟨u', hu, hlevel, a, ha, hu'a⟩

theorem mem_ahead (h : Resolved f t d position s c r r') :
    position ∈ FirstUip.ahead t d r.seen (position + 1) :=
  FirstUip.mem_ahead.2 ⟨Nat.lt_succ_self _, s, h.step, h.level_eq, h.marked⟩

end Resolved

theorem ahead_succ_subset : ahead t d seen position ⊆ ahead t d seen (position + 1) := by
  intro i hi
  rcases mem_ahead.1 hi with ⟨hlt, rest⟩
  exact mem_ahead.2 ⟨hlt.trans (Nat.lt_succ_self _), rest⟩

namespace Walked

/-- Before the walk ends, a marked step is ahead. -/
theorem nonempty (h : Walked f t d position r k r') : (ahead t d r.seen position).Nonempty := by
  induction h with
  | passed _ _ _ ih => exact ih.mono ahead_succ_subset
  | resolved hresolved _ _ => exact ⟨_, hresolved.mem_ahead⟩
  | reached hs hmark hlevel _ => exact ⟨_, mem_ahead.2 ⟨Nat.lt_succ_self _, _, hs, hlevel, hmark⟩⟩

/-- From every marked step ahead, all ways back lead through the implication point. -/
theorem mem_of_leads (h : Walked f t d position r k r') (ht : t.Recorded n) (hj : Justified f t)
    (hd : 0 < d) : ∀ i ∈ ahead t d r.seen position, ∀ path, Leads f t d i path → k ∈ path := by
  -- By induction on the walk, whose end is the only marked step that is left.
  induction h with
  | @passed position _ s r _ hs hmark _ ih =>
      have hsame : ahead t d r.seen (position + 1) = ahead t d r.seen position :=
        ahead_succ_of_not hs (by simp [hmark])
      rw [hsame]
      exact ih
  | @resolved position _ s c r r₁ _ hresolved _ ih =>
      intro i hi path hpath
      rcases eq_or_mem_ahead hi with rfl | hi
      · -- The way goes on to a step that is marked now.
        rcases hresolved.clause with ⟨index, hreason, hc⟩
        cases hpath with
        | branch hs _ hbranch =>
            obtain rfl := Option.some.inj (hresolved.step.symm.trans hs)
            rw [hreason] at hbranch
            exact hbranch.elim
        | forced hs _ hreason' hc' hfalse hrest =>
            obtain rfl := Option.some.inj (hresolved.step.symm.trans hs)
            obtain rfl := Reason.clause.inj (hreason.symm.trans hreason')
            obtain rfl := Option.some.inj (hc.symm.trans hc')
            have hi := hresolved.mem_ahead_of_falsifiedBy ht hj hd hfalse
            exact List.mem_cons_of_mem _ (ih _ hi _ hrest)
      · exact ih i (ahead_mono hresolved.met.mono hi) path hpath
  | reached hs hmark hlevel hempty =>
      intro i hi path hpath
      rcases eq_or_mem_ahead hi with rfl | hi
      · cases hpath <;> exact List.mem_cons_self
      · rw [hempty] at hi
        exact absurd hi (Finset.notMem_empty i)

/-- Around every step between the implication point and where the walk is, a chain leads. -/
theorem exists_avoiding (h : Walked f t d position r k r') (ht : t.Recorded n)
    (hj : Justified f t) (hanchored : Anchored f t) (hd : 0 < d)
    (hreached : ∀ i ∈ ahead t d r.seen position, ReachedFrom f t d c₀ position i) :
    ∀ j, k < j → j < position → ∃ path, Chain f t d c₀ path ∧ j ∉ path := by
  -- A marked step ahead of the one the walk is at gives a chain around that one.
  have havoid : ∀ {position : Nat} {seen : Array Bool}, (ahead t d seen position).Nonempty →
      (∀ i ∈ ahead t d seen (position + 1), ReachedFrom f t d c₀ (position + 1) i) →
      ∃ path, Chain f t d c₀ path ∧ position ∉ path := by
    rintro position seen ⟨i, hi⟩ hreached
    rcases mem_ahead.1 hi with ⟨hlt, u, hu, hlevel, _⟩
    exact (hreached i (ahead_succ_subset hi)).exists_avoiding hlt ht hj hanchored hd hu hlevel
  -- That marked steps ahead are reached through steps walked past is kept by every step.
  induction h with
  | @passed position _ s r _ hs hmark hrest ih =>
      intro j hkj hjp
      rcases Nat.lt_succ_iff_lt_or_eq.1 hjp with hlt | rfl
      · exact ih (fun i hi => (hreached i (ahead_succ_subset hi)).mono) j hkj hlt
      · exact havoid hrest.nonempty hreached
  | @resolved position _ s c r r₁ _ hresolved hrest ih =>
      intro j hkj hjp
      rcases Nat.lt_succ_iff_lt_or_eq.1 hjp with hlt | rfl
      · refine ih ?_ j hkj hlt
        intro i hi
        rcases hresolved.ahead_or_falsifiedBy ht hj hi with hi | hfalse
        · exact (hreached i hi).mono
        · -- It was marked by this step, and the chains to this step go on to it.
          rcases hresolved.clause with ⟨index, hreason, hc⟩
          exact (hreached _ hresolved.mem_ahead).forced hresolved.step hresolved.level_eq hreason
            hc hfalse
      · exact havoid hresolved.more hreached
  | reached _ _ _ _ =>
      intro j hkj hjp
      omega

end Walked

/-! ## Analysing a failed clause -/

section Failed

variable {a : FirstUip} {i : Nat}

/-- Of the steps of its level, those are marked that falsify a literal of the failed clause. -/
theorem mem_ahead_iff_falsifiedBy (hmet : Met t none c.literals (a.grow n).seen r.seen)
    (ha : a.Unmarked) (ht : t.Recorded n) (hd : 0 < d) (hfails : t.FailsAt c d) :
    i ∈ ahead t d r.seen t.steps.size ↔ t.FalsifiedBy d c i := by
  constructor
  · intro hi
    rcases mem_ahead.1 hi with ⟨_, u, hu, hlevel, hmark⟩
    rcases hmet.only _ hmark with hmark | ⟨l, hl, hvar⟩
    · exact absurd hmark (ha.grow n _)
    · rcases hfails.trueBy l hl with ⟨u', hu', hul, _⟩
      obtain rfl : u' = u := ht.step_unique hu' (Array.mem_of_getElem? hu)
        (by rw [hul, Literal.negate_var, hvar])
      exact ⟨u', hu, hlevel, l, hl, hul⟩
  · intro hfalse
    rcases hfalse with ⟨u, hu, rest⟩
    exact hmet.ahead ht hd ⟨u, hu, rest⟩ (Array.getElem?_eq_some_iff.1 hu).1 (by simp)

/-- The analysis of a clause that has failed above level zero finds the implication point. -/
theorem implicationPoint_of_falsifies {index : Nat} (hsound : f.Sound) (ht : t.WellFormed f.numVars)
    (hj : Justified f t) (hanchored : Anchored f t) (hc : f.clause? index = some c)
    (hfalse : t.Falsifies c) (hlevel : deepestLevel t c.literals = .ok d) (hd : 0 < d)
    (ha : a.Unmarked) :
    ∃ k s rest level vars a', a.analyse f t index =
        .ok (.asserting (.learned (s.literal.negate :: rest)) level, vars, a') ∧
      t.steps[k]? = some s ∧ s.level = d ∧ ImplicationPoint f t d c k := by
  rcases failsAt_deepestLevel ht hfalse with ⟨d', hlevel', hfails⟩
  obtain rfl : d' = d := Except.ok.inj (hlevel'.symm.trans hlevel)
  rcases analyse_resolved hsound ht hj hc hlevel hfails hd ha with
    ⟨r, k, s, r', rest, level, hok, hs, hmet, _, hwalked, _, _⟩
  have hmarked := fun i => mem_ahead_iff_falsifiedBy (i := i) hmet ha ht.toRecorded hd hfails
  refine ⟨k, s, rest, level, _, _, hok, hs, (hwalked.point hs).2.1, ?_, ?_⟩
  · rintro path ⟨i, hi, hpath⟩
    exact hwalked.mem_of_leads ht.toRecorded hj hd i ((hmarked i).2 hi) path hpath
  · intro j hkj
    rcases Nat.lt_or_ge j t.steps.size with hlt | hge
    · exact hwalked.exists_avoiding ht.toRecorded hj hanchored hd
        (fun i hi => .of_falsifiedBy ((hmarked i).1 hi)) j hkj hlt
    · -- Beyond the end of the trail there is nothing to go around.
      rcases hwalked.nonempty with ⟨i, hi⟩
      rcases mem_ahead.1 hi with ⟨hlt, u, hu, hulevel, _⟩
      exact (ReachedFrom.of_falsifiedBy ((hmarked i).1 hi)).exists_avoiding (hlt.trans_le hge)
        ht.toRecorded hj hanchored hd hu hulevel

end Failed

end FirstUip

/-! ## All along a search -/

namespace Cdcl

variable {kind : AnalyserKind} {s : Cdcl Branching}

theorem Visited.anchored (h : s.Visited kind) : Anchored s.position.formula s.position.trail := by
  cases h with
  | resting hs => exact hs.anchored
  | propagated hs hsolve hpropagate =>
      rcases propagate_eq_ok hpropagate with ⟨q, hq, rfl⟩
      have hready := hs.ready_of_solve hsolve
      rcases hready.propagate with ⟨_, _, hok, hformula, hforced, _⟩
      cases hok.symm.trans hq
      exact hready.anchored ⟨hformula, hforced⟩ (hs.solved hsolve).anchored

/-- Wherever a search is that learns at the first implication point, whatever its other components
and its history: when a clause fails above level zero, the first literal of what is learned is the
complement of a literal that lies on every chain from the clause back to the branch of its level, and
no literal that was assigned later does. -/
theorem Visited.analyse_implicationPoint {index d : Nat} {c : Clause} (h : s.Visited .firstUip)
    (hc : s.position.formula.clause? index = some c)
    (hfalse : ∀ l ∈ c.literals, s.position.trail.values.literal? l = some false)
    (hd : deepestLevel s.position.trail c.literals = .ok d) (hpos : 0 < d) :
    ∃ k step rest level vars analyser,
      s.analyser.analyse s.position.formula s.position.trail index =
        .ok (.asserting (.learned (step.literal.negate :: rest)) level, vars, analyser) ∧
      s.position.trail.steps[k]? = some step ∧ step.level = d ∧
      ImplicationPoint s.position.formula s.position.trail d c k := by
  rcases h.consistent with ⟨hconsistent, hfresh⟩
  have ht := hconsistent.wellFormed
  rcases hfresh.exists_unmarked with ⟨marks, hanalyser, hmarks⟩
  rcases FirstUip.implicationPoint_of_falsifies hconsistent.sound ht hconsistent.justified
      h.anchored hc (fun l hl => ht.literal?_eq_false.1 (hfalse l hl)) hd hpos hmarks with
    ⟨k, step, rest, level, vars, marks', hok, hpoint⟩
  refine ⟨k, step, rest, level, vars, .firstUip marks', ?_, hpoint⟩
  simp only [hanalyser, Analyser.analyse, hok]

/-- Two chains lead back from the last clause of the forking formula, through the fourth variable and
through the fifth one. They meet at the third variable, which is not the branch. -/
theorem Visited.analyse_implicationPoint_sample :
    (∃ level vars analyser, forked.analyser.analyse .forking forked.position.trail 3 =
      .ok (.asserting (.learned [⟨2, false⟩, ⟨0, false⟩]) level, vars, analyser)) ∧
    ImplicationPoint .forking forked.position.trail 2 ⟨[⟨3, false⟩, ⟨4, false⟩], false⟩ 2 := by
  have hc : Formula.forking.clause? 3 = some ⟨[⟨3, false⟩, ⟨4, false⟩], false⟩ := rfl
  rcases Visited.analyse_implicationPoint visited_forked hc (by decide) rfl (by decide) with
    ⟨k, step, rest, level, vars, analyser, hok, hs, _, hpoint⟩
  have hrun : (forked.analyser.analyse .forking forked.position.trail 3).map Prod.fst =
      .ok (.asserting (.learned [⟨2, false⟩, ⟨0, false⟩]) 1) := rfl
  have hok' := hok
  change forked.analyser.analyse .forking forked.position.trail 3 = _ at hok'
  rw [hok'] at hrun
  obtain ⟨⟨hliteral, rfl⟩, rfl⟩ :
      (step.literal.negate = ⟨2, false⟩ ∧ rest = [⟨0, false⟩]) ∧ level = 1 := by
    simpa [Except.map, Clause.learned] using hrun
  -- The point has the variable of the third step on the trail.
  have hthird : forked.position.trail.steps[2]? = some ⟨⟨2, true⟩, 2, .clause 0⟩ := rfl
  have hvar : step.literal.var = 2 := by
    rw [← Literal.negate_var, hliteral]
  obtain rfl : k = 2 :=
    visited_forked.consistent.1.wellFormed.position_unique hs hthird hvar
  rw [hliteral] at hok'
  exact ⟨⟨1, vars, analyser, hok'⟩, hpoint⟩

end Cdcl
end SatSearch
