import SatSearch.Proofs.Conflict.Marks
import SatSearch.Proofs.Conflict.Walk

/-!
# FirstUip — the clause learned at the first unique implication point

The complement of the implication point comes first, then a literal of the highest of the lower
levels, then the others. The clause is entailed, and at that level it asserts its first literal.
-/

namespace SatSearch

open Trail

namespace FirstUip

variable {n d : Nat} {f : Formula} {t : Trail} {c : Clause} {a : FirstUip} {point : Literal}

/-! ## The order of the literals -/

theorem lastDeepest_spec (ht : t.WellFormed n) (ls : List Literal) :
    ∀ (best : Nat × Nat) (position : Nat), (∀ l ∈ ls, t.Assigns l.negate) →
      ∃ p level, lastDeepest t best position ls = .ok (p, level) ∧ best.2 ≤ level ∧
        (∀ l ∈ ls, t.TrueBy level l.negate) ∧
        ((p, level) = best ∨ ∃ j l, p = position + j ∧ ls[j]? = some l ∧
          ∃ s ∈ t.steps, s.literal = l.negate ∧ s.level = level) := by
  -- The best position so far is kept as an alternative all along.
  induction ls with
  | nil =>
      intro best position _
      exact ⟨best.1, best.2, rfl, le_rfl, by simp, .inl rfl⟩
  | cons l ls ih =>
      intro best position hls
      rcases hls l List.mem_cons_self with ⟨s, hs, hsl⟩
      have hlevel := ht.levelOf_negate hs hsl
      rcases ih (if best.2 ≤ s.level then (position, s.level) else best) (position + 1)
          fun a ha => hls a (List.mem_cons_of_mem l ha) with
        ⟨p, level, hok, hle, hall, hfrom⟩
      refine ⟨p, level, by simp only [lastDeepest, hlevel, hok], ?_, ?_, ?_⟩
      · split at hle <;> omega
      · intro a ha
        rcases List.mem_cons.1 ha with rfl | ha
        · refine ⟨s, hs, hsl, ?_⟩
          split at hle <;> omega
        · exact hall a ha
      · rcases hfrom with hbest | ⟨j, a, hp, ha, rest⟩
        · split at hbest
          · cases hbest
            exact .inr ⟨0, l, rfl, rfl, s, hs, hsl, rfl⟩
          · exact .inl hbest
        · exact .inr ⟨j + 1, a, by omega, by simpa using ha, rest⟩

/-- Of literals that were falsified above level zero, the position found is one of theirs, and its
literal was falsified at the highest of their levels. -/
theorem exists_lastDeepest {lower : Array Literal} (ht : t.WellFormed n)
    (hlower : ∀ l ∈ lower, ∃ s ∈ t.steps, s.literal = l.negate ∧ 0 < s.level ∧ s.level < d)
    (hne : lower.isEmpty = false) :
    ∃ position level l, lastDeepest t (0, 0) 0 lower.toList = .ok (position, level) ∧
      lower[position]? = some l ∧ (∃ s ∈ t.steps, s.literal = l.negate ∧ s.level = level) ∧
      ∀ l ∈ lower, t.TrueBy level l.negate := by
  have hfalse : ∀ l ∈ lower.toList, t.Assigns l.negate := by
    intro l hl
    rcases hlower l (Array.mem_toList_iff.1 hl) with ⟨s, hs, hsl, _⟩
    exact ⟨s, hs, hsl⟩
  rcases lastDeepest_spec ht lower.toList (0, 0) 0 hfalse with
    ⟨position, level, hok, _, hall, hfrom⟩
  have hall : ∀ l ∈ lower, t.TrueBy level l.negate :=
    fun l hl => hall l (Array.mem_toList_iff.2 hl)
  rcases hfrom with hzero | ⟨j, l, hp, hj, hstep⟩
  · -- All levels are above zero, so the start value is not what was found.
    obtain ⟨l, hl⟩ : ∃ l, l ∈ lower := by
      by_contra hnone
      have hempty : lower = #[] :=
        Array.eq_empty_iff_forall_not_mem.2 fun l hl => hnone ⟨l, hl⟩
      rw [hempty] at hne
      cases hne
    rcases hall l hl with ⟨s, hs, hsl, hle⟩
    rcases hlower l hl with ⟨s', hs', hs'l, hpos, _⟩
    obtain rfl : s = s' := ht.step_unique hs hs' (by simp [hsl, hs'l])
    cases hzero
    omega
  · refine ⟨position, level, l, hok, ?_, hstep, hall⟩
    rw [hp, Nat.zero_add, ← Array.getElem?_toList, hj]

/-- Swapping puts the literal at a position first. -/
theorem swap_spec {lower : Array Literal} {position : Nat} {l : Literal}
    (hl : lower[position]? = some l) :
    ((lower.swapIfInBounds 0 position).toList).Perm lower.toList ∧
      (lower.swapIfInBounds 0 position).toList.head? = some l := by
  rcases Array.getElem?_eq_some_iff.1 hl with ⟨hlt, rfl⟩
  have hpos : 0 < lower.size := by omega
  constructor
  · rw [Array.swapIfInBounds_def, dif_pos hpos, dif_pos hlt]
    exact (Array.swap_perm hpos hlt).toList
  · rw [List.head?_eq_getElem?, Array.getElem?_toList,
      Array.getElem?_eq_getElem (by simpa using hpos), Array.getElem_swapIfInBounds_left hlt]

/-- The complement of the point, then the literals collected, the first of them of the highest
level. -/
theorem clauseOf_spec {lower : Array Literal} (point : Literal) (ht : t.WellFormed n)
    (hlower : ∀ l ∈ lower, ∃ s ∈ t.steps, s.literal = l.negate ∧ 0 < s.level ∧ s.level < d)
    (hd : 0 < d) :
    ∃ rest level, clauseOf t point lower = .ok (.learned (point.negate :: rest), level) ∧
      rest.Perm lower.toList ∧ level < d ∧ (∀ l ∈ rest, t.TrueBy level l.negate) ∧
      (rest = [] → level = 0) ∧
      ∀ b, rest.head? = some b → ∃ s ∈ t.steps, s.literal = b.negate ∧ s.level = level := by
  unfold clauseOf
  cases hempty : lower.isEmpty with
  | true =>
      have hnil : lower.toList = [] := by simpa using hempty
      exact ⟨[], 0, rfl, by rw [hnil], hd, by simp, fun _ => rfl, by simp⟩
  | false =>
      rcases exists_lastDeepest ht hlower hempty with
        ⟨position, level, l, hok, hl, ⟨s, hs, hsl, hlevel⟩, hall⟩
      rcases swap_spec hl with ⟨hperm, hhead⟩
      -- The literal falsified last comes first after the swap; its level is the one to return to.
      refine ⟨(lower.swapIfInBounds 0 position).toList, level, by simp only [hok]; rfl, hperm, ?_,
        ?_, ?_, ?_⟩
      · rcases hlower l (Array.mem_of_getElem? hl) with ⟨s', hs', hs'l, _, hlt⟩
        obtain rfl : s = s' := ht.step_unique hs hs' (by simp [hsl, hs'l])
        omega
      · intro b hb
        exact hall b (Array.mem_toList_iff.1 (hperm.mem_iff.1 hb))
      · intro hnil
        rw [hnil] at hhead
        cases hhead
      · intro b hb
        rw [hhead] at hb
        cases hb
        exact ⟨s, hs, hsl, hlevel⟩

/-! ## Analysing -/

/-- The variables of the learned clause are pairwise different: the point is the only one of its
level, and the others were collected once each. -/
theorem nodup_vars {rest : List Literal} (ht : t.WellFormed n)
    (hpoint : ∃ s ∈ t.steps, s.literal = point ∧ s.level = d) (hnodup : rest.Nodup)
    (hrest : ∀ l ∈ rest, ∃ s ∈ t.steps, s.literal = l.negate ∧ s.level < d) :
    ((point.negate :: rest).map Literal.var).Nodup := by
  rcases hpoint with ⟨s, hs, hsl, hlevel⟩
  rw [List.map_cons, List.nodup_cons]
  constructor
  · intro hmem
    rcases List.mem_map.1 hmem with ⟨l, hl, hv⟩
    rcases hrest l hl with ⟨s', hs', hs'l, hlt⟩
    -- The same variable would have the same step, which is of one level only.
    obtain rfl : s = s' := ht.step_unique hs hs' (by simpa [hsl, hs'l] using hv.symm)
    omega
  · refine hnodup.map_on ?_
    intro l hl l' hl' hv
    rcases hrest l hl with ⟨s₁, hs₁, hs₁l, _⟩
    rcases hrest l' hl' with ⟨s₂, hs₂, hs₂l, _⟩
    obtain rfl : s₁ = s₂ := ht.step_unique hs₁ hs₂ (by simp [hs₁l, hs₂l, hv])
    exact Literal.negate_inj.1 (hs₁l.symm.trans hs₂l)

/-- What resolution ends with, made a clause, is asserting. -/
theorem asserting_of_tracks {r : Resolution} {rest : List Literal} {level : Nat}
    (ht : t.WellFormed f.numVars) (hr : r.Tracks f.numVars t d)
    (hpoint : ∃ s ∈ t.steps, s.literal = point ∧ s.level = d)
    (hentails : ∀ V, f.Holds V → (∃ l ∈ r.lower, l.Holds V) ∨ ¬ point.Holds V)
    (hperm : rest.Perm r.lower.toList) (hlt : level < d)
    (htrue : ∀ l ∈ rest, t.TrueBy level l.negate) (hnil : rest = [] → level = 0)
    (hhead : ∀ b, rest.head? = some b → ∃ s ∈ t.steps, s.literal = b.negate ∧ s.level = level) :
    Asserting f t d (.learned (point.negate :: rest)) level := by
  have hmem : ∀ l, l ∈ rest ↔ l ∈ r.lower := by
    intro l
    rw [hperm.mem_iff, Array.mem_toList_iff]
  have hlower : ∀ l ∈ rest, ∃ s ∈ t.steps, s.literal = l.negate ∧ 0 < s.level ∧ s.level < d :=
    fun l hl => ((hr.mem_lower l).1 ((hmem l).1 hl)).2
  refine ⟨?_, ?_, ?_, hlt, point.negate, rest, rfl, ?_, ?_, hnil, hhead⟩
  · intro l hl
    rcases List.mem_cons.1 hl with rfl | hl
    · rcases hpoint with ⟨s, hs, rfl, _⟩
      exact ht.var_lt hs
    · rcases hlower l hl with ⟨s, hs, hsl, _⟩
      have := ht.var_lt hs
      rwa [hsl] at this
  · refine nodup_vars ht hpoint (hperm.nodup_iff.2 hr.nodup_lower) ?_
    intro l hl
    rcases hlower l hl with ⟨s, hs, hsl, _, hlow⟩
    exact ⟨s, hs, hsl, hlow⟩
  · -- A collected literal or the complement of the point holds, and the clause has both.
    intro V hV
    rcases hentails V hV with ⟨l, hl, hholds⟩ | hnot
    · exact ⟨l, List.mem_cons_of_mem _ ((hmem l).2 hl), hholds⟩
    · exact ⟨point.negate, List.mem_cons_self, Literal.holds_negate.2 hnot⟩
  · rcases hpoint with ⟨s, hs, hsl, hlevel⟩
    exact ⟨s, hs, by simpa using hsl, hlevel⟩
  · intro l hl
    rcases hlower l hl with ⟨s, hs, hsl, hpos, _⟩
    rcases htrue l hl with ⟨s', hs', hs'l, hle⟩
    obtain rfl : s = s' := ht.step_unique hs hs' (by simp [hsl, hs'l])
    exact ⟨s, hs, hsl, hpos, hle⟩

/-- The literals of a failed clause are false somewhere on the trail. -/
theorem exists_position (hfails : t.FailsAt c d) : ∀ l ∈ c.literals,
    ∃ j < t.steps.size, ∃ s, t.steps[j]? = some s ∧ s.literal = l.negate ∧ s.level ≤ d := by
  intro l hl
  rcases hfails.trueBy l hl with ⟨s, hs, hsl, hle⟩
  rcases Array.mem_iff_getElem?.1 hs with ⟨j, hj⟩
  exact ⟨j, (Array.getElem?_eq_some_iff.1 hj).1, s, hj, hsl, hle⟩

/-- Above level zero the resolution of a failed clause ends at the implication point of the
level. -/
theorem resolve_spec (ht : t.WellFormed f.numVars) (htrace : t.Traceable f)
    (hfails : t.FailsAt c d) (hd : 0 < d) (ha : a.Unmarked) :
    ∃ r k s r', meet t d none c.literals ⟨(a.grow f.numVars).seen, #[], #[], 0⟩ = .ok r ∧
      walk f t d t.length r = .ok (s.literal, r') ∧ t.steps[k]? = some s ∧
      Met t none c.literals (a.grow f.numVars).seen r.seen ∧ r.Tracks f.numVars t d ∧
      Walked f t d t.length r k r' := by
  have hgrow := ha.grow f.numVars
  have hstart := Resolution.Tracks.start (t := t) (d := d) (size_grow a f.numVars) hgrow
  have hnone : ahead t d (a.grow f.numVars).seen t.steps.size = ∅ := by
    ext j
    simp [mem_ahead, hgrow _]
  rcases meet_spec ht none c.literals _ hstart (by rw [hnone, Finset.card_empty])
      fun l hl _ => exists_position hfails l hl with
    ⟨r, hmeet, hr, hpending, hmet⟩
  -- The literal of the conflict level is pending.
  have hpos : 0 < r.pending := by
    rcases hfails.reached hd with ⟨l, hl, s, hs, hsl, hlevel⟩
    rcases Array.mem_iff_getElem?.1 hs with ⟨j, hj⟩
    rw [hpending, Finset.card_pos]
    rcases hmet.all l hl (by simp) with hseen | ⟨s', hs', hs'l, hzero⟩
    · exact ⟨j, mem_ahead.2 ⟨(Array.getElem?_eq_some_iff.1 hj).1, s, hj, hlevel,
        by simpa [hsl] using hseen⟩⟩
    · obtain rfl : s = s' := ht.step_unique hs hs' (by simp [hsl, hs'l])
      omega
  rcases walk_spec ht htrace t.steps.size r le_rfl hr hpos hpending with
    ⟨k, s, r', hwalk, hs, hwalked⟩
  exact ⟨r, k, s, r', hmeet, hwalk, hs, hmet, hr, hwalked⟩

/-- What the resolution ends with follows from the formula. -/
theorem Walked.entails_of_fails {seen : Array Bool} {r r' : Resolution} {k : Nat} {s : Step}
    (h : Walked f t d t.length r k r') (hs : t.steps[k]? = some s)
    (hmet : Met t none c.literals seen r.seen) (hr : r.Tracks f.numVars t d) (hsound : f.Sound)
    (ht : t.WellFormed f.numVars) (hj : Justified f t) (hc : c ∈ f.clauses)
    (hfails : t.FailsAt c d) :
    ∀ V, f.Holds V → (∃ l ∈ r'.lower, l.Holds V) ∨ ¬ s.literal.Holds V := by
  intro V hV
  refine h.entails hs hsound ht hj hV hr ?_
  rcases hsound.holds_clauses hV c hc with ⟨l, hl, hholds⟩
  rcases exists_position hfails l hl with ⟨j, hlt, s', hs', hsl, hle⟩
  exact hr.covers (fun _ => hj.holds_of_ground ht.toLevelled hsound hV) hholds hlt hs' hsl hle
    (hmet.all l hl (by simp))

/-- Above level zero the analysis asserts the complement of the implication point, beside the
literals that were collected, the first of them of the level to resume at, and names the variables
that were met. -/
theorem analyse_asserts {index : Nat} (ht : t.WellFormed f.numVars) (htrace : t.Traceable f)
    (hc : f.clause? index = some c) (hlevel : deepestLevel t c.literals = .ok d)
    (hfails : t.FailsAt c d) (hd : 0 < d) (ha : a.Unmarked) :
    ∃ r k s r' rest level, a.analyse f t index = .ok (.asserting (.learned
        (s.literal.negate :: rest)) level, r'.met.toList, ⟨unmark r'.seen r'.met.toList⟩) ∧
      t.steps[k]? = some s ∧ Met t none c.literals (a.grow f.numVars).seen r.seen ∧
      r.Tracks f.numVars t d ∧ Walked f t d t.length r k r' ∧ rest.Perm r'.lower.toList ∧
      level < d ∧ (∀ l ∈ rest, t.TrueBy level l.negate) ∧ (rest = [] → level = 0) ∧
      ∀ b, rest.head? = some b → ∃ s ∈ t.steps, s.literal = b.negate ∧ s.level = level := by
  rcases resolve_spec ht htrace hfails hd ha with
    ⟨r, k, s, r', hmeet, hwalk, hs, hmet, hr, hwalked⟩
  have hassigned := fun l hl => (((hwalked.tracks hr).mem_lower l).1 hl).2
  rcases clauseOf_spec s.literal ht hassigned hd with ⟨rest, level, hclause, hlower⟩
  refine ⟨r, k, s, r', rest, level, ?_, hs, hmet, hr, hwalked, hlower⟩
  cases d with
  | zero => exact absurd hd (lt_irrefl 0)
  | succ d => simp only [analyse, hc, hlevel, hmeet, hwalk, hclause]

/-- What is asserted above level zero follows from the formula. -/
theorem analyse_resolved {index : Nat} (hsound : f.Sound) (ht : t.WellFormed f.numVars)
    (hj : Justified f t) (hc : f.clause? index = some c)
    (hlevel : deepestLevel t c.literals = .ok d) (hfails : t.FailsAt c d) (hd : 0 < d)
    (ha : a.Unmarked) :
    ∃ r k s r' rest level, a.analyse f t index = .ok (.asserting (.learned
        (s.literal.negate :: rest)) level, r'.met.toList, ⟨unmark r'.seen r'.met.toList⟩) ∧
      t.steps[k]? = some s ∧ Met t none c.literals (a.grow f.numVars).seen r.seen ∧
      r.Tracks f.numVars t d ∧ Walked f t d t.length r k r' ∧ rest.Perm r'.lower.toList ∧
      Asserting f t d (.learned (s.literal.negate :: rest)) level := by
  rcases analyse_asserts ht hj.traceable hc hlevel hfails hd ha with
    ⟨r, k, s, r', rest, level, hok, hs, hmet, hr, hwalked, hperm, hlt, htrue, hnil, hhead⟩
  have hpoint : ∃ u ∈ t.steps, u.literal = s.literal ∧ u.level = d :=
    ⟨s, Array.mem_of_getElem? hs, rfl, (hwalked.point hs).2.1⟩
  have hentails := hwalked.entails_of_fails hs hmet hr hsound ht hj (Formula.mem_of_clause? hc)
    hfails
  exact ⟨r, k, s, r', rest, level, hok, hs, hmet, hr, hwalked, hperm,
    asserting_of_tracks ht (hwalked.tracks hr) hpoint hentails hperm hlt htrue hnil hhead⟩

/-- The analysis fits the conflict, names variables of the formula, and leaves no mark. -/
theorem analyse_spec {index : Nat} (hf : f.Proper) (hsound : f.Sound)
    (ht : t.WellFormed f.numVars) (hj : Justified f t) (hc : f.clause? index = some c)
    (hfalse : t.Falsifies c) (ha : a.Unmarked) :
    ∃ analysis vars a', a.analyse f t index = .ok (analysis, vars, a') ∧ a'.Unmarked ∧
      (∀ v ∈ vars, v < f.numVars) ∧ analysis.Fits f t c ∧
      ∀ learned level, analysis ≠ .retry learned level := by
  rcases failsAt_deepestLevel ht hfalse with ⟨d, hd, hfails⟩
  rcases Nat.eq_zero_or_pos d with rfl | hpos
  · refine ⟨.ground, c.literals.map Literal.var, a.grow f.numVars, by simp only [analyse, hc, hd],
      ha.grow f.numVars, ?_, hfails, by simp⟩
    intro v hv
    rcases List.mem_map.1 hv with ⟨l, hl, rfl⟩
    exact (hf c (Formula.mem_of_clause? hc)).inRange l hl
  · rcases analyse_resolved hsound ht hj hc hd hfails hpos ha with
      ⟨r, k, s, r', rest, level, hok, _, _, hr, hwalked, _, hasserting⟩
    have hr' := hwalked.tracks hr
    refine ⟨_, _, _, hok, ha.analyse hok, ?_, ⟨d, hfails, hasserting⟩, by simp⟩
    intro v hv
    rcases hr'.marked v ((hr'.mem_met v).1 (Array.mem_toList_iff.1 hv)) with ⟨u, hu, rfl, _⟩
    exact ht.var_lt hu

end FirstUip
end SatSearch
