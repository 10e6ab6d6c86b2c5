import SatSearch.Proofs.Cdcl.Lifetime

/-!
# Consequence — what the clause learned from a conflict says

Wherever a search is that learns at the first implication point, a clause that has failed above
level zero teaches a consequence of the clauses there are. It is false as it is learned, by one
literal of the level the conflict is at and otherwise by literals of lower levels, the highest of
them in the second place. So once the search steps back to that level the first literal is free, and
the only one that is not false. The variables that are rewarded are those that were met on the way,
the ones of the learned clause among them.
-/

namespace SatSearch

open Trail

/-- What a clause learned from a conflict at level `d` promises, with the level to resume at and the
variables to reward. -/
structure Consequence (f : Formula) (t : Trail) (d : Nat) (learned : Clause) (level : Nat)
    (vars : List Nat) : Prop where
  entailed : ∀ v : Valuation, (∀ c ∈ f.clauses, c.Holds v) → learned.Holds v
  nodup_vars : (learned.literals.map Literal.var).Nodup
  falsified : ∀ l ∈ learned.literals, t.values.literal? l = some false
  /-- The first literal is of the level of the conflict, and the second one of the highest of the
  levels below. Stepping back to this level frees the first literal alone. -/
  ordered : ∃ l rest, learned.literals = l :: rest ∧ t.levelOf l.var = .ok d ∧
    (∀ a ∈ rest, ∃ k, t.levelOf a.var = .ok k ∧ 1 ≤ k ∧ k ≤ d - 1 ∧ k ≤ level) ∧
    (rest = [] → level = 0) ∧ (∀ b, rest.head? = some b → t.levelOf b.var = .ok level) ∧
    ∃ t', t.backstep level = .ok t' ∧ t'.values.literal? l = none ∧
      ∀ a ∈ rest, t'.values.literal? a = some false
  nodup : vars.Nodup
  rewarded : ∀ l ∈ learned.literals, l.var ∈ vars
  above_ground : ∀ v ∈ vars, ∃ k, t.levelOf v = .ok k ∧ 0 < k

section Analysis

variable {n d level : Nat} {f : Formula} {t : Trail} {c learned : Clause}

/-! ## Analysing a failed clause -/

/-- Stepping back to the level an asserting clause resumes at. -/
theorem Asserting.backstep (h : Asserting f t d learned level) (ht : t.WellFormed n) {l : Literal}
    {rest : List Literal} (hsplit : learned.literals = l :: rest) :
    ∃ t', t.backstep level = .ok t' ∧ t'.values.literal? l = none ∧
      ∀ a ∈ rest, t'.values.literal? a = some false := by
  rcases backstep_spec ht level with ⟨t', hok, ht', hback⟩
  rcases h.split with ⟨l', rest', hsplit', ⟨s, hs, hsl, hlevel⟩, hrest, _⟩
  obtain ⟨rfl, rfl⟩ : l = l' ∧ rest = rest' := by
    simpa using hsplit.symm.trans hsplit'
  refine ⟨t', hok, ht'.literal?_eq_none.2 ?_, ?_⟩
  · have hfree := hback.free ht.toRecorded hs (hlevel ▸ h.lt)
    rwa [hsl, Literal.negate_var] at hfree
  · intro a ha
    rcases hrest a ha with ⟨u, hu, hua, _, hle⟩
    exact ht'.literal?_eq_false.2 (hback.assigns_iff.2 ⟨u, hu, hua, hle⟩)

/-- A clause that asserts its first literal, with all its variables among those that were met. -/
theorem Asserting.consequence {r : FirstUip.Resolution} (h : Asserting f t d learned level)
    (ht : t.WellFormed f.numVars) (hr : r.Tracks f.numVars t d)
    (hseen : ∀ l ∈ learned.literals, r.seen[l.var]? = some true) :
    Consequence f t d learned level r.met.toList where
  entailed := fun v hv => h.entailed v fun c hc => hv c (Formula.mem_clauses.2 (.inl hc))
  nodup_vars := h.nodup_vars
  falsified := by
    intro l hl
    -- The asserted literal is false until the search steps back, as all others are.
    rcases h.split with ⟨l', rest, hsplit, ⟨s, hs, hsl, _⟩, hrest, _⟩
    rw [hsplit] at hl
    rcases List.mem_cons.1 hl with rfl | hl
    · exact ht.literal?_eq_false.2 ⟨s, hs, hsl⟩
    · rcases hrest l hl with ⟨u, hu, hul, _⟩
      exact ht.literal?_eq_false.2 ⟨u, hu, hul⟩
  ordered := by
    rcases h.split with ⟨l, rest, hsplit, ⟨s, hs, hsl, hlevel⟩, hrest, hnil, hhead⟩
    have hlt := h.lt
    refine ⟨l, rest, hsplit, hlevel ▸ ht.levelOf_negate hs hsl, ?_, hnil, ?_,
      h.backstep ht hsplit⟩
    · intro a ha
      rcases hrest a ha with ⟨u, hu, hua, hpos, hle⟩
      exact ⟨u.level, ht.levelOf_negate hu hua, hpos, by omega, hle⟩
    · intro b hb
      rcases hhead b hb with ⟨u, hu, hub, rfl⟩
      exact ht.levelOf_negate hu hub
  nodup := hr.nodup_met
  rewarded := fun l hl => Array.mem_toList_iff.2 ((hr.mem_met l.var).2 (hseen l hl))
  above_ground := by
    intro v hv
    rcases hr.marked v ((hr.mem_met v).1 (Array.mem_toList_iff.1 hv)) with ⟨s, hs, rfl, hpos, _⟩
    exact ⟨s.level, ht.levelOf_step hs, hpos⟩

/-- Analysing a clause that has failed above level zero. -/
theorem FirstUip.consequence_of_falsifies {a : FirstUip} {index : Nat} (hsound : f.Sound)
    (ht : t.WellFormed f.numVars) (hj : Justified f t) (hc : f.clause? index = some c)
    (hfalse : t.Falsifies c) (hlevel : deepestLevel t c.literals = .ok d) (hpos : 0 < d)
    (ha : a.Unmarked) :
    ∃ learned level vars a', a.analyse f t index = .ok (.asserting learned level, vars, a') ∧
      Consequence f t d learned level vars := by
  rcases failsAt_deepestLevel ht hfalse with ⟨d', hlevel', hfails⟩
  obtain rfl : d' = d := Except.ok.inj (hlevel'.symm.trans hlevel)
  rcases analyse_resolved hsound ht hj hc hlevel hfails hpos ha with
    ⟨r, k, s, r', rest, level, hok, hs, _, hr, hwalked, hperm, hasserting⟩
  have hr' := hwalked.tracks hr
  refine ⟨_, _, _, _, hok, hasserting.consequence ht hr' ?_⟩
  -- The implication point is marked, and so is what was collected.
  intro l hl
  rcases List.mem_cons.1 hl with rfl | hl
  · exact (hwalked.point hs).2.2
  · exact ((hr'.mem_lower l).1 (Array.mem_toList_iff.1 (hperm.mem_iff.1 hl))).1

end Analysis

/-! ## All along a search -/

/-- Four clauses over five variables: the second variable implies the third one, which implies the
fifth one and, together with the first one, the fourth one; and not the fourth and the fifth one. -/
def Formula.forking : Formula :=
  ⟨5, #[⟨[⟨1, false⟩, ⟨2, true⟩], false⟩, ⟨[⟨0, false⟩, ⟨2, false⟩, ⟨3, true⟩], false⟩,
    ⟨[⟨2, false⟩, ⟨4, true⟩], false⟩, ⟨[⟨3, false⟩, ⟨4, false⟩], false⟩], #[]⟩

theorem Formula.built_forking : forking.Built :=
  .ofSigned (show Formula.ofSigned [[-2, 3], [-1, -3, 4], [-3, 5], [-4, -5]] = .ok forking by rfl)

namespace Cdcl

variable {kind : AnalyserKind} {s : Cdcl Branching}

/-- Where a search is all its lifetime: between the rounds of its calls or after them, and in a round
that has propagated. -/
inductive Visited (kind : AnalyserKind) : Cdcl Branching → Prop
  | resting {s : Cdcl Branching} : s.Lifetime Branching.Fresh kind → Visited kind s
  | propagated {s s₁ s' : Cdcl Branching} {fuel : Nat} {o : Outcome} :
      s.Lifetime Branching.Fresh kind → s.solve fuel = .ok (none, s₁) →
      s₁.propagate = .ok (o, s') → Visited kind s'

/-- Propagating concerns the position only. -/
theorem propagate_eq_ok {σ : Type} {s s' : Cdcl σ} {o : Outcome} (h : s.propagate = .ok (o, s')) :
    ∃ q, s.position.propagate = .ok (o, q) ∧ s' = { s with position := q } := by
  rcases s with ⟨p, selector, analyser, restarter, conflicts, decisions, budget⟩
  simp only [propagate] at h
  split at h
  · cases h
  · rename_i outcome q hpropagate
    cases h
    exact ⟨q, hpropagate, rfl⟩

theorem Visited.consistent (h : s.Visited kind) :
    s.position.Consistent ∧ s.analyser.Fresh kind := by
  cases h with
  | resting hs =>
      rcases hs.exists_regular with ⟨n, hregular⟩
      exact ⟨hregular.position.toConsistent, hregular.analyser⟩
  | @propagated _ _ _ _ o hs hsolve hpropagate =>
      rcases (hs.solved hsolve).exists_regular with ⟨n, hregular⟩
      rcases propagate_eq_ok hpropagate with ⟨q, hq, rfl⟩
      rcases (hs.ready_of_solve hsolve).propagate with ⟨_, _, hok, _, _, hend⟩
      cases hok.symm.trans hq
      refine ⟨?_, hregular.analyser⟩
      cases o with
      | fixpoint => exact hend.toConsistent
      | conflict i => exact hend.1.toConsistent

/-- Wherever a search is that learns at the first implication point, whatever its other components
and its history: the analysis of a clause whose literals are all false, above level zero, learns a
consequence to be asserted. -/
theorem Visited.analyse_consequence {index d : Nat} {c : Clause} (h : s.Visited .firstUip)
    (hc : s.position.formula.clause? index = some c)
    (hfalse : ∀ l ∈ c.literals, s.position.trail.values.literal? l = some false)
    (hd : deepestLevel s.position.trail c.literals = .ok d) (hpos : 0 < d) :
    ∃ learned level vars analyser, s.analyser.analyse s.position.formula s.position.trail index =
        .ok (.asserting learned level, vars, analyser) ∧
      Consequence s.position.formula s.position.trail d learned level vars := by
  rcases h.consistent with ⟨hconsistent, hfresh⟩
  have ht := hconsistent.wellFormed
  rcases hfresh.exists_unmarked with ⟨marks, hanalyser, hmarks⟩
  rcases FirstUip.consequence_of_falsifies hconsistent.sound ht hconsistent.justified hc
      (fun l hl => ht.literal?_eq_false.1 (hfalse l hl)) hd hpos hmarks with
    ⟨learned, level, vars, marks', hok, hconsequence⟩
  refine ⟨learned, level, vars, .firstUip marks', ?_, hconsequence⟩
  simp only [hanalyser, Analyser.analyse, hok]

/-- A search over the forking formula that reads every clause. -/
def forking : Cdcl Branching :=
  .start ⟨.forking, .scan, .empty 5, 0⟩ (.fixedOrder ⟨5⟩) (.build .firstUip 5) (.start (.fixed 100))

theorem lifetime_forking : forking.Lifetime Branching.Fresh .firstUip :=
  have hp : Position.ofFormula .scan .forking = .ok forking.position := rfl
  .started Formula.built_forking hp .fixedOrder

/-- The first two variables are decided, and propagating has given the others their values. -/
def forked : Cdcl Branching :=
  ⟨⟨.forking, .scan, ⟨#[⟨⟨0, true⟩, 1, .decision⟩, ⟨⟨1, true⟩, 2, .decision⟩,
      ⟨⟨2, true⟩, 2, .clause 0⟩, ⟨⟨3, true⟩, 2, .clause 1⟩, ⟨⟨4, true⟩, 2, .clause 2⟩], #[0, 1],
    #[some ⟨1, .decision⟩, some ⟨2, .decision⟩, some ⟨2, .clause 0⟩, some ⟨2, .clause 1⟩,
      some ⟨2, .clause 2⟩], ⟨Array.replicate 5 (some true), 5⟩, 5⟩, 3⟩,
    .fixedOrder ⟨5⟩, .build .firstUip 5, .start (.fixed 100), 0, 2, .unlimited⟩

theorem visited_forked : forked.Visited .firstUip := by
  have hrun : ((forking.solve 2).bind fun r => r.2.propagate.map fun r' => (r.1, r'.2)) =
      .ok (none, forked) := rfl
  rcases exists_of_bind_eq_ok hrun with ⟨⟨answer, s₁⟩, hsolve, hmap⟩
  rcases exists_of_map_eq_ok hmap with ⟨⟨o, s⟩, hpropagate, heq⟩
  cases heq
  exact .propagated lifetime_forking hsolve hpropagate

/-- The clause that says that the fourth and the fifth variable are not both true fails at level two.
The third variable implies both, so what is learned says that it is false if the first one is
true. -/
theorem Visited.analyse_consequence_sample :
    (∃ analyser, forked.analyser.analyse .forking forked.position.trail 3 =
      .ok (.asserting ⟨[⟨2, false⟩, ⟨0, false⟩], true⟩ 1, [3, 4, 2, 0], analyser)) ∧
    Consequence .forking forked.position.trail 2 ⟨[⟨2, false⟩, ⟨0, false⟩], true⟩ 1 [3, 4, 2, 0] := by
  have hc : Formula.forking.clause? 3 = some ⟨[⟨3, false⟩, ⟨4, false⟩], false⟩ := rfl
  rcases Visited.analyse_consequence visited_forked hc (by decide) rfl (by decide) with
    ⟨learned, level, vars, analyser, hok, hconsequence⟩
  cases hok
  exact ⟨⟨_, rfl⟩, hconsequence⟩

end Cdcl
end SatSearch
