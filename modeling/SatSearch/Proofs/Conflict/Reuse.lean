import SatSearch.Proofs.Cdcl.Learning
import SatSearch.Proofs.Search.Consequence

/-!
# Reuse — one analyser for many conflicts

An analyser is built once and used for every conflict of a search. It might as well be built anew
for each of them: whatever conflicts it has analysed, over whatever formulas, the next one comes to
what it comes to for an analyser that was just built, and no mark is left. A conflict whose trail can
be traced back, on a clause that is false, does come to something, and all conflicts of a search are
of this kind.
-/

namespace SatSearch

open Trail

namespace FirstUip

variable {a : FirstUip} {x : Conflict}

/-! ## One conflict -/

/-- With no mark set an analyser is as good as one that was built for any number of variables. -/
theorem Unmarked.answer_eq (ha : a.Unmarked) (hx : x.trail.Recorded x.formula.numVars) (m : Nat) :
    a.answer x = (empty m).answer x := by
  rw [ha.eq_empty, answer_empty _ hx, answer_empty m hx]

/-- A clause is false under a trail that can be traced back. -/
structure Conflict.Arises (x : Conflict) : Prop where
  wellFormed : x.trail.WellFormed x.formula.numVars
  traceable : x.trail.Traceable x.formula
  falsified : ∃ c, x.formula.clause? x.index = some c ∧
    ∀ l ∈ c.literals, x.trail.values.literal? l = some false

theorem Conflict.Arises.exists_answer (h : x.Arises) (ha : a.Unmarked) :
    ∃ analysis vars a', a.analyse x.formula x.trail x.index = .ok (analysis, vars, a') := by
  have ht := h.wellFormed
  rcases h.falsified with ⟨c, hc, hvalue⟩
  have hfalse : x.trail.Falsifies c := fun l hl => ht.literal?_eq_false.1 (hvalue l hl)
  rcases failsAt_deepestLevel ht hfalse with ⟨d, hd, hfails⟩
  rcases Nat.eq_zero_or_pos d with rfl | hpos
  · exact ⟨_, _, _, by simp only [analyse, hc, hd]; rfl⟩
  · rcases analyse_asserts ht h.traceable hc hd hfails hpos ha with
      ⟨_, _, _, _, _, _, hok, _⟩
    exact ⟨_, _, _, hok⟩

/-! ## Any number of conflicts -/

/-- Analyses conflicts one after the other, each with the analyser that the one before has left, and
tells what each comes to and which analyser is left in the end. -/
def analyseAll : List Conflict → FirstUip →
    Except Fault (List (Analysis × List Nat) × FirstUip)
  | [], a => .ok ([], a)
  | x :: xs, a =>
    match a.analyse x.formula x.trail x.index with
    | .error e => .error e
    | .ok (analysis, vars, a) =>
      match analyseAll xs a with
      | .error e => .error e
      | .ok (answers, a) => .ok ((analysis, vars) :: answers, a)

theorem Unmarked.analyseAll (xs : List Conflict) : ∀ a : FirstUip, a.Unmarked →
    ∀ answers a', FirstUip.analyseAll xs a = .ok (answers, a') → a'.Unmarked := by
  induction xs with
  | nil =>
      intro a ha answers a' h
      cases h
      exact ha
  | cons x xs ih =>
      intro a ha answers a' h
      simp only [FirstUip.analyseAll] at h
      split at h
      · cases h
      · rename_i hok
        split at h
        · cases h
        · rename_i hrest
          cases h
          exact ih _ (ha.analyse hok) _ _ hrest

/-- What conflicts come to one after the other is what each comes to for a new analyser. -/
theorem fst_analyseAll (size : Conflict → Nat) (xs : List Conflict) : ∀ a : FirstUip, a.Unmarked →
    (∀ x ∈ xs, x.trail.Recorded x.formula.numVars) →
    (analyseAll xs a).map Prod.fst = xs.mapM fun x => (empty (size x)).answer x := by
  induction xs with
  | nil =>
      intro a _ _
      rfl
  | cons x xs ih =>
      intro a ha hxs
      rw [List.mapM_cons, ← ha.answer_eq (hxs x List.mem_cons_self) (size x), answer]
      simp only [analyseAll]
      cases hok : a.analyse x.formula x.trail x.index with
      | error e => rfl
      | ok result =>
          rcases result with ⟨analysis, vars, a'⟩
          rw [← ih a' (ha.analyse hok) fun y hy => hxs y (List.mem_cons_of_mem x hy)]
          dsimp only
          cases analyseAll xs a' with
          | error e => rfl
          | ok result => rfl

theorem exists_analyseAll (xs : List Conflict) : ∀ a : FirstUip, a.Unmarked →
    (∀ x ∈ xs, x.Arises) → ∃ answers a', analyseAll xs a = .ok (answers, a') := by
  induction xs with
  | nil =>
      intro a _ _
      exact ⟨[], a, rfl⟩
  | cons x xs ih =>
      intro a ha hxs
      rcases (hxs x List.mem_cons_self).exists_answer ha with ⟨analysis, vars, a₁, hok⟩
      rcases ih a₁ (ha.analyse hok) fun y hy => hxs y (List.mem_cons_of_mem x hy) with
        ⟨answers, a', hrest⟩
      exact ⟨(analysis, vars) :: answers, a', by simp only [analyseAll, hok, hrest]⟩

/-- Conflicts that are analysed with one analyser, built for any number of variables, over formulas
of any sizes and under trails whose tables say what their steps say: each comes to what it comes to
for an analyser that was just built, a fault included, and no variable is marked after any of them.
None ends in a fault if each is on a clause that is false under a trail that can be traced back. -/
theorem analyseAll_memoryless (n : Nat) (xs : List Conflict)
    (hxs : ∀ x ∈ xs, x.trail.Recorded x.formula.numVars) :
    (∀ size : Conflict → Nat, (analyseAll xs (empty n)).map Prod.fst =
      xs.mapM fun x => (empty (size x)).answer x) ∧
    (∀ k answers a, analyseAll (xs.take k) (empty n) = .ok (answers, a) → a.Unmarked) ∧
    ((∀ x ∈ xs, x.Arises) → ∃ answers a, analyseAll xs (empty n) = .ok (answers, a)) := by
  have hn := unmarked_empty n
  refine ⟨fun size => fst_analyseAll size xs _ hn hxs, ?_, exists_analyseAll xs _ hn⟩
  intro k answers a hok
  exact hn.analyseAll (xs.take k) _ answers a hok

/-- In the forking formula the clause over the fourth and the fifth variable fails. -/
def Conflict.forked : Conflict :=
  ⟨.forking, Cdcl.forked.position.trail, 3⟩

/-- Of two clauses that refute the first variable, the second one fails when it is chosen. -/
def Conflict.refuted : Conflict :=
  ⟨.refuting, ⟨#[⟨⟨0, true⟩, 1, .decision⟩, ⟨⟨1, true⟩, 1, .clause 0⟩], #[0],
    #[some ⟨1, .decision⟩, some ⟨1, .clause 0⟩], ⟨#[some true, some true], 2⟩, 1⟩, 1⟩

end FirstUip

/-- The conflicts of a search are such that they are analysed. -/
theorem Cdcl.Visited.arises {kind : AnalyserKind} {s : Cdcl Branching} {index : Nat} {c : Clause}
    (h : s.Visited kind) (hc : s.position.formula.clause? index = some c)
    (hfalse : ∀ l ∈ c.literals, s.position.trail.values.literal? l = some false) :
    FirstUip.Conflict.Arises ⟨s.position.formula, s.position.trail, index⟩ where
  wellFormed := h.consistent.1.wellFormed
  traceable := h.consistent.1.justified.traceable
  falsified := ⟨c, hc, hfalse⟩

namespace FirstUip

theorem Conflict.arises_forked : Conflict.forked.Arises :=
  have hc : Formula.forking.clause? 3 = some ⟨[⟨3, false⟩, ⟨4, false⟩], false⟩ := rfl
  Cdcl.visited_forked.arises hc (by decide)

theorem Conflict.arises_refuted : Conflict.refuted.Arises := by
  have hrun : ((Cdcl.refuting.solve 1).bind fun r => r.2.propagate.map fun r' =>
      (r.1, r'.2.position.formula, r'.2.position.trail)) =
        .ok (none, Conflict.refuted.formula, Conflict.refuted.trail) := by decide +kernel
  rcases exists_of_bind_eq_ok hrun with ⟨⟨answer, s₁⟩, hsolve, hmap⟩
  rcases exists_of_map_eq_ok hmap with ⟨⟨o, s⟩, hpropagate, heq⟩
  obtain ⟨rfl, hformula, htrail⟩ : answer = none ∧
      s.position.formula = Conflict.refuted.formula ∧
      s.position.trail = Conflict.refuted.trail := by simpa using heq
  have hsame : Conflict.refuted = ⟨s.position.formula, s.position.trail, 1⟩ := by
    rw [hformula, htrail]
    rfl
  have hvisited := Cdcl.Visited.propagated Cdcl.lifetime_refuting hsolve hpropagate
  rw [hsame]
  refine hvisited.arises (c := ⟨[⟨0, false⟩, ⟨1, false⟩], false⟩) ?_ ?_
  · rw [hformula]
    rfl
  · rw [htrail]
    decide

/-- An analyser built for no variable at all analyses a conflict over five variables, one over two
and the first one once more. -/
theorem analyseAll_memoryless_sample :
    (∀ x ∈ [Conflict.forked, .refuted, .forked], x.Arises) ∧
    ∃ a, analyseAll [.forked, .refuted, .forked] (empty 0) =
      .ok ([(.asserting ⟨[⟨2, false⟩, ⟨0, false⟩], true⟩ 1, [3, 4, 2, 0]),
        (.asserting ⟨[⟨0, false⟩], true⟩ 0, [0, 1]),
        (.asserting ⟨[⟨2, false⟩, ⟨0, false⟩], true⟩ 1, [3, 4, 2, 0])], a) ∧ a.Unmarked ∧
    [Conflict.forked, .refuted, .forked].mapM (fun x => (empty x.formula.numVars).answer x) =
      .ok [(.asserting ⟨[⟨2, false⟩, ⟨0, false⟩], true⟩ 1, [3, 4, 2, 0]),
        (.asserting ⟨[⟨0, false⟩], true⟩ 0, [0, 1]),
        (.asserting ⟨[⟨2, false⟩, ⟨0, false⟩], true⟩ 1, [3, 4, 2, 0])] := by
  have harises : ∀ x ∈ [Conflict.forked, .refuted, .forked], x.Arises := by
    simp [Conflict.arises_forked, Conflict.arises_refuted]
  rcases analyseAll_memoryless 0 [.forked, .refuted, .forked]
      fun x hx => (harises x hx).wellFormed.toRecorded with ⟨hfresh, hunmarked, hok⟩
  rcases hok harises with ⟨answers, a, hok⟩
  have hanswers : (analyseAll [.forked, .refuted, .forked] (empty 0)).map Prod.fst =
      .ok [(.asserting ⟨[⟨2, false⟩, ⟨0, false⟩], true⟩ 1, [3, 4, 2, 0]),
        (.asserting ⟨[⟨0, false⟩], true⟩ 0, [0, 1]),
        (.asserting ⟨[⟨2, false⟩, ⟨0, false⟩], true⟩ 1, [3, 4, 2, 0])] := by decide +kernel
  refine ⟨harises, a, ?_, hunmarked 3 answers a hok, ?_⟩
  · rw [hok] at hanswers
    cases hanswers
    exact hok
  · rw [← hfresh fun x => x.formula.numVars, hanswers]

end FirstUip
end SatSearch
