import SatSearch.Search.Position
import SatSearch.Proofs.Branching
import SatSearch.Proofs.Conflict.Analysis
import SatSearch.Proofs.Propagation.Propagator

/-!
# Position — the moves of a search, and what each of them leaves

Between moves a position is consistent: formula, trail and reasons fit together. A position that is
ready has been propagated at every level below the current one, a settled one at the current level
as well, and one that is left has stopped at a failed clause. Propagating a ready position settles
or leaves it; stepping back settles it; opening a level, or asserting a learned clause, makes it
ready again. None of these moves fails.
-/

namespace SatSearch

open Trail

namespace Position

variable {p p' : Position} {f : Formula} {c : Clause} {l : Literal} {r : Reason} {k : Nat}

/-! ## Positions between moves -/

/-- Formula, trail and reasons fit together. -/
structure Consistent (p : Position) : Prop where
  proper : p.formula.Proper
  sound : p.formula.Sound
  wellFormed : p.trail.WellFormed p.formula.numVars
  justified : Justified p.formula p.trail

/-- Propagation has been completed at every level below the current one. -/
structure Ready (p : Position) : Prop extends Consistent p where
  quiet : ∀ k < p.trail.level, ∀ c ∈ p.formula.clauses, p.trail.Quiet k c
  propagator : p.propagator.Ready p.formula p.trail

/-- Propagation has been completed at the current level, too. -/
structure Settled (p : Position) : Prop extends Consistent p where
  quiet : ∀ k ≤ p.trail.level, ∀ c ∈ p.formula.clauses, p.trail.Quiet k c
  propagator : p.propagator.Settled p.formula p.trail

/-- Propagation may have stopped half-way at the current level. -/
structure Left (p : Position) : Prop extends Consistent p where
  quiet : ∀ k < p.trail.level, ∀ c ∈ p.formula.clauses, p.trail.Quiet k c
  propagator : p.propagator.Left p.formula p.trail

theorem Ready.left (h : p.Ready) : p.Left :=
  ⟨h.toConsistent, h.quiet, h.propagator.left⟩

theorem Settled.left (h : p.Settled) : p.Left :=
  ⟨h.toConsistent, fun k hk => h.quiet k hk.le, h.propagator.left⟩

/-- With nothing assigned, a position is ready. -/
theorem ready_empty {propagator : Propagator} {count : Nat} (hf : f.Proper) (hsound : f.Sound)
    (hpropagator : propagator.Describes f) :
    Ready ⟨f, propagator, .empty f.numVars, count⟩ where
  proper := hf
  sound := hsound
  wellFormed := wellFormed_empty f.numVars
  justified := .empty
  quiet := by
    intro k hk
    exact absurd hk (Nat.not_lt_zero k)
  propagator := hpropagator.ready

theorem ofFormula_spec (kind : PropagatorKind) (hf : f.Pristine) :
    ∃ p, ofFormula kind f = .ok p ∧ p.Ready ∧ p.formula = f ∧ p.trail = .empty f.numVars := by
  rcases Propagator.ofFormula_spec kind hf.proper with ⟨propagator, hok, hdescribes⟩
  exact ⟨⟨f, propagator, .empty f.numVars, 0⟩, by simp only [ofFormula, hok],
    ready_empty hf.proper hf.sound hdescribes, rfl, rfl⟩

@[simp] theorem formula_clear : p.clear.formula = p.formula := rfl

theorem Left.trail_clear (h : p.Left) : p.clear.trail = .empty p.formula.numVars :=
  clear_eq h.wellFormed.toRecorded

theorem Left.clear (h : p.Left) : p.clear.Ready := by
  have htrail := clear_eq h.wellFormed.toRecorded
  rcases p with ⟨f, propagator, t, count⟩
  dsimp only at htrail
  simp only [Position.clear, htrail]
  exact ready_empty h.proper h.sound h.propagator.describes

/-! ## Propagating -/

/-- Propagation leads from the first position to the second. -/
structure Leads (p q : Position) : Prop where
  formula_eq : q.formula = p.formula
  forced : Forced p.formula p.trail q.trail

/-- Propagating pushes forced literals, and either settles the position or stops at a clause that
fails. -/
theorem Ready.propagate (h : p.Ready) :
    ∃ o p', p.propagate = .ok (o, p') ∧ p'.formula = p.formula ∧ Forced p.formula p.trail p'.trail ∧
      match o with
      | .fixpoint => p'.Settled
      | .conflict i => p'.Left ∧ ∃ c, p.formula.clause? i = some c ∧ p'.trail.Falsifies c := by
  rcases p with ⟨f, propagator, t, count⟩
  rcases Propagator.propagate_spec h.proper h.wellFormed h.propagator with
    ⟨o, propagator', u, hok, hforced, hreports, hleft, hsettled⟩
  have hconsistent : Consistent ⟨f, propagator', u, count + (u.length - t.length)⟩ :=
    ⟨h.proper, h.sound, hforced.wellFormed h.proper h.wellFormed, h.justified.forced hforced⟩
  -- Propagation pushes at the current level only, so the levels below stay as they are.
  have hquiet : ∀ k < t.level, ∀ c ∈ f.clauses, u.Quiet k c :=
    fun k hk c hc => (hforced.agreeBy hk).quiet (h.quiet k hk c hc)
  have hlevel := hforced.level_eq
  refine ⟨o, ⟨f, propagator', u, count + (u.length - t.length)⟩,
    by simp only [Position.propagate, hok], rfl, hforced, ?_⟩
  cases o with
  | conflict i =>
      refine ⟨⟨hconsistent, ?_, hleft⟩, hreports⟩
      intro k hk
      exact hquiet k (hlevel ▸ hk)
  | fixpoint =>
      refine ⟨hconsistent, ?_, hsettled rfl⟩
      intro k hk c hc
      rcases Nat.lt_or_eq_of_le hk with hk | rfl
      · exact hquiet k (hlevel ▸ hk) c hc
      · exact hreports c hc

/-! ## Moving along the trail -/

/-- Opening a level with a free literal. A flipped branch has to follow from the decisions. -/
theorem Settled.branch (h : p.Settled) (hl : l.var < p.formula.numVars) (hfree : p.trail.Free l.var)
    (hr : r.IsBranch)
    (hflip : r = .flipped → ∀ v, p.formula.Holds v →
      (∀ d ∈ p.trail.steps, d.reason = .decision → d.literal.Holds v) → l.Holds v) :
    ∃ p', p.branch l r = .ok p' ∧ p'.Ready ∧ p'.formula = p.formula ∧
      p'.trail = p.trail.newLevel.pushed l r := by
  rcases p with ⟨f, propagator, t, count⟩
  have hpush := push_eq (t := t.newLevel) (r := r) h.wellFormed.newLevel.toRecorded hl hfree
  refine ⟨⟨f, propagator, t.newLevel.pushed l r, count⟩, by simp only [Position.branch, hpush],
    ⟨⟨h.proper, h.sound, h.wellFormed.newLevel.pushed hl hfree,
      h.justified.branch h.wellFormed.toLevelled hr hflip⟩, ?_, h.propagator.branch⟩, rfl, rfl⟩
  -- The level that was current is now one of those below.
  intro k hk c hc
  have hk : k < t.level + 1 := by simpa using hk
  have hagree : AgreeBy k t (t.newLevel.pushed l r) :=
    agreeBy_newLevel.trans (agreeBy_pushed (by simpa using hk))
  exact hagree.quiet (h.quiet k (Nat.lt_succ_iff.1 hk) c hc)

/-- With a variable left free, a lawful selector picks one, and it can be decided. -/
theorem Settled.decide {σ : Type} [Selector σ] {n : Nat} {P : σ → Prop} {selector : σ}
    (h : p.Settled) (hP : Selector.Lawful n P) (hselector : P selector)
    (hvars : p.formula.numVars = n) (hfree : ∃ v < p.formula.numVars, p.trail.Free v) :
    ∃ u p', Selector.pick selector p.trail.values = .ok (some u) ∧ u < p.formula.numVars ∧
      p.trail.Free u ∧ p.branch ⟨u, true⟩ .decision = .ok p' ∧ p'.Ready ∧
      p'.formula = p.formula ∧ p'.trail = p.trail.newLevel.pushed ⟨u, true⟩ .decision := by
  rcases hfree with ⟨v, hv, hfree⟩
  rcases hP.pick selector hselector p.trail.values (h.wellFormed.values_size.trans hvars)
      ⟨v, (h.wellFormed.free_var_iff hv).1 hfree⟩ with
    ⟨u, hpick, hu⟩
  have hlt : u < p.formula.numVars := by
    rw [← h.wellFormed.values_size]
    exact (Array.getElem?_eq_some_iff.1 hu).1
  have hufree := (h.wellFormed.free_var_iff hlt).2 hu
  rcases h.branch (l := ⟨u, true⟩) (r := .decision) hlt hufree trivial (by simp) with
    ⟨p', hok, hready, hformula, htrail⟩
  exact ⟨u, p', hpick, hlt, hufree, hok, hready, hformula, htrail⟩

/-- Stepping back settles the position. -/
theorem Left.backstep (h : p.Left) (hk : k < p.trail.level) :
    ∃ p', p.backstep k = .ok p' ∧ p'.Settled ∧ p'.formula = p.formula ∧
      SteppedBack k p.trail p'.trail := by
  rcases p with ⟨f, propagator, t, count⟩
  rcases backstep_spec h.wellFormed k with ⟨t', hok, ht', hback⟩
  refine ⟨⟨f, propagator, t', count⟩, by simp only [Position.backstep, hok],
    ⟨⟨h.proper, h.sound, ht', h.justified.steppedBack h.wellFormed.toLevelled hback⟩, ?_,
      h.propagator.steppedBack hback hk⟩, rfl, hback⟩
  -- The level stepped back to was below the current one, and so quiet before.
  intro j hj c hc
  have hj : j ≤ k := by
    have := hback.level_eq
    dsimp only at hj hk
    omega
  exact (hback.agreeBy hj).quiet (h.quiet j (by dsimp only at hk ⊢; omega) c hc)

/-! ## Learning -/

/-- What a position becomes by learning an entailed clause, without the propagator. -/
theorem Consistent.learn (h : p.Consistent) (hc : c.Proper p.formula.numVars)
    (hentails : p.formula.Entails c) (propagator : Propagator) :
    Consistent ⟨(p.formula.learn c).2, propagator, p.trail, p.propagations⟩ :=
  ⟨h.proper.learn hc, h.sound.learn hentails, h.wellFormed, h.justified.learn c⟩

/-- Learning enters the clause after all others, and registers it with the propagator. -/
theorem learn_eq {propagator : Propagator}
    (h : p.propagator.register (p.formula.learn c).2 p.trail p.formula.clauses.length =
      .ok propagator) :
    p.learn c = .ok (p.formula.clauses.length,
      ⟨(p.formula.learn c).2, propagator, p.trail, p.propagations⟩) := by
  rcases p with ⟨f, propagator, t, count⟩
  have hfst : (f.learn c).1 = f.clauses.length := Formula.fst_learn
  dsimp only at h
  simp only [Position.learn, ← hfst] at h ⊢
  rw [h]

/-- Learning a clause with two literals that are not false keeps the position settled. -/
theorem Settled.learn {a b : Literal} (h : p.Settled) (hc : c.Proper p.formula.numVars)
    (hentails : p.formula.Entails c) (ha : a ∈ c.literals) (hb : b ∈ c.literals) (hab : a ≠ b)
    (hat : ¬ p.trail.Assigns a.negate) (hbt : ¬ p.trail.Assigns b.negate) :
    ∃ p', p.learn c = .ok (p.formula.clauses.length, p') ∧ p'.Settled ∧
      p'.formula = (p.formula.learn c).2 ∧ p'.trail = p.trail := by
  rcases h.propagator.learn h.wellFormed hc ha hb hab hat hbt with ⟨propagator', hok, hsettled⟩
  refine ⟨⟨(p.formula.learn c).2, propagator', p.trail, p.propagations⟩, learn_eq hok,
    ⟨h.toConsistent.learn hc hentails propagator', ?_, hsettled⟩, rfl, rfl⟩
  intro k hk c' hc'
  rw [Formula.clauses_learn, List.mem_append, List.mem_singleton] at hc'
  rcases hc' with hc' | rfl
  · exact h.quiet k hk c' hc'
  · exact .inr ⟨a, ha, b, hb, hab, fun htrue => hat htrue.assigns, fun htrue => hbt htrue.assigns⟩

/-- Of literals that are all false, some was falsified at the current level if that is zero or one
of them is known to be. -/
theorem Consistent.exists_current {ls : List Literal} (h : p.Consistent) (hne : ls ≠ [])
    (hfalse : ∀ a ∈ ls, p.trail.Assigns a.negate)
    (hlevel : p.trail.level = 0 ∨ ∃ a ∈ ls, ∃ s ∈ p.trail.steps, s.literal = a.negate ∧
      s.level = p.trail.level) :
    ∃ a ∈ ls, ∃ s ∈ p.trail.steps, s.literal = a.negate ∧ s.level = p.trail.level := by
  rcases hlevel with hzero | hstep
  · rcases List.exists_mem_of_ne_nil ls hne with ⟨a, ha⟩
    rcases hfalse a ha with ⟨s, hs, hsa⟩
    have := h.wellFormed.le_level s hs
    exact ⟨a, ha, s, hs, hsa, by omega⟩
  · exact hstep

/-- Learning a clause that asserts its first literal, and asserting it. At level zero that is all;
at a higher level another literal has been falsified at this level. -/
theorem Settled.assert {rest : List Literal} (h : p.Settled) (hc : c.Proper p.formula.numVars)
    (hentails : p.formula.Entails c) (hsplit : c.literals = l :: rest) (hfree : p.trail.Free l.var)
    (hothers : ∀ a ∈ rest, p.trail.Assigns a.negate)
    (hlevel : p.trail.level = 0 ∨ ∃ a ∈ rest, ∃ s ∈ p.trail.steps, s.literal = a.negate ∧
      s.level = p.trail.level) :
    ∃ p₁ p', p.learn c = .ok (p.formula.clauses.length, p₁) ∧
      p₁.push l (.clause p.formula.clauses.length) = .ok p' ∧ p'.Ready ∧
      p'.formula = (p.formula.learn c).2 ∧
      p'.trail = p.trail.pushed l (.clause p.formula.clauses.length) := by
  have hmem : l ∈ c.literals := by simp [hsplit]
  have hnot : l ∉ rest := by
    have := hc.nodup
    rw [hsplit, List.nodup_cons] at this
    exact this.1
  have hfalse : ∀ a ∈ c.literals, a ≠ l → p.trail.Assigns a.negate := by
    intro a ha hal
    rw [hsplit] at ha
    exact hothers a ((List.mem_cons.1 ha).resolve_left hal)
  have hsecond : 2 ≤ c.length → ∃ a ∈ c.literals, a ≠ l ∧
      ∃ s ∈ p.trail.steps, s.literal = a.negate ∧ s.level = p.trail.level := by
    intro hlen
    have hne : rest ≠ [] := by
      rintro rfl
      simp [Clause.length, hsplit] at hlen
    rcases h.exists_current hne hothers hlevel with ⟨a, ha, hstep⟩
    refine ⟨a, by simp [hsplit, ha], ?_, hstep⟩
    rintro rfl
    exact hnot ha
  have hlt := hc.inRange l hmem
  rcases h.propagator.assert (r := .clause p.formula.clauses.length)
      h.wellFormed hc hmem hfree.not_assigns_negate hfalse hsecond with
    ⟨propagator', hok, hready⟩
  have hpush := push_eq (r := .clause p.formula.clauses.length) h.wellFormed.toRecorded hlt hfree
  have hforces : p.trail.Forces (.learned c.literals) l := ⟨hmem, hfree, hfalse⟩
  refine ⟨⟨(p.formula.learn c).2, propagator', p.trail, p.propagations⟩,
    ⟨(p.formula.learn c).2, propagator',
      p.trail.pushed l (.clause p.formula.clauses.length), p.propagations⟩, learn_eq hok, ?_,
    ⟨⟨h.proper.learn hc, h.sound.learn hentails, h.wellFormed.pushed hlt hfree,
      (h.justified.learn c).pushed Formula.clause?_learn_self hforces⟩, ?_, hready⟩, rfl, rfl⟩
  · simp only [Position.push, hpush]
  · intro k hk c' hc'
    have hk : k < p.trail.level := hk
    rw [Formula.clauses_learn, List.mem_append, List.mem_singleton] at hc'
    rcases hc' with hc' | rfl
    · exact (agreeBy_pushed hk).quiet (h.quiet k hk.le c' hc')
    · -- Below the current level two literals of the new clause were not false.
      rcases hlevel with hzero | ⟨a, ha, s, hs, hsa, hsl⟩
      · omega
      · refine (agreeBy_pushed hk).quiet (.inr ⟨l, hmem, a, ?_, ?_, hfree.not_trueBy_negate, ?_⟩)
        · rw [show (Clause.learned c.literals).literals = c.literals from rfl, hsplit]
          exact List.mem_cons_of_mem l ha
        · rintro rfl
          exact hnot ha
        · rintro ⟨s', hs', hs'a, hle⟩
          obtain rfl : s' = s := h.wellFormed.step_unique hs' hs (by simp [hs'a, hsa])
          omega

/-! ## Adding -/

/-- The formula alone says whether a clause is accepted. -/
theorem formula_of_add {anew : Bool} {ls : List Literal} {answer : Except FormulaError Nat}
    (h : p.add anew ls = .ok (answer, p')) :
    (∃ e, p.formula.add ls = .error e ∧ answer = .error e ∧ p'.formula = p.formula) ∨
      ∃ i, p.formula.add ls = .ok (i, p'.formula) ∧ answer = .ok i := by
  rcases p with ⟨f, propagator, t, count⟩
  simp only [Position.add, Position.clear] at h
  cases hadd : f.add ls with
  | error e =>
      simp only [hadd, Except.ok.injEq, Prod.mk.injEq] at h
      rcases h with ⟨rfl, rfl⟩
      exact .inl ⟨e, rfl, rfl, rfl⟩
  | ok result =>
      rcases result with ⟨i, f'⟩
      simp only [hadd] at h
      split at h
      · cases h
      · cases h
        exact .inr ⟨i, rfl, rfl⟩

/-- Whatever the answer is, every assignment is taken back. -/
theorem trail_of_add {anew : Bool} {ls : List Literal} {answer : Except FormulaError Nat}
    (h : p.add anew ls = .ok (answer, p')) : p'.trail = p.clear.trail := by
  rcases p with ⟨f, propagator, t, count⟩
  simp only [Position.add, Position.clear] at h
  split at h
  · cases h
    rfl
  · split at h
    · cases h
    · cases h
      rfl

theorem numVars_of_add {anew : Bool} {ls : List Literal} {answer : Except FormulaError Nat}
    (h : p.add anew ls = .ok (answer, p')) : p'.formula.numVars = p.formula.numVars := by
  rcases formula_of_add h with ⟨_, _, _, hkept⟩ | ⟨i, hadd, _⟩
  · rw [hkept]
  · rw [(Formula.add_eq_ok hadd).2.1, Formula.numVars_extended]

/-- Over as many variables and given clauses, a clause is accepted with the same answer, or refused
with it. -/
theorem add_agree {q q' : Position} {anew anew' : Bool} {ls : List Literal}
    {answer answer' : Except FormulaError Nat} (h : p.add anew ls = .ok (answer, q))
    (h' : p'.add anew' ls = .ok (answer', q')) (hvars : p.formula.numVars = p'.formula.numVars)
    (hgiven : p.formula.given.size = p'.formula.given.size) :
    answer' = answer ∧ (q.formula = p.formula ∧ q'.formula = p'.formula ∨
      q.formula = p.formula.extended ls ∧ q'.formula = p'.formula.extended ls) := by
  have hadd := formula_of_add h
  have hadd' := formula_of_add h'
  rw [Formula.add_eq] at hadd hadd'
  rw [hvars, hgiven] at hadd
  split at hadd <;> rename_i hfind <;> simp only [hfind] at hadd'
  · rcases hadd with ⟨e, he, rfl, hkept⟩ | ⟨_, hok, _⟩
    · rcases hadd' with ⟨e', he', rfl, hkept'⟩ | ⟨_, hok', _⟩
      · cases he
        cases he'
        exact ⟨rfl, .inl ⟨hkept, hkept'⟩⟩
      · cases hok'
    · cases hok
  · rcases hadd with ⟨_, he, _⟩ | ⟨i, hok, rfl⟩
    · cases he
    · rcases hadd' with ⟨_, he', _⟩ | ⟨j, hok', rfl⟩
      · cases he'
      · rw [Except.ok.injEq, Prod.mk.injEq] at hok hok'
        exact ⟨by rw [← hok.1, ← hok'.1], .inr ⟨hok.2.symm, hok'.2.symm⟩⟩

/-- Adding a clause takes every assignment back. A propagator that takes the clause in alone needs a
formula without learned clauses, whose clauses it then follows. -/
theorem Left.add (h : p.Left) (anew : Bool) (ls : List Literal)
    (hanew : anew = true ∨ p.formula.learnts = #[]) :
    ∃ answer p', p.add anew ls = .ok (answer, p') ∧ p'.Ready ∧
      p'.trail = .empty p.formula.numVars ∧
      ((∃ e, answer = .error e) ∧ p'.formula = p.formula ∨
        answer = .ok p.formula.given.size ∧ p'.formula = p.formula.extended ls) := by
  have hclear := h.clear
  have htrail := clear_eq h.wellFormed.toRecorded
  rcases p with ⟨f, propagator, t, count⟩
  dsimp only at htrail hanew
  simp only [Position.clear, htrail] at hclear
  simp only [Position.add, Position.clear, htrail]
  cases hadd : f.add ls with
  | error e => exact ⟨.error e, _, rfl, hclear, rfl, .inl ⟨⟨e, rfl⟩, rfl⟩⟩
  | ok result =>
      rcases result with ⟨i, f'⟩
      rcases Formula.add_eq_ok hadd with ⟨rfl, rfl, hrange⟩
      have hproper := h.proper.extended hrange
      -- Either way the index describes the larger formula: taken in anew, or one clause more.
      obtain ⟨propagator', hok, hdescribes⟩ : ∃ propagator',
          (if anew then propagator.rebuild (f.extended ls)
            else propagator.register (f.extended ls) (.empty f.numVars) f.given.size) =
              .ok propagator' ∧ propagator'.Describes (f.extended ls) := by
        cases anew with
        | true => exact Propagator.rebuild_spec propagator hproper
        | false =>
            have hnone : f.learnts = #[] := hanew.resolve_left Bool.false_ne_true
            exact Propagator.register_extended (wellFormed_empty f.numVars) h.propagator.describes
              hnone hproper
      simp only [hok]
      exact ⟨_, _, rfl, ready_empty hproper h.sound.extended hdescribes, rfl, .inr ⟨rfl, rfl⟩⟩

end Position
end SatSearch
