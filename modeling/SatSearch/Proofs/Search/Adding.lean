import SatSearch.Proofs.Cdcl.Learning
import SatSearch.Proofs.Dpll.Lifetime

/-!
# Adding — whether the watch index follows the clauses that are added

A clause that is added goes in front of the learned ones and moves them up by one. The search that
learns takes all clauses in anew then, and its index lists every clause where it belongs, however
many were learned before and are added afterwards. The search that backtracks always takes the new
clause in alone. That is right as long as nothing was learned; over a formula with learned clauses
the first clause that is added leaves the entries of the learned ones pointing at the clauses in
front of them, and the last clause in no list at all.
-/

namespace SatSearch

/-- The formulas that adding clauses and learning any proper ones leads to. -/
inductive Formula.Assembled : Formula → Prop
  | built {f : Formula} : f.Built → Assembled f
  | added {f f' : Formula} {ls : List Literal} {i : Nat} :
      Assembled f → f.add ls = .ok (i, f') → Assembled f'
  | learned {f : Formula} {c : Clause} :
      Assembled f → c.Proper f.numVars → Assembled (f.learn c).2

theorem Formula.Assembled.proper {f : Formula} (h : f.Assembled) : f.Proper := by
  induction h with
  | built hf => exact hf.pristine.proper
  | added _ hadd ih =>
      rcases Formula.add_eq_ok hadd with ⟨_, rfl, hrange⟩
      exact ih.extended hrange
  | learned _ hc ih => exact ih.learn hc

theorem Formula.length_clauses_extended {f : Formula} {ls : List Literal} :
    (f.extended ls).clauses.length = f.clauses.length + 1 := by
  simp only [extended, clauses, List.length_append, Array.length_toList, Array.size_push]
  omega

/-! ## What an index lists -/

namespace WatchIndex

variable {n i j : Nat} {cs : List Clause} {w w' : WatchIndex} {f : Formula} {t : Trail}

/-- The clause stands in some list. -/
def Lists (w : WatchIndex) (i : Nat) : Prop :=
  i ∈ w.empties ∨ i ∈ w.units ∨
    ∃ (l : Literal) (list : Array Nat), w.lists[l.code]? = some list ∧ i ∈ list

/-- An index that says what the clauses watch lists all of them, and nothing else. -/
theorem Indexes.lists_iff (h : Indexes n cs w) (hcs : ∀ c ∈ cs, c.Proper n) :
    w.Lists i ↔ i < cs.length := by
  constructor
  · rintro (hi | hi | ⟨l, list, hlist, hi⟩)
    · rcases (h.mem_empties i).1 hi with ⟨c, hc, _⟩
      exact (List.getElem?_eq_some_iff.1 hc).1
    · rcases (h.mem_units i).1 hi with ⟨c, hc, _⟩
      exact (List.getElem?_eq_some_iff.1 hc).1
    · rcases (h.mem_list l list hlist i).1 hi with ⟨b, hb⟩
      exact hb.lt
  · intro hi
    have hc := List.getElem?_eq_getElem hi
    by_cases hlen : 2 ≤ cs[i].length
    · rcases h.watched i _ hc hlen with ⟨a, b, hw⟩
      rcases hw.clause with ⟨c, hc', ha, _⟩
      rcases h.exists_list ((hcs c (List.mem_of_getElem? hc')).inRange a ha) with ⟨list, hlist⟩
      exact .inr (.inr ⟨a, list, hlist, (h.mem_list a list hlist i).2 ⟨b, hw⟩⟩)
    · by_cases hone : cs[i].length = 1
      · exact .inr (.inl ((h.mem_units i).2 ⟨_, hc, hone⟩))
      · exact .inl ((h.mem_empties i).2 ⟨_, hc, by omega⟩)

/-- Letting a clause watch a literal lists that clause at most. -/
theorem eq_or_mem_of_watch? {lists lists' : Array (Array Nat)} {x l : Literal} {list' : Array Nat}
    (h : watch? lists x i = some lists') (hlist : lists'[l.code]? = some list') (hj : j ∈ list') :
    j = i ∨ ∃ list, lists[l.code]? = some list ∧ j ∈ list := by
  obtain rfl := (watch?_eq_some h).2
  rcases mem_watched hlist with ⟨list, hlist, hmem, _⟩
  rcases (hmem j).1 hj with hold | ⟨rfl, _⟩
  · exact .inr ⟨list, hlist, hold⟩
  · exact .inl rfl

/-- Taking a clause in lists that clause at most. -/
theorem eq_or_lists_of_register (h : w.register f t i = .ok w') (hj : w'.Lists j) :
    j = i ∨ w.Lists j := by
  have hpush : ∀ {shorts : Array Nat}, j ∈ shorts.push i → j = i ∨ j ∈ shorts := by
    intro shorts hmem
    exact (Array.mem_push.1 hmem).symm
  rcases register_eq_ok h with
    ⟨c, _, ⟨_, rfl⟩ | ⟨_, rfl⟩ |
      ⟨_, _, _, _, a, b, lists, lists', _, _, _, _, hfirst, hsecond, rfl⟩⟩
  · rcases hj with hj | hj
    · exact (hpush hj).imp_right .inl
    · exact .inr (.inr hj)
  · rcases hj with hj | hj | hj
    · exact .inr (.inl hj)
    · exact (hpush hj).imp_right fun hold => .inr (.inl hold)
    · exact .inr (.inr (.inr hj))
  · rcases hj with hj | hj | ⟨l, list', hlist', hj⟩
    · exact .inr (.inl hj)
    · exact .inr (.inr (.inl hj))
    · rcases eq_or_mem_of_watch? hsecond hlist' hj with rfl | ⟨list, hlist, hold⟩
      · exact .inl rfl
      · rcases eq_or_mem_of_watch? hfirst hlist hold with rfl | hold
        · exact .inl rfl
        · exact .inr (.inr (.inr ⟨l, hold⟩))

end WatchIndex

/-! ## Clauses that are accepted -/

/-- The clauses are added one after the other, and all of them are accepted. -/
inductive Accepts {S : Type} (add : List Literal → S → Except Fault (Except FormulaError Nat × S)) :
    S → List (List Literal) → S → Prop
  | nil {s : S} : Accepts add s [] s
  | cons {s s₁ s' : S} {ls : List Literal} {lss : List (List Literal)} {i : Nat} :
      add ls s = .ok (.ok i, s₁) → Accepts add s₁ lss s' → Accepts add s (ls :: lss) s'

namespace Accepts

variable {S T : Type} {add : List Literal → S → Except Fault (Except FormulaError Nat × S)}
variable {s s' : S} {lss : List (List Literal)}

/-- What one clause keeps, all of them keep. -/
theorem keeps {I : S → Prop} (h : Accepts add s lss s')
    (hadd : ∀ s ls i s', I s → add ls s = .ok (.ok i, s') → I s') (hs : I s) : I s' := by
  induction h with
  | nil => exact hs
  | cons hfirst _ ih => exact ih (hadd _ _ _ _ hs hfirst)

end Accepts

namespace Position

variable {p p' : Position} {ls : List Literal} {i : Nat} {anew : Bool}

/-- The position has a watch index, which says what the clauses watch as they are. -/
def Indexed (p : Position) : Prop :=
  ∃ w, p.propagator = .watch w ∧ w.Indexes p.formula.numVars p.formula.clauses

/-- The position has a watch index, which lists no clause from that number on. -/
def ListsBelow (p : Position) (bound : Nat) : Prop :=
  ∃ w, p.propagator = .watch w ∧ ∀ i, w.Lists i → i < bound

/-- Nothing is assigned. -/
structure Bare (p : Position) : Prop where
  proper : p.formula.Proper
  trail_eq : p.trail = .empty p.formula.numVars

theorem Indexed.listsBelow (h : p.Indexed) (hp : p.Bare) :
    p.ListsBelow p.formula.clauses.length := by
  rcases h with ⟨w, hw, hindexes⟩
  exact ⟨w, hw, fun i hi => (hindexes.lists_iff hp.proper).1 hi⟩

theorem ListsBelow.mono {bound bound' : Nat} (h : p.ListsBelow bound) (hle : bound ≤ bound') :
    p.ListsBelow bound' := by
  rcases h with ⟨w, hw, hbelow⟩
  exact ⟨w, hw, fun i hi => (hbelow i hi).trans_le hle⟩

theorem Indexed.not_listsBelow (h : p.Indexed) (hp : p.Bare) {bound : Nat}
    (hbound : bound < p.formula.clauses.length) : ¬ p.ListsBelow bound := by
  rcases h with ⟨w, hw, hindexes⟩
  rintro ⟨w', hw', hbelow⟩
  obtain rfl : w' = w := Propagator.watch.inj (hw'.symm.trans hw)
  exact lt_irrefl _ (hbelow bound ((hindexes.lists_iff hp.proper).2 hbound))

/-- Adding a clause in range to a position with nothing assigned. -/
theorem Bare.add_eq (h : p.Bare) {w : WatchIndex} (hw : p.propagator = .watch w)
    (hrange : ∀ l ∈ (Clause.given ls).literals, l.var < p.formula.numVars) :
    p.add anew ls =
      match if anew then WatchIndex.ofFormula (p.formula.extended ls)
        else w.register (p.formula.extended ls) (.empty p.formula.numVars) p.formula.given.size with
      | .error e => .error e
      | .ok w' => .ok (.ok p.formula.given.size, ⟨p.formula.extended ls, .watch w',
          .empty p.formula.numVars, p.propagations⟩) := by
  rcases p with ⟨f, propagator, t, count⟩
  obtain rfl : propagator = .watch w := hw
  obtain rfl : t = .empty f.numVars := h.trail_eq
  have hclear := Trail.clear_eq (Trail.wellFormed_empty f.numVars).toRecorded
  have hadd : f.add ls = .ok (f.given.size, f.extended ls) := by
    have hnone : (Clause.given ls).literals.find? (fun l => f.numVars ≤ l.var) = none := by
      rw [List.find?_eq_none]
      intro l hl
      simpa using hrange l hl
    rw [Formula.add_eq, hnone]
  simp only [add, clear, hclear, hadd]
  cases anew with
  | true =>
      simp only [if_true, Propagator.rebuild, Propagator.ofFormula]
      cases WatchIndex.ofFormula (f.extended ls) <;> rfl
  | false =>
      simp only [Bool.false_eq_true, if_false, Propagator.register]
      cases w.register (f.extended ls) (.empty f.numVars) f.given.size <;> rfl

/-- Only clauses in range are accepted. -/
theorem extended_of_add (h : p.add anew ls = .ok (.ok i, p')) :
    p'.formula = p.formula.extended ls ∧
      ∀ l ∈ (Clause.given ls).literals, l.var < p.formula.numVars := by
  rcases formula_of_add h with ⟨e, _, he, _⟩ | ⟨j, hadd, _⟩
  · cases he
  · rcases Formula.add_eq_ok hadd with ⟨_, hformula, hrange⟩
    exact ⟨hformula, hrange⟩

/-- An index that is made anew, or takes the clause in as the last one, is right again. -/
theorem Indexed.add (h : p.Indexed) (hp : p.Bare) (hanew : anew = true ∨ p.formula.learnts = #[])
    (hrange : ∀ l ∈ (Clause.given ls).literals, l.var < p.formula.numVars) :
    ∃ p', p.add anew ls = .ok (.ok p.formula.given.size, p') ∧ p'.Bare ∧ p'.Indexed ∧
      p'.formula = p.formula.extended ls := by
  rcases h with ⟨w, hw, hindexes⟩
  have hproper := hp.proper.extended hrange
  obtain ⟨w', hok, hindexes'⟩ : ∃ w', (if anew then WatchIndex.ofFormula (p.formula.extended ls)
      else w.register (p.formula.extended ls) (.empty p.formula.numVars) p.formula.given.size) =
        .ok w' ∧ w'.Indexes (p.formula.extended ls).numVars (p.formula.extended ls).clauses := by
    cases anew with
    | true => exact WatchIndex.ofFormula_spec hproper
    | false =>
        exact WatchIndex.register_extended (Trail.wellFormed_empty _) hindexes
          (hanew.resolve_left Bool.false_ne_true) hproper
  rw [hp.add_eq hw hrange, hok]
  exact ⟨_, rfl, ⟨hproper, rfl⟩, ⟨w', rfl, hindexes'⟩, rfl⟩

/-- Taken in alone in front of learned clauses, the clause is listed under its number, and the last
one of all clauses is not. -/
theorem ListsBelow.add (h : p.ListsBelow p.formula.clauses.length) (hp : p.Bare)
    (hsome : p.formula.learnts ≠ #[]) (hadd : p.add false ls = .ok (.ok i, p')) :
    p'.Bare ∧ p'.ListsBelow p.formula.clauses.length ∧ p'.formula = p.formula.extended ls := by
  rcases h with ⟨w, hw, hbelow⟩
  rcases extended_of_add hadd with ⟨hformula, hrange⟩
  rw [hp.add_eq hw hrange] at hadd
  simp only [Bool.false_eq_true, if_false] at hadd
  split at hadd
  · cases hadd
  · rename_i w' hregister
    cases hadd
    refine ⟨⟨hp.proper.extended hrange, rfl⟩, ⟨w', rfl, ?_⟩, rfl⟩
    intro j hj
    rcases WatchIndex.eq_or_lists_of_register hregister hj with rfl | hold
    · have hpos := Array.size_pos_iff.2 hsome
      simp only [Formula.clauses, List.length_append, Array.length_toList]
      omega
    · exact hbelow j hold

end Position

/-! ## The two searches -/

variable {σ : Type} {f : Formula} {p : Position}

theorem Position.exists_indexed (hf : f.Proper) :
    ∃ p, Position.ofFormula .watch f = .ok p ∧ p.Bare ∧ p.Indexed ∧ p.formula = f := by
  rcases WatchIndex.ofFormula_spec hf with ⟨w, hw, hindexes⟩
  have hp : Position.ofFormula .watch f = .ok ⟨f, .watch w, .empty f.numVars, 0⟩ := by
    simp only [Position.ofFormula, Propagator.ofFormula, hw]
  exact ⟨_, hp, ⟨hf, rfl⟩, ⟨w, rfl, hindexes⟩, rfl⟩

namespace Cdcl

variable {c c' : Cdcl σ} {ls : List Literal} {lss : List (List Literal)}

/-- All clauses are taken in anew if something was learned. -/
theorem add_indexed (hp : c.position.Bare) (h : c.position.Indexed)
    (hrange : ∀ l ∈ (Clause.given ls).literals, l.var < c.position.formula.numVars) :
    ∃ c', c.add ls = .ok (.ok c.position.formula.given.size, c') ∧ c'.position.Bare ∧
      c'.position.Indexed ∧ c'.position.formula = c.position.formula.extended ls := by
  rcases c with ⟨p, selector, analyser, restarter, conflicts, decisions, budget⟩
  dsimp only at hp h hrange ⊢
  have hanew : (!p.formula.learnts.isEmpty) = true ∨ p.formula.learnts = #[] := by
    cases hempty : p.formula.learnts.isEmpty with
    | true => exact .inr (Array.isEmpty_iff.1 hempty)
    | false => exact .inl rfl
  rcases h.add hp hanew hrange with ⟨p', hok, hp', hindexed, hformula⟩
  exact ⟨⟨p', selector, analyser, restarter, conflicts, decisions, budget⟩,
    by simp only [add, hok], hp', hindexed, hformula⟩

/-- The index keeps up with the clauses, whatever was learned. -/
theorem indexed_of_accepts (h : Accepts add c lss c') (hp : c.position.Bare)
    (hindexed : c.position.Indexed) : c'.position.Indexed := by
  have hkeeps : c'.position.Bare ∧ c'.position.Indexed := by
    refine h.keeps (I := fun c => c.position.Bare ∧ c.position.Indexed) ?_ ⟨hp, hindexed⟩
    rintro c ls i c₁ ⟨hp, hindexed⟩ hadd
    rcases add_eq_ok hadd with ⟨p', hposition, _⟩
    have hrange := (Position.extended_of_add hposition).2
    rcases add_indexed hp hindexed hrange with ⟨c₂, hok, hp₂, hindexed₂, _⟩
    cases hadd.symm.trans hok
    exact ⟨hp₂, hindexed₂⟩
  exact hkeeps.2

/-- Clauses in range are accepted. -/
theorem exists_accepts (lss : List (List Literal)) : ∀ c : Cdcl σ, c.position.Bare →
    c.position.Indexed → (∀ ls ∈ lss, ∀ l ∈ ls, l.var < c.position.formula.numVars) →
    ∃ c', Accepts add c lss c' := by
  induction lss with
  | nil => exact fun c _ _ _ => ⟨c, .nil⟩
  | cons ls lss ih =>
      intro c hp hindexed hrange
      have hfirst : ∀ l ∈ (Clause.given ls).literals, l.var < c.position.formula.numVars :=
        fun l hl => hrange ls List.mem_cons_self l (List.mem_eraseDups.1 hl)
      rcases add_indexed hp hindexed hfirst with ⟨c₁, hok, hp₁, hindexed₁, hformula⟩
      have hvars : c₁.position.formula.numVars = c.position.formula.numVars := by
        rw [hformula, Formula.numVars_extended]
      rcases ih c₁ hp₁ hindexed₁ fun ls' hls' => hvars ▸ hrange ls' (List.mem_cons_of_mem ls hls')
        with ⟨c', haccepts⟩
      exact ⟨c', .cons hok haccepts⟩

end Cdcl

namespace Dpll

variable {d d' : Dpll σ} {lss : List (List Literal)}

/-- With nothing learned, every clause that is added comes last. -/
theorem indexed_of_accepts (h : Accepts add d lss d') (hp : d.position.Bare)
    (hindexed : d.position.Indexed) (hnone : d.position.formula.learnts = #[]) :
    d'.position.Indexed := by
  have hkeeps : d'.position.Bare ∧ d'.position.Indexed ∧ d'.position.formula.learnts = #[] := by
    refine h.keeps (I := fun d => d.position.Bare ∧ d.position.Indexed ∧
      d.position.formula.learnts = #[]) ?_ ⟨hp, hindexed, hnone⟩
    rintro d ls i d₁ ⟨hp, hindexed, hnone⟩ hadd
    rcases add_eq_ok hadd with ⟨p', hposition, rfl⟩
    have hrange := (Position.extended_of_add hposition).2
    rcases hindexed.add hp (.inr hnone) hrange with ⟨p₁, hok, hp₁, hindexed₁, hformula⟩
    cases hposition.symm.trans hok
    refine ⟨hp₁, hindexed₁, ?_⟩
    dsimp only
    rw [hformula, Formula.learnts_extended, hnone]
  exact hkeeps.2.1

/-- A clause is listed under its number, which was that of a learned clause. -/
theorem add_listsBelow {ls : List Literal} {i : Nat} (hadd : d.add ls = .ok (.ok i, d'))
    (hp : d.position.Bare) (hsome : d.position.formula.learnts ≠ #[])
    (h : d.position.ListsBelow d.position.formula.clauses.length) :
    d'.position.Bare ∧ d'.position.formula.learnts ≠ #[] ∧
      ∃ last, d'.position.formula.clauses.length = last + 1 ∧ d'.position.ListsBelow last := by
  rcases add_eq_ok hadd with ⟨p', hposition, rfl⟩
  rcases h.add hp hsome hposition with ⟨hp', hbelow, hformula⟩
  dsimp only
  rw [hformula, Formula.learnts_extended, Formula.length_clauses_extended]
  exact ⟨hp', hsome, _, rfl, hbelow⟩

/-- In front of learned clauses, clauses that are added leave the last one of all unlisted. -/
theorem listsBelow_of_accepts (h : Accepts add d lss d') (hp : d.position.Bare)
    (hindexed : d.position.Indexed) (hsome : d.position.formula.learnts ≠ #[]) (hlss : lss ≠ []) :
    d'.position.Bare ∧ ∃ last, d'.position.formula.clauses.length = last + 1 ∧
      d'.position.ListsBelow last := by
  cases h with
  | nil => exact absurd rfl hlss
  | cons hfirst hrest =>
      have hkeeps := hrest.keeps (I := fun d => d.position.Bare ∧
        d.position.formula.learnts ≠ #[] ∧
        ∃ last, d.position.formula.clauses.length = last + 1 ∧ d.position.ListsBelow last) ?_
        (add_listsBelow hfirst hp hsome (hindexed.listsBelow hp))
      · exact ⟨hkeeps.1, hkeeps.2.2⟩
      · rintro d ls i d₁ ⟨hp, hsome, last, hlast, hbelow⟩ hadd
        exact add_listsBelow hadd hp hsome (hbelow.mono (by omega))

end Dpll

/-- Whatever was learned before and is added afterwards, the index of the search that learns says
what the clauses watch as they are then: each of them is listed once where it belongs, at the two
positions it watches, and nothing else is. The search that backtracks has such an index if nothing
was learned or nothing is added, and in no other case: then the last clause is in none of its
lists. -/
theorem adds_indexed (hf : f.Assembled) :
    ∃ p, Position.ofFormula .watch f = .ok p ∧
      (∀ (c c' : Cdcl σ) (lss : List (List Literal)), c.position = p →
        Accepts Cdcl.add c lss c' → c'.position.Indexed) ∧
      (∀ (c : Cdcl σ) (lss : List (List Literal)), c.position = p →
        (∀ ls ∈ lss, ∀ l ∈ ls, l.var < f.numVars) → ∃ c', Accepts Cdcl.add c lss c') ∧
      ∀ (d d' : Dpll σ) (lss : List (List Literal)), d.position = p →
        Accepts Dpll.add d lss d' →
        (d'.position.Indexed ↔ lss = [] ∨ f.learnts = #[]) ∧
          (lss ≠ [] → f.learnts ≠ #[] →
            ∃ last, d'.position.formula.clauses.length = last + 1 ∧
              d'.position.ListsBelow last) := by
  rcases Position.exists_indexed hf.proper with ⟨p, hp, hbare, hindexed, hformula⟩
  refine ⟨p, hp, ?_, ?_, ?_⟩
  · rintro c c' lss rfl haccepts
    exact Cdcl.indexed_of_accepts haccepts hbare hindexed
  · rintro c lss rfl hrange
    exact Cdcl.exists_accepts lss c hbare hindexed (hformula ▸ hrange)
  · rintro d d' lss rfl haccepts
    -- After the first clause that moves learned ones up, the last clause is never listed.
    have hlast : lss ≠ [] → f.learnts ≠ #[] → d'.position.Bare ∧
        ∃ last, d'.position.formula.clauses.length = last + 1 ∧ d'.position.ListsBelow last :=
      fun hlss hsome =>
        Dpll.listsBelow_of_accepts haccepts hbare hindexed (hformula ▸ hsome) hlss
    refine ⟨⟨?_, ?_⟩, fun hlss hsome => (hlast hlss hsome).2⟩
    · intro hindexed'
      by_contra hneither
      rcases not_or.1 hneither with ⟨hlss, hsome⟩
      rcases hlast hlss hsome with ⟨hbare', last, hlength, hbelow⟩
      exact hindexed'.not_listsBelow hbare' (by omega) hbelow
    · rintro (rfl | hnone)
      · cases haccepts
        exact hindexed
      · exact Dpll.indexed_of_accepts haccepts hbare hindexed (hformula ▸ hnone)

/-- The two clauses that refute the first variable, and what is learned from them. -/
def Formula.refuted : Formula :=
  ⟨2, Formula.refuting.given, #[⟨[⟨0, false⟩], true⟩]⟩

theorem Formula.assembled_refuted : Formula.refuted.Assembled :=
  .learned (c := ⟨[⟨0, false⟩], true⟩) (.built Formula.built_refuting) ⟨by decide, by decide⟩

/-- The position of a search over these clauses that watches literals. -/
def Position.refuted : Position :=
  ⟨.refuted, .watch ⟨#[#[], #[0, 1], #[0], #[1]], #[(0, 1), (0, 1), (0, 0)], #[2], #[]⟩,
    .empty 2, 0⟩

/-- What the search that backtracks makes of it when one of the two variables has to be true. -/
def Dpll.overtaken : Dpll Branching :=
  .start ⟨Formula.refuted.extended [⟨0, true⟩, ⟨1, true⟩],
    .watch ⟨#[#[2], #[0, 1], #[0, 2], #[1]], #[(0, 1), (0, 1), (0, 1)], #[2], #[]⟩,
    .empty 2, 0⟩ (.fixedOrder ⟨2⟩)

theorem Dpll.accepts_overtaken : Accepts Dpll.add (.start .refuted (Branching.fixedOrder ⟨2⟩))
    [[⟨0, true⟩, ⟨1, true⟩]] overtaken :=
  .cons (i := 2) (by rfl) .nil

/-- When one of the two variables has to be true, the index of the search that learns is still
right, and that of the search that backtracks leaves out the last of the four clauses. -/
theorem adds_indexed_sample :
    (∃ c', Accepts Cdcl.add
        (.start .refuted (Branching.fixedOrder ⟨2⟩) (.build .firstUip 2) (.start .never))
        [[⟨0, true⟩, ⟨1, true⟩]] c' ∧ c'.position.Indexed) ∧
      ¬ Dpll.overtaken.position.Indexed ∧ Dpll.overtaken.position.ListsBelow 3 := by
  have hp : Position.ofFormula .watch .refuted = .ok .refuted := by decide +kernel
  rcases adds_indexed (σ := Branching) Formula.assembled_refuted with
    ⟨p, hp', hcdcl, hexists, hdpll⟩
  obtain rfl : p = .refuted := Except.ok.inj (hp'.symm.trans hp)
  have hsome : Formula.refuted.learnts ≠ #[] := by decide
  rcases hdpll _ _ _ rfl Dpll.accepts_overtaken with ⟨hiff, hlast⟩
  refine ⟨?_, ?_, ?_⟩
  · rcases hexists (.start .refuted (Branching.fixedOrder ⟨2⟩) (.build .firstUip 2) (.start .never))
      [[⟨0, true⟩, ⟨1, true⟩]] rfl (by decide) with ⟨c', haccepts⟩
    exact ⟨c', haccepts, hcdcl _ _ _ rfl haccepts⟩
  · rw [hiff]
    simp [hsome]
  · rcases hlast (by simp) hsome with ⟨last, hlength, hbelow⟩
    obtain rfl : last = 3 := Nat.succ.inj hlength.symm
    exact hbelow

/-- A clause is learned and stands among the clauses of one literal. Then the search that backtracks
takes in a clause of two literals under the same number, and the entry is now about that one: the
index is wrong, and the search finds no model although there is one. -/
theorem Dpll.add_stale :
    (∃ c', Cdcl.refuting.solve 2 = .ok (none, c') ∧ c'.position.formula = .refuted) ∧
      Position.ofFormula .watch .refuted = .ok .refuted ∧
      Accepts Dpll.add (.start .refuted (Branching.fixedOrder ⟨2⟩)) [[⟨0, true⟩, ⟨1, true⟩]]
        overtaken ∧
      ¬ overtaken.position.Indexed ∧
      (∃ w, overtaken.position.propagator = .watch w ∧ 2 ∈ w.units ∧
        overtaken.position.formula.clause? 2 = some ⟨[⟨0, true⟩, ⟨1, true⟩], false⟩) ∧
      (∃ d', overtaken.solve 1 = .ok (some .unsatisfiable, d')) ∧
      overtaken.position.formula.isSatisfiedBy ⟨#[false, true]⟩ = true := by
  have hlearned : (Cdcl.refuting.solve 2).map (fun r => (r.1, r.2.position.formula)) =
      .ok (none, .refuted) := by decide +kernel
  have hverdict : (overtaken.solve 1).map Prod.fst = .ok (some .unsatisfiable) := by decide +kernel
  refine ⟨?_, by decide +kernel, accepts_overtaken, ?_, ⟨_, rfl, by simp, rfl⟩, ?_, by decide +kernel⟩
  · rcases exists_of_map_eq_ok hlearned with ⟨⟨answer, c'⟩, hsolve, hread⟩
    obtain ⟨rfl, hformula⟩ : answer = none ∧ c'.position.formula = .refuted := by
      simpa using hread
    exact ⟨c', hsolve, hformula⟩
  · rintro ⟨w, hw, hindexes⟩
    obtain rfl := Propagator.watch.inj hw
    rcases (hindexes.mem_units 2).1 (by simp) with ⟨c, hc, hlen⟩
    obtain rfl : (⟨[⟨0, true⟩, ⟨1, true⟩], false⟩ : Clause) = c := Option.some.inj hc
    cases hlen
  · rcases exists_of_map_eq_ok hverdict with ⟨⟨answer, d'⟩, hsolve, rfl⟩
    exact ⟨d', hsolve⟩

end SatSearch
