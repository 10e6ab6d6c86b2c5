import SatSearch.Proofs.Cdcl.Learning
import SatSearch.Proofs.Conflict.Novelty

/-!
# Subsumption — what is learned was not known before

The search that learns from implication points asserts a clause only where every clause there is was
quiet, so the clause lies over none of them, whether that one was given or learned and however the
levels were opened and taken back since. `Enriched` says so of everything that is learned in a call.
Adding clauses in between does not touch the learned ones, so over the lifetime of a search none of
them lies over an earlier one.
-/

namespace SatSearch

namespace Formula

variable {f f' f'' : Formula} {c : Clause}

/-- How learning goes on when every clause that is learned lies over none there is by then. -/
inductive Enriched (f : Formula) : Formula → Prop
  | refl : Enriched f f
  | learned {f' : Formula} {c : Clause} :
      Enriched f f' → (∀ c' ∈ f'.clauses, ¬ c'.literals ⊆ c.literals) →
      Enriched f (f'.learn c).2

/-- No learned clause lies over one that was learned before it. -/
def Irredundant (f : Formula) : Prop :=
  f.learnts.toList.Pairwise fun c c' => ¬ c.literals ⊆ c'.literals

theorem Irredundant.learn (h : f.Irredundant)
    (hnew : ∀ c' ∈ f.clauses, ¬ c'.literals ⊆ c.literals) : (f.learn c).2.Irredundant := by
  have hlearnts : (f.learn c).2.learnts.toList = f.learnts.toList ++ [.learned c.literals] := by
    simp [Formula.learn]
  rw [Irredundant, hlearnts, List.pairwise_append]
  refine ⟨h, List.pairwise_singleton _ _, ?_⟩
  intro c₁ hc₁ c₂ hc₂
  obtain rfl := List.mem_singleton.1 hc₂
  exact hnew c₁ (mem_clauses.2 (.inr (Array.mem_toList_iff.1 hc₁)))

theorem Pristine.irredundant (h : f.Pristine) : f.Irredundant := by
  simp [Irredundant, h.learnts_eq]

namespace Enriched

theorem trans (h : Enriched f f') (h' : Enriched f' f'') : Enriched f f'' := by
  induction h' with
  | refl => exact h
  | learned _ hnew ih => exact ih.learned hnew

theorem given_eq (h : Enriched f f') : f'.given = f.given := by
  induction h with
  | refl => rfl
  | learned _ _ ih => exact ih

theorem learnts_prefix (h : Enriched f f') : f.learnts.toList <+: f'.learnts.toList := by
  induction h with
  | refl => exact List.prefix_rfl
  | learned _ _ ih =>
      refine ih.trans ?_
      simp [learn]

theorem irredundant (h : Enriched f f') (hf : f.Irredundant) : f'.Irredundant := by
  induction h with
  | refl => exact hf
  | learned _ hnew ih => exact ih.learn hnew

end Enriched

/-- Four clauses over three variables: with the first variable true, the third one can be neither
true nor false, whether the second one is true or not. -/
def narrowing : Formula :=
  ⟨3, #[⟨[⟨0, false⟩, ⟨1, false⟩, ⟨2, true⟩], false⟩, ⟨[⟨0, false⟩, ⟨1, false⟩, ⟨2, false⟩], false⟩,
    ⟨[⟨0, false⟩, ⟨1, true⟩, ⟨2, true⟩], false⟩, ⟨[⟨0, false⟩, ⟨1, true⟩, ⟨2, false⟩], false⟩], #[]⟩

theorem built_narrowing : narrowing.Built :=
  .ofSigned (show Formula.ofSigned [[-1, -2, 3], [-1, -2, -3], [-1, 2, 3], [-1, 2, -3]] =
    .ok narrowing by rfl)

end Formula

/-! ## Rounds and calls -/

namespace Cdcl

variable {σ : Type} [Selector σ] {n : Nat} {P : σ → Prop} {s s' : Cdcl σ} {q : Position}
variable {move : Move} {answer : Option Verdict}

/-- A round learns nothing, or one clause that lies over none there is. -/
theorem Rounded.enriched (h : Rounded P .firstUip s q move s') :
    s.position.formula.Enriched s'.position.formula := by
  rw [← h.formula_eq]
  rcases h.made.formula_eq_or_learned with hformula | ⟨i, c, learned, hfailed, hformula, hlearned⟩
  · rw [hformula]
    exact .refl
  · rw [hformula]
    rcases hlearned with ⟨_, level, hasserting⟩ | ⟨hretry, _⟩
    · exact Formula.Enriched.refl.learned fun c' hc' =>
        hasserting.not_subset hfailed.wellFormed hfailed.quiet hc'
    · exact absurd hretry (h.not_isRetry rfl)

theorem Ran.enriched {conflicts decisions : Nat}
    (h : Ran P .firstUip conflicts decisions s answer s') :
    s.position.formula.Enriched s'.position.formula :=
  Ran.keeps (I := fun x => s.position.formula.Enriched x.position.formula) h
    (fun _ _ _ _ hI hrounded => hI.trans hrounded.enriched) .refl

/-- No clause comes twice among the learned ones all the lifetime of a search. -/
theorem Lifetime.irredundant {fit Q : Nat → σ → Prop} (hQ : ∀ n, Selector.Lawful n (Q n))
    (hfit : ∀ n selector, fit n selector → Q n selector) (h : Lifetime fit .firstUip s) :
    s.position.formula.Irredundant := by
  induction h with
  | @started f propagator p selector schedule hf hp _ =>
      rcases Position.ofFormula_spec propagator hf.pristine with ⟨p', hp', _, hformula, _⟩
      obtain rfl : p = p' := Except.ok.inj (hp.symm.trans hp')
      rw [start, hformula]
      exact hf.pristine.irredundant
  | added hs hadd ih =>
      -- The learned clauses stay the same, whether the new clause is refused or not.
      rcases hs.regular hQ hfit with ⟨n, hregular⟩
      rcases add_spec hregular _ with ⟨_, _, hok, _, _, hformula⟩
      cases hadd.symm.trans hok
      rcases hformula with ⟨_, hformula⟩ | ⟨_, hformula⟩
      · rw [hformula]
        exact ih
      · rw [hformula]
        exact ih
  | budgeted _ ih => exact ih
  | solved hs hsolve ih =>
      rcases hs.regular hQ hfit with ⟨n, hregular⟩
      rcases solve_spec (hQ n) hregular _ with ⟨_, _, hok, hran⟩
      cases hsolve.symm.trans hok
      exact (Ran.enriched hran).irredundant ih

/-- A search over four clauses that refute the first variable, whatever the second one is, by
watching literals and learning from implication points. -/
def narrowing : Cdcl Branching :=
  .start ⟨.narrowing, .watch ⟨#[#[], #[0, 1, 2, 3], #[2, 3], #[0, 1], #[], #[]],
    #[(0, 1), (0, 1), (0, 1), (0, 1)], #[], #[]⟩, .empty 3, 0⟩ (.fixedOrder ⟨3⟩)
    (.build .firstUip 3) (.start (.fixed 1))

theorem lifetime_narrowing : narrowing.Lifetime Branching.Fresh .firstUip :=
  have hp : Position.ofFormula .watch .narrowing = .ok narrowing.position := by decide +kernel
  .started Formula.built_narrowing hp .fixedOrder

/-- All the lifetime of a search that learns from implication points, whichever way it propagates,
selects variables and restarts, a call learns only clauses whose literals include those of no
clause that is there by then, given or learned, and leaves the given clauses alone. So none of the
clauses that were ever learned includes one learned before it. -/
theorem solve_enriched {fit Q : Nat → σ → Prop} (hQ : ∀ n, Selector.Lawful n (Q n))
    (hfit : ∀ n selector, fit n selector → Q n selector) (h : s.Lifetime fit .firstUip)
    (fuel : Nat) :
    ∃ answer s', s.solve fuel = .ok (answer, s') ∧
      s.position.formula.Enriched s'.position.formula ∧
      s'.position.formula.given = s.position.formula.given ∧
      s.position.formula.learnts.toList <+: s'.position.formula.learnts.toList ∧
      s'.position.formula.Irredundant := by
  rcases h.regular hQ hfit with ⟨n, hs⟩
  rcases solve_spec (hQ n) hs fuel with ⟨answer, s', hok, hran⟩
  have henriched : s.position.formula.Enriched s'.position.formula :=
    Ran.enriched (s := s.clear) hran
  exact ⟨answer, s', hok, henriched, henriched.given_eq, henriched.learnts_prefix,
    henriched.irredundant (h.irredundant hQ hfit)⟩

/-- Both variables that are decided first are refuted in turn, so the second clause that is learned
lies below the first one, and not over it. -/
theorem solve_enriched_sample : ∃ s', narrowing.solve 5 = .ok (none, s') ∧
    s'.position.formula.learnts =
      #[⟨[⟨1, false⟩, ⟨0, false⟩], true⟩, ⟨[⟨0, false⟩], true⟩] ∧
    Formula.Enriched .narrowing s'.position.formula ∧ s'.position.formula.Irredundant := by
  have hanswer : (narrowing.solve 5).map (fun r => (r.1, r.2.position.formula.learnts)) =
      .ok (none, #[⟨[⟨1, false⟩, ⟨0, false⟩], true⟩, ⟨[⟨0, false⟩], true⟩]) := by decide +kernel
  rcases solve_enriched Branching.lawful (fun _ _ => Branching.Fresh.suits) lifetime_narrowing 5
    with ⟨answer, s', hok, henriched, _, _, hirredundant⟩
  rw [hok] at hanswer
  obtain ⟨rfl, hlearnts⟩ : answer = none ∧ s'.position.formula.learnts = _ := by
    simpa [Except.map] using hanswer
  exact ⟨s', hok, hlearnts, henriched, hirredundant⟩

end Cdcl
end SatSearch
