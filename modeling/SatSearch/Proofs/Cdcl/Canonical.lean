import Mathlib.Data.Nat.Find
import SatSearch.Proofs.Cdcl.Lifetime

/-!
# Canonical — in fixed order the search finds the greatest model

Models are compared variable by variable, lowest first, true before false. In fixed order every
decision makes a variable true below which nothing is free, so all lower variables have their values
from lower levels. A false literal follows from the decisions of its level and below; these can only
be about lower variables. So no model that agrees with the one found up to a false variable can make
that variable true, whatever was learned and however often the search started over.
-/

namespace SatSearch

open Trail

/-! ## Comparing models -/

/-- At the first variable where the two differ, the first one is false and the second one true. -/
def Model.Below (m' m : Model) : Prop :=
  ∃ v, (∀ u < v, m'.value? u = m.value? u) ∧ m'.value? v = some false ∧ m.value? v = some true

/-- The model satisfies the formula, and every other one that does is below it. -/
structure Model.IsGreatest (f : Formula) (m : Model) : Prop where
  size_eq : m.size = f.numVars
  satisfies : f.isSatisfiedBy m = true
  below : ∀ m' : Model, m'.size = f.numVars → f.isSatisfiedBy m' = true → m' = m ∨ m'.Below m

theorem Model.Below.asymm {m m' : Model} (h : m'.Below m) : ¬ m.Below m' := by
  rintro ⟨w, hagree', hfalse', htrue'⟩
  rcases h with ⟨v, hagree, hfalse, htrue⟩
  rcases Nat.lt_trichotomy v w with hlt | rfl | hgt
  · have := hagree' v hlt
    rw [hfalse, htrue] at this
    cases this
  · rw [htrue] at hfalse'
    cases hfalse'
  · have := hagree w hgt
    rw [hfalse', htrue'] at this
    cases this

/-- There is one greatest model at most. -/
theorem Model.IsGreatest.unique {f : Formula} {m m' : Model} (h : m.IsGreatest f)
    (h' : m'.IsGreatest f) : m' = m := by
  rcases h.below m' h'.size_eq h'.satisfies with heq | hbelow
  · exact heq
  · rcases h'.below m h.size_eq h.satisfies with heq | hbelow'
    · exact heq.symm
    · exact absurd hbelow' hbelow.asymm

/-- The greatest model depends on which clauses are given only. -/
theorem Model.IsGreatest.congr {f f' : Formula} {m : Model} (h : m.IsGreatest f)
    (hvars : f.numVars = f'.numVars) (hgiven : ∀ c, c ∈ f.given ↔ c ∈ f'.given) :
    m.IsGreatest f' := by
  have hsat : ∀ m' : Model, f.isSatisfiedBy m' = true ↔ f'.isSatisfiedBy m' = true := by
    intro m'
    simp only [Formula.isSatisfiedBy_iff, hgiven]
  refine ⟨h.size_eq.trans hvars, (hsat m).1 h.satisfies, ?_⟩
  intro m' hsize hm'
  exact h.below m' (hsize.trans hvars.symm) ((hsat m').2 hm')

/-- Two models over the same variables are equal, or there is a first variable where they
differ. -/
theorem Model.eq_or_first_difference {m m' : Model} (hsize : m'.size = m.size) :
    m' = m ∨ ∃ v b, v < m.size ∧ (∀ u < v, m'.value? u = m.value? u) ∧ m.value? v = some b ∧
      m'.value? v = some !b := by
  by_cases hne : ∃ v, m'.value? v ≠ m.value? v
  · right
    have hfirst := Nat.find_spec hne
    have hagree : ∀ u < Nat.find hne, m'.value? u = m.value? u :=
      fun u hu => not_not.1 (Nat.find_min hne hu)
    generalize Nat.find hne = v at hfirst hagree
    -- Beyond their common size neither has a value, so they differ below it.
    have hv : v < m.size := by
      by_contra hge
      have hnone : ∀ m₁ : Model, m₁.size = m.size → m₁.value? v = none := by
        intro m₁ hm₁
        exact Array.getElem?_eq_none (show m₁.size ≤ v by omega)
      exact hfirst ((hnone m' hsize).trans (hnone m rfl).symm)
    have hvalue : ∀ m₁ : Model, m₁.size = m.size → ∃ b, m₁.value? v = some b :=
      fun m₁ hm₁ => ⟨_, Array.getElem?_eq_getElem (show v < m₁.size by omega)⟩
    rcases hvalue m rfl with ⟨b, hb⟩
    rcases hvalue m' hsize with ⟨b', hb'⟩
    rw [hb, hb'] at hfirst
    refine ⟨v, b, hv, hagree, hb, ?_⟩
    rw [hb', Bool.eq_not.2 fun heq => hfirst (congrArg some heq)]
  · left
    have hvalues : m'.values = m.values :=
      Array.ext_getElem? fun v => not_not.1 fun hv => hne ⟨v, hv⟩
    cases m'
    exact congrArg Model.mk hvalues

/-! ## Ordered trails -/

namespace Trail

variable {n k : Nat} {t t' u : Trail} {f : Formula} {l : Literal} {r : Reason} {s : Step}

/-- Every decision makes a variable true, and all lower variables have values from lower levels. -/
def Ordered (t : Trail) : Prop :=
  ∀ d ∈ t.steps, d.reason = .decision → d.literal.positive = true ∧
    ∀ v < d.literal.var, ∃ s ∈ t.steps, s.literal.var = v ∧ s.level < d.level

theorem ordered_empty (n : Nat) : (empty n).Ordered := by
  intro d hd
  simp [empty] at hd

/-- More steps that are no decisions. -/
theorem Ordered.mono (h : t.Ordered) (hmem : ∀ s ∈ t.steps, s ∈ u.steps)
    (hnew : ∀ s ∈ u.steps, s.reason = .decision → s ∈ t.steps) : u.Ordered := by
  intro d hd hdec
  rcases h d (hnew d hd hdec) hdec with ⟨hpositive, hlower⟩
  refine ⟨hpositive, ?_⟩
  intro v hv
  rcases hlower v hv with ⟨s, hs, rest⟩
  exact ⟨s, hmem s hs, rest⟩

theorem Ordered.forced (h : t.Ordered) (hu : Forced f t u) : u.Ordered := by
  apply h.mono (fun s => hu.mem)
  intro s hs hdec
  rcases hu.mem_new hs with hs | ⟨_, hbranch⟩
  · exact hs
  · exact absurd (by simp [hdec, Reason.IsBranch]) hbranch

theorem Ordered.pushed (h : t.Ordered) (hr : r ≠ .decision) : (t.pushed l r).Ordered := by
  apply h.mono (fun s hs => mem_pushed.2 (.inl hs))
  intro s hs hdec
  rcases mem_pushed.1 hs with hs | rfl
  · exact hs
  · exact absurd hdec hr

/-- With a decision its lower levels stay. -/
theorem Ordered.steppedBack (h : t.Ordered) (hback : SteppedBack k t t') : t'.Ordered := by
  intro d hd hdec
  rcases hback.mem_iff.1 hd with ⟨hd, hle⟩
  rcases h d hd hdec with ⟨hpositive, hlower⟩
  refine ⟨hpositive, ?_⟩
  intro v hv
  rcases hlower v hv with ⟨s, hs, hsv, hlt⟩
  exact ⟨s, hback.mem_iff.2 ⟨hs, by omega⟩, hsv, hlt⟩

/-- Deciding the lowest free variable. -/
theorem Ordered.decided (h : t.Ordered) (ht : t.Levelled) (hl : l.positive = true)
    (hlower : ∀ v < l.var, ¬ t.Free v) : (t.newLevel.pushed l .decision).Ordered := by
  have hold : ∀ s ∈ t.steps, s ∈ (t.newLevel.pushed l .decision).steps :=
    fun s hs => mem_pushed.2 (.inl hs)
  intro d hd hdec
  rcases mem_pushed.1 hd with hd | rfl
  · rcases h d hd hdec with ⟨hpositive, hrest⟩
    refine ⟨hpositive, ?_⟩
    intro v hv
    rcases hrest v hv with ⟨s, hs, rest⟩
    exact ⟨s, hold s hs, rest⟩
  · -- All levels that are there are lower than the one that is opened.
    refine ⟨hl, ?_⟩
    intro v hv
    obtain ⟨s, hs, hsv⟩ : ∃ s ∈ t.steps, s.literal.var = v := by
      by_contra hnone
      exact hlower v hv fun s hs hsv => hnone ⟨s, hs, hsv⟩
    have hle := ht.le_level s hs
    refine ⟨s, hold s hs, hsv, ?_⟩
    simp only [level_newLevel]
    omega

/-- What is false on an ordered trail follows from what is true about lower variables. -/
theorem Ordered.holds_of_lower {v : Valuation} (h : t.Ordered) (ht : t.WellFormed n)
    (hj : Justified f t) (hf : f.Sound) (hv : f.Holds v) (hs : s ∈ t.steps)
    (hnegative : s.literal.positive = false)
    (hlower : ∀ d ∈ t.steps, d.literal.var < s.literal.var → d.literal.positive = true →
      d.literal.Holds v) :
    s.literal.Holds v := by
  apply hj.holds_of_decisions ht.toLevelled hf hv ?_ hs le_rfl
  intro d hd hdec hle
  rcases h d hd hdec with ⟨hpositive, hrest⟩
  -- A decision about a higher variable would have found this one assigned at a lower level.
  have hlt : d.literal.var < s.literal.var := by
    rcases Nat.lt_trichotomy d.literal.var s.literal.var with hlt | heq | hgt
    · exact hlt
    · have := ht.step_unique hd hs heq
      rw [this, hnegative] at hpositive
      cases hpositive
    · rcases hrest s.literal.var hgt with ⟨s', hs', hv', hlt'⟩
      have := ht.step_unique hs' hs hv'
      rw [this] at hlt'
      omega
  exact hlower d hd hlt hpositive

end Trail

/-- Deciding the variable that is picked in fixed order. -/
theorem Position.Settled.ordered_decided {q : Position} {l : Literal} (h : q.Settled)
    (hordered : q.trail.Ordered) (hpositive : l.positive = true) (hlt : l.var < q.formula.numVars)
    (hfree : q.trail.Free l.var)
    (hpick : FixedOrder.pick ⟨q.formula.numVars⟩ q.trail.values = .ok (some l.var)) :
    (q.trail.newLevel.pushed l .decision).Ordered := by
  have hwf := h.wellFormed
  rcases FixedOrder.pick_spec hwf.values_size ⟨l.var, (hwf.free_var_iff hlt).1 hfree⟩ with
    ⟨v, hv, _, hleast⟩
  obtain rfl : v = l.var := Option.some.inj (Except.ok.inj (hv.symm.trans hpick))
  apply hordered.decided hwf.toLevelled hpositive
  intro u hu hfree'
  exact hleast u hu ((hwf.free_var_iff (hu.trans hlt)).1 hfree')

/-! ## The model of an ordered trail -/

/-- Variables without a value are read as true. -/
def Model.upper (a : Assignment) : Model :=
  ⟨a.values.map (·.getD true)⟩

section Greatest

variable {a : Assignment} {f : Formula} {t : Trail} {p : Position} {m : Model} {u : Nat} {b : Bool}

theorem Model.holds_iff_value? {l : Literal} (h : l.var < m.size) :
    l.Holds m.valuation ↔ m.value? l.var = some l.positive := by
  rw [← Model.satisfies_iff_holds h, Model.satisfies, beq_iff_eq]

@[simp] theorem Model.size_upper (a : Assignment) : (upper a).size = a.values.size := by
  simp [upper, size]

theorem Model.value?_upper (h : a.values[u]? = some (some b)) :
    (upper a).value? u = some b := by
  simp [upper, value?, h]

theorem Model.value?_upper_eq_false (h : (upper a).value? u = some false) :
    a.values[u]? = some (some false) := by
  simp only [upper, value?, Array.getElem?_map, Option.map_eq_some_iff] at h
  rcases h with ⟨value, hvalue, hfalse⟩
  cases value with
  | none => cases hfalse
  | some b => rw [hvalue, show b = false from hfalse]

/-- An ordered trail that satisfies the given clauses gives the greatest model, with all free
variables true. -/
theorem Trail.Ordered.isGreatest (h : t.Ordered) (ht : t.WellFormed f.numVars)
    (hj : Justified f t) (hf : f.Sound) (hall : ∀ c ∈ f.given, ∃ l ∈ c.literals, t.Assigns l) :
    (Model.upper t.values).IsGreatest f := by
  have hvalue : ∀ s ∈ t.steps,
      (Model.upper t.values).value? s.literal.var = some s.literal.positive :=
    fun s hs => Model.value?_upper ((ht.value_iff _ _).2 ⟨s, hs, rfl⟩)
  have hsize : (Model.upper t.values).size = f.numVars := by
    rw [Model.size_upper, ht.values_size]
  refine ⟨hsize, ?_, ?_⟩
  · rw [Formula.isSatisfiedBy_iff]
    intro c hc
    rcases hall c hc with ⟨_, hl, s, hs, rfl⟩
    exact ⟨s.literal, hl, by rw [Model.satisfies, hvalue s hs, beq_self_eq_true]⟩
  · intro m' hsize' hm'
    apply (Model.eq_or_first_difference (hsize'.trans hsize.symm)).imp_right
    rintro ⟨v, b, hv, hagree, hb, hb'⟩
    cases b with
    | true => exact ⟨v, hagree, hb', hb⟩
    | false =>
        -- The other model would make a variable true that has to be false.
        rw [hsize] at hv
        obtain ⟨s, hs, hsl⟩ := (ht.value_iff v false).1 (Model.value?_upper_eq_false hb)
        obtain rfl : s.literal.var = v := congrArg Literal.var hsl
        have hholds : s.literal.Holds m'.valuation := by
          refine h.holds_of_lower ht hj hf (Formula.holds_of_isSatisfiedBy hm') hs
            (congrArg Literal.positive hsl) ?_
          intro d hd hlt _
          rw [Model.holds_iff_value? (hsize' ▸ ht.var_lt hd), hagree _ hlt, hvalue d hd]
        rw [Model.holds_iff_value? (hsize' ▸ hv), hb', congrArg Literal.positive hsl] at hholds
        cases hholds

/-- With a value for every variable there is nothing left to fill up. -/
theorem Trail.WellFormed.upper_eq {n : Nat} (h : t.WellFormed n)
    (hfull : t.values.isComplete = true) :
    Model.upper t.values = .ofAssignment t.values := by
  have hvalues : t.values.values.map (·.getD true) = t.values.values.map (·.getD false) := by
    apply Array.map_congr_left
    intro value hvalue
    rcases Array.mem_iff_getElem?.1 hvalue with ⟨v, hv⟩
    cases value with
    | some b => rfl
    | none =>
        have hlt : v < n := h.values_size ▸ (Array.getElem?_eq_some_iff.1 hv).1
        exact absurd ((h.free_var_iff hlt).2 hv) (h.isComplete_iff.1 hfull v hlt)
  exact congrArg Model.mk hvalues

/-- A complete ordered trail gives the greatest model. -/
theorem Position.Settled.isGreatest (h : p.Settled) (hfull : p.trail.values.isComplete = true)
    (hordered : p.trail.Ordered) :
    (Model.ofAssignment p.trail.values).IsGreatest p.formula := by
  rw [← h.wellFormed.upper_eq hfull]
  exact hordered.isGreatest h.wellFormed h.justified h.sound fun c hc =>
    h.exists_assigns hfull (Formula.mem_clauses.2 (.inl hc))

end Greatest

/-! ## Searching in fixed order -/

/-- The selector in fixed order, over that many variables. -/
def Branching.IsFixedOrder (n : Nat) (selector : Branching) : Prop :=
  selector = .fixedOrder ⟨n⟩

theorem Branching.lawful_isFixedOrder (n : Nat) : Selector.Lawful n (IsFixedOrder n) where
  pick := by
    rintro s rfl a ha hfree
    exact (lawful n).pick (.fixedOrder ⟨n⟩) rfl a ha hfree
  reward := by
    rintro s rfl vs _
    exact ⟨_, rfl, rfl⟩
  decay := by
    rintro s rfl
    rfl

namespace Cdcl

variable {n : Nat} {kind : AnalyserKind} {s s' : Cdcl Branching} {q : Position} {move : Move}
variable {m : Model} {fuel : Nat}

/-- Every move keeps the trail ordered. -/
theorem Rounded.ordered (h : Rounded (Branching.IsFixedOrder n) kind s q move s')
    (hs : s.Regular n (Branching.IsFixedOrder n) kind) (hordered : s.position.trail.Ordered) :
    s'.position.trail.Ordered := by
  have hq : q.trail.Ordered := hordered.forced h.forced
  have hmade := h.made
  cases move with
  | refuted i => exact hmade.1 ▸ hq
  | closed i analysis => exact hmade.1 ▸ hq
  | completed m => exact hmade.1 ▸ hq
  | undecided m => exact hmade.elim
  -- What stays after stepping back is ordered, and what is pushed then is no decision.
  | asserted i learned level =>
      rcases hmade with ⟨_, l, _, t', _, _, _, hback, _, htrail⟩
      rw [htrail]
      exact (hq.steppedBack hback).pushed (by simp)
  | flipped i learned level branch =>
      rcases hmade with ⟨_, t', _, _, _, _, hback, _, htrail⟩
      rw [htrail]
      have hlevel : t'.newLevel.Ordered := (hq.steppedBack hback : t'.Ordered)
      exact hlevel.pushed (by simp)
  | restarted =>
      rcases hmade with ⟨hclear, hsettled, _⟩
      rw [hclear, hsettled.left.trail_clear]
      exact ordered_empty _
  | decided l =>
      rcases hmade with ⟨hsettled, _, hpositive, hpick, hlt, hfree, _, htrail⟩
      have hvars : q.formula.numVars = n := by
        rw [h.formula_eq]
        exact hs.numVars_eq
      have hselector : s.selector = .fixedOrder ⟨n⟩ := hs.selector
      rw [hselector, ← hvars] at hpick
      rw [htrail]
      exact hsettled.ordered_decided hq hpositive hlt hfree hpick

/-- A call in fixed order finds the greatest model, if any. -/
theorem Ran.isGreatest {conflicts decisions : Nat}
    (h : Ran (Branching.IsFixedOrder n) kind conflicts decisions s (some (.satisfiable m)) s')
    (hs : s.Regular n (Branching.IsFixedOrder n) kind) (hordered : s.position.trail.Ordered) :
    m.IsGreatest s.position.formula := by
  cases h with
  | ended hreaches hends =>
      -- The order is kept by every round, and the last one propagates before it ends the search.
      rename_i s₁
      obtain ⟨hregular, hordered₁⟩ :
          s₁.Regular n (Branching.IsFixedOrder n) kind ∧ s₁.position.trail.Ordered := by
        refine hreaches.invariant (I := fun x => x.Regular n (Branching.IsFixedOrder n) kind ∧
          x.position.trail.Ordered) ?_ ⟨hs, hordered⟩
        rintro _ _ ⟨hI, hordered⟩ ⟨_, _, hrounded, _⟩
        exact ⟨hrounded.regular hI, hrounded.ordered hI hordered⟩
      rcases hends with ⟨q, move, hrounded, hverdict⟩
      have hq : q.trail.Ordered := hordered₁.forced hrounded.forced
      have hmade := hrounded.made
      rcases sameGiven_of_reaches hreaches with ⟨hgiven, hvars⟩
      have hformula := hrounded.formula_eq
      cases move with
      | completed m' =>
          cases hverdict
          rcases hmade with ⟨_, hsettled, hfull, rfl⟩
          refine (hsettled.isGreatest hfull hq).congr ?_ ?_
          · rw [hformula, hvars]
          · rw [hformula, hgiven]
            exact fun _ => Iff.rfl
      | undecided m' => exact hmade.elim
      | _ => cases hverdict

/-- All the lifetime of a search in fixed order, a model that is found is the greatest one. -/
theorem Lifetime.isGreatest (h : s.Lifetime Branching.IsFixedOrder kind)
    (hsolve : s.solve fuel = .ok (some (.satisfiable m), s')) :
    m.IsGreatest s.position.formula := by
  -- A call begins with nothing assigned, and with that in order.
  rcases h.regular Branching.lawful_isFixedOrder fun _ _ => id with ⟨n, hs⟩
  rcases solve_spec (Branching.lawful_isFixedOrder n) hs fuel with ⟨answer, s₁, hok, hran⟩
  cases hsolve.symm.trans hok
  have htrail : s.clear.position.trail = .empty s.position.formula.numVars :=
    hs.position.trail_clear
  show m.IsGreatest s.clear.position.formula
  exact Ran.isGreatest hran hs.clear (htrail ▸ ordered_empty _)

/-- In fixed order, whatever the propagator, the analyser, the restarts and the budgets, and
whatever was learned before, a model that is found is the greatest one of the given clauses. So it
is the same for any two searches over the same variables that were given the same clauses in any
order. -/
theorem model_isGreatest (h : s.Lifetime Branching.IsFixedOrder kind)
    (hsolve : s.solve fuel = .ok (some (.satisfiable m), s')) :
    m.IsGreatest s.position.formula ∧
      ∀ (kind₁ : AnalyserKind) (s₁ s₁' : Cdcl Branching) (fuel₁ : Nat) (m₁ : Model),
        s₁.Lifetime Branching.IsFixedOrder kind₁ →
        s₁.position.formula.numVars = s.position.formula.numVars →
        (∀ c, c ∈ s₁.position.formula.given ↔ c ∈ s.position.formula.given) →
        s₁.solve fuel₁ = .ok (some (.satisfiable m₁), s₁') → m₁ = m := by
  have hm := h.isGreatest hsolve
  refine ⟨hm, ?_⟩
  intro kind₁ s₁ s₁' fuel₁ m₁ h₁ hvars hgiven hsolve₁
  exact hm.unique ((h₁.isGreatest hsolve₁).congr hvars hgiven)

/-- A search over the given clauses of the revised formula in another order. It scans all of them,
learns copies and never restarts. -/
def reordered : Cdcl Branching :=
  .start ⟨⟨4, #[⟨[⟨2, false⟩, ⟨3, false⟩], false⟩, ⟨[⟨2, false⟩, ⟨3, true⟩], false⟩,
    ⟨[⟨0, false⟩, ⟨1, false⟩], false⟩, ⟨[⟨0, false⟩, ⟨1, true⟩], false⟩], #[]⟩, .scan, .empty 4, 0⟩
    (.fixedOrder ⟨4⟩) (.build .levelScan 4) (.start .never)

theorem lifetime_reordered : reordered.Lifetime Branching.IsFixedOrder .levelScan :=
  have hbuilt : reordered.position.formula.Built :=
    .ofSigned (show Formula.ofSigned [[-3, -4], [-3, 4], [-1, -2], [-1, 2]] = .ok _ by rfl)
  have hp : Position.ofFormula .scan reordered.position.formula = .ok reordered.position := rfl
  .started hbuilt hp rfl

theorem mem_given_reordered (c : Clause) :
    c ∈ reordered.position.formula.given ↔ c ∈ Formula.revised.given := by
  simp only [reordered, start, Formula.revised, Formula.staged, List.push_toArray,
    List.cons_append, List.nil_append, List.mem_toArray, List.mem_cons, List.not_mem_nil, or_false]
  tauto

/-- A model that is found after a conflict, with a clause that an earlier call learned from another
one, is what the other search finds, however many rounds it may make. -/
theorem model_isGreatest_sample :
    (∃ s s', revised = .ok s ∧
      s.solve 8 = .ok (some (.satisfiable ⟨#[false, true, false, true]⟩), s') ∧
      s.conflicts = 1 ∧ s'.conflicts = 2 ∧
      Model.IsGreatest .revised ⟨#[false, true, false, true]⟩) ∧
    (∀ fuel m s', reordered.solve fuel = .ok (some (.satisfiable m), s') →
      m = ⟨#[false, true, false, true]⟩) ∧
    ∃ m s', reordered.solve 8 = .ok (some (.satisfiable m), s') ∧ s'.conflicts = 2 := by
  rcases @exists_revised Branching.IsFixedOrder rfl with
    ⟨s, hs, hlifetime, hformula, hconflicts, _⟩
  rcases solve_revised hs with ⟨s', hsolve, hconflicts'⟩
  rcases model_isGreatest hlifetime hsolve with ⟨hgreatest, hother⟩
  rw [hformula] at hgreatest hother
  have hrun : (reordered.solve 8).map (fun r => (r.1, r.2.conflicts)) =
      .ok (some (.satisfiable ⟨#[false, true, false, true]⟩), 2) := by decide +kernel
  rcases exists_of_map_eq_ok hrun with ⟨⟨answer, s₁'⟩, hsolve₁, heq⟩
  rcases Prod.mk.inj heq with ⟨rfl, hconflicts₁⟩
  refine ⟨⟨s, s', hs, hsolve, hconflicts, hconflicts', hgreatest⟩, ?_, _, s₁', hsolve₁,
    hconflicts₁⟩
  intro fuel m s' hok
  exact hother _ _ _ fuel m lifetime_reordered rfl mem_given_reordered hok

end Cdcl
end SatSearch
