import SatSearch.Proofs.Propagation.WatchIndex

/-!
# Register — taking a clause into the watch index

Registering the next clause extends what the index describes by that clause. The two positions it
is going to watch are the best two under the trail: a literal that is not false before one that is,
then the one falsified at the highest level. So a clause with two literals that are not false
watches two such, and an asserting clause watches the literal it asserts and one that was falsified
at the level where it is asserted.
-/

namespace SatSearch

open Trail

namespace WatchIndex

variable {n m i k : Nat} {cs : List Clause} {w w' : WatchIndex} {a b l : Literal}
variable {t : Trail} {f : Formula} {c : Clause} {r r' : Option Nat}

/-! ## The preference among literals -/

theorem not_preferred_self (r : Option Nat) : preferred r r = false := by
  cases r <;> simp [preferred]

/-- What is preferred over the best so far is at least as good as anything that is not preferred
over the best so far. -/
theorem not_preferred_of_preferred {x y z : Option Nat} (hxy : preferred x y = true)
    (hzy : preferred z y = false) : preferred z x = false := by
  cases x <;> cases y <;> cases z <;> simp_all [preferred]
  omega

theorem not_preferred_trans {x y z : Option Nat} (hyx : preferred y x = false)
    (hzy : preferred z y = false) : preferred z x = false := by
  cases x <;> cases y <;> cases z <;> simp_all [preferred]
  omega

/-- The best entry is one of the entries, and none is preferred over it. -/
theorem best_spec (xs : List (Nat × Option Nat)) : ∀ first,
    best first xs ∈ first :: xs ∧ ∀ x ∈ first :: xs, preferred x.2 (best first xs).2 = false := by
  induction xs with
  | nil =>
      intro first
      simp [best, not_preferred_self]
  | cons x xs ih =>
      intro first
      unfold best
      cases hpref : preferred x.2 first.2 with
      | true =>
          rcases ih x with ⟨hmem, hbest⟩
          refine ⟨List.mem_cons_of_mem _ hmem, ?_⟩
          intro y hy
          rcases List.mem_cons.1 hy with rfl | hy
          · -- The one that was given up is no better than the one it was given up for.
            refine not_preferred_trans (hbest x List.mem_cons_self) ?_
            exact not_preferred_of_preferred hpref (not_preferred_self _)
          · exact hbest y hy
      | false =>
          rcases ih first with ⟨hmem, hbest⟩
          refine ⟨?_, ?_⟩
          · rcases List.mem_cons.1 hmem with heq | hmem
            · simp [heq]
            · exact List.mem_cons_of_mem _ (List.mem_cons_of_mem _ hmem)
          · intro y hy
            rcases List.mem_cons.1 hy with rfl | hy
            · exact hbest y List.mem_cons_self
            · rcases List.mem_cons.1 hy with rfl | hy
              · exact not_preferred_trans (hbest first List.mem_cons_self) hpref
              · exact hbest y (List.mem_cons_of_mem _ hy)

/-- Of two or more entries at different positions the best two are chosen. -/
theorem choose?_spec {xs : List (Nat × Option Nat)} (hxs : (xs.map Prod.fst).Nodup)
    (hlen : 2 ≤ xs.length) :
    ∃ p q r r', choose? xs = some (p, q) ∧ p ≠ q ∧ (p, r) ∈ xs ∧ (q, r') ∈ xs ∧
      (∀ x ∈ xs, preferred x.2 r = false) ∧
      ∀ x ∈ xs, x.1 ≠ p → preferred x.2 r' = false := by
  obtain ⟨x, y, xs, rfl⟩ : ∃ x y zs, xs = x :: y :: zs := by
    match xs, hlen with
    | x :: y :: zs, _ => exact ⟨x, y, zs, rfl⟩
  rcases best_spec (y :: xs) x with ⟨hmem, hbest⟩
  cases hrest : (x :: y :: xs).filter fun z => z.1 ≠ (best x (y :: xs)).1 with
  | nil =>
      -- Two different positions cannot both be the best one.
      have hall : ∀ z ∈ x :: y :: xs, z.1 = (best x (y :: xs)).1 := by
        simpa [List.filter_eq_nil_iff] using hrest
      have hx := hall x List.mem_cons_self
      have hy := hall y (List.mem_cons_of_mem _ List.mem_cons_self)
      rw [List.map_cons, List.nodup_cons] at hxs
      exact absurd (by simp [hx, hy]) hxs.1
  | cons z zs =>
      rcases best_spec zs z with ⟨hmem', hbest'⟩
      rw [← hrest, List.mem_filter] at hmem'
      refine ⟨(best x (y :: xs)).1, (best z zs).1, (best x (y :: xs)).2, (best z zs).2, ?_, ?_,
        hmem, hmem'.1, hbest, ?_⟩
      · rw [choose?, hrest]
      · intro heq
        simp only [ne_eq, decide_not, Bool.not_eq_true', decide_eq_false_iff_not] at hmem'
        exact hmem'.2 heq.symm
      · intro u hu hne
        refine hbest' u ?_
        rw [← hrest, List.mem_filter]
        exact ⟨hu, by simpa using hne⟩

/-- The two positions that are chosen differ. -/
theorem ne_of_choose? {xs : List (Nat × Option Nat)} {p q : Nat} (h : choose? xs = some (p, q)) :
    p ≠ q := by
  cases xs with
  | nil => cases h
  | cons x xs =>
      cases hrest : (x :: xs).filter fun y => y.1 ≠ (best x xs).1 with
      | nil => simp only [choose?, hrest, reduceCtorEq] at h
      | cons y ys =>
          simp only [choose?, hrest, Option.some.injEq, Prod.mk.injEq] at h
          rcases h with ⟨rfl, rfl⟩
          have hmem := (best_spec ys y).1
          rw [← hrest, List.mem_filter] at hmem
          exact fun heq => (of_decide_eq_true hmem.2) heq.symm

/-! ## The ranks of literals -/

/-- What the rank of a literal says: it is not false, or it was falsified at that level. -/
theorem falseLevel?_spec (ht : t.Recorded n) (l : Literal) :
    ∃ r, falseLevel? t l = .ok r ∧
      (r = none ∧ ¬ t.Assigns l.negate ∨
        ∃ s ∈ t.steps, s.literal = l.negate ∧ r = some s.level) := by
  unfold falseLevel?
  by_cases hfalse : t.values.literal? l = some false
  · rcases ht.literal?_eq_false.1 hfalse with ⟨s, hs, hsl⟩
    have hlevel := ht.levelOf_step hs
    rw [hsl, Literal.negate_var] at hlevel
    rw [if_pos hfalse, hlevel]
    exact ⟨some s.level, rfl, .inr ⟨s, hs, hsl, rfl⟩⟩
  · rw [if_neg hfalse]
    exact ⟨none, rfl, .inl ⟨rfl, fun h => hfalse (ht.literal?_eq_false.2 h)⟩⟩

theorem ranked_spec (ht : t.Recorded n) (ls : List Literal) : ∀ position : Nat,
    ∃ ranks, ranked t position ls = .ok ranks ∧
      ranks.map Prod.fst = List.range' position ls.length ∧
      (∀ x ∈ ranks, ∃ j l, x.1 = position + j ∧ ls[j]? = some l ∧ falseLevel? t l = .ok x.2) ∧
      ∀ (j : Nat) (l : Literal), ls[j]? = some l →
        ∃ r, falseLevel? t l = .ok r ∧ (position + j, r) ∈ ranks := by
  -- Positions are counted from `position`, which moves on with every literal.
  induction ls with
  | nil =>
      intro position
      exact ⟨[], rfl, rfl, by simp, by simp⟩
  | cons l ls ih =>
      intro position
      rcases falseLevel?_spec ht l with ⟨r, hr, _⟩
      rcases ih (position + 1) with ⟨ranks, hranks, hpos, hsound, hall⟩
      refine ⟨(position, r) :: ranks, by simp only [ranked, hr, hranks], ?_, ?_, ?_⟩
      · simp [hpos, List.range'_succ]
      · intro x hx
        rcases List.mem_cons.1 hx with rfl | hx
        · exact ⟨0, l, rfl, rfl, hr⟩
        · rcases hsound x hx with ⟨j, l', hj, hl', hrank⟩
          exact ⟨j + 1, l', by omega, by simpa using hl', hrank⟩
      · intro j l' hj
        cases j with
        | zero =>
            obtain rfl : l = l' := by simpa using hj
            exact ⟨r, hr, List.mem_cons_self⟩
        | succ j =>
            rcases hall j l' (by simpa using hj) with ⟨r', hr', hmem⟩
            refine ⟨r', hr', List.mem_cons_of_mem _ ?_⟩
            rwa [show position + (j + 1) = position + 1 + j by omega]

/-- The two literals are the best of the clause: none is preferred over the first one, and none but
the first one over the second one. -/
def BestTwo (t : Trail) (c : Clause) (a b : Literal) : Prop :=
  ∃ r r', falseLevel? t a = .ok r ∧ falseLevel? t b = .ok r' ∧
    ∀ x ∈ c.literals, ∃ rx, falseLevel? t x = .ok rx ∧ preferred rx r = false ∧
      (x ≠ a → preferred rx r' = false)

/-- If two literals are not false, the best two are not false. -/
theorem BestTwo.not_false {x y : Literal} (h : BestTwo t c a b) (ht : t.WellFormed n)
    (hx : x ∈ c.literals) (hy : y ∈ c.literals) (hxy : x ≠ y) (hxt : ¬ t.Assigns x.negate)
    (hyt : ¬ t.Assigns y.negate) : ¬ t.Assigns a.negate ∧ ¬ t.Assigns b.negate := by
  rcases h with ⟨r, r', hr, hr', hbest⟩
  -- No rank is better than that of a literal that is not false.
  have hrank : ∀ z, ¬ t.Assigns z.negate → falseLevel? t z = .ok none := by
    intro z hz
    rcases falseLevel?_spec ht.toRecorded z with ⟨rz, hrz, hspec | ⟨s, hs, hsz, _⟩⟩
    · rw [hrz, hspec.1]
    · exact absurd ⟨s, hs, hsz⟩ hz
  have hfree : ∀ {z : Literal} {rz : Option Nat}, falseLevel? t z = .ok rz →
      preferred none rz = false → ¬ t.Assigns z.negate := by
    intro z rz hrz hpref
    rcases falseLevel?_spec ht.toRecorded z with ⟨rz', hrz', hspec | ⟨s, _, _, hlevel⟩⟩
    · exact hspec.2
    · rw [hrz] at hrz'
      cases hrz'
      simp [hlevel, preferred] at hpref
  have htop : ∀ z, z ∈ c.literals → ¬ t.Assigns z.negate →
      preferred none r = false ∧ (z ≠ a → preferred none r' = false) := by
    intro z hz hzt
    rcases hbest z hz with ⟨rz, hrz, h1, h2⟩
    rw [hrank z hzt] at hrz
    cases hrz
    exact ⟨h1, h2⟩
  refine ⟨hfree hr (htop x hx hxt).1, hfree hr' ?_⟩
  -- One of the two literals is not the first choice.
  by_cases hxa : x = a
  · exact (htop y hy hyt).2 fun hya => hxy (hxa.trans hya.symm)
  · exact (htop x hx hxt).2 hxa

/-- A literal that was falsified is ranked by the level of that step. -/
theorem falseLevel?_step (ht : t.WellFormed n) {s : Step} (hs : s ∈ t.steps)
    (hsl : s.literal = l.negate) : falseLevel? t l = .ok (some s.level) := by
  rcases falseLevel?_spec ht.toRecorded l with ⟨r, hr, hspec | ⟨s', hs', hs'l, hlevel⟩⟩
  · exact absurd ⟨s, hs, hsl⟩ hspec.2
  · have : s' = s := ht.step_unique hs' hs (by simp [hs'l, hsl])
    rw [hr, hlevel, this]

/-- If one literal only is not false, it is the first one. -/
theorem BestTwo.first_eq (h : BestTwo t c a b) (ht : t.WellFormed n) (hl : l ∈ c.literals)
    (hfree : ¬ t.Assigns l.negate) (hothers : ∀ x ∈ c.literals, x ≠ l → t.Assigns x.negate)
    (ha : a ∈ c.literals) : a = l := by
  rcases h with ⟨r, r', hr, _, hbest⟩
  by_contra hne
  rcases hothers a ha hne with ⟨s, hs, hsa⟩
  rw [falseLevel?_step ht hs hsa] at hr
  cases hr
  rcases hbest l hl with ⟨rl, hrl, hpref, _⟩
  rcases falseLevel?_spec ht.toRecorded l with ⟨rl', hrl', hspec | ⟨s', hs', hs'l, _⟩⟩
  · rw [hrl, hspec.1] at hrl'
    cases hrl'
    simp [preferred] at hpref
  · exact hfree ⟨s', hs', hs'l⟩

/-- The second one, if it is false, was falsified no earlier than any other but the first. -/
theorem BestTwo.level_le {x : Literal} (h : BestTwo t c a b) (ht : t.WellFormed n)
    (hx : x ∈ c.literals) (hxa : x ≠ a) {s s' : Step} (hs : s ∈ t.steps)
    (hsx : s.literal = x.negate) (hs' : s' ∈ t.steps) (hsb : s'.literal = b.negate) :
    s.level ≤ s'.level := by
  rcases h with ⟨r, r', _, hr', hbest⟩
  rcases hbest x hx with ⟨rx, hrx, _, hpref⟩
  have hpref := hpref hxa
  rw [falseLevel?_step ht hs hsx] at hrx
  rw [falseLevel?_step ht hs' hsb] at hr'
  cases hrx
  cases hr'
  simpa [preferred] using hpref

/-! ## One clause more -/

/-- The positions `x` of the clause hold the two literals. -/
def PositionsOf (c : Clause) (x : Nat × Nat) (a b : Literal) : Prop :=
  ∃ p q, (x = (p, q) ∨ x = (q, p)) ∧ p ≠ q ∧ c.literals[p]? = some a ∧ c.literals[q]? = some b

theorem PositionsOf.ne {x : Nat × Nat} (h : PositionsOf c x a b) (hc : c.literals.Nodup) :
    a ≠ b := by
  rcases h with ⟨p, q, _, hpq, ha, hb⟩
  rintro rfl
  have hlt := (List.getElem?_eq_some_iff.1 ha).1
  exact hpq ((List.getElem?_inj hlt hc).1 (ha.trans hb.symm))

/-- Two positions hold one pair of literals only. -/
theorem positionsOf_iff {y : Nat × Nat} {o : Literal} (h : PositionsOf c y l o) :
    PositionsOf c y a b ↔ a = l ∧ b = o ∨ a = o ∧ b = l := by
  rcases h with ⟨p, q, hy, hpq, hp, hq⟩
  constructor
  · rintro ⟨p', q', hy', _, hp', hq'⟩
    have hsame : p' = p ∧ q' = q ∨ p' = q ∧ q' = p := by
      rcases hy with rfl | rfl <;> simp only [Prod.mk.injEq] at hy' <;> omega
    rcases hsame with ⟨rfl, rfl⟩ | ⟨rfl, rfl⟩
    · exact .inl ⟨Option.some.inj (hp'.symm.trans hp), Option.some.inj (hq'.symm.trans hq)⟩
    · exact .inr ⟨Option.some.inj (hp'.symm.trans hq), Option.some.inj (hq'.symm.trans hp)⟩
  · rintro (⟨rfl, rfl⟩ | ⟨rfl, rfl⟩)
    · exact ⟨p, q, hy, hpq, hp, hq⟩
    · exact ⟨q, p, hy.symm, hpq.symm, hq, hp⟩

theorem room_eq (positions : Array (Nat × Nat)) :
    room positions positions.size = positions.push (0, 0) := by
  have hone : positions.size + 1 - positions.size = 1 := by omega
  rw [room, hone, Array.push_eq_append]
  rfl

/-- With the positions of one clause more, that clause alone watches anything new. -/
theorem watches_push {x : Nat × Nat} (hsize : w.positions.size = cs.length)
    (hpos : w'.positions = w.positions.push x) :
    Watches (cs ++ [c]) w' i a b ↔ Watches cs w i a b ∨ i = cs.length ∧ PositionsOf c x a b := by
  by_cases hi : i = cs.length
  · subst hi
    -- Before, there was no clause of this index.
    have hnot : ¬ Watches cs w cs.length a b := by
      rintro ⟨c', p, q, hc', _⟩
      simp at hc'
    have hx : w'.positions[cs.length]? = some x := by
      rw [hpos, ← hsize, Array.getElem?_push_size]
    constructor
    · rintro ⟨c', p, q, hc', hxpq, rest⟩
      obtain rfl : c = c' := by simpa using hc'
      rw [hx, Option.some.injEq, Option.some.injEq] at hxpq
      exact .inr ⟨rfl, p, q, hxpq, rest⟩
    · rintro (h | ⟨_, p, q, hxpq, rest⟩)
      · exact absurd h hnot
      · refine ⟨c, p, q, by simp, ?_, rest⟩
        rwa [hx, Option.some.injEq, Option.some.injEq]
  · have hget : w'.positions[i]? = w.positions[i]? := by
      rw [hpos, Array.getElem?_push, if_neg (by omega)]
    have hcs : (cs ++ [c])[i]? = cs[i]? := by
      rcases Nat.lt_or_ge i cs.length with hlt | hge
      · exact List.getElem?_append_left hlt
      · rw [List.getElem?_eq_none (by simp; omega), List.getElem?_eq_none hge]
    simp only [Watches, hget, hcs, hi, false_and, or_false]

/-- Two equal positions make the new clause watch nothing. -/
theorem watches_push_zero (hsize : w.positions.size = cs.length)
    (hpos : w'.positions = w.positions.push (0, 0)) :
    Watches (cs ++ [c]) w' i a b ↔ Watches cs w i a b := by
  rw [watches_push hsize hpos]
  constructor
  · rintro (h | ⟨_, p, q, hx, hpq, _⟩)
    · exact h
    · rcases hx with hx | hx <;> cases hx <;> exact absurd rfl hpq
  · exact .inl

/-- A clause that is taken in goes into one of the two lists of short clauses, or into the lists of
the literals at two positions, which are recorded. -/
theorem register_eq_ok (h : w.register f t i = .ok w') : ∃ c, f.clause? i = some c ∧
    (c.length = 0 ∧ w' = ⟨w.lists, room w.positions i, w.units, w.empties.push i⟩ ∨
      c.length = 1 ∧ w' = ⟨w.lists, room w.positions i, w.units.push i, w.empties⟩ ∨
      2 ≤ c.length ∧ ∃ ranks p q a b lists lists', ranked t 0 c.literals = .ok ranks ∧
        choose? ranks = some (p, q) ∧ c.literals[p]? = some a ∧ c.literals[q]? = some b ∧
        watch? w.lists a i = some lists ∧ watch? lists b i = some lists' ∧
        w' = ⟨lists', (room w.positions i).setIfInBounds i (p, q), w.units, w.empties⟩) := by
  rcases w with ⟨lists, positions, units, empties⟩
  rw [register] at h
  split at h
  · cases h
  · rename_i c hc
    refine ⟨c, hc, ?_⟩
    split at h
    · rename_i hls
      cases h
      exact .inl ⟨by rw [Clause.length, hls]; rfl, rfl⟩
    · rename_i hls
      cases h
      exact .inr (.inl ⟨by rw [Clause.length, hls]; rfl, rfl⟩)
    · rename_i hnil hone
      have hlen : 2 ≤ c.length := by
        rw [Clause.length]
        match hls : c.literals with
        | [] => exact absurd hls hnil
        | [l] => exact absurd hls (hone l)
        | _ :: _ :: ls => simp
      -- Each step on the way to the two literals has come out well.
      split at h
      · cases h
      · rename_i ranks hranks
        split at h
        · cases h
        · rename_i p q hchoose
          split at h
          · rename_i a b ha hb
            split at h
            · cases h
            · rename_i lists₁ hfirst
              split at h
              · cases h
              · rename_i lists₂ hsecond
                cases h
                exact .inr (.inr ⟨hlen, ranks, p, q, a, b, lists₁, lists₂, hranks, hchoose, ha, hb,
                  hfirst, hsecond, rfl⟩)
          · cases h

theorem Watches.lt (h : Watches cs w i a b) : i < cs.length := by
  rcases h with ⟨c, _, _, hc, _⟩
  exact (List.getElem?_eq_some_iff.1 hc).1

theorem Indexes.not_mem_list (hw : Indexes n cs w) {list : Array Nat}
    (hlist : w.lists[l.code]? = some list) : cs.length ∉ list := by
  intro hmem
  rcases (hw.mem_list l list hlist _).1 hmem with ⟨b, hb⟩
  exact absurd hb.lt (lt_irrefl _)

theorem watch?_eq {lists : Array (Array Nat)} (hsize : lists.size = 2 * n) (hl : l.var < n) :
    watch? lists l i = some (lists.modify l.code (·.push i)) := by
  have := Literal.code_lt hl
  simp [watch?, hsize, this]

theorem watch?_eq_some {lists lists' : Array (Array Nat)} (h : watch? lists l i = some lists') :
    l.code < lists.size ∧ lists' = lists.modify l.code (·.push i) := by
  rw [watch?] at h
  split at h
  · rename_i hlt
    exact ⟨hlt, (Option.some.inj h).symm⟩
  · cases h

theorem nodup_push {list : Array Nat} (h : list.toList.Nodup) (hnot : i ∉ list) :
    (list.push i).toList.Nodup := by
  rw [Array.toList_push, ← List.concat_eq_append]
  exact h.concat fun hi => hnot (Array.mem_toList_iff.1 hi)

/-- A list of short clauses takes the new clause in if it has that length. -/
theorem mem_shorts_push {shorts : Array Nat} {length : Nat}
    (h : ∀ i : Nat, i ∈ shorts ↔ ∃ c, cs[i]? = some c ∧ c.length = length) (i : Nat) :
    (i ∈ if c.length = length then shorts.push cs.length else shorts) ↔
      ∃ c', (cs ++ [c])[i]? = some c' ∧ c'.length = length := by
  -- Indices below the new one are as before, and there are none above it.
  rcases Nat.lt_trichotomy i cs.length with hlt | rfl | hgt
  · rw [List.getElem?_append_left hlt, ← h i]
    split
    · simp [Array.mem_push]
      omega
    · rfl
  · have hnot : cs.length ∉ shorts := by
      rw [h]
      simp
    simp only [List.getElem?_concat_length]
    split
    · rename_i hlen
      simp [hlen]
    · rename_i hlen
      simp [hnot, hlen]
  · have hnot : i ∉ shorts := by
      rw [h]
      simp [List.getElem?_eq_none (show cs.length ≤ i by omega)]
    rw [List.getElem?_eq_none (by simp; omega)]
    split
    · simp [Array.mem_push, hnot]
      omega
    · simpa using hnot

theorem nodup_shorts_push {shorts : Array Nat} {length : Nat} (hnodup : shorts.toList.Nodup)
    (h : ∀ i : Nat, i ∈ shorts ↔ ∃ c, cs[i]? = some c ∧ c.length = length) :
    (if c.length = length then shorts.push cs.length else shorts).toList.Nodup := by
  have hnot : cs.length ∉ shorts := by
    rw [h]
    simp
  split
  · exact nodup_push hnodup hnot
  · exact hnodup

/-- A clause of less than two literals goes into one of the two other lists. -/
theorem Indexes.short (hw : Indexes n cs w) (hc : c.length < 2) {w' : WatchIndex}
    (hlists : w'.lists = w.lists) (hpos : w'.positions = w.positions.push (0, 0))
    (hunits : w'.units = if c.length = 1 then w.units.push cs.length else w.units)
    (hempties : w'.empties = if c.length = 0 then w.empties.push cs.length else w.empties) :
    Indexes n (cs ++ [c]) w' := by
  have hwatches : ∀ {i a b}, Watches (cs ++ [c]) w' i a b ↔ Watches cs w i a b :=
    watches_push_zero hw.positions_size hpos
  refine ⟨hlists ▸ hw.lists_size, ?_, ?_, ?_, hlists ▸ hw.nodup_list, ?_, ?_, ?_, ?_⟩
  · simp [hpos, hw.positions_size]
  · intro i c' hi hlen
    rw [List.getElem?_append] at hi
    split at hi
    · rcases hw.watched i c' hi hlen with ⟨a, b, h⟩
      exact ⟨a, b, hwatches.2 h⟩
    · obtain ⟨_, rfl⟩ : i - cs.length = 0 ∧ c = c' := by
        simpa [List.getElem?_singleton] using hi
      omega
  · intro l list hlist i
    simp only [hwatches]
    exact hw.mem_list l list (hlists ▸ hlist) i
  · intro i
    rw [hunits]
    exact mem_shorts_push hw.mem_units i
  · rw [hunits]
    exact nodup_shorts_push hw.nodup_units hw.mem_units
  · intro i
    rw [hempties]
    exact mem_shorts_push hw.mem_empties i
  · rw [hempties]
    exact nodup_shorts_push hw.nodup_empties hw.mem_empties

/-- One list more names the clause, the one of the literal. -/
theorem mem_watched {lists : Array (Array Nat)} {x : Literal} {list' : Array Nat}
    (h : (lists.modify x.code (·.push i))[l.code]? = some list') :
    ∃ list, lists[l.code]? = some list ∧ (∀ j, j ∈ list' ↔ j ∈ list ∨ j = i ∧ l = x) ∧
      (list.toList.Nodup → (l = x → i ∉ list) → list'.toList.Nodup) := by
  rw [Array.getElem?_modify] at h
  by_cases hlx : l = x
  · subst hlx
    rw [if_pos rfl] at h
    rcases Option.map_eq_some_iff.1 h with ⟨list, hlist, rfl⟩
    refine ⟨list, hlist, by simp, ?_⟩
    intro hnodup hnot
    exact nodup_push hnodup (hnot rfl)
  · rw [if_neg fun hcode => hlx (Literal.code_inj.1 hcode).symm] at h
    exact ⟨list', h, by simp [hlx], fun hnodup _ => hnodup⟩

/-- A clause of another length adds nothing to those of the length. -/
theorem exists_append_iff {length : Nat} (hc : c.length ≠ length) :
    (∃ c', (cs ++ [c])[i]? = some c' ∧ c'.length = length) ↔
      ∃ c', cs[i]? = some c' ∧ c'.length = length := by
  rcases Nat.lt_trichotomy i cs.length with hlt | rfl | hgt
  · rw [List.getElem?_append_left hlt]
  · simp [hc]
  · rw [List.getElem?_eq_none (by simp; omega), List.getElem?_eq_none (by omega)]

/-- A clause of two or more literals goes into the lists of the two it is going to watch. -/
theorem Indexes.long (hw : Indexes n cs w) (hproper : c.Proper n) (hc : 2 ≤ c.length)
    {p q : Nat} (hpq : p ≠ q) (ha : c.literals[p]? = some a) (hb : c.literals[q]? = some b)
    {w' : WatchIndex}
    (hlists : w'.lists = (w.lists.modify a.code (·.push cs.length)).modify b.code
      (·.push cs.length))
    (hpos : w'.positions = w.positions.push (p, q)) (hunits : w'.units = w.units)
    (hempties : w'.empties = w.empties) : Indexes n (cs ++ [c]) w' := by
  have hnew : PositionsOf c (p, q) a b := ⟨p, q, .inl rfl, hpq, ha, hb⟩
  have hab : a ≠ b := hnew.ne hproper.nodup
  have hnew' : PositionsOf c (p, q) b a := ⟨q, p, .inr rfl, hpq.symm, hb, ha⟩
  have honly : ∀ {x y}, PositionsOf c (p, q) x y → x = a ∨ x = b := by
    intro x y hxy
    exact ((positionsOf_iff hnew).1 hxy).imp And.left And.left
  have hwatches : ∀ {i x y}, Watches (cs ++ [c]) w' i x y ↔
      Watches cs w i x y ∨ i = cs.length ∧ PositionsOf c (p, q) x y :=
    watches_push hw.positions_size hpos
  refine ⟨?_, ?_, ?_, ?_, ?_, ?_, ?_, ?_, ?_⟩
  · simp [hlists, hw.lists_size]
  · simp [hpos, hw.positions_size]
  · intro i c' hi hlen
    rw [List.getElem?_append] at hi
    split at hi
    · rcases hw.watched i c' hi hlen with ⟨x, y, h⟩
      exact ⟨x, y, hwatches.2 (.inl h)⟩
    · have hlt : i < cs.length + 1 := by
        have := (List.getElem?_eq_some_iff.1 hi).1
        simp only [List.length_singleton] at this
        omega
      exact ⟨a, b, hwatches.2 (.inr ⟨by omega, hnew⟩)⟩
  · intro l list' hlist i
    rw [hlists] at hlist
    rcases mem_watched hlist with ⟨list₁, hlist₁, hmem', _⟩
    rcases mem_watched hlist₁ with ⟨list, hlist, hmem, _⟩
    rw [hmem', hmem, hw.mem_list l list hlist]
    simp only [hwatches]
    constructor
    · rintro ((⟨y, h⟩ | ⟨rfl, rfl⟩) | ⟨rfl, rfl⟩)
      · exact ⟨y, .inl h⟩
      · exact ⟨b, .inr ⟨rfl, hnew⟩⟩
      · exact ⟨a, .inr ⟨rfl, hnew'⟩⟩
    · rintro ⟨y, h | ⟨rfl, h⟩⟩
      · exact .inl (.inl ⟨y, h⟩)
      · rcases honly h with rfl | rfl
        · exact .inl (.inr ⟨rfl, rfl⟩)
        · exact .inr ⟨rfl, rfl⟩
  · intro l list' hlist
    rw [hlists] at hlist
    rcases mem_watched hlist with ⟨list₁, hlist₁, _, hnodup'⟩
    rcases mem_watched hlist₁ with ⟨list, hlist, hmem, hnodup⟩
    -- The two lists that grow are different ones.
    have hold := hw.not_mem_list hlist
    refine hnodup' (hnodup (hw.nodup_list l list hlist) fun _ => hold) ?_
    rintro rfl hnew
    rcases (hmem _).1 hnew with h | ⟨_, h⟩
    · exact hold h
    · exact hab h.symm
  · intro i
    rw [hunits, hw.mem_units]
    exact (exists_append_iff (by omega)).symm
  · exact hunits ▸ hw.nodup_units
  · intro i
    rw [hempties, hw.mem_empties]
    exact (exists_append_iff (by omega)).symm
  · exact hempties ▸ hw.nodup_empties

/-- The best two positions of a proper clause hold its best two literals. -/
theorem chosen_spec (ht : t.Recorded n) (hc : 2 ≤ c.length) :
    ∃ ranks p q a b, ranked t 0 c.literals = .ok ranks ∧ choose? ranks = some (p, q) ∧ p ≠ q ∧
      c.literals[p]? = some a ∧ c.literals[q]? = some b ∧ BestTwo t c a b := by
  rcases ranked_spec ht c.literals 0 with ⟨ranks, hranks, hpos, hsound, hall⟩
  have hlen : ranks.length = c.length := by
    have := congrArg List.length hpos
    simpa [Clause.length] using this
  rcases choose?_spec (hpos ▸ List.nodup_range') (hlen ▸ hc) with
    ⟨p, q, r, r', hchoose, hpq, hp, hq, hbest, hbest'⟩
  rcases hsound _ hp with ⟨_, a, hpj, ha, hra⟩
  rcases hsound _ hq with ⟨_, b, hqj, hb, hrb⟩
  rw [Nat.zero_add] at hpj hqj
  subst hpj hqj
  refine ⟨ranks, _, _, a, b, hranks, hchoose, hpq, ha, hb, r, r', hra, hrb, ?_⟩
  intro x hx
  rcases List.mem_iff_getElem?.1 hx with ⟨j, hj⟩
  rcases hall j x hj with ⟨rx, hrx, hmem⟩
  rw [Nat.zero_add] at hmem
  refine ⟨rx, hrx, hbest _ hmem, ?_⟩
  intro hxa
  refine hbest' _ hmem ?_
  rintro rfl
  exact hxa (Option.some.inj (hj.symm.trans ha))

/-- Taking a clause in comes to a result. -/
theorem register_ok (ht : t.Recorded n) (hsize : w.lists.size = 2 * n)
    (hclause : f.clause? i = some c) (hproper : c.Proper n) : ∃ w', w.register f t i = .ok w' := by
  rcases w with ⟨lists, positions, units, empties⟩
  cases hls : c.literals with
  | nil =>
      simp only [register, hclause, hls]
      exact ⟨_, rfl⟩
  | cons l ls =>
      cases ls with
      | nil =>
          simp only [register, hclause, hls]
          exact ⟨_, rfl⟩
      | cons l' ls =>
          rcases chosen_spec ht (c := c) (by simp [Clause.length, hls]) with
            ⟨ranks, p, q, a, b, hranks, hchoose, _, ha, hb, _⟩
          have hfirst := watch?_eq (i := i) hsize (hproper.inRange a (List.mem_of_getElem? ha))
          have hsize' : (lists.modify a.code (·.push i)).size = 2 * n := by simpa using hsize
          have hsecond := watch?_eq (i := i) hsize' (hproper.inRange b (List.mem_of_getElem? hb))
          rw [hls] at hranks ha hb
          simp only [register, hclause, hls, hranks, hchoose, ha, hb, hfirst, hsecond]
          exact ⟨_, rfl⟩

/-- Registering the next clause extends the index by it; the clause watches its best two
literals. -/
theorem register_spec (ht : t.WellFormed n) (hw : Indexes n cs w)
    (hclause : f.clause? cs.length = some c) (hproper : c.Proper n) :
    ∃ w', w.register f t cs.length = .ok w' ∧ Indexes n (cs ++ [c]) w' ∧
      ∀ i a b, Watches (cs ++ [c]) w' i a b → Watches cs w i a b ∨
        i = cs.length ∧ 2 ≤ c.length ∧ a ∈ c.literals ∧ b ∈ c.literals ∧
          (BestTwo t c a b ∨ BestTwo t c b a) := by
  have hroom : room w.positions cs.length = w.positions.push (0, 0) := by
    rw [← hw.positions_size, room_eq]
  rcases register_ok ht.toRecorded hw.lists_size hclause hproper with ⟨w', hok⟩
  refine ⟨w', hok, ?_⟩
  rcases register_eq_ok hok with ⟨d, hd, hcases⟩
  obtain rfl : c = d := Option.some.inj (hclause.symm.trans hd)
  rcases hcases with ⟨hlen, rfl⟩ | ⟨hlen, rfl⟩ |
    ⟨hlen, ranks, p, q, a, b, lists, lists', hranks, hchoose, ha, hb, hfirst, hsecond, rfl⟩
  · refine ⟨hw.short (by omega) rfl hroom (by simp [hlen]) (by simp [hlen]), ?_⟩
    exact fun i x y h => .inl ((watches_push_zero hw.positions_size hroom).1 h)
  · refine ⟨hw.short (by omega) rfl hroom (by simp [hlen]) (by simp [hlen]), ?_⟩
    exact fun i x y h => .inl ((watches_push_zero hw.positions_size hroom).1 h)
  · rcases chosen_spec ht.toRecorded hlen with
      ⟨ranks', p', q', a', b', hranks', hchoose', hpq, ha', hb', hbest⟩
    -- There is one best pair of positions, so the clause watches the best two literals.
    cases hranks.symm.trans hranks'
    cases hchoose.symm.trans hchoose'
    cases ha.symm.trans ha'
    cases hb.symm.trans hb'
    have hpos : (room w.positions cs.length).setIfInBounds cs.length (p, q) =
        w.positions.push (p, q) := by
      rw [hroom, ← hw.positions_size]
      simp [Array.setIfInBounds, Array.set_push]
    have hnew : PositionsOf c (p, q) a b := ⟨p, q, .inl rfl, hpq, ha, hb⟩
    obtain rfl := (watch?_eq_some hfirst).2
    obtain rfl := (watch?_eq_some hsecond).2
    refine ⟨hw.long hproper hlen hpq ha hb rfl hpos rfl rfl, ?_⟩
    intro i x y h
    have ha := List.mem_of_getElem? ha
    have hb := List.mem_of_getElem? hb
    rcases (watches_push hw.positions_size hpos).1 h with h | ⟨rfl, hxy⟩
    · exact .inl h
    · rcases (positionsOf_iff hnew).1 hxy with ⟨rfl, rfl⟩ | ⟨rfl, rfl⟩
      · exact .inr ⟨rfl, hlen, ha, hb, .inl hbest⟩
      · exact .inr ⟨rfl, hlen, hb, ha, .inr hbest⟩

/-- Without learned clauses a given clause that is added comes last, and is taken in alone. -/
theorem register_extended {ls : List Literal} (ht : t.WellFormed f.numVars)
    (hw : Indexes f.numVars f.clauses w) (hnone : f.learnts = #[])
    (hproper : (f.extended ls).Proper) :
    ∃ w', w.register (f.extended ls) t f.given.size = .ok w' ∧
      Indexes (f.extended ls).numVars (f.extended ls).clauses w' := by
  have hclauses : (f.extended ls).clauses = f.clauses ++ [.given ls] :=
    Formula.clauses_extended hnone
  have hlast : f.given.size = f.clauses.length := by
    simp [Formula.clauses, hnone]
  have hclause : (f.extended ls).clause? f.clauses.length = some (.given ls) := by
    rw [Formula.clause?_eq_getElem?, hclauses]
    simp
  rcases register_spec ht hw hclause (hproper _ (Formula.mem_of_clause? hclause)) with
    ⟨w', hw', hindexes, _⟩
  rw [hlast, hclauses]
  exact ⟨w', hw', hindexes⟩

/-! ## All clauses -/

theorem registerAll_spec (ht : t.WellFormed n) (hf : ∀ c ∈ f.clauses, c.Proper n) (left : Nat) :
    ∀ (done : Nat) (w : WatchIndex), done + left = f.clauses.length →
      Indexes n (f.clauses.take done) w →
      ∃ w', registerAll f t (List.range' done left) w = .ok w' ∧ Indexes n f.clauses w' := by
  -- What has been registered is an initial part of the clauses.
  induction left with
  | zero =>
      intro done w hdone hw
      rw [List.take_of_length_le (by omega)] at hw
      exact ⟨w, rfl, hw⟩
  | succ left ih =>
      intro done w hdone hw
      have hlt : done < f.clauses.length := by omega
      have hget := List.getElem?_eq_getElem hlt
      have hlen : (f.clauses.take done).length = done := by
        rw [List.length_take]
        omega
      rcases register_spec (f := f) (c := f.clauses[done]) ht hw
          (by rw [hlen, Formula.clause?_eq_getElem?, hget]) (hf _ (List.getElem_mem hlt)) with
        ⟨w₁, hw₁, hindexes, _⟩
      rw [hlen] at hw₁
      rw [List.take_append_getElem hlt] at hindexes
      rcases ih (done + 1) w₁ (by omega) hindexes with ⟨w', hw', rest⟩
      refine ⟨w', ?_, rest⟩
      simp only [List.range'_succ, registerAll, hw₁]
      exact hw'

theorem indexes_empty (n : Nat) :
    Indexes n [] ⟨Array.replicate (2 * n) #[], #[], #[], #[]⟩ where
  lists_size := by simp
  positions_size := rfl
  watched := by simp
  mem_list := by
    intro l list hlist i
    rw [Array.getElem?_replicate] at hlist
    split at hlist
    · cases hlist
      simp [Watches]
    · cases hlist
  nodup_list := by
    intro l list hlist
    rw [Array.getElem?_replicate] at hlist
    split at hlist
    · cases hlist
      exact List.nodup_nil
    · cases hlist
  mem_units := by simp
  nodup_units := List.nodup_nil
  mem_empties := by simp
  nodup_empties := List.nodup_nil

/-- The index of a proper formula describes its clauses. -/
theorem ofFormula_spec (hf : f.Proper) :
    ∃ w, ofFormula f = .ok w ∧ Indexes f.numVars f.clauses w := by
  rcases registerAll_spec (wellFormed_empty f.numVars) hf f.clauses.length 0 _
      (Nat.zero_add _) (indexes_empty f.numVars) with
    ⟨w, hw, hindexes⟩
  refine ⟨w, ?_, hindexes⟩
  rw [ofFormula, List.range_eq_range', ← Formula.length_clauses]
  exact hw

/-! ## Learned clauses -/

/-- A learned clause with two literals that are not false watches two such, so there is nothing to
make up for. -/
theorem Watchful.learn (h : Watchful f t m w) (ht : t.WellFormed f.numVars)
    (hc : c.Proper f.numVars) (ha : a ∈ c.literals) (hb : b ∈ c.literals) (hab : a ≠ b)
    (hat : ¬ t.Assigns a.negate) (hbt : ¬ t.Assigns b.negate) :
    ∃ w', w.register (f.learn c).2 t f.clauses.length = .ok w' ∧ Watchful (f.learn c).2 t m w' := by
  rcases register_spec ht h.indexes Formula.clause?_learn_self (c := .learned c.literals)
      ⟨hc.nodup, hc.inRange⟩ with
    ⟨w', hw', hindexes, hnew⟩
  refine ⟨w', hw', ?_, ?_, h.current, h.le_head, h.head_le⟩
  · rwa [Formula.clauses_learn]
  · rw [Formula.clauses_learn]
    intro i x y hxy j hj s hs hsx
    rcases hnew i x y hxy with hold | ⟨_, _, _, _, hbest⟩
    · exact h.guards i x y hold j hj s hs hsx
    · have hfree : ¬ t.Assigns x.negate := by
        rcases hbest with hbest | hbest
        · exact (hbest.not_false ht ha hb hab hat hbt).1
        · exact (hbest.not_false ht ha hb hab hat hbt).2
      exact absurd ⟨s, Array.mem_of_getElem? hs, hsx⟩ hfree

/-- A learned clause whose only literal that is not false is asserted at the level where another one
was falsified last watches the two. -/
theorem Watchful.assert {r : Reason} (h : Watchful f t m w) (ht : t.WellFormed f.numVars)
    (hc : c.Proper f.numVars) (hl : l ∈ c.literals) (hfree : ¬ t.Assigns l.negate)
    (hothers : ∀ a ∈ c.literals, a ≠ l → t.Assigns a.negate)
    (hlevel : 2 ≤ c.length → ∃ a ∈ c.literals, a ≠ l ∧
      ∃ s ∈ t.steps, s.literal = a.negate ∧ s.level = t.level) :
    ∃ w', w.register (f.learn c).2 t f.clauses.length = .ok w' ∧
      Watchful (f.learn c).2 (t.pushed l r) m w' := by
  rcases register_spec ht h.indexes Formula.clause?_learn_self (c := .learned c.literals)
      ⟨hc.nodup, hc.inRange⟩ with
    ⟨w', hw', hindexes, hnew⟩
  have hpushed := h.pushed (l := l) (r := r)
  refine ⟨w', hw', ?_, ?_, hpushed.current, hpushed.le_head, hpushed.head_le⟩
  · rwa [Formula.clauses_learn]
  · rw [Formula.clauses_learn]
    intro i x y hxy j hj
    rcases hnew i x y hxy with hold | ⟨_, hlen, hx, hy, hbest⟩
    · exact hpushed.guards i x y hold j hj
    · -- Only the second of the two is false, and the first one is asserted at its level.
      intro s hs hsx
      have hs' : t.steps[j]? = some s := by
        have := h.le_head
        have := h.head_le
        rcases getElem?_pushed.1 hs with hs | ⟨rfl, _⟩
        · exact hs
        · omega
      have hmem := Array.mem_of_getElem? hs'
      rcases hlevel hlen with ⟨a, ha, hal, sa, hsa, hsaa, hsal⟩
      have hle := ht.le_level s hmem
      have hx' : x ≠ l := by
        rintro rfl
        exact hfree ⟨s, hmem, hsx⟩
      rcases hbest with hbest | hbest
      · exact absurd (hbest.first_eq ht hl hfree hothers hx) hx'
      · obtain rfl := hbest.first_eq ht hl hfree hothers hy
        have := hbest.level_le ht ha hal hsa hsaa hmem hsx
        refine ⟨_, mem_pushed.2 (.inr rfl), rfl, ?_⟩
        dsimp only
        omega

end WatchIndex
end SatSearch
