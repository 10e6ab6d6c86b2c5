import SatSearch.Proofs.Propagation.Entries

/-!
# Visit — visiting the clauses that watch a falsified literal

While a list is visited it is taken out of the index, and an entry of it either stays, with its
clause made up for by the other watched literal, or goes to the list of another literal. Both keep
what the index says and the positions that are guarded; so once all entries have been visited, the
step that falsified the literal is guarded as well.
-/

namespace SatSearch

open Trail

namespace WatchIndex

variable {n m i k : Nat} {cs : List Clause} {w : WatchIndex} {a b l o x : Literal}
variable {t : Trail} {f : Formula} {c : Clause} {list list' : Array Nat}
variable {lists : Array (Array Nat)}

/-! ## Dropping an entry -/

/-- The last entry takes the place of the one that is dropped. -/
theorem dropBySwap_spec {pre rest : List Nat} (h : list.toList = pre ++ i :: rest) :
    ∃ rest', (dropBySwap list pre.length).toList = pre ++ rest' ∧ rest'.Perm rest := by
  have hlist : list = (pre ++ i :: rest).toArray := by
    rw [← h]
  subst hlist
  -- Dropping the last entry leaves no other to take its place.
  rcases List.eq_nil_or_concat rest with rfl | ⟨init, last, rfl⟩
  · refine ⟨[], ?_, .refl _⟩
    simp [dropBySwap]
  · refine ⟨last :: init, ?_, ?_⟩
    · have hback : (i :: (init ++ [last])).getLast? = some last := by
        rw [← List.cons_append, List.getLast?_concat]
      have hdrop : (last :: (init ++ [last])).dropLast = last :: init := by
        rw [← List.cons_append, List.dropLast_concat]
      simp [dropBySwap, hback, hdrop]
    · rw [List.concat_eq_append]
      exact (List.perm_append_singleton last init).symm

/-- Dropping takes an entry out once and keeps the others. -/
theorem count_of_perm {pre rest rest' : List Nat} (h : list.toList = pre ++ i :: rest)
    (h' : list'.toList = pre ++ rest') (hperm : rest'.Perm rest) (j : Nat) :
    list'.count j + (if i = j then 1 else 0) = list.count j := by
  rw [← Array.count_toList, ← Array.count_toList, h, h', List.count_append, List.count_append,
    List.count_cons, hperm.count_eq]
  simp only [beq_iff_eq]
  omega

theorem count_dropBySwap (h : list[k]? = some i) (j : Nat) :
    (dropBySwap list k).count j + (if i = j then 1 else 0) = list.count j := by
  have hlt := (Array.getElem?_eq_some_iff.1 h).1
  obtain ⟨pre, rest, hlist, hlen⟩ :
      ∃ pre rest, list.toList = pre ++ i :: rest ∧ pre.length = k := by
    refine ⟨list.toList.take k, list.toList.drop (k + 1), ?_, by simp; omega⟩
    have hi : list.toList[k] = i := by simpa using (Array.getElem?_eq_some_iff.1 h).2
    rw [← hi, ← List.drop_eq_getElem_cons, List.take_append_drop]
  rcases dropBySwap_spec hlist with ⟨rest', hdrop, hperm⟩
  exact count_of_perm hlist (hlen ▸ hdrop) hperm j

/-! ## Looking for another literal to watch -/

theorem replacement?_eq_some {values : Assignment} {p q : Nat} {ls : List Literal} :
    ∀ {position : Nat}, replacement? values p q position ls = some (k, l) →
      k ≠ p ∧ k ≠ q ∧ values.literal? l ≠ some false ∧ ∃ j, k = position + j ∧ ls[j]? = some l := by
  induction ls with
  | nil =>
      intro position h
      cases h
  | cons y ls ih =>
      intro position h
      unfold replacement? at h
      split at h
      · rename_i hy
        cases h
        exact ⟨hy.1, hy.2.1, hy.2.2, 0, rfl, rfl⟩
      · rcases ih h with ⟨hp, hq, hl, j, hj, hget⟩
        exact ⟨hp, hq, hl, j + 1, by omega, by simpa using hget⟩

theorem replacement?_eq_none {values : Assignment} {p q : Nat} {ls : List Literal} :
    ∀ {position : Nat}, replacement? values p q position ls = none →
      ∀ (j : Nat) (l : Literal), ls[j]? = some l → position + j ≠ p → position + j ≠ q →
        values.literal? l = some false := by
  induction ls with
  | nil =>
      intro position _ j l hj
      simp at hj
  | cons y ls ih =>
      intro position h j l hj hp hq
      unfold replacement? at h
      split at h
      · cases h
      · rename_i hy
        cases j with
        | zero =>
            obtain rfl : y = l := by simpa using hj
            by_contra hl
            exact hy ⟨hp, hq, hl⟩
        | succ j => exact ih h j l (by simpa using hj) (by omega) (by omega)

/-! ## Visiting an entry -/

/-- The index with a list put back. -/
def withList (w : WatchIndex) (x : Literal) (list : Array Nat) : WatchIndex :=
  { w with lists := w.lists.setIfInBounds x.code list }

/-- Clause `i` watches the literal at the positions `y` from now on. -/
def moved (w : WatchIndex) (l : Literal) (i : Nat) (y : Nat × Nat) : WatchIndex :=
  ⟨w.lists.modify l.code (·.push i), w.positions.setIfInBounds i y, w.units, w.empties⟩

@[simp] theorem watches_withList : Watches cs (w.withList x list) i a b ↔ Watches cs w i a b :=
  watches_congr rfl

/-- What the entry `i` of a list under visit, with `o` as the other watched literal of its clause,
leads to. -/
inductive Visited (f : Formula) (x : Literal) (left : Nat) (list : Array Nat) (w : WatchIndex)
    (t : Trail) (i : Nat) (c : Clause) (o : Literal) : Prop
  | kept : t.Assigns o → visit f x (left + 1) list w t = visit f x left list w t →
      Visited f x left list w t i c o
  | moved (l : Literal) (y : Nat × Nat) : l ∈ c.literals → l ≠ x → l ≠ o → ¬ t.Assigns l.negate →
      PositionsOf c y l o →
      visit f x (left + 1) list w t =
        visit f x left (dropBySwap list (list.size - (left + 1))) (w.moved l i y) t →
      Visited f x left list w t i c o
  | failed : t.Falsifies c → visit f x (left + 1) list w t = .ok (some i, list, w, t) →
      Visited f x left list w t i c o
  | forced : t.Forces c o →
      visit f x (left + 1) list w t = visit f x left list w (t.pushed o (.clause i)) →
      Visited f x left list w t i c o

/-- How a visit to a list of `x` reads the two positions of a clause that watches `x` and `o`: it
finds `A` and `B` there, and it does not matter which of them is `x`. -/
structure ReadAs (c : Clause) (x o : Literal) (P Q : Nat) (A B : Literal) : Prop where
  fst : c.literals[P]? = some A
  snd : c.literals[Q]? = some B
  other : (if A == x then B else A) = o
  put : ∀ k l, c.literals[k]? = some l → l ≠ o →
    PositionsOf c (if A == x then (k, Q) else (P, k)) l o
  ne_positions : ∀ j l, c.literals[j]? = some l → l ≠ x → l ≠ o → j ≠ P ∧ j ≠ Q
  ne_literals : ∀ j l, c.literals[j]? = some l → j ≠ P → j ≠ Q → l ≠ x ∧ l ≠ o

/-- The positions of a clause without repeated literals are read as what it watches. -/
theorem Watches.readAs (hw : Watches cs w i x o) (hc : cs[i]? = some c)
    (hnodup : c.literals.Nodup) :
    ∃ P Q A B, w.positions[i]? = some (P, Q) ∧ ReadAs c x o P Q A B := by
  rcases hw with ⟨c', p, q, hc', hpos, hpq, hp, hq⟩
  obtain rfl : c = c' := Option.some.inj (hc.symm.trans hc')
  have hat : ∀ {j k : Nat} {l : Literal}, c.literals[j]? = some l → c.literals[k]? = some l →
      j = k := by
    intro j k l hj hk
    exact (List.getElem?_inj (List.getElem?_eq_some_iff.1 hj).1 hnodup).1 (hj.trans hk.symm)
  have hxo : o ≠ x := by
    rintro rfl
    exact hpq (hat hp hq)
  have hput : ∀ k l, c.literals[k]? = some l → l ≠ o → k ≠ q := by
    rintro k l hk hl rfl
    exact hl (Option.some.inj (hk.symm.trans hq))
  have honly : ∀ j l, c.literals[j]? = some l → l ≠ x → l ≠ o → j ≠ p ∧ j ≠ q := by
    refine fun j l hj hlx hlo => ⟨?_, hput j l hj hlo⟩
    rintro rfl
    exact hlx (Option.some.inj (hj.symm.trans hp))
  have hrest : ∀ j l, c.literals[j]? = some l → j ≠ p → j ≠ q → l ≠ x ∧ l ≠ o := by
    intro j l hj hjp hjq
    constructor
    · rintro rfl
      exact hjp (hat hj hp)
    · rintro rfl
      exact hjq (hat hj hq)
  -- The positions are recorded in one order or the other.
  rcases hpos with hpos | hpos
  · refine ⟨p, q, x, o, hpos, hp, hq, by simp, ?_, honly, hrest⟩
    intro k l hk hl
    exact ⟨k, q, .inl (by simp), hput k l hk hl, hk, hq⟩
  · refine ⟨q, p, o, x, hpos, hq, hp, by simp [hxo], ?_, ?_, ?_⟩
    · intro k l hk hl
      exact ⟨k, q, .inr (by simp [hxo]), hput k l hk hl, hk, hq⟩
    · exact fun j l hj hlx hlo => (honly j l hj hlx hlo).symm
    · exact fun j l hj hjq hjp => hrest j l hj hjp hjq

/-- Visiting an entry keeps it, moves it, fails or forces the other watched literal. -/
theorem visited_of_watches (left : Nat) (ht : t.Recorded n) (hc : f.clause? i = some c)
    (hproper : c.Proper n) (hsize : w.lists.size = 2 * n)
    (hentry : list[list.size - (left + 1)]? = some i) (hw : Watches f.clauses w i x o)
    (hx : t.Assigns x.negate) : Visited f x left list w t i c o := by
  rcases hw.readAs (by rw [← Formula.clause?_eq_getElem?, hc]) hproper.nodup with
    ⟨P, Q, A, B, hPQ, hA, hB, hother, hput, honly, hrest⟩
  have hmem : o ∈ c.literals := by
    rw [← hother]
    split
    · exact List.mem_of_getElem? hB
    · exact List.mem_of_getElem? hA
  rcases w with ⟨lists, positions, units, empties⟩
  by_cases htrue : t.values.literal? o = some true
  · refine .kept (ht.literal?_eq_true.1 htrue) ?_
    simp only [visit, hentry, hc, hPQ, hA, hB, hother, htrue]
  -- Unless the other literal is true, one to watch instead is looked for.
  cases hrep : replacement? t.values P Q 0 c.literals with
  | some found =>
      rcases found with ⟨k, l⟩
      rcases replacement?_eq_some hrep with ⟨hkP, hkQ, hl, j, hj, hget⟩
      obtain rfl : k = j := by omega
      rcases hrest k l hget hkP hkQ with ⟨hlx, hlo⟩
      have hlmem := List.mem_of_getElem? hget
      have hwatch := watch?_eq (i := i) hsize (hproper.inRange l hlmem)
      refine .moved l _ hlmem hlx hlo (fun h => hl (ht.literal?_eq_false.2 h))
        (hput k l hget hlo) ?_
      cases hval : t.values.literal? o with
      | none => simp only [visit, hentry, hc, hPQ, hA, hB, hother, hval, hrep, hwatch, moved]
      | some value =>
          cases value with
          | true => exact absurd hval htrue
          | false => simp only [visit, hentry, hc, hPQ, hA, hB, hother, hval, hrep, hwatch, moved]
  | none =>
      -- No literal is left to watch, so all but the other one are false.
      have hothers : ∀ l ∈ c.literals, l ≠ o → t.Assigns l.negate := by
        intro l hl hlo
        by_cases hlx : l = x
        · exact hlx ▸ hx
        · rcases List.mem_iff_getElem?.1 hl with ⟨j, hj⟩
          rcases honly j l hj hlx hlo with ⟨hjP, hjQ⟩
          refine ht.literal?_eq_false.1 (replacement?_eq_none hrep j l hj ?_ ?_) <;> omega
      cases hval : t.values.literal? o with
      | none =>
          have hfree := ht.literal?_eq_none.1 hval
          refine .forced ⟨hmem, hfree, hothers⟩ ?_
          have hpush := push_eq (r := .clause i) ht (hproper.inRange o hmem) hfree
          simp only [visit, hentry, hc, hPQ, hA, hB, hother, hval, hrep, hpush]
      | some value =>
          cases value with
          | true => exact absurd hval htrue
          | false =>
              refine .failed ?_ ?_
              · intro l hl
                by_cases hlo : l = o
                · exact hlo ▸ ht.literal?_eq_false.1 hval
                · exact hothers l hl hlo
              · simp only [visit, hentry, hc, hPQ, hA, hB, hother, hval, hrep]

/-! ## Moving an entry -/

/-- The moved clause watches its new pair, and nothing else changes. -/
theorem watches_moved {y : Nat × Nat} {j : Nat} (hw : Watches cs w i x o) (hc : cs[i]? = some c)
    (hy : PositionsOf c y l o) :
    Watches cs (w.moved l i y) j a b ↔
      j ≠ i ∧ Watches cs w j a b ∨ j = i ∧ (a = l ∧ b = o ∨ a = o ∧ b = l) := by
  have hlt : i < w.positions.size := by
    rcases hw with ⟨_, _, _, _, hpos | hpos, _⟩
    · exact (Array.getElem?_eq_some_iff.1 hpos).1
    · exact (Array.getElem?_eq_some_iff.1 hpos).1
  by_cases hji : j = i
  · subst hji
    have hget : (w.moved l j y).positions[j]? = some y := by
      simp [moved, hlt]
    rw [← positionsOf_iff hy]
    constructor
    · rintro ⟨c', p, q, hc', hpos, rest⟩
      obtain rfl : c = c' := Option.some.inj (hc.symm.trans hc')
      rw [hget, Option.some.injEq, Option.some.injEq] at hpos
      exact .inr ⟨rfl, p, q, hpos, rest⟩
    · rintro (⟨hne, _⟩ | ⟨_, p, q, hpos, rest⟩)
      · exact absurd rfl hne
      · refine ⟨c, p, q, hc, ?_, rest⟩
        rwa [hget, Option.some.injEq, Option.some.injEq]
  · have hget : (w.moved l i y).positions[j]? = w.positions[j]? := by
      simp [moved, Ne.symm hji]
    rw [watches_congr hget]
    simp [hji]

/-- An entry that goes to the list of another literal leaves the place of the list under visit
empty. -/
theorem taken_moved {y : Nat × Nat} (h : w.lists[x.code]? = some #[]) (hlx : l ≠ x) :
    (w.moved l i y).lists[x.code]? = some #[] := by
  have hcode : l.code ≠ x.code := fun hcode => hlx (Literal.code_inj.1 hcode)
  simpa [moved, Array.getElem?_modify, hcode] using h

/-- With a list put into its place, its entries count for its literal. -/
theorem entries_withList (h : x.code < w.lists.size) :
    entries (w.withList x list).lists l j =
      if l = x then list.count j else entries w.lists l j := by
  rw [entries, entries, withList]
  by_cases hlx : l = x
  · subst hlx
    simp [h]
  · have hcode : x.code ≠ l.code := fun hcode => hlx (Literal.code_inj.1 hcode).symm
    simp [hlx, hcode]

/-- The entry of a moved clause leaves the list under visit and joins that of its new literal. -/
theorem entries_moved {y : Nat × Nat} (htaken : w.lists[x.code]? = some #[])
    (hwatch : watch? w.lists l i = some lists) (hlx : l ≠ x)
    (hdrop : ∀ j, list'.count j + (if i = j then 1 else 0) = list.count j) :
    entries ((w.moved l i y).withList x list').lists a j + (if a = x ∧ i = j then 1 else 0) =
      entries (w.withList x list).lists a j + if a = l ∧ i = j then 1 else 0 := by
  have hx : x.code < w.lists.size := (Array.getElem?_eq_some_iff.1 htaken).1
  have hx' : x.code < (w.moved l i y).lists.size := by simpa [moved] using hx
  have hlists : (w.moved l i y).lists = lists := (watch?_eq_some hwatch).2.symm
  rw [entries_withList hx, entries_withList hx', hlists, entries_watch? hwatch]
  by_cases hax : a = x
  · subst hax
    simpa [hlx.symm] using hdrop j
  · simp [hax]

/-- A clause that gives up a literal for another one is watched as before. -/
theorem WatchedOnce.moved {y : Nat × Nat} (h : WatchedOnce cs (w.withList x list))
    (htaken : w.lists[x.code]? = some #[]) (hw : Watches cs w i x o) (hc : cs[i]? = some c)
    (hcs : ∀ c ∈ cs, c.literals.Nodup) (hlx : l ≠ x) (hlo : l ≠ o) (hy : PositionsOf c y l o)
    (hwatch : watch? w.lists l i = some lists)
    (hdrop : ∀ j, list'.count j + (if i = j then 1 else 0) = list.count j) :
    Retains cs (w.withList x list) ((w.moved l i y).withList x list') := by
  have hcount := fun a j => entries_moved (y := y) (a := a) (j := j) htaken hwatch hlx hdrop
  have hother : ∀ {j}, i ≠ j → ∀ a, entries ((w.moved l i y).withList x list').lists a j =
      entries (w.withList x list).lists a j := by
    intro j hij a
    simpa [hij] using hcount a j
  have hmoved : ∀ {j a b}, Watches cs ((w.moved l i y).withList x list') j a b ↔
      j ≠ i ∧ Watches cs w j a b ∨ j = i ∧ (a = l ∧ b = o ∨ a = o ∧ b = l) := by
    intro j a b
    rw [watches_withList, watches_moved hw hc hy]
  have hxo : x ≠ o := hw.ne hcs
  refine ⟨⟨?_, ?_, ?_⟩, ?_, by simp [withList, WatchIndex.moved], rfl, rfl⟩
  · intro j c' hj hlen
    by_cases hji : j = i
    · exact ⟨l, o, hmoved.2 (.inr ⟨hji, .inl ⟨rfl, rfl⟩⟩)⟩
    · rcases h.watched j c' hj hlen with ⟨a, b, hab⟩
      exact ⟨a, b, hmoved.2 (.inl ⟨hji, watches_withList.1 hab⟩)⟩
  · intro j a b hab d
    rcases hmoved.1 hab with ⟨hji, hab⟩ | ⟨rfl, hpair⟩
    · rw [hother (Ne.symm hji), h.entries_eq j a b (watches_withList.2 hab)]
    · -- It stood in the lists of `x` and `o`, and one entry went from `x` to `l`.
      have hold := h.entries_eq j x o (watches_withList.2 hw) d
      have hnew := hcount d j
      have hpair' : (d = a ∨ d = b) ↔ (d = l ∨ d = o) := by
        rcases hpair with ⟨rfl, rfl⟩ | ⟨rfl, rfl⟩
        · rfl
        · exact or_comm
      simp only [hpair']
      grind
  · intro a j hj
    by_cases hij : i = j
    · exact hij ▸ (List.getElem?_eq_some_iff.1 hc).1
    · exact h.stored a j (hother hij a ▸ hj)
  · intro j c' hj hlen a
    refine hother ?_ a
    rintro rfl
    have := hw.two_le hj
    omega

/-- An entry moved from the list under visit to the list of another literal. -/
theorem Indexes.moved {y : Nat × Nat} (h : Indexes n cs (w.withList x list))
    (htaken : w.lists[x.code]? = some #[]) (hw : Watches cs w i x o) (hc : cs[i]? = some c)
    (hcs : ∀ c ∈ cs, c.Proper n) (hl : l ∈ c.literals) (hlx : l ≠ x) (hlo : l ≠ o)
    (hy : PositionsOf c y l o)
    (hdrop : ∀ j, list'.count j + (if i = j then 1 else 0) = list.count j) :
    Indexes n cs ((w.moved l i y).withList x list') := by
  have hsize : w.lists.size = 2 * n := by
    simpa [withList] using h.lists_size
  have hwatch := watch?_eq (i := i) hsize ((hcs c (List.mem_of_getElem? hc)).inRange l hl)
  have hretains := (h.watchedOnce hcs).moved htaken hw hc (fun c hc => (hcs c hc).nodup) hlx hlo hy
    hwatch hdrop
  exact h.retained hretains (by simp [withList, WatchIndex.moved])

/-- No literal that was falsified before is watched anew, and the other watched literal has not
become false unless the one under visit was true. -/
theorem Guards.moved {y : Nat × Nat} (h : Guards cs t m w) (ht : t.Recorded n)
    (hw : Watches cs w i x o) (hc : cs[i]? = some c) (hx : t.Assigns x.negate)
    (hl : ¬ t.Assigns l.negate) (hy : PositionsOf c y l o) : Guards cs t m (w.moved l i y) := by
  intro j a b hab k hk s hs hsa
  rcases (watches_moved hw hc hy).1 hab with ⟨_, hab⟩ | ⟨rfl, ⟨rfl, rfl⟩ | ⟨rfl, rfl⟩⟩
  · exact h j a b hab k hk s hs hsa
  · exact absurd ⟨s, Array.mem_of_getElem? hs, hsa⟩ hl
  · have := h j a x hw.symm k hk s hs hsa
    exact absurd hx (ht.not_assigns_negate this.assigns)

/-! ## Visiting a list -/

/-- What the visit of a list is carried through with: the index is complete but for that list, which
is under visit, and the entries in front of the visit have been made up for. -/
structure UnderVisit (f : Formula) (m : Nat) (x : Literal) (list : Array Nat) (w : WatchIndex)
    (t : Trail) (done : List Nat) : Prop where
  wellFormed : t.WellFormed f.numVars
  falsified : t.Assigns x.negate
  size_le : m ≤ t.steps.size
  taken : w.lists[x.code]? = some #[]
  indexes : Indexes f.numVars f.clauses (w.withList x list)
  guards : Guards f.clauses t m w
  made_up : ∀ i ∈ done, ∀ b, Watches f.clauses w i x b → t.Assigns b

theorem UnderVisit.list_self (h : UnderVisit f m x list w t done) :
    (w.withList x list).lists[x.code]? = some list := by
  have := (Array.getElem?_eq_some_iff.1 h.taken).1
  simp [withList, this]

/-- The clause of an entry watches the literal that was falsified, and another one. -/
theorem UnderVisit.entry (h : UnderVisit f m x list w t done) (hi : i ∈ list) :
    ∃ o c, Watches f.clauses w i x o ∧ f.clause? i = some c ∧ o ∈ c.literals := by
  rcases (h.indexes.mem_list x list h.list_self i).1 hi with ⟨o, hw⟩
  rw [watches_withList] at hw
  rcases hw.clause with ⟨c, hc, _, ho⟩
  exact ⟨o, c, hw, by rw [Formula.clause?_eq_getElem?, hc], ho⟩

/-- An entry that stays has been made up for. -/
theorem UnderVisit.stays (h : UnderVisit f m x list w t done)
    (hnodup : ∀ c ∈ f.clauses, c.literals.Nodup) (hw : Watches f.clauses w i x o) {u : Trail}
    (hu : u.WellFormed f.numVars) (hguards : Guards f.clauses u m w)
    (hmono : ∀ l, t.Assigns l → u.Assigns l) (hgrow : t.steps.size ≤ u.steps.size)
    (ho : u.Assigns o) : UnderVisit f m x list w u (done ++ [i]) := by
  refine ⟨hu, hmono _ h.falsified, h.size_le.trans hgrow, h.taken, h.indexes, hguards, ?_⟩
  intro j hj b hb
  rcases List.mem_append.1 hj with hj | hj
  · exact hmono b (h.made_up j hj b hb)
  · obtain rfl : j = i := by simpa using hj
    exact hw.partner_unique hb hnodup ▸ ho

/-- An entry that moves is taken off the list, and the entries in front of it stay. -/
theorem UnderVisit.moves {y : Nat × Nat} {rest rest' : List Nat}
    (h : UnderVisit f m x list w t done) (hf : f.Proper)
    (hlist : list.toList = done ++ i :: rest) (hlist' : list'.toList = done ++ rest')
    (hperm : rest'.Perm rest) (hw : Watches f.clauses w i x o) (hc : f.clauses[i]? = some c)
    (hl : l ∈ c.literals) (hlx : l ≠ x) (hlo : l ≠ o) (hfree : ¬ t.Assigns l.negate)
    (hy : PositionsOf c y l o) : UnderVisit f m x list' (w.moved l i y) t done := by
  have hentries := h.indexes.nodup_list x list h.list_self
  have hdrop := count_of_perm hlist hlist' hperm
  refine ⟨h.wellFormed, h.falsified, h.size_le, taken_moved h.taken hlx, ?_, ?_, ?_⟩
  · exact h.indexes.moved h.taken hw hc hf hl hlx hlo hy hdrop
  · exact h.guards.moved h.wellFormed.toRecorded hw hc h.falsified hfree hy
  · intro j hj b hb
    have hji : j ≠ i := by
      rintro rfl
      rw [hlist] at hentries
      exact (List.nodup_append.1 hentries).2.2 j hj j List.mem_cons_self rfl
    rcases (watches_moved hw hc hy).1 hb with ⟨_, hb⟩ | ⟨hji', _⟩
    · exact h.made_up j hj b hb
    · exact absurd hji' hji

/-- What a visit ends with. -/
def VisitEnds (f : Formula) (x : Literal) (m : Nat) (t : Trail) (failed : Option Nat)
    (list : Array Nat) (w : WatchIndex) (u : Trail) : Prop :=
  Forced f t u ∧ u.head = t.head ∧ w.lists[x.code]? = some #[] ∧
    Indexes f.numVars f.clauses (w.withList x list) ∧ Guards f.clauses u m w ∧
    match failed with
    | none => ∀ i ∈ list, ∀ b, Watches f.clauses w i x b → u.Assigns b
    | some i => ∃ c, f.clause? i = some c ∧ u.Falsifies c

/-- The entries of a list are visited without faults, and all of them are made up for unless a
clause fails. -/
theorem visit_spec (hf : f.Proper) (left : Nat) :
    ∀ (list : Array Nat) (w : WatchIndex) (t : Trail) (done todo : List Nat),
      list.toList = done ++ todo → todo.length = left → UnderVisit f m x list w t done →
      ∃ failed list' w' u, visit f x left list w t = .ok (failed, list', w', u) ∧
        VisitEnds f x m t failed list' w' u := by
  induction left with
  | zero =>
      intro list w t done todo hlist hlen h
      obtain rfl : todo = [] := List.length_eq_zero_iff.1 hlen
      rw [List.append_nil] at hlist
      refine ⟨none, list, w, t, by simp only [visit], .refl t, rfl, h.taken, h.indexes, h.guards,
        ?_⟩
      intro i hi
      exact h.made_up i (by rwa [← hlist, Array.mem_toList_iff])
  | succ left ih =>
      intro list w t done todo hlist hlen h
      obtain ⟨i, rest, rfl⟩ : ∃ i rest, todo = i :: rest :=
        List.exists_cons_of_length_eq_add_one hlen
      have hleft : rest.length = left := by simpa using hlen
      have hpos : list.size - (left + 1) = done.length := by
        have := congrArg List.length hlist
        simp only [Array.length_toList, List.length_append, hlen] at this
        omega
      have hentry : list[list.size - (left + 1)]? = some i := by
        rw [hpos, ← Array.getElem?_toList, hlist]
        simp
      have hi : i ∈ list := by
        rw [← Array.mem_toList_iff, hlist]
        simp
      rcases h.entry hi with ⟨o, c, hw, hc, hoc⟩
      have hcs : f.clauses[i]? = some c := by
        rw [← Formula.clause?_eq_getElem?, hc]
      have hnodup : ∀ c ∈ f.clauses, c.literals.Nodup := fun c hc => (hf c hc).nodup
      have hproper := hf c (Formula.mem_of_clause? hc)
      have hsize : w.lists.size = 2 * f.numVars := by
        simpa [withList] using h.indexes.lists_size
      have hlist' : list.toList = done ++ [i] ++ rest := by
        simp [hlist]
      rcases visited_of_watches left h.wellFormed.toRecorded hc hproper hsize hentry hw h.falsified
        with ⟨ho, heq⟩ | ⟨l, y, hl, hlx, hlo, hfree, hy, heq⟩ | ⟨hfalse, heq⟩ | ⟨hforces, heq⟩
      · rw [heq]
        exact ih list w t (done ++ [i]) rest hlist' hleft
          (h.stays hnodup hw h.wellFormed h.guards (fun _ => id) le_rfl ho)
      · -- The visit goes on at the same position, with the entry that was last.
        rw [heq, hpos]
        rcases dropBySwap_spec hlist with ⟨rest', hdrop, hperm⟩
        exact ih _ _ t done rest' hdrop (hperm.length_eq.trans hleft)
          (h.moves hf hlist hdrop hperm hw hcs hl hlx hlo hfree hy)
      · exact ⟨some i, list, w, t, heq, .refl t, rfl, h.taken, h.indexes, h.guards, c, hc, hfalse⟩
      · rw [heq]
        have hlt := hproper.inRange o hoc
        have hstays := h.stays hnodup hw (h.wellFormed.pushed hlt hforces.free)
          (h.guards.pushed (r := .clause i) h.size_le) (fun l hl => assigns_pushed.2 (.inl hl))
          (by simp) (assigns_pushed.2 (.inr rfl))
        rcases ih list w (t.pushed o (.clause i)) (done ++ [i]) rest hlist' hleft hstays with
          ⟨failed, list', w', u, hvisit, hforced, hhead, rest'⟩
        exact ⟨failed, list', w', u, hvisit, .pushed hc hforces hforced, hhead, rest'⟩

end WatchIndex
end SatSearch
