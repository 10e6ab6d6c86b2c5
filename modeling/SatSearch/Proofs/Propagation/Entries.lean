import SatSearch.Proofs.Propagation.Register

/-!
# Entries — how often a clause stands in the list of a literal

What the lists of an index say is put as counts: a clause of two or more literals stands once in
the lists of the two literals that it watches, and in no other list. An operation that keeps these
counts and the lists of the short clauses keeps all that an index says.
-/

namespace SatSearch

namespace WatchIndex

variable {n i j : Nat} {cs : List Clause} {w w' w'' : WatchIndex} {a b l x : Literal}
variable {c : Clause} {lists lists' : Array (Array Nat)}

/-! ## Watched once -/

/-- How often clause `i` stands in the list of the literal. -/
def entries (lists : Array (Array Nat)) (l : Literal) (i : Nat) : Nat :=
  (lists[l.code]?.getD #[]).count i

/-- Every clause of two or more literals stands once in the lists of the two literals that it
watches, and in no other list. Whatever stands in a list is a clause. -/
structure WatchedOnce (cs : List Clause) (w : WatchIndex) : Prop where
  watched : ∀ (i : Nat) (c : Clause), cs[i]? = some c → 2 ≤ c.length → ∃ a b, Watches cs w i a b
  entries_eq : ∀ (i : Nat) (a b : Literal), Watches cs w i a b →
    ∀ l, entries w.lists l i = if l = a ∨ l = b then 1 else 0
  stored : ∀ (l : Literal) (i : Nat), entries w.lists l i ≠ 0 → i < cs.length

/-- What an operation leaves of an index: the clauses are watched as before, though maybe by other
literals, and nothing else changes. -/
structure Retains (cs : List Clause) (w w' : WatchIndex) : Prop where
  once : WatchedOnce cs w'
  shorts : ∀ (i : Nat) (c : Clause), cs[i]? = some c → c.length < 2 →
    ∀ l, entries w'.lists l i = entries w.lists l i
  size_eq : w'.lists.size = w.lists.size
  units_eq : w'.units = w.units
  empties_eq : w'.empties = w.empties

theorem Retains.refl (h : WatchedOnce cs w) : Retains cs w w :=
  ⟨h, fun _ _ _ _ _ => rfl, rfl, rfl, rfl⟩

theorem Retains.trans (h : Retains cs w w') (h' : Retains cs w' w'') : Retains cs w w'' := by
  refine ⟨h'.once, ?_, h'.size_eq.trans h.size_eq, h'.units_eq.trans h.units_eq,
    h'.empties_eq.trans h.empties_eq⟩
  intro i c hc hlen l
  rw [h'.shorts i c hc hlen, h.shorts i c hc hlen]

theorem Watches.two_le (h : Watches cs w i a b) (hc : cs[i]? = some c) : 2 ≤ c.length := by
  rcases h with ⟨c', p, q, hc', _, hpq, ha, hb⟩
  obtain rfl : c = c' := Option.some.inj (hc.symm.trans hc')
  have hp := (List.getElem?_eq_some_iff.1 ha).1
  have hq := (List.getElem?_eq_some_iff.1 hb).1
  rw [Clause.length]
  omega

/-! ## Counting -/

/-- Watching a literal adds one entry to its list. -/
theorem entries_watch? (h : watch? lists x i = some lists') :
    entries lists' l j = entries lists l j + if l = x ∧ i = j then 1 else 0 := by
  rcases watch?_eq_some h with ⟨hlt, rfl⟩
  rw [entries, entries, Array.getElem?_modify]
  by_cases hlx : l = x
  · subst hlx
    rw [if_pos rfl, Array.getElem?_eq_getElem hlt, Option.map_some, Option.getD_some,
      Option.getD_some, Array.count_push]
    simp
  · rw [if_neg fun hcode => hlx (Literal.code_inj.1 hcode).symm]
    simp [hlx]

theorem mem_of_entries (h : entries lists l i ≠ 0) :
    ∃ list, lists[l.code]? = some list ∧ i ∈ list := by
  cases hlist : lists[l.code]? with
  | none => simp [entries, hlist] at h
  | some list =>
      rw [entries, hlist, Option.getD_some] at h
      exact ⟨list, rfl, Array.count_pos_iff.1 (Nat.pos_of_ne_zero h)⟩

/-! ## What an index says -/

theorem Indexes.exists_list {l : Literal} (h : Indexes n cs w) (hl : l.var < n) :
    ∃ list, w.lists[l.code]? = some list := by
  have := Literal.code_lt hl
  exact ⟨_, Array.getElem?_eq_getElem (by rw [h.lists_size]; exact this)⟩

/-- What stands in a list of an index watches the literal of the list. -/
theorem Indexes.watches_of_entries (h : Indexes n cs w) (hi : entries w.lists l i ≠ 0) :
    ∃ b, Watches cs w i l b := by
  rcases mem_of_entries hi with ⟨list, hlist, hmem⟩
  exact (h.mem_list l list hlist i).1 hmem

/-- What watches a literal stands once in its list. -/
theorem Indexes.entries_eq_one (h : Indexes n cs w) (hcs : ∀ c ∈ cs, c.Proper n)
    (hab : Watches cs w i a b) : entries w.lists a i = 1 := by
  rcases hab.clause with ⟨c, hc, ha, _⟩
  rcases h.exists_list ((hcs c (List.mem_of_getElem? hc)).inRange a ha) with ⟨list, hlist⟩
  have hmem := (h.mem_list a list hlist i).2 ⟨b, hab⟩
  rw [entries, hlist, Option.getD_some, ← Array.count_toList]
  exact List.count_eq_one_of_mem (h.nodup_list a list hlist) (Array.mem_toList_iff.2 hmem)

/-- An index that says what the clauses watch lists each of them as often as it should. -/
theorem Indexes.watchedOnce (h : Indexes n cs w) (hcs : ∀ c ∈ cs, c.Proper n) :
    WatchedOnce cs w := by
  refine ⟨h.watched, ?_, ?_⟩
  · intro i a b hab l
    split
    · rename_i hl
      rcases hl with rfl | rfl
      · exact h.entries_eq_one hcs hab
      · exact h.entries_eq_one hcs hab.symm
    · rename_i hl
      by_contra hne
      rcases h.watches_of_entries hne with ⟨b', hb'⟩
      rcases hab.unique hb' with ⟨hla, _⟩ | ⟨hlb, _⟩
      · exact hl (.inl hla)
      · exact hl (.inr hlb)
  · intro l i hi
    rcases h.watches_of_entries hi with ⟨b, hb⟩
    exact hb.lt

/-- The entries of an index that an operation retains watch the literals of their lists, once
each. -/
theorem Retains.entries_eq_one (h : Retains cs w w') (hw : Indexes n cs w)
    (hi : entries w'.lists l i ≠ 0) : entries w'.lists l i = 1 ∧ ∃ b, Watches cs w' i l b := by
  have hlt := h.once.stored l i hi
  have hc := List.getElem?_eq_getElem hlt
  -- A short clause stood in no list before, so it stands in none now.
  have hlen : 2 ≤ cs[i].length := by
    by_contra hlen
    rw [h.shorts i _ hc (by omega)] at hi
    rcases hw.watches_of_entries hi with ⟨b, hb⟩
    exact hlen (hb.two_le hc)
  rcases h.once.watched i _ hc hlen with ⟨a, b, hab⟩
  have hcount := h.once.entries_eq i a b hab l
  split at hcount
  · rename_i hl
    rcases hl with rfl | rfl
    · exact ⟨hcount, b, hab⟩
    · exact ⟨hcount, a, hab.symm⟩
  · exact absurd hcount hi

/-- What an index says holds after an operation that retains it. -/
theorem Indexes.retained (h : Indexes n cs w) (hretains : Retains cs w w')
    (hpos : w'.positions.size = w.positions.size) : Indexes n cs w' := by
  have hcount : ∀ {l list i}, w'.lists[l.code]? = some list →
      entries w'.lists l i = list.count i := by
    intro l list i hlist
    rw [entries, hlist, Option.getD_some]
  refine ⟨hretains.size_eq.trans h.lists_size, hpos.trans h.positions_size, hretains.once.watched,
    ?_, ?_, hretains.units_eq ▸ h.mem_units, hretains.units_eq ▸ h.nodup_units,
    hretains.empties_eq ▸ h.mem_empties, hretains.empties_eq ▸ h.nodup_empties⟩
  · intro l list hlist i
    rw [← Array.count_pos_iff, ← hcount hlist]
    constructor
    · intro hi
      exact (hretains.entries_eq_one h hi.ne').2
    · rintro ⟨b, hb⟩
      simp [hretains.once.entries_eq i l b hb]
  · intro l list hlist
    rw [List.nodup_iff_count_le_one]
    intro i
    rw [Array.count_toList, ← hcount hlist]
    by_contra hi
    have := (hretains.entries_eq_one (l := l) (i := i) h (by omega)).1
    omega

end WatchIndex
end SatSearch
