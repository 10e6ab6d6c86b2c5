import SatSearch.Proofs.Propagation.Watch
import SatSearch.Proofs.Search.Run

/-!
# WatchLists — no watch is lost and none is duplicated

Entries are counted: a clause of two or more literals stands once in the lists of the two literals
at its recorded positions, and in no other list. Visiting a list takes an entry out of it just when
the same entry goes to the list of another literal, so the counts stay right at every point of a
visit, wherever it stops. This holds for any trail, and for clauses that contain a literal together
with its complement.
-/

namespace SatSearch

open Trail

namespace WatchIndex

variable {i k : Nat} {cs : List Clause} {w w' : WatchIndex} {a b l o x : Literal}
variable {t u : Trail} {f : Formula} {c : Clause} {list list' : Array Nat}

/-! ## The points of a visit -/

/-- How far a visit has come: the entries that are left, the list they stand at the end of, and the
index and the trail as they are now. -/
structure VisitPoint where
  left : Nat
  list : Array Nat
  index : WatchIndex
  trail : Trail

/-- The next entry is clause `i`, and the literals `a` and `b` stand at its recorded positions. -/
structure Reads (f : Formula) (v : VisitPoint) (i : Nat) (c : Clause) (p q : Nat) (a b : Literal) :
    Prop where
  entry : v.list[v.list.size - v.left]? = some i
  clause : f.clause? i = some c
  positions : v.index.positions[i]? = some (p, q)
  fst : c.literals[p]? = some a
  snd : c.literals[q]? = some b

/-- The ways a visit to the list of `x` goes on to the next entry. -/
inductive Passes (f : Formula) (x : Literal) : VisitPoint → VisitPoint → Prop
  | satisfied {left i p q : Nat} {list : Array Nat} {w : WatchIndex} {t : Trail} {c : Clause}
      {a b : Literal} : Reads f ⟨left + 1, list, w, t⟩ i c p q a b →
      t.values.literal? (if a == x then b else a) = some true →
      Passes f x ⟨left + 1, list, w, t⟩ ⟨left, list, w, t⟩
  | moved {left i p q k : Nat} {list : Array Nat} {w : WatchIndex} {t : Trail} {c : Clause}
      {a b l : Literal} {lists : Array (Array Nat)} : Reads f ⟨left + 1, list, w, t⟩ i c p q a b →
      t.values.literal? (if a == x then b else a) ≠ some true →
      replacement? t.values p q 0 c.literals = some (k, l) → watch? w.lists l i = some lists →
      Passes f x ⟨left + 1, list, w, t⟩ ⟨left, dropBySwap list (list.size - (left + 1)),
        ⟨lists, w.positions.setIfInBounds i (if a == x then (k, q) else (p, k)), w.units,
          w.empties⟩, t⟩
  | forced {left i p q : Nat} {list : Array Nat} {w : WatchIndex} {t u : Trail} {c : Clause}
      {a b : Literal} : Reads f ⟨left + 1, list, w, t⟩ i c p q a b →
      t.values.literal? (if a == x then b else a) = none →
      replacement? t.values p q 0 c.literals = none →
      t.push (if a == x then b else a) (.clause i) = .ok u →
      Passes f x ⟨left + 1, list, w, t⟩ ⟨left, list, w, u⟩

/-- A visit passes entries until none is left or a clause fails. -/
theorem visit_reaches {failed : Option Nat} (left : Nat) :
    ∀ (list : Array Nat) (w : WatchIndex) (t : Trail),
      visit f x left list w t = .ok (failed, list', w', u) →
      ∃ rest, Reaches (Passes f x) ⟨left, list, w, t⟩ ⟨rest, list', w', u⟩ := by
  induction left with
  | zero =>
      intro list w t h
      cases h
      exact ⟨0, .refl⟩
  | succ left ih =>
      intro list w t h
      have hpass : ∀ {list₁ w₁ t₁},
          Passes f x ⟨left + 1, list, w, t⟩ ⟨left, list₁, w₁, t₁⟩ →
          visit f x left list₁ w₁ t₁ = .ok (failed, list', w', u) →
          ∃ rest, Reaches (Passes f x) ⟨left + 1, list, w, t⟩ ⟨rest, list', w', u⟩ := by
        intro list₁ w₁ t₁ hstep hvisit
        rcases ih list₁ w₁ t₁ hvisit with ⟨rest, hrest⟩
        exact ⟨rest, .head hstep hrest⟩
      -- A branch of the visit that goes on passes the entry; all others end the visit here.
      rcases w with ⟨lists, positions, units, empties⟩
      simp only [visit] at h
      split at h
      · cases h
        exact ⟨_, .refl⟩
      · rename_i i hentry
        split at h
        · rename_i c p q hc hpq
          split at h
          · rename_i a b ha hb
            have hreads : Reads f ⟨left + 1, list, ⟨lists, positions, units, empties⟩, t⟩ i c p q a
                b := ⟨hentry, hc, hpq, ha, hb⟩
            split at h
            · rename_i htrue
              exact hpass (.satisfied hreads htrue) h
            · rename_i htrue
              split at h
              · rename_i k l hfound
                split at h
                · cases h
                · rename_i lists₁ hwatch
                  exact hpass (.moved hreads htrue hfound hwatch) h
              · rename_i hnone
                split at h
                · cases h
                  exact ⟨_, .refl⟩
                · rename_i hfree
                  split at h
                  · cases h
                  · rename_i t₁ hpush
                    exact hpass (.forced hreads hfree hnone hpush) h
          · cases h
        · cases h

/-- A clause of two or more literals on the list of `x` watches `x`. -/
theorem WatchedOnce.exists_watches (h : WatchedOnce cs (w.withList x list))
    (htaken : w.lists[x.code]? = some #[]) (hi : list[k]? = some i) (hc : cs[i]? = some c)
    (hlen : 2 ≤ c.length) : ∃ o, Watches cs w i x o := by
  have hx : x.code < w.lists.size := (Array.getElem?_eq_some_iff.1 htaken).1
  rcases h.watched i c hc hlen with ⟨a, b, hab⟩
  have hcount := h.entries_eq i a b hab x
  have hpos : 0 < list.count i := Array.count_pos_iff.2 (Array.mem_of_getElem? hi)
  rw [entries_withList hx, if_pos rfl] at hcount
  rw [watches_withList] at hab
  split at hcount
  · rename_i hx
    rcases hx with rfl | rfl
    · exact ⟨b, hab⟩
    · exact ⟨a, hab.symm⟩
  · omega

/-- What holds at every point of a visit to the list of `x`: nothing was added to that list, and
with what remains of it back in its place, the clauses are watched as they were. -/
structure OnVisit (cs : List Clause) (x : Literal) (list : Array Nat) (w : WatchIndex)
    (v : VisitPoint) : Prop where
  taken : v.index.lists[x.code]? = some #[]
  count_le : ∀ i, v.list.count i ≤ list.count i
  retains : Retains cs w (v.index.withList x v.list)

/-- A literal that takes the place of `x` is neither of the two that were watched. -/
theorem Reads.replaced {v : VisitPoint} {p q : Nat} (h : Reads f v i c p q a b)
    (hw : Watches f.clauses v.index i x o) (hnodup : c.literals.Nodup)
    (hfound : replacement? t.values p q 0 c.literals = some (k, l)) :
    l ≠ x ∧ l ≠ o ∧ PositionsOf c (if a == x then (k, q) else (p, k)) l o := by
  have hc : f.clauses[i]? = some c := by rw [← Formula.clause?_eq_getElem?, h.clause]
  rcases hw.readAs hc hnodup with ⟨P, Q, A, B, hPQ, hA, hB, hother, hput, _, hrest⟩
  obtain ⟨rfl, rfl⟩ : p = P ∧ q = Q := by simpa [h.positions] using hPQ
  obtain rfl : a = A := Option.some.inj (h.fst.symm.trans hA)
  rcases replacement?_eq_some hfound with ⟨hkp, hkq, _, j, hj, hget⟩
  obtain rfl : k = j := by omega
  rcases hrest k l hget hkp hkq with ⟨hlx, hlo⟩
  exact ⟨hlx, hlo, hput k l hget hlo⟩

theorem OnVisit.passes {v v' : VisitPoint} (h : OnVisit f.clauses x list w v)
    (hf : ∀ c ∈ f.clauses, c.literals.Nodup) (hv : Passes f x v v') :
    OnVisit f.clauses x list w v' := by
  cases hv with
  | satisfied => exact ⟨h.taken, h.count_le, h.retains⟩
  | forced => exact ⟨h.taken, h.count_le, h.retains⟩
  | @moved left i p q k list₁ w₁ t c a b l lists hreads _ hfound hwatch =>
      have hc : f.clauses[i]? = some c := by rw [← Formula.clause?_eq_getElem?, hreads.clause]
      -- With a third position to look at, the clause is long enough to watch `x` and another one.
      rcases replacement?_eq_some hfound with ⟨hkp, _, _, j, hj, hget⟩
      have hlen : 2 ≤ c.length := by
        have hk := (List.getElem?_eq_some_iff.1 hget).1
        have hp := (List.getElem?_eq_some_iff.1 hreads.fst).1
        rw [Clause.length]
        omega
      have hentry : list₁[list₁.size - (left + 1)]? = some i := hreads.entry
      rcases h.retains.once.exists_watches h.taken hentry hc hlen with ⟨o, hw⟩
      have hnodup := hf c (List.mem_of_getElem? hc)
      rcases hreads.replaced hw hnodup hfound with ⟨hlx, hlo, hy⟩
      have hdrop := count_dropBySwap hentry
      have hretains := h.retains.once.moved h.taken hw hc hf hlx hlo hy hwatch hdrop
      obtain rfl := (watch?_eq_some hwatch).2
      refine ⟨taken_moved h.taken hlx, ?_, h.retains.trans hretains⟩
      intro j
      exact le_trans (Nat.le.intro (hdrop j)) (h.count_le j)

/-- All of a visit keeps what its start says. -/
theorem OnVisit.reaches {v v' : VisitPoint} (h : OnVisit f.clauses x list w v)
    (hf : ∀ c ∈ f.clauses, c.literals.Nodup) (hv : Reaches (Passes f x) v v') :
    OnVisit f.clauses x list w v' :=
  hv.invariant (fun _ _ h hv => h.passes hf hv) h

theorem WatchedOnce.onVisit (h : WatchedOnce cs w) (hlist : w.lists[x.code]? = some list) :
    OnVisit cs x list w ⟨list.size, list, w.withList x #[], t⟩ := by
  have hlt := (Array.getElem?_eq_some_iff.1 hlist).1
  refine ⟨by simp [withList, hlt], fun _ => le_rfl, ?_⟩
  rw [withList_withList hlist]
  exact .refl h

/-! ## Propagation -/

theorem WatchedOnce.falsify {failed : Option Nat} (h : WatchedOnce f.clauses w)
    (hf : ∀ c ∈ f.clauses, c.literals.Nodup) (hok : falsify f x w t = .ok (failed, w', u)) :
    Retains f.clauses w w' := by
  cases hlist : w.lists[x.code]? with
  | none => simp only [WatchIndex.falsify, hlist, reduceCtorEq] at hok
  | some list =>
      rw [falsify_eq hlist] at hok
      rcases exists_of_map_eq_ok hok with ⟨⟨_, list', w₁, _⟩, hvisit, heq⟩
      cases heq
      rcases visit_reaches _ _ _ _ hvisit with ⟨rest, hreaches⟩
      have hend := (h.onVisit hlist).reaches hf hreaches
      -- Nothing was added to the empty place, so what remains is put back as it is.
      have hput := modify_taken hend.taken list'
      rw [hput]
      exact hend.retains

theorem WatchedOnce.drain (hf : ∀ c ∈ f.clauses, c.literals.Nodup) {outcome : Outcome}
    (fuel : Nat) : ∀ (w : WatchIndex) (t : Trail), WatchedOnce f.clauses w →
      drain f fuel w t = .ok (outcome, w', u) → Retains f.clauses w w' := by
  induction fuel with
  | zero =>
      intro w t h hok
      cases hok
      exact .refl h
  | succ fuel ih =>
      intro w t h hok
      rw [WatchIndex.drain] at hok
      split at hok
      · cases hok
        exact .refl h
      · rename_i s _
        split at hok
        · cases hok
        · rename_i i w₁ t₁ hfalsify
          cases hok
          exact h.falsify hf hfalsify
        · rename_i w₁ t₁ hfalsify
          have hretains := h.falsify hf hfalsify
          exact hretains.trans (ih w₁ t₁ hretains.once hok)

/-- Whatever propagation ends with, the clauses are watched as before. -/
theorem WatchedOnce.propagate {outcome : Outcome} (h : WatchedOnce f.clauses w)
    (hf : ∀ c ∈ f.clauses, c.literals.Nodup) (hok : w.propagate f t = .ok (outcome, w', u)) :
    Retains f.clauses w w' := by
  rw [WatchIndex.propagate] at hok
  split at hok
  · cases hok
    exact .refl h
  · split at hok
    · cases hok
    · cases hok
      exact .refl h
    · exact drain hf _ w _ h hok

/-! ## One clause more -/

/-- Making room for positions lets no clause watch anything new. -/
theorem watches_room (hi : i < cs.length)
    (hpos : w'.positions[i]? = (room w.positions cs.length)[i]?) :
    Watches (cs ++ [c]) w' i a b ↔ Watches cs w i a b := by
  simp only [Watches, hpos, List.getElem?_append_left hi]
  rcases Nat.lt_or_ge i w.positions.size with hlt | hge
  · rw [room, Array.getElem?_append_left hlt]
  · -- Positions that were made up for the clause are equal ones.
    have hroom : (room w.positions cs.length)[i]? = some (0, 0) := by
      rw [room, Array.getElem?_append_right hge, Array.getElem?_replicate, if_pos (by omega)]
    rw [hroom, Array.getElem?_eq_none hge]
    constructor
    · rintro ⟨_, p, q, _, hpq | hpq, hne, _⟩ <;> cases hpq <;> exact absurd rfl hne
    · rintro ⟨_, p, q, _, hpq | hpq, _⟩ <;> cases hpq

/-- The clause at the end watches what stands at its positions. -/
theorem watches_last {y : Nat × Nat} (hpos : w'.positions[cs.length]? = some y) :
    Watches (cs ++ [c]) w' cs.length a b ↔ PositionsOf c y a b := by
  simp only [Watches, PositionsOf, hpos, List.getElem?_concat_length, Option.some.injEq,
    exists_eq_left', exists_and_left]

/-- With the entries of the other clauses unchanged, only the last one has to be looked at. -/
theorem WatchedOnce.append (h : WatchedOnce cs w)
    (hpos : ∀ i < cs.length, w'.positions[i]? = (room w.positions cs.length)[i]?)
    (hold : ∀ l, ∀ i ≠ cs.length, entries w'.lists l i = entries w.lists l i)
    (hlast : 2 ≤ c.length → ∃ a b y, w'.positions[cs.length]? = some y ∧ PositionsOf c y a b ∧
      ∀ l, entries w'.lists l cs.length = if l = a ∨ l = b then 1 else 0) :
    WatchedOnce (cs ++ [c]) w' := by
  have hget : (cs ++ [c])[cs.length]? = some c := by simp
  -- A clause is an old one, for which nothing has changed, or the last one.
  have hsplit : ∀ {i}, i < (cs ++ [c]).length → i < cs.length ∨ i = cs.length := by
    intro i hi
    rw [List.length_append, List.length_singleton] at hi
    omega
  refine ⟨?_, ?_, ?_⟩
  · intro i d hd hlen
    rcases hsplit (List.getElem?_eq_some_iff.1 hd).1 with hi | rfl
    · rw [List.getElem?_append_left hi] at hd
      rcases h.watched i d hd hlen with ⟨a, b, hab⟩
      exact ⟨a, b, (watches_room hi (hpos i hi)).2 hab⟩
    · obtain rfl : c = d := Option.some.inj (hget.symm.trans hd)
      rcases hlast hlen with ⟨a, b, y, hy, hab, _⟩
      exact ⟨a, b, (watches_last hy).2 hab⟩
  · intro i a b hab l
    rcases hsplit hab.lt with hi | rfl
    · rw [hold l i (by omega)]
      exact h.entries_eq i a b ((watches_room hi (hpos i hi)).1 hab) l
    · rcases hlast (hab.two_le hget) with ⟨a', b', y, hy, hab', hentries⟩
      rw [hentries]
      rcases (positionsOf_iff hab').1 ((watches_last hy).1 hab) with ⟨rfl, rfl⟩ | ⟨rfl, rfl⟩
      · rfl
      · simp only [or_comm]
  · intro l i hi
    rw [List.length_append, List.length_singleton]
    by_cases hlen : i = cs.length
    · omega
    · have := h.stored l i (hold l i hlen ▸ hi)
      omega

/-- Taking in a clause that was appended lets it stand once in the lists of the two literals it is
going to watch, and leaves the entries of the others as they are. -/
theorem WatchedOnce.register (h : WatchedOnce cs w) (hc : c.literals.Nodup)
    (hclauses : f.clauses = cs ++ [c]) (hok : w.register f t cs.length = .ok w') :
    WatchedOnce f.clauses w' ∧
      ∀ l, ∀ i ≠ cs.length, entries w'.lists l i = entries w.lists l i := by
  have hlast : f.clause? cs.length = some c := by simp [Formula.clause?_eq_getElem?, hclauses]
  rw [hclauses]
  rcases register_eq_ok hok with ⟨d, hd, hcases⟩
  obtain rfl : c = d := Option.some.inj (hlast.symm.trans hd)
  rcases hcases with ⟨hlen, rfl⟩ | ⟨hlen, rfl⟩ |
    ⟨_, ranks, p, q, a, b, lists, lists', _, hchoose, ha, hb, hfirst, hsecond, rfl⟩
  · exact ⟨h.append (fun _ _ => rfl) (fun _ _ _ => rfl) (by omega), fun _ _ _ => rfl⟩
  · exact ⟨h.append (fun _ _ => rfl) (fun _ _ _ => rfl) (by omega), fun _ _ _ => rfl⟩
  · have hcount : ∀ l i, entries lists' l i = entries w.lists l i +
        (if l = a ∧ cs.length = i then 1 else 0) + if l = b ∧ cs.length = i then 1 else 0 := by
      intro l i
      rw [entries_watch? hsecond, entries_watch? hfirst]
    have hold : ∀ l, ∀ i ≠ cs.length, entries lists' l i = entries w.lists l i := by
      intro l i hi
      simp [hcount, Ne.symm hi]
    have hpair : PositionsOf c (p, q) a b := ⟨p, q, .inl rfl, ne_of_choose? hchoose, ha, hb⟩
    refine ⟨h.append ?_ hold fun _ => ⟨a, b, (p, q), ?_, hpair, ?_⟩, hold⟩
    · intro i hi
      exact Array.getElem?_setIfInBounds_ne (by omega)
    · have hroom : cs.length < (room w.positions cs.length).size := by
        rw [room, Array.size_append, Array.size_replicate]
        omega
      simp [hroom]
    · -- Before, the clause stood in no list, and the two it goes to are different ones.
      intro l
      have hnew : entries w.lists l cs.length = 0 := by
        by_contra hne
        exact lt_irrefl _ (h.stored l _ hne)
      have hab : a ≠ b := hpair.ne hc
      rw [hcount, hnew]
      grind

end WatchIndex
end SatSearch
