import Mathlib.Data.Finset.Card
import SatSearch.Conflict.FirstUip
import SatSearch.Proofs.Conflict.Analysis

/-!
# Resolution — meeting the literals of a clause

A resolution marks the variables that were met, collects the false literals of lower levels, and
counts the marked steps of the conflict level that the walk has still before it. Level zero has no
decisions, so its literals hold anyway and are passed over.
-/

namespace SatSearch

open Trail

namespace FirstUip

variable {n d : Nat} {t : Trail} {seen : Array Bool} {v : Nat}
variable {r : Resolution} {s : Step}

/-! ## Marked steps ahead -/

/-- The positions before `position` of the marked steps of level `d`. -/
def ahead (t : Trail) (d : Nat) (seen : Array Bool) (position : Nat) : Finset Nat :=
  (Finset.range position).filter fun j =>
    (t.steps[j]?).any fun s => s.level == d && seen[s.literal.var]? == some true

theorem mem_ahead {position j : Nat} : j ∈ ahead t d seen position ↔
    j < position ∧ ∃ s, t.steps[j]? = some s ∧ s.level = d ∧
      seen[s.literal.var]? = some true := by
  simp [ahead, Option.any_eq_true]

theorem eq_or_mem_ahead {position j : Nat} (h : j ∈ ahead t d seen (position + 1)) :
    j = position ∨ j ∈ ahead t d seen position := by
  rcases mem_ahead.1 h with ⟨hlt, rest⟩
  rcases Nat.lt_succ_iff_lt_or_eq.1 hlt with hlt | rfl
  · exact .inr (mem_ahead.2 ⟨hlt, rest⟩)
  · exact .inl rfl

/-- Marking a variable whose step lies ahead. -/
theorem ahead_mark {position j : Nat} (ht : t.Recorded n) (hs : t.steps[j]? = some s)
    (hj : j < position) (hlevel : s.level = d) (hseen : seen[s.literal.var]? = some false) :
    (ahead t d (seen.setIfInBounds s.literal.var true) position).card =
      (ahead t d seen position).card + 1 := by
  have hlt := (Array.getElem?_eq_some_iff.1 hseen).1
  have hnot : j ∉ ahead t d seen position := by
    rw [mem_ahead]
    rintro ⟨_, s', hs', _, hmark⟩
    obtain rfl : s = s' := Option.some.inj (hs.symm.trans hs')
    rw [hseen] at hmark
    cases hmark
  -- The position of the step joins the others, and no other step has its variable.
  rw [← Finset.card_insert_of_notMem hnot]
  congr 1
  ext i
  rw [Finset.mem_insert, mem_ahead, mem_ahead]
  constructor
  · rintro ⟨hi, s', hs', hlevel', hmark⟩
    by_cases hv : s'.literal.var = s.literal.var
    · exact .inl (ht.position_unique hs' hs hv)
    · rw [Array.getElem?_setIfInBounds_ne (Ne.symm hv)] at hmark
      exact .inr ⟨hi, s', hs', hlevel', hmark⟩
  · rintro (rfl | ⟨hi, s', hs', hlevel', hmark⟩)
    · exact ⟨hj, s, hs, hlevel, by simp [hlt]⟩
    · refine ⟨hi, s', hs', hlevel', ?_⟩
      by_cases hv : s'.literal.var = s.literal.var
      · rw [hv, hseen] at hmark
        cases hmark
      · rwa [Array.getElem?_setIfInBounds_ne (Ne.symm hv)]

/-- Marking a variable of another level. -/
theorem ahead_mark_other (seen : Array Bool) (position : Nat) (ht : t.Recorded n) (hs : s ∈ t.steps)
    (hlevel : s.level ≠ d) :
    ahead t d (seen.setIfInBounds s.literal.var true) position = ahead t d seen position := by
  ext i
  rw [mem_ahead, mem_ahead]
  have hmark : ∀ s', t.steps[i]? = some s' → s'.level = d →
      (seen.setIfInBounds s.literal.var true)[s'.literal.var]? = seen[s'.literal.var]? := by
    intro s' hs' hlevel'
    refine Array.getElem?_setIfInBounds_ne ?_
    intro hv
    have := ht.step_unique hs (Array.mem_of_getElem? hs') hv
    exact hlevel (this ▸ hlevel')
  constructor
  · rintro ⟨hi, s', hs', hlevel', h⟩
    exact ⟨hi, s', hs', hlevel', hmark s' hs' hlevel' ▸ h⟩
  · rintro ⟨hi, s', hs', hlevel', h⟩
    exact ⟨hi, s', hs', hlevel', (hmark s' hs' hlevel').symm ▸ h⟩

/-- A step that is not marked, or not of the level, does not count. -/
theorem ahead_succ_of_not {position : Nat} (hs : t.steps[position]? = some s)
    (hnot : ¬ (s.level = d ∧ seen[s.literal.var]? = some true)) :
    ahead t d seen (position + 1) = ahead t d seen position := by
  ext i
  rw [mem_ahead, mem_ahead]
  constructor
  · rintro ⟨hi, s', hs', h⟩
    refine ⟨?_, s', hs', h⟩
    rcases Nat.lt_succ_iff_lt_or_eq.1 hi with hi | rfl
    · exact hi
    · obtain rfl : s = s' := Option.some.inj (hs.symm.trans hs')
      exact absurd h hnot
  · rintro ⟨hi, rest⟩
    exact ⟨by omega, rest⟩

theorem ahead_succ {position : Nat} (hs : t.steps[position]? = some s) (hlevel : s.level = d)
    (hseen : seen[s.literal.var]? = some true) :
    (ahead t d seen (position + 1)).card = (ahead t d seen position).card + 1 := by
  have hnot : position ∉ ahead t d seen position := by
    rw [mem_ahead]
    rintro ⟨hlt, _⟩
    exact absurd hlt (lt_irrefl _)
  rw [← Finset.card_insert_of_notMem hnot]
  congr 1
  ext i
  rw [Finset.mem_insert, mem_ahead, mem_ahead]
  constructor
  · rintro ⟨hi, rest⟩
    rcases Nat.lt_succ_iff_lt_or_eq.1 hi with hi | rfl
    · exact .inr ⟨hi, rest⟩
    · exact .inl rfl
  · rintro (rfl | ⟨hi, rest⟩)
    · exact ⟨Nat.lt_succ_self _, s, hs, hlevel, hseen⟩
    · exact ⟨by omega, rest⟩

theorem ahead_mono {seen' : Array Bool} {position : Nat}
    (h : ∀ v : Nat, seen[v]? = some true → seen'[v]? = some true) :
    ahead t d seen position ⊆ ahead t d seen' position := by
  intro j hj
  rcases mem_ahead.1 hj with ⟨hlt, s, hs, hlevel, hseen⟩
  exact mem_ahead.2 ⟨hlt, s, hs, hlevel, h _ hseen⟩

/-! ## What the marks mean -/

/-- Marked variables have a value from a level between zero and the conflict level, and the
literals of lower levels among them are collected. -/
structure Resolution.Tracks (n : Nat) (t : Trail) (d : Nat) (r : Resolution) : Prop where
  seen_size : n ≤ r.seen.size
  nodup_met : r.met.toList.Nodup
  mem_met : ∀ v, v ∈ r.met ↔ r.seen[v]? = some true
  marked : ∀ v, r.seen[v]? = some true →
    ∃ s ∈ t.steps, s.literal.var = v ∧ 0 < s.level ∧ s.level ≤ d
  nodup_lower : r.lower.toList.Nodup
  mem_lower : ∀ l, l ∈ r.lower ↔ r.seen[l.var]? = some true ∧
    ∃ s ∈ t.steps, s.literal = l.negate ∧ 0 < s.level ∧ s.level < d

/-- The marks before any literal is met. -/
theorem Resolution.Tracks.start (hsize : n ≤ seen.size) (hseen : ∀ v : Nat, seen[v]? ≠ some true) :
    (⟨seen, #[], #[], 0⟩ : Resolution).Tracks n t d where
  seen_size := hsize
  nodup_met := List.nodup_nil
  mem_met := by simp [hseen]
  marked := fun v hv => absurd hv (hseen v)
  nodup_lower := List.nodup_nil
  mem_lower := by simp [hseen]

/-- The marks do not depend on the count. -/
theorem Resolution.Tracks.withPending {met : Array Nat} {lower : Array Literal} {pending : Nat}
    (h : Resolution.Tracks n t d ⟨seen, met, lower, pending⟩) (pending' : Nat) :
    Resolution.Tracks n t d ⟨seen, met, lower, pending'⟩ :=
  ⟨h.seen_size, h.nodup_met, h.mem_met, h.marked, h.nodup_lower, h.mem_lower⟩

section Mark

variable {l : Literal}

theorem getElem?_mark {w : Nat} (hseen : seen[v]? = some false) :
    (seen.setIfInBounds v true)[w]? = some true ↔ seen[w]? = some true ∨ w = v := by
  have hlt := (Array.getElem?_eq_some_iff.1 hseen).1
  by_cases hw : w = v
  · subst hw
    simp [hlt]
  · rw [Array.getElem?_setIfInBounds_ne (Ne.symm hw)]
    simp [hw]

/-- Meeting a literal whose variable is not marked. -/
theorem Resolution.Tracks.mark (h : r.Tracks n t d) (ht : t.Recorded n) (hs : s ∈ t.steps)
    (hsl : s.literal = l.negate) (hpos : 0 < s.level) (hle : s.level ≤ d)
    (hseen : r.seen[l.var]? = some false) (pending : Nat) :
    Resolution.Tracks n t d ⟨r.seen.setIfInBounds l.var true, r.met.push l.var,
      if d ≤ s.level then r.lower else r.lower.push l, pending⟩ where
  seen_size := by simpa using h.seen_size
  nodup_met := by
    rw [Array.toList_push, ← List.concat_eq_append]
    refine h.nodup_met.concat fun hv => ?_
    rw [Array.mem_toList_iff, h.mem_met, hseen] at hv
    cases hv
  mem_met := by
    intro v
    rw [getElem?_mark hseen, Array.mem_push, h.mem_met]
  marked := by
    intro v hv
    rcases (getElem?_mark hseen).1 hv with hv | rfl
    · exact h.marked v hv
    · exact ⟨s, hs, by simp [hsl], hpos, hle⟩
  nodup_lower := by
    split
    · exact h.nodup_lower
    · rw [Array.toList_push, ← List.concat_eq_append]
      refine h.nodup_lower.concat fun hl => ?_
      rw [Array.mem_toList_iff, h.mem_lower, hseen] at hl
      cases hl.1
  mem_lower := by
    intro a
    -- A false literal of the variable is the literal that was met.
    have hsame : ∀ s' ∈ t.steps, s'.literal = a.negate → a.var = l.var → s' = s ∧ a = l := by
      intro s' hs' ha hv
      have heq : s' = s := ht.step_unique hs' hs (by simp [ha, hsl, hv])
      subst heq
      exact ⟨rfl, Literal.negate_inj.1 (ha.symm.trans hsl)⟩
    have hold := h.mem_lower a
    rw [getElem?_mark hseen]
    split
    · rename_i htop
      rw [hold]
      constructor
      · rintro ⟨hmark, rest⟩
        exact ⟨.inl hmark, rest⟩
      · rintro ⟨hmark | hv, s', hs', ha, hpos', hlt⟩
        · exact ⟨hmark, s', hs', ha, hpos', hlt⟩
        · rcases hsame s' hs' ha hv with ⟨rfl, _⟩
          omega
    · rename_i hlow
      rw [Array.mem_push, hold]
      constructor
      · rintro (⟨hmark, rest⟩ | rfl)
        · exact ⟨.inl hmark, rest⟩
        · exact ⟨.inr rfl, s, hs, hsl, hpos, by omega⟩
      · rintro ⟨hmark | hv, s', hs', ha, hpos', hlt⟩
        · exact .inl ⟨hmark, s', hs', ha, hpos', hlt⟩
        · exact .inr (hsame s' hs' ha hv).2

end Mark

/-! ## Meeting a clause -/

/-- What meeting the literals does to the marks: none is taken back, each literal but that of the
pivot has one now unless it is of level zero, and no other variable gets one. -/
structure Met (t : Trail) (pivot : Option Nat) (ls : List Literal) (seen seen' : Array Bool) :
    Prop where
  mono : ∀ v : Nat, seen[v]? = some true → seen'[v]? = some true
  all : ∀ l ∈ ls, pivot ≠ some l.var → seen'[l.var]? = some true ∨ t.TrueBy 0 l.negate
  only : ∀ v : Nat, seen'[v]? = some true → seen[v]? = some true ∨ ∃ l ∈ ls, l.var = v

namespace Met

variable {pivot : Option Nat} {l : Literal} {ls : List Literal} {seen₁ seen' : Array Bool}

theorem nil : Met t pivot [] seen seen :=
  ⟨fun _ => id, by simp, fun _ => .inl⟩

theorem passedOver (h : pivot ≠ some l.var → seen[l.var]? = some true ∨ t.TrueBy 0 l.negate) :
    Met t pivot [l] seen seen :=
  ⟨fun _ => id, by simpa using h, fun _ => .inl⟩

theorem marked (h : seen[l.var]? = some false) :
    Met t pivot [l] seen (seen.setIfInBounds l.var true) where
  mono := fun _ hv => (getElem?_mark h).2 (.inl hv)
  all := by
    intro a ha _
    obtain rfl := List.mem_singleton.1 ha
    exact .inl ((getElem?_mark h).2 (.inr rfl))
  only := fun _ hv => ((getElem?_mark h).1 hv).imp_right fun heq => ⟨l, by simp, heq.symm⟩

/-- Marks are never taken back, so what the first literal got stays. -/
theorem cons (h : Met t pivot [l] seen seen₁) (h' : Met t pivot ls seen₁ seen') :
    Met t pivot (l :: ls) seen seen' where
  mono := fun v hv => h'.mono v (h.mono v hv)
  all := by
    intro a ha hpivot
    rcases List.mem_cons.1 ha with rfl | ha
    · exact (h.all a List.mem_cons_self hpivot).imp_left (h'.mono _)
    · exact h'.all a ha hpivot
  only := by
    intro v hv
    rcases h'.only v hv with hv | ⟨a, ha, rfl⟩
    · rcases h.only v hv with hv | ⟨a, ha, rfl⟩
      · exact .inl hv
      · exact .inr ⟨a, by simp [List.mem_singleton.1 ha], rfl⟩
    · exact .inr ⟨a, List.mem_cons_of_mem _ ha, rfl⟩

end Met

/-- Meeting one literal that is false before `position`, unless it is that of the pivot. -/
theorem meet_cons {position : Nat} {l : Literal} (ht : t.WellFormed n) (pivot : Option Nat)
    (ls : List Literal) (hr : r.Tracks n t d)
    (hpending : r.pending = (ahead t d r.seen position).card)
    (hfalse : pivot ≠ some l.var →
      ∃ j < position, ∃ s, t.steps[j]? = some s ∧ s.literal = l.negate ∧ s.level ≤ d) :
    ∃ r₁, meet t d pivot (l :: ls) r = meet t d pivot ls r₁ ∧ r₁.Tracks n t d ∧
      r₁.pending = (ahead t d r₁.seen position).card ∧ Met t pivot [l] r.seen r₁.seen := by
  rcases r with ⟨seen, met, lower, pending⟩
  by_cases hpivot : pivot = some l.var
  · exact ⟨_, by rw [meet, if_pos hpivot], hr, hpending, .passedOver fun h => absurd hpivot h⟩
  rcases hfalse hpivot with ⟨j, hj, s, hs, hsl, hle⟩
  have hmem := Array.mem_of_getElem? hs
  have hlt : l.var < seen.size := by
    have := ht.var_lt hmem
    simp only [hsl, Literal.negate_var] at this
    exact this.trans_le hr.seen_size
  have hlevel := ht.levelOf_negate hmem hsl
  have hget := Array.getElem?_eq_getElem hlt
  cases hseen : seen[l.var] with
  | true =>
      rw [hseen] at hget
      exact ⟨⟨seen, met, lower, pending⟩, by simp only [meet, if_neg hpivot, hget], hr, hpending,
        .passedOver fun _ => .inl hget⟩
  | false =>
      rw [hseen] at hget
      cases hzero : s.level with
      | zero =>
          exact ⟨⟨seen, met, lower, pending⟩,
            by simp only [meet, if_neg hpivot, hget, hlevel, hzero], hr, hpending,
            .passedOver fun _ => .inr ⟨s, hmem, hsl, hzero.le⟩⟩
      | succ k =>
          have hmark := hr.mark ht.toRecorded hmem hsl (by omega) hle hget
          rw [hzero] at hmark
          dsimp only at hpending
          -- At the conflict level it is one more step to resolve, below it is collected.
          by_cases htop : d ≤ k + 1
          · have hcount := ahead_mark ht.toRecorded hs hj (show s.level = d by omega)
              (by simpa [hsl] using hget)
            rw [hsl, Literal.negate_var] at hcount
            have htracks := hmark (pending + 1)
            rw [if_pos htop] at htracks
            refine ⟨_, by simp only [meet, if_neg hpivot, hget, hlevel, hzero, if_pos htop],
              htracks, ?_, .marked hget⟩
            dsimp only
            rw [hcount, hpending]
          · have hcount := ahead_mark_other seen position ht.toRecorded hmem
              (show s.level ≠ d by omega)
            rw [hsl, Literal.negate_var] at hcount
            have htracks := hmark pending
            rw [if_neg htop] at htracks
            refine ⟨_, by simp only [meet, if_neg hpivot, hget, hlevel, hzero, if_neg htop],
              htracks, ?_, .marked hget⟩
            dsimp only
            rw [hcount, hpending]

/-- Meeting the literals of a clause that are false before `position`, all but the one of the
pivot. -/
theorem meet_spec {position : Nat} (ht : t.WellFormed n) (pivot : Option Nat)
    (ls : List Literal) : ∀ r : Resolution, r.Tracks n t d →
    r.pending = (ahead t d r.seen position).card →
    (∀ l ∈ ls, pivot ≠ some l.var →
      ∃ j < position, ∃ s, t.steps[j]? = some s ∧ s.literal = l.negate ∧ s.level ≤ d) →
    ∃ r', meet t d pivot ls r = .ok r' ∧ r'.Tracks n t d ∧
      r'.pending = (ahead t d r'.seen position).card ∧ Met t pivot ls r.seen r'.seen := by
  induction ls with
  | nil =>
      intro r hr hpending _
      exact ⟨r, rfl, hr, hpending, .nil⟩
  | cons l ls ih =>
      intro r hr hpending hfalse
      rcases meet_cons ht pivot ls hr hpending (hfalse l List.mem_cons_self) with
        ⟨r₁, heq, hr₁, hpending₁, hmet₁⟩
      rcases ih r₁ hr₁ hpending₁ fun a ha => hfalse a (List.mem_cons_of_mem l ha) with
        ⟨r', hok, hr', hpending', hmet⟩
      exact ⟨r', heq.trans hok, hr', hpending', hmet₁.cons hmet⟩

end FirstUip
end SatSearch
