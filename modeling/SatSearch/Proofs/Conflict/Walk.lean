import SatSearch.Proofs.Conflict.Resolution

/-!
# Walk — back to the first unique implication point

`Walked` tells what a walk does at each step of the trail: it passes an unmarked step, resolves a
marked one away against the clause that explains it, or has reached the last marked step of the
conflict level. A walk that has anything pending ends that way. Whatever satisfies the formula makes
one of the collected literals true or one of the marked steps ahead false: that holds for the
literals of the failed clause and is kept when a step is resolved away. So when one marked step is
left, the collected literals and its complement are entailed.
-/

namespace SatSearch

open Trail

/-- What a walk back along the trail relies on: a branch starts its level, and every step that is
forced is explained by a clause whose other literals were falsified before. -/
structure Trail.Traceable (f : Formula) (t : Trail) : Prop where
  branch_start : ∀ (i : Nat) (s : Step), t.steps[i]? = some s → s.reason.IsBranch →
    0 < s.level ∧ t.levelStarts[s.level - 1]? = some i
  explained : ∀ (i index : Nat) (s : Step), t.steps[i]? = some s → s.reason = .clause index →
    Explained f t i s.literal index

theorem Trail.Justified.traceable {f : Formula} {t : Trail} (h : Justified f t) : t.Traceable f :=
  ⟨h.branch_start, h.explained⟩

namespace FirstUip

variable {n d : Nat} {f : Formula} {t : Trail} {c : Clause} {seen : Array Bool}
variable {r r' : Resolution} {s : Step} {V : Valuation}

/-! ## Marked steps of the conflict level -/

/-- A marked step is of the conflict level as long as the walk is not past that level. -/
theorem Resolution.Tracks.level_eq {position : Nat} (h : r.Tracks n t d) (ht : t.WellFormed n)
    (hs : t.steps[position]? = some s) (hget : r.seen[s.literal.var]? = some true)
    (hnonempty : (ahead t d r.seen (position + 1)).Nonempty) : s.level = d := by
  have hmem := Array.mem_of_getElem? hs
  rcases h.marked _ hget with ⟨s', hs', hv, _, hle⟩
  obtain rfl : s' = s := ht.step_unique hs' hmem hv
  rcases hnonempty with ⟨i, hi⟩
  rcases mem_ahead.1 hi with ⟨hlt, s₁, hs₁, hs₁d, _⟩
  have hge : d ≤ s'.level := hs₁d ▸ ht.level_mono (Nat.lt_succ_iff.1 hlt) hs₁ hs
  exact Nat.le_antisymm hle hge

/-- A branch starts its level, so a step with others of its level before it is none. -/
theorem not_isBranch_of_ahead {position : Nat} (ht : t.Levelled) (htrace : t.Traceable f)
    (hs : t.steps[position]? = some s) (hlevel : s.level = d)
    (hnonempty : (ahead t d seen position).Nonempty) : ¬ s.reason.IsBranch := by
  intro hbranch
  rcases htrace.branch_start _ s hs hbranch with ⟨hpos, hstart⟩
  rcases hnonempty with ⟨i, hi⟩
  rcases mem_ahead.1 hi with ⟨hlt, s₁, hs₁, hs₁d, _⟩
  have hbelow := (ht.level_le_iff _ _ hstart i s₁ hs₁).2 hlt
  omega

/-! ## Walking back -/

/-- Resolving the step at `position` away against the clause that explains it, with other steps of
the level pending. -/
structure Resolved (f : Formula) (t : Trail) (d position : Nat) (s : Step) (c : Clause)
    (r r' : Resolution) : Prop where
  step : t.steps[position]? = some s
  marked : r.seen[s.literal.var]? = some true
  level_eq : s.level = d
  clause : ∃ index, s.reason = .clause index ∧ f.clause? index = some c
  more : (ahead t d r.seen position).Nonempty
  met : Met t (some s.literal.var) c.literals r.seen r'.seen
  tracks : r'.Tracks f.numVars t d

/-- How a walk goes from `position` back to the implication point. -/
inductive Walked (f : Formula) (t : Trail) (d : Nat) :
    Nat → Resolution → Nat → Resolution → Prop
  | passed {position k : Nat} {s : Step} {r r' : Resolution} :
      t.steps[position]? = some s → r.seen[s.literal.var]? = some false →
      Walked f t d position r k r' → Walked f t d (position + 1) r k r'
  | resolved {position k : Nat} {s : Step} {c : Clause} {r r₁ r' : Resolution} :
      Resolved f t d position s c r r₁ → Walked f t d position r₁ k r' →
      Walked f t d (position + 1) r k r'
  | reached {position : Nat} {s : Step} {r : Resolution} :
      t.steps[position]? = some s → r.seen[s.literal.var]? = some true → s.level = d →
      ahead t d r.seen position = ∅ →
      Walked f t d (position + 1) r position ⟨r.seen, r.met, r.lower, 0⟩

/-- The clause that explains a step of the conflict level is false before it, but for the literal of
the step. -/
theorem exists_before {position : Nat} (ht : t.WellFormed n)
    (hothers : ∀ a ∈ c.literals, a ≠ s.literal →
      ∃ j < position, ∃ s', t.steps[j]? = some s' ∧ s'.literal = a.negate)
    (hs : t.steps[position]? = some s) (hlevel : s.level = d) :
    ∀ l ∈ c.literals, some s.literal.var ≠ some l.var →
      ∃ j < position, ∃ s', t.steps[j]? = some s' ∧ s'.literal = l.negate ∧ s'.level ≤ d := by
  intro l hl hpivot
  have hne : l ≠ s.literal := fun heq => hpivot (heq ▸ rfl)
  rcases hothers l hl hne with ⟨j, hlt, s', hs', hs'l⟩
  exact ⟨j, hlt, s', hs', hs'l, hlevel ▸ ht.level_mono hlt.le hs' hs⟩

/-- A walk with something pending reaches an implication point. -/
theorem walk_spec (ht : t.WellFormed f.numVars) (htrace : t.Traceable f) (position : Nat) :
    ∀ r : Resolution, position ≤ t.steps.size → r.Tracks f.numVars t d → 0 < r.pending →
    r.pending = (ahead t d r.seen position).card →
    ∃ k s r', walk f t d position r = .ok (s.literal, r') ∧ t.steps[k]? = some s ∧
      Walked f t d position r k r' := by
  -- By induction on the position the walk has come to, with something pending before it.
  induction position with
  | zero =>
      intro r _ _ hpos hpending
      have : ahead t d r.seen 0 = ∅ := by simp [ahead]
      rw [this, Finset.card_empty] at hpending
      omega
  | succ position ih =>
      intro r hle hr hpos hpending
      rcases r with ⟨seen, met, lower, pending⟩
      dsimp only at hpos hpending
      obtain ⟨s, hs⟩ : ∃ s, t.steps[position]? = some s :=
        ⟨_, Array.getElem?_eq_getElem (by omega)⟩
      have hlt : s.literal.var < seen.size :=
        (ht.var_lt (Array.mem_of_getElem? hs)).trans_le hr.seen_size
      have hget := Array.getElem?_eq_getElem hlt
      unfold walk
      cases hseen : seen[s.literal.var] with
      | false =>
          rw [hseen] at hget
          simp only [hs, hget]
          have hsame : ahead t d seen (position + 1) = ahead t d seen position :=
            ahead_succ_of_not hs (by simp [hget])
          rcases ih _ (by omega) hr hpos (hsame ▸ hpending) with ⟨k, u, r', hwalk, hu, hwalked⟩
          exact ⟨k, u, r', hwalk, hu, .passed hs hget hwalked⟩
      | true =>
          rw [hseen] at hget
          simp only [hs, hget]
          have hlevel := hr.level_eq ht hs hget (Finset.card_pos.1 (hpending ▸ hpos))
          have hcount := ahead_succ hs hlevel hget
          cases pending with
          | zero => exact absurd hpos (lt_irrefl 0)
          | succ pending =>
              have hahead : pending = (ahead t d seen position).card := by omega
              cases pending with
              | zero =>
                  -- This is the only marked step left, the unique implication point.
                  exact ⟨position, s, _, rfl, hs,
                    .reached hs hget hlevel (Finset.card_eq_zero.1 hahead.symm)⟩
              | succ pending =>
                  have hmore : 0 < (ahead t d seen position).card := by omega
                  have hbranch : ¬ s.reason.IsBranch :=
                    not_isBranch_of_ahead ht.toLevelled htrace hs hlevel (Finset.card_pos.1 hmore)
                  cases hreason : s.reason with
                  | decision => exact absurd (by simp [hreason, Reason.IsBranch]) hbranch
                  | flipped => exact absurd (by simp [hreason, Reason.IsBranch]) hbranch
                  | clause index =>
                      rcases htrace.explained _ index s hs hreason with ⟨c, hc, _, hothers⟩
                      rcases meet_spec ht (some s.literal.var) c.literals _
                          (hr.withPending (pending + 1)) hahead
                          (exists_before ht hothers hs hlevel) with
                        ⟨r₁, hmeet, hr₁, hpending₁, hmet⟩
                      have hpos₁ : 0 < r₁.pending := by
                        have : (ahead t d seen position).card ≤ (ahead t d r₁.seen position).card :=
                          Finset.card_le_card (ahead_mono hmet.mono)
                        omega
                      rcases ih r₁ (by omega) hr₁ hpos₁ hpending₁ with
                        ⟨k, u, r', hwalk, hu, hwalked⟩
                      refine ⟨k, u, r', ?_, hu, .resolved ⟨hs, hget, hlevel,
                        ⟨index, hreason, hc⟩, Finset.card_pos.1 hmore, hmet, hr₁⟩ hwalked⟩
                      simp only [hc, hmeet]
                      exact hwalk

namespace Walked

variable {position k : Nat}

theorem tracks (h : Walked f t d position r k r') (hr : r.Tracks f.numVars t d) :
    r'.Tracks f.numVars t d := by
  induction h with
  | passed _ _ _ ih => exact ih hr
  | resolved hresolved _ ih => exact ih hresolved.tracks
  | reached _ _ _ _ => exact hr.withPending 0

theorem pending_eq (h : Walked f t d position r k r') : r'.pending = 0 := by
  induction h with
  | passed _ _ _ ih => exact ih
  | resolved _ _ ih => exact ih
  | reached _ _ _ _ => rfl

/-- The implication point is a marked step of the conflict level. -/
theorem point (h : Walked f t d position r k r') (hs : t.steps[k]? = some s) :
    k < position ∧ s.level = d ∧ r'.seen[s.literal.var]? = some true := by
  induction h with
  | passed _ _ _ ih =>
      rcases ih hs with ⟨hlt, rest⟩
      exact ⟨hlt.trans (Nat.lt_succ_self _), rest⟩
  | resolved _ _ ih =>
      rcases ih hs with ⟨hlt, rest⟩
      exact ⟨hlt.trans (Nat.lt_succ_self _), rest⟩
  | reached hs' hmark hlevel _ =>
      obtain rfl := Option.some.inj (hs'.symm.trans hs)
      exact ⟨Nat.lt_succ_self _, hlevel, hmark⟩

end Walked

/-! ## What is entailed -/

/-- A collected literal holds, or a marked step of the conflict level ahead does not. -/
def Resolution.Covers (t : Trail) (d position : Nat) (r : Resolution) (V : Valuation) : Prop :=
  (∃ l ∈ r.lower, l.Holds V) ∨
    ∃ j ∈ ahead t d r.seen position, ∃ s, t.steps[j]? = some s ∧ ¬ s.literal.Holds V

/-- A literal that holds although it is false on the trail is collected or falsified ahead once it
has been met. -/
theorem Resolution.Tracks.covers {position j : Nat} {l : Literal} (h : r.Tracks n t d)
    (hroot : ∀ a, t.TrueBy 0 a → a.Holds V) (hl : l.Holds V) (hj : j < position)
    (hs : t.steps[j]? = some s) (hsl : s.literal = l.negate) (hle : s.level ≤ d)
    (hmet : r.seen[l.var]? = some true ∨ t.TrueBy 0 l.negate) : r.Covers t d position V := by
  have hmem := Array.mem_of_getElem? hs
  have hnot : ¬ l.negate.Holds V := by
    rw [Literal.holds_negate]
    exact not_not_intro hl
  -- At level zero the trail follows from the formula and could not contradict the literal.
  have hpos : 0 < s.level := by
    by_contra hzero
    exact hnot (hroot _ ⟨s, hmem, hsl, by omega⟩)
  rcases hmet with hseen | hzero
  · rcases Nat.lt_or_eq_of_le hle with hlow | htop
    · exact .inl ⟨l, (h.mem_lower l).2 ⟨hseen, s, hmem, hsl, hpos, hlow⟩, hl⟩
    · refine .inr ⟨j, mem_ahead.2 ⟨hj, s, hs, htop, by simpa [hsl] using hseen⟩, s, hs, ?_⟩
      rwa [hsl]
  · exact absurd (hroot _ hzero) hnot

/-- A step is resolved away against a clause that holds. -/
theorem Resolved.covers {position : Nat} (h : Resolved f t d position s c r r')
    (hcovers : r.Covers t d (position + 1) V) (hr : r.Tracks f.numVars t d) (hsound : f.Sound)
    (ht : t.WellFormed f.numVars) (hj : Justified f t) (hV : f.Holds V) :
    r'.Covers t d position V := by
  rcases hcovers with ⟨l, hl, hholds⟩ | ⟨j, hjmem, s', hs', hnot⟩
  · rcases (hr.mem_lower l).1 hl with ⟨hseen, rest⟩
    exact .inl ⟨l, (h.tracks.mem_lower l).2 ⟨h.met.mono _ hseen, rest⟩, hholds⟩
  · rcases eq_or_mem_ahead hjmem with rfl | hahead
    · -- The step itself fails, so another literal of its clause holds.
      obtain rfl : s = s' := Option.some.inj (h.step.symm.trans hs')
      rcases h.clause with ⟨index, hreason, hc⟩
      rcases hj.explained _ index s h.step hreason with ⟨c', hc', _, hothers⟩
      obtain rfl : c = c' := Option.some.inj (hc.symm.trans hc')
      rcases hsound.holds_clauses hV c (Formula.mem_of_clause? hc) with ⟨a, ha, hholds⟩
      have hne : a ≠ s.literal := by
        rintro rfl
        exact hnot hholds
      rcases hothers a ha hne with ⟨i, hi, s₁, hs₁, hs₁a⟩
      have hvar : s.literal.var ≠ a.var := by
        intro hv
        have := ht.position_unique hs₁ h.step (by simp [hs₁a, hv])
        omega
      have hle := ht.level_mono hi.le hs₁ h.step
      exact h.tracks.covers (fun _ => hj.holds_of_ground ht.toLevelled hsound hV) hholds hi hs₁
        hs₁a (h.level_eq ▸ hle) (h.met.all a ha fun heq => hvar (Option.some.inj heq))
    · exact .inr ⟨j, ahead_mono h.met.mono hahead, s', hs', hnot⟩

/-- With nothing marked before it the step is all that is left to fail. -/
theorem Resolution.Covers.last {position : Nat} (h : r.Covers t d (position + 1) V)
    (hs : t.steps[position]? = some s) (hempty : ahead t d r.seen position = ∅) :
    (∃ l ∈ r.lower, l.Holds V) ∨ ¬ s.literal.Holds V := by
  rcases h with hlower | ⟨j, hj, s', hs', hnot⟩
  · exact .inl hlower
  · right
    rcases eq_or_mem_ahead hj with rfl | hj
    · obtain rfl : s = s' := Option.some.inj (hs.symm.trans hs')
      exact hnot
    · rw [hempty] at hj
      exact absurd hj (Finset.notMem_empty j)

/-- Where the formula holds, a collected literal does or the implication point does not. -/
theorem Walked.entails {position k : Nat} (h : Walked f t d position r k r')
    (hs : t.steps[k]? = some s) (hsound : f.Sound) (ht : t.WellFormed f.numVars)
    (hj : Justified f t) (hV : f.Holds V) (hr : r.Tracks f.numVars t d)
    (hcovers : r.Covers t d position V) :
    (∃ l ∈ r'.lower, l.Holds V) ∨ ¬ s.literal.Holds V := by
  induction h with
  | @passed position _ s' r _ hs' hmark _ ih =>
      have hsame : ahead t d r.seen (position + 1) = ahead t d r.seen position :=
        ahead_succ_of_not hs' (by simp [hmark])
      refine ih hs hr ?_
      rwa [Resolution.Covers, hsame] at hcovers
  | resolved hresolved _ ih =>
      exact ih hs hresolved.tracks (hresolved.covers hcovers hr hsound ht hj hV)
  | reached hs' _ _ hempty =>
      obtain rfl := Option.some.inj (hs'.symm.trans hs)
      exact hcovers.last hs hempty

end FirstUip
end SatSearch
