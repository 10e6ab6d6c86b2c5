import SatSearch.Proofs.Trail.Operations

/-!
# Undo — stepping back takes back whatever was done above a level

From when a level is opened until the trail is stepped back below it, the steps and the level starts
that were there before stay where they are, and every new step belongs to a higher level. So
stepping back to the level that was left restores the trail as it was: what the tables say follows
from the steps. Only the head is not put back, but no step that was taken back stays in front of it.
-/

namespace SatSearch
namespace Trail

variable {n k : Nat} {t u u' : Trail} {l : Literal} {r : Reason}

/-! ## Above a level -/

/-- Neither takes everything back nor steps back to level `k` or below. -/
def Operation.StaysAbove (k : Nat) : Operation → Prop
  | .backstep j => k < j
  | .clear => False
  | _ => True

/-- The second trail is the first one with more levels on top of it. -/
structure OnTop (t u : Trail) : Prop where
  level_lt : t.level < u.level
  getElem?_iff : ∀ (i : Nat) (s : Step), t.steps[i]? = some s ↔
    u.steps[i]? = some s ∧ s.level ≤ t.level
  starts_eq : ∀ j < t.level, u.levelStarts[j]? = t.levelStarts[j]?

namespace OnTop

theorem withHead (h : OnTop t u) (head : Nat) : OnTop t (u.withHead head) :=
  ⟨h.level_lt, h.getElem?_iff, h.starts_eq⟩

theorem start_newLevel {j : Nat} (hj : j < u.level) :
    u.newLevel.levelStarts[j]? = u.levelStarts[j]? := by
  rw [levelStarts_newLevel, Array.getElem?_push, if_neg (by rw [level] at hj; omega)]

/-- Opening a level puts it on top. -/
theorem opened (h : t.Levelled) : OnTop t t.newLevel where
  level_lt := by simp
  getElem?_iff := by
    intro i s
    exact ⟨fun hi => ⟨hi, h.le_level s (Array.mem_of_getElem? hi)⟩, And.left⟩
  starts_eq := fun _ => start_newLevel

theorem newLevel (h : OnTop t u) : OnTop t u.newLevel where
  level_lt := by
    rw [level_newLevel]
    exact h.level_lt.trans (Nat.lt_succ_self _)
  getElem?_iff := h.getElem?_iff
  starts_eq := fun j hj => (start_newLevel (hj.trans h.level_lt)).trans (h.starts_eq j hj)

theorem pushed (h : OnTop t u) : OnTop t (u.pushed l r) where
  level_lt := h.level_lt
  getElem?_iff := by
    intro i s
    rw [h.getElem?_iff, getElem?_pushed]
    constructor
    · rintro ⟨hi, hle⟩
      exact ⟨.inl hi, hle⟩
    · rintro ⟨hi | ⟨_, rfl⟩, hle⟩
      · exact ⟨hi, hle⟩
      · exact absurd hle (Nat.not_le.2 h.level_lt)
  starts_eq := h.starts_eq

/-- Stepping back to a level above keeps what is below. -/
theorem steppedBack (h : OnTop t u) (hback : SteppedBack k u u') (hk : t.level < k) :
    OnTop t u' where
  level_lt := by
    rw [hback.level_eq]
    exact lt_min hk h.level_lt
  getElem?_iff := by
    intro i s
    rw [h.getElem?_iff, hback.getElem?_iff]
    constructor
    · rintro ⟨hi, hle⟩
      exact ⟨⟨hi, hle.trans hk.le⟩, hle⟩
    · rintro ⟨⟨hi, _⟩, hle⟩
      exact ⟨hi, hle⟩
  starts_eq := fun j hj => (hback.starts_eq j (hj.trans hk)).trans (h.starts_eq j hj)

/-- An operation that stays above the level keeps what is on top of it there. -/
theorem perform {op : Operation} (h : OnTop t u) (hu : u.WellFormed n)
    (hop : op.StaysAbove t.level) (hok : op.perform u = .ok u') : OnTop t u' := by
  cases op with
  | newLevel =>
      cases hok
      exact h.newLevel
  | push l r =>
      rcases push_eq_ok hu.toRecorded hok with ⟨_, _, rfl⟩
      exact h.pushed
  | settle =>
      cases hok
      exact h.withHead u.steps.size
  | advance =>
      cases hok
      exact h.withHead (u.head + 1)
  | backstep k =>
      rcases backstep_spec hu k with ⟨u₁, hok₁, _, hback⟩
      cases hok.symm.trans hok₁
      exact h.steppedBack hback hop
  | clear => exact hop.elim

theorem performAll (ops : List Operation) : ∀ u : Trail, OnTop t u → u.WellFormed n →
    (∀ op ∈ ops, op.StaysAbove t.level) → AdmitsAll ops u →
    ∃ u', performAll ops u = .ok u' ∧ OnTop t u' ∧ u'.WellFormed n := by
  induction ops with
  | nil =>
      intro u h hu _ _
      exact ⟨u, rfl, h, hu⟩
  | cons op ops ih =>
      rintro u h hu habove ⟨hop, hops⟩
      rcases hu.perform hop with ⟨u₁, hok, hu₁⟩
      have h₁ := h.perform hu (habove op List.mem_cons_self) hok
      rcases ih u₁ h₁ hu₁ (fun op' hop' => habove op' (List.mem_cons_of_mem op hop'))
          (hops u₁ hok) with
        ⟨u', hok', hu'⟩
      exact ⟨u', by simp only [Trail.performAll, hok, hok'], hu'⟩

end OnTop

/-! ## Taking it back -/

/-- Stepping back to a lower level takes the head back to the last step that is left, if it stood
behind that. -/
theorem head_of_backstep (h : u.Recorded n) (hlev : u.Levelled) (hk : k < u.level)
    (hok : u.backstep k = .ok u') : u'.head = min u.head u'.steps.size := by
  have hstart : u.levelStarts[k]? = some u.levelStarts[k] := Array.getElem?_eq_getElem hk
  have hle := hlev.start_le k _ hstart
  rcases unwind_spec (u.steps.size - u.levelStarts[k]) u h (by omega) with
    ⟨v, hv, _, hsteps, _, hhead⟩
  simp only [backstep, hstart, hv, Except.ok.injEq] at hok
  subst hok
  have hsize : v.steps.size = u.levelStarts[k] := by
    rw [hsteps]
    simp
    omega
  simp only [hhead, hsize]

/-- What is on top of a trail is taken back as a whole by stepping back to its level. -/
theorem OnTop.backstep (h : OnTop t u) (ht : t.WellFormed n) (hu : u.WellFormed n) :
    u.backstep t.level = .ok (t.withHead (min u.head t.steps.size)) := by
  rcases backstep_spec hu t.level with ⟨u', hok, hu', hback⟩
  have hsteps : u'.steps = t.steps := by
    refine Array.ext_getElem? fun i => Option.ext fun s => ?_
    rw [hback.getElem?_iff, h.getElem?_iff]
  have hlevel : u'.level = t.level := by
    rw [hback.level_eq]
    exact min_eq_left h.level_lt.le
  have hstarts : u'.levelStarts = t.levelStarts := by
    refine Array.ext_getElem? fun j => ?_
    by_cases hj : j < t.level
    · exact (hback.starts_eq j hj).trans (h.starts_eq j hj)
    · have hle : t.level ≤ j := Nat.le_of_not_lt hj
      rw [Array.getElem?_eq_none hle, Array.getElem?_eq_none (hlevel.le.trans hle)]
  rcases hu'.tables_eq ht.toRecorded hsteps with ⟨hvalues, horigins⟩
  have hhead := head_of_backstep hu.toRecorded hu.toLevelled h.level_lt hok
  rw [hok]
  rcases u' with ⟨steps, levelStarts, origins, values, head⟩
  dsimp only at hsteps hstarts hvalues horigins hhead
  rw [hhead, hsteps, hstarts, hvalues, horigins]
  rfl

/-- Whatever is done after a level was opened, without stepping back to the level below it, stepping
back to that level restores steps, level starts and tables exactly as they were. -/
theorem backstep_undoes (ops : List Operation) (ht : t.WellFormed n)
    (habove : ∀ op ∈ ops, op.StaysAbove t.level) (hops : AdmitsAll (.newLevel :: ops) t) :
    ∃ u, performAll (.newLevel :: ops) t = .ok u ∧
      u.backstep t.level = .ok (t.withHead (min u.head t.steps.size)) := by
  rcases (OnTop.opened ht.toLevelled).performAll ops t.newLevel ht.newLevel habove
      (hops.2 t.newLevel rfl) with
    ⟨u, hok, htop, hu⟩
  exact ⟨u, hok, htop.backstep ht hu⟩

/-- Two levels are opened above a decision, one of them is stepped back from, and the first two of
three steps are propagated. -/
theorem backstep_undoes_sample : ∃ t u : Trail, t.WellFormed 3 ∧ t.level = 1 ∧
    performAll [.newLevel, .push ⟨1, false⟩ .decision, .newLevel, .push ⟨2, true⟩ .decision,
      .backstep 2, .push ⟨2, false⟩ .flipped, .advance, .advance] t = .ok u ∧
    u.level = 2 ∧ u.steps.size = 3 ∧ u.backstep 1 = .ok (t.withHead 1) := by
  have ht : ((empty 3).newLevel.pushed ⟨0, true⟩ .decision).WellFormed 3 :=
    (wellFormed_empty 3).newLevel.pushed (by decide) (by simp [Free, empty])
  rcases backstep_undoes [.push ⟨1, false⟩ .decision, .newLevel, .push ⟨2, true⟩ .decision,
      .backstep 2, .push ⟨2, false⟩ .flipped, .advance, .advance] ht
      (by simp [Operation.StaysAbove, level, empty]) (by decide +kernel) with ⟨u, hok, hback⟩
  cases hok
  exact ⟨_, _, ht, rfl, rfl, rfl, rfl, hback⟩

end Trail
end SatSearch
