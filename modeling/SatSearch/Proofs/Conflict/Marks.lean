import SatSearch.Proofs.Conflict.Resolution

/-!
# Marks — none is left by an analysis, and more of them make no difference

Every variable that a resolution marks is listed at once, so taking the marks of the listed ones
away takes all of them away, whatever the trail and wherever the resolution stops. Marks that are
there for more variables than the formula has are never looked at: a resolution goes with them as it
goes without, and stops with the same fault if it stops with one.
-/

namespace SatSearch

open Trail

namespace FirstUip

variable {n d index : Nat} {f : Formula} {t : Trail} {a a' : FirstUip} {r r' : Resolution}
variable {pivot : Option Nat}

/-! ## Without marks -/

/-- No variable is marked. -/
def Unmarked (a : FirstUip) : Prop :=
  ∀ v : Nat, a.seen[v]? ≠ some true

theorem unmarked_empty (n : Nat) : (empty n).Unmarked := by
  intro v hv
  rw [empty, Array.getElem?_replicate] at hv
  split at hv <;> cases hv

theorem Unmarked.grow (h : a.Unmarked) (n : Nat) : (a.grow n).Unmarked := by
  intro v hv
  rw [FirstUip.grow, Array.getElem?_append, Array.getElem?_replicate] at hv
  split at hv
  · exact h v hv
  · split at hv <;> cases hv

theorem size_grow (a : FirstUip) (n : Nat) : n ≤ (a.grow n).seen.size := by
  simp only [FirstUip.grow, Array.size_append, Array.size_replicate]
  omega

/-- Only variables that are not listed stay marked. -/
theorem getElem?_unmark {vs : List Nat} {v : Nat} : ∀ {seen : Array Bool},
    (unmark seen vs)[v]? = some true → seen[v]? = some true ∧ v ∉ vs := by
  induction vs with
  | nil =>
      intro seen h
      exact ⟨h, by simp⟩
  | cons w vs ih =>
      intro seen h
      rcases ih h with ⟨hv, hnot⟩
      rw [Array.getElem?_setIfInBounds] at hv
      split at hv
      · split at hv <;> cases hv
      · rename_i hne
        exact ⟨hv, by simp [hnot, Ne.symm hne]⟩

/-! ## What meeting a literal does -/

/-- A literal that is met is passed over, or its variable is marked and listed. -/
inductive Took (l : Literal) (r : Resolution) : Resolution → Prop
  | passed : Took l r r
  | marked {lower : Array Literal} {pending : Nat} : r.seen[l.var]? = some false →
      Took l r ⟨r.seen.setIfInBounds l.var true, r.met.push l.var, lower, pending⟩

theorem exists_of_meet_cons {l : Literal} {ls : List Literal}
    (h : meet t d pivot (l :: ls) r = .ok r') :
    ∃ r₁, Took l r r₁ ∧ meet t d pivot ls r₁ = .ok r' := by
  rcases r with ⟨seen, met, lower, pending⟩
  unfold meet at h
  split at h
  · exact ⟨_, .passed, h⟩
  · split at h
    · cases h
    · exact ⟨_, .passed, h⟩
    · rename_i hseen
      split at h
      · cases h
      · exact ⟨_, .passed, h⟩
      · dsimp only at h
        split at h
        · exact ⟨_, .marked hseen, h⟩
        · exact ⟨_, .marked hseen, h⟩

/-- What every literal preserves, a clause preserves. -/
theorem meet_invariant {I : Resolution → Prop} (hstep : ∀ l r r', I r → Took l r r' → I r')
    (ls : List Literal) : ∀ r : Resolution, I r → meet t d pivot ls r = .ok r' → I r' := by
  induction ls with
  | nil =>
      intro r hr h
      cases h
      exact hr
  | cons l ls ih =>
      intro r hr h
      rcases exists_of_meet_cons h with ⟨r₁, htook, h₁⟩
      exact ih r₁ (hstep l r r₁ hr htook) h₁

/-- Marks are set, but there are as many as before. -/
theorem size_seen_of_meet {ls : List Literal} (h : meet t d pivot ls r = .ok r') :
    r'.seen.size = r.seen.size := by
  refine meet_invariant (I := fun x => x.seen.size = r.seen.size) ?_ ls r rfl h
  rintro l r₁ r₂ hsize (_ | _)
  · exact hsize
  · simpa using hsize

/-! ## Every mark is listed -/

/-- Every variable that is marked is listed. -/
def Lists (met : Array Nat) (seen : Array Bool) : Prop :=
  ∀ v : Nat, seen[v]? = some true → v ∈ met

theorem Unmarked.lists (h : a.Unmarked) : Lists #[] a.seen :=
  fun v hv => absurd hv (h v)

theorem lists_of_meet {ls : List Literal} (h : meet t d pivot ls r = .ok r')
    (hr : Lists r.met r.seen) : Lists r'.met r'.seen := by
  refine meet_invariant (I := fun x => Lists x.met x.seen) ?_ ls r hr h
  rintro l r₁ r₂ hlists (_ | hseen)
  · exact hlists
  · intro v hv
    rcases (getElem?_mark hseen).1 hv with hv | rfl
    · exact Array.mem_push.2 (.inl (hlists v hv))
    · exact Array.mem_push_self

theorem lists_of_walk {point : Literal} (position : Nat) : ∀ r : Resolution,
    walk f t d position r = .ok (point, r') → Lists r.met r.seen → Lists r'.met r'.seen := by
  induction position with
  | zero =>
      intro r h _
      cases h
  | succ position ih =>
      rintro ⟨seen, met, lower, pending⟩ h hr
      unfold walk at h
      split at h
      · cases h
      · split at h
        · cases h
        · exact ih _ h hr
        · split at h
          · cases h
          · cases h
            exact hr
          · split at h
            · cases h
              exact hr
            · cases h
              exact hr
            · split at h
              · cases h
              · split at h
                · cases h
                · rename_i r₁ hmeet
                  exact ih r₁ h (lists_of_meet hmeet hr)

/-- Whatever is analysed, no mark is left. -/
theorem Unmarked.analyse {analysis : Analysis} {vars : List Nat} (ha : a.Unmarked)
    (h : a.analyse f t index = .ok (analysis, vars, a')) : a'.Unmarked := by
  have hgrow := ha.grow f.numVars
  simp only [FirstUip.analyse] at h
  split at h
  · cases h
  · split at h
    · cases h
    · cases h
      exact hgrow
    · split at h
      · cases h
      · rename_i r hmeet
        split at h
        · cases h
        · rename_i hwalk
          split at h
          · cases h
          · cases h
            have hlists := lists_of_walk _ r hwalk (lists_of_meet hmeet hgrow.lists)
            intro v hv
            rcases getElem?_unmark hv with ⟨hseen, hnot⟩
            exact hnot (Array.mem_toList_iff.2 (hlists v hseen))

/-! ## More marks than variables -/

/-- The same resolution with `k` more marks, none of them set. -/
def Resolution.pad (k : Nat) (r : Resolution) : Resolution :=
  ⟨r.seen ++ Array.replicate k false, r.met, r.lower, r.pending⟩

/-- A variable beyond the marks has no origin, so it makes no difference that it could be marked. -/
theorem meet_pad (k : Nat) (pivot : Option Nat) (ls : List Literal) : ∀ r : Resolution,
    t.origins.size ≤ r.seen.size →
    meet t d pivot ls (r.pad k) = (meet t d pivot ls r).map (·.pad k) := by
  induction ls with
  | nil =>
      intro r _
      rfl
  | cons l ls ih =>
      rintro ⟨seen, met, lower, pending⟩ hsize
      dsimp only at hsize
      have hskip := ih ⟨seen, met, lower, pending⟩ hsize
      have hmark := fun met lower pending =>
        ih ⟨seen.setIfInBounds l.var true, met, lower, pending⟩ (by simpa using hsize)
      simp only [Resolution.pad] at hskip hmark ⊢
      unfold meet
      by_cases hpivot : pivot = some l.var
      · simpa only [if_pos hpivot] using hskip
      simp only [if_neg hpivot]
      by_cases hv : l.var < seen.size
      · rw [Array.getElem?_append_left hv, Array.setIfInBounds_append_left hv]
        split
        · rfl
        · exact hskip
        · split
          · rfl
          · exact hskip
          · split
            · exact hmark _ _ _
            · exact hmark _ _ _
      · have hlevel : t.levelOf l.var = .error (.noVariable l.var) := by
          have horigin : t.origins[l.var]? = none := Array.getElem?_eq_none (by omega)
          simp only [levelOf, horigin]
        rw [Array.getElem?_eq_none (show seen.size ≤ l.var by omega), hlevel,
          Array.getElem?_append_right (by omega), Array.getElem?_replicate]
        by_cases hk : l.var - seen.size < k
        · simp only [if_pos hk]
          rfl
        · simp only [if_neg hk]
          rfl

/-- Every step has a mark of its own, so no other mark is looked at. -/
theorem walk_pad (k : Nat) (ht : t.Recorded n) (position : Nat) : ∀ r : Resolution,
    n ≤ r.seen.size → walk f t d position (r.pad k) =
      (walk f t d position r).map fun x => (x.1, x.2.pad k) := by
  induction position with
  | zero =>
      intro r _
      rfl
  | succ position ih =>
      rintro ⟨seen, met, lower, pending⟩ hsize
      dsimp only at hsize
      have hpass := ih ⟨seen, met, lower, pending⟩ hsize
      simp only [Resolution.pad] at hpass ⊢
      unfold walk
      cases hs : t.steps[position]? with
      | none => rfl
      | some s =>
          have hv := (ht.var_lt (Array.mem_of_getElem? hs)).trans_le hsize
          dsimp only
          rw [Array.getElem?_append_left hv]
          cases hseen : seen[s.literal.var]? with
          | none => rfl
          | some marked =>
              cases marked with
              | false => exact hpass
              | true =>
                  dsimp only
                  split
                  · rfl
                  · rfl
                  · rename_i pending _
                    cases s.reason with
                    | decision => rfl
                    | flipped => rfl
                    | clause index =>
                        dsimp only
                        cases f.clause? index with
                        | none => rfl
                        | some c =>
                            have hmeet := meet_pad (t := t) (d := d) k (some s.literal.var)
                              c.literals ⟨seen, met, lower, pending⟩
                              (ht.origins_size.trans_le hsize)
                            simp only [Resolution.pad] at hmeet
                            dsimp only
                            rw [hmeet]
                            cases hmet : meet t d (some s.literal.var) c.literals
                                ⟨seen, met, lower, pending⟩ with
                            | error e => rfl
                            | ok r => exact ih r (hsize.trans_eq (size_seen_of_meet hmet).symm)

/-! ## One conflict -/

/-- A conflict to be analysed: on the clause of this index, under this trail. -/
structure Conflict where
  formula : Formula
  trail : Trail
  index : Nat
  deriving DecidableEq, Repr

/-- What is learned from a conflict, and the variables to reward. -/
def answer (a : FirstUip) (x : Conflict) : Except Fault (Analysis × List Nat) :=
  (a.analyse x.formula x.trail x.index).map fun result => (result.1, result.2.1)

/-- An analyser without marks is one that was built for some number of variables. -/
theorem Unmarked.eq_empty (h : a.Unmarked) : a = empty a.seen.size := by
  rcases a with ⟨seen⟩
  rw [empty, FirstUip.mk.injEq]
  refine Array.ext (by simp) fun v hv _ => ?_
  have hnot : seen[v] ≠ true := fun htrue => h v (by simp [Array.getElem?_eq_getElem hv, htrue])
  simpa using hnot

theorem grow_empty (m n : Nat) : ∃ k, ((empty m).grow n).seen =
    (empty n).seen ++ Array.replicate k false := by
  refine ⟨m - n, ?_⟩
  simp only [FirstUip.grow, empty, Array.size_replicate, Array.replicate_append_replicate]
  congr 1
  omega

/-- Marks beyond the variables of the formula make no difference. -/
theorem answer_empty {x : Conflict} (m : Nat) (hx : x.trail.Recorded x.formula.numVars) :
    (empty m).answer x = (empty x.formula.numVars).answer x := by
  rcases x with ⟨f, t, index⟩
  dsimp only at hx ⊢
  rcases grow_empty m f.numVars with ⟨k, hk⟩
  have hself : (empty f.numVars).grow f.numVars = empty f.numVars := by
    simp [FirstUip.grow, empty]
  simp only [answer, analyse, hself, hk]
  cases f.clause? index with
  | none => rfl
  | some c =>
      simp only
      cases deepestLevel t c.literals with
      | error e => rfl
      | ok level =>
          cases level with
          | zero => rfl
          | succ level =>
              have hmeet := meet_pad (t := t) (d := level + 1) k none c.literals
                ⟨(empty f.numVars).seen, #[], #[], 0⟩
                (by simp [empty, hx.origins_size])
              simp only [Resolution.pad] at hmeet
              simp only
              rw [hmeet]
              cases hmet : meet t (level + 1) none c.literals
                  ⟨(empty f.numVars).seen, #[], #[], 0⟩ with
              | error e => rfl
              | ok r =>
                  have hsize : f.numVars ≤ r.seen.size := by
                    rw [size_seen_of_meet hmet]
                    simp [empty]
                  have hwalk := walk_pad (f := f) (d := level + 1) k hx t.length r hsize
                  simp only [Resolution.pad] at hwalk
                  simp only [Except.map] at hwalk ⊢
                  rw [hwalk]
                  cases walk f t (level + 1) t.length r with
                  | error e => rfl
                  | ok x =>
                      rcases x with ⟨point, ⟨seen, met, lower, pending⟩⟩
                      dsimp only
                      cases clauseOf t point lower with
                      | error e => rfl
                      | ok learned => rfl

end FirstUip
end SatSearch
