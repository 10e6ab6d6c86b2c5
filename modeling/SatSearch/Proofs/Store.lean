import Mathlib.Data.List.Nodup
import SatSearch.Proofs.Valuation
import SatSearch.Dimacs.Document

/-!
# Store — the clauses of a formula as it grows

A clause is proper if no literal is repeated in it and all of them are in range, and a formula if
all its clauses are, learned ones included. Formulas that are built from numbers or from a document
are proper and hold no learned clause. Learning appends one clause to the list of all clauses, so
that what was addressed before keeps its index; adding appends one to the given clauses.
-/

namespace SatSearch

/-- No literal is repeated, and every one names one of the first `n` variables. -/
structure Clause.Proper (n : Nat) (c : Clause) : Prop where
  nodup : c.literals.Nodup
  inRange : ∀ l ∈ c.literals, l.var < n

namespace Formula

variable {f f' : Formula} {c clause : Clause} {i : Nat} {ls : List Literal} {v : Valuation}

/-- Every clause is proper. -/
def Proper (f : Formula) : Prop :=
  ∀ c ∈ f.clauses, c.Proper f.numVars

/-- Whatever was learned is entailed by the given clauses. -/
def Sound (f : Formula) : Prop :=
  ∀ c ∈ f.learnts, f.Entails c

/-! ## Looking up -/

theorem mem_clauses : c ∈ f.clauses ↔ c ∈ f.given ∨ c ∈ f.learnts := by
  simp [clauses]

theorem length_clauses : f.clauses.length = f.size := by
  simp [clauses, size]

theorem mem_of_clause? (h : f.clause? i = some c) : c ∈ f.clauses := by
  rw [clause?_eq_getElem?] at h
  exact List.mem_of_getElem? h

theorem clause?_lt (h : f.clause? i = some c) : i < f.clauses.length := by
  rw [clause?_eq_getElem?] at h
  exact (List.getElem?_eq_some_iff.1 h).1

theorem exists_clause?_of_mem (h : c ∈ f.clauses) : ∃ i, f.clause? i = some c := by
  rcases List.mem_iff_getElem?.1 h with ⟨i, hi⟩
  exact ⟨i, by rw [clause?_eq_getElem?, hi]⟩

theorem Sound.holds_clauses (h : f.Sound) (hv : f.Holds v) : ∀ c ∈ f.clauses, c.Holds v := by
  intro c hc
  rcases mem_clauses.1 hc with hc | hc
  · exact hv c hc
  · exact h c hc v hv

/-! ## Learning -/

@[simp] theorem numVars_learn : (f.learn c).2.numVars = f.numVars := rfl

@[simp] theorem given_learn : (f.learn c).2.given = f.given := rfl

@[simp] theorem size_learnts_learn : (f.learn c).2.learnts.size = f.learnts.size + 1 :=
  Array.size_push _

@[simp] theorem fst_learn : (f.learn c).1 = f.clauses.length := by
  simp [learn, clauses]

theorem clauses_learn : (f.learn c).2.clauses = f.clauses ++ [.learned c.literals] := by
  simp [learn, clauses]

/-- Learning keeps what every index stands for. -/
theorem clause?_learn (h : f.clause? i = some clause) :
    (f.learn c).2.clause? i = some clause := by
  have hi := clause?_lt h
  rw [clause?_eq_getElem?] at h ⊢
  rw [clauses_learn, List.getElem?_append_left hi, h]

theorem clause?_learn_self :
    (f.learn c).2.clause? f.clauses.length = some (.learned c.literals) := by
  rw [clause?_eq_getElem?, clauses_learn]
  simp

@[simp] theorem holds_learn : (f.learn c).2.Holds v ↔ f.Holds v := Iff.rfl

theorem Proper.learn (h : f.Proper) (hc : c.Proper f.numVars) : (f.learn c).2.Proper := by
  intro c' hc'
  rw [clauses_learn, List.mem_append, List.mem_singleton] at hc'
  rcases hc' with hc' | rfl
  · exact h c' hc'
  · exact ⟨hc.nodup, hc.inRange⟩

theorem Sound.learn (h : f.Sound) (hc : f.Entails c) : (f.learn c).2.Sound := by
  intro c' hc' v hv
  have hmem : c' ∈ f.learnts ∨ c' = .learned c.literals := by
    simpa [Formula.learn] using hc'
  rcases hmem with hmem | rfl
  · exact h c' hmem v hv
  · exact hc v hv

/-! ## Adding -/

/-- The formula with one more given clause. -/
def extended (f : Formula) (ls : List Literal) : Formula :=
  ⟨f.numVars, f.given.push (.given ls), f.learnts⟩

@[simp] theorem numVars_extended : (f.extended ls).numVars = f.numVars := rfl

@[simp] theorem learnts_extended : (f.extended ls).learnts = f.learnts := rfl

theorem mem_given_extended : c ∈ (f.extended ls).given ↔ c ∈ f.given ∨ c = .given ls := by
  simp [extended]

theorem mem_clauses_extended :
    c ∈ (f.extended ls).clauses ↔ c ∈ f.clauses ∨ c = .given ls := by
  simp only [mem_clauses, mem_given_extended, learnts_extended]
  tauto

/-- Without learned clauses the new clause comes last. -/
theorem clauses_extended (h : f.learnts = #[]) :
    (f.extended ls).clauses = f.clauses ++ [.given ls] := by
  simp [extended, clauses, h]

/-- The first literal that is out of range refuses a clause; otherwise it becomes the last given
one. -/
theorem add_eq (f : Formula) (ls : List Literal) :
    f.add ls = match (Clause.given ls).literals.find? fun l => f.numVars ≤ l.var with
      | some l => .error (.literalOutOfRange l f.numVars)
      | none => .ok (f.given.size, f.extended ls) :=
  rfl

theorem add_eq_ok (h : f.add ls = .ok (i, f')) :
    i = f.given.size ∧ f' = f.extended ls ∧
      ∀ l ∈ (Clause.given ls).literals, l.var < f.numVars := by
  rw [add_eq] at h
  split at h
  · cases h
  · rename_i hnone
    cases h
    refine ⟨rfl, rfl, ?_⟩
    intro l hl
    have := List.find?_eq_none.1 hnone l hl
    simpa using this

/-- Dropping repetitions goes on with what is left without the first literal. -/
theorem length_filter_lt (l : Literal) (ls : List Literal) :
    (ls.filter fun b => !b == l).length < (l :: ls).length :=
  Nat.lt_succ_of_le (List.length_filter_le _ ls)

/-- Dropping repetitions leaves none. -/
theorem nodup_eraseDups (ls : List Literal) : ls.eraseDups.Nodup := by
  match ls with
  | [] => exact List.nodup_nil
  | l :: ls =>
      rw [List.eraseDups_cons, List.nodup_cons]
      constructor
      · simp [List.mem_eraseDups]
      · exact nodup_eraseDups _
termination_by ls.length
decreasing_by exact length_filter_lt l ls

/-- Without repetitions there is nothing to drop. -/
theorem eraseDups_of_nodup {ls : List Literal} (h : ls.Nodup) : ls.eraseDups = ls := by
  induction ls with
  | nil => rfl
  | cons l ls ih =>
      rcases List.nodup_cons.1 h with ⟨hl, hls⟩
      have hkept : ls.filter (fun b => !b == l) = ls := by
        rw [List.filter_eq_self]
        intro b hb
        have hne : b ≠ l := fun hbl => hl (hbl ▸ hb)
        simpa using hne
      rw [List.eraseDups_cons, hkept, ih hls]

/-- Dropping repetitions keeps first occurrences, so it does not change which literal is the first
of its kind. -/
theorem find?_eraseDups (ofKind : Literal → Bool) (ls : List Literal) :
    ls.eraseDups.find? ofKind = ls.find? ofKind := by
  match ls with
  | [] => rfl
  | l :: ls =>
      rw [List.eraseDups_cons, List.find?_cons, List.find?_cons]
      cases hl : ofKind l with
      | true => rfl
      | false =>
          -- What is dropped is a repetition of a literal that is not of the kind.
          have hkept : ∀ l', decide ((!l' == l) = true ∧ ofKind l' = true) = ofKind l' := by
            intro l'
            by_cases heq : l' = l
            · simp [heq, hl]
            · simp [heq]
          dsimp only
          rw [find?_eraseDups, List.find?_filter]
          simp only [hkept]
termination_by ls.length
decreasing_by exact length_filter_lt l ls

/-- A clause is accepted if its literals are in range, repeated ones among them. -/
theorem add_inRange (f : Formula) (h : ∀ l ∈ ls, l.var < f.numVars) :
    f.add ls = .ok (f.given.size, f.extended ls) := by
  have hnone : ls.find? (fun l => f.numVars ≤ l.var) = none := by
    rw [List.find?_eq_none]
    intro l hl
    simpa using h l hl
  rw [add_eq, Clause.given, find?_eraseDups, hnone]

/-- A clause with a literal out of range is refused because of the first such literal, as the clause
was written. -/
theorem add_outOfRange (f : Formula) (h : ∃ l ∈ ls, f.numVars ≤ l.var) :
    ∃ l, ls.find? (fun l => f.numVars ≤ l.var) = some l ∧
      f.add ls = .error (.literalOutOfRange l f.numVars) := by
  have hsome : (ls.find? fun l => f.numVars ≤ l.var).isSome := by
    simpa [List.find?_isSome] using h
  rcases Option.isSome_iff_exists.1 hsome with ⟨l, hl⟩
  refine ⟨l, hl, ?_⟩
  rw [add_eq, Clause.given, find?_eraseDups, hl]

theorem Proper.extended (h : f.Proper)
    (hls : ∀ l ∈ (Clause.given ls).literals, l.var < f.numVars) : (f.extended ls).Proper := by
  intro c hc
  rcases mem_clauses_extended.1 hc with hc | rfl
  · exact h c hc
  · exact ⟨nodup_eraseDups ls, hls⟩

theorem holds_of_holds_extended (h : (f.extended ls).Holds v) : f.Holds v :=
  fun c hc => h c (mem_given_extended.2 (.inl hc))

theorem Sound.extended (h : f.Sound) : (f.extended ls).Sound :=
  fun c hc v hv => h c hc v (holds_of_holds_extended hv)

/-! ## Building -/

/-- The formulas a solver is built over: without clauses, from signed numbers or from a document,
and with clauses added. -/
inductive Built : Formula → Prop
  | empty {n : Nat} {f : Formula} : Formula.empty n = .ok f → Built f
  | ofSigned {clauses : List (List Int)} {f : Formula} :
      Formula.ofSigned clauses = .ok f → Built f
  | parsed {bytes : ByteArray} {f : Formula} : Dimacs.parse bytes = .ok f → Built f
  | added {f f' : Formula} {ls : List Literal} {i : Nat} :
      Built f → f.add ls = .ok (i, f') → Built f'

/-- What every clause keeps that is accepted, all of them keep. -/
theorem addAll_invariant {I : Formula → Prop}
    (hadd : ∀ {f f' : Formula} {ls i}, I f → f.add ls = .ok (i, f') → I f')
    (clauses : List (List Literal)) (hf : I f) (h : f.addAll clauses = .ok f') : I f' := by
  induction clauses generalizing f with
  | nil =>
      cases h
      exact hf
  | cons ls rest ih =>
      unfold Formula.addAll at h
      split at h
      · cases h
      · rename_i i f₁ hf₁
        exact ih (hadd hf hf₁) h

/-- However it was built, a formula has been empty and taken clauses in one by one. -/
theorem Built.invariant {I : Formula → Prop} (h : f.Built)
    (hempty : ∀ {n : Nat} {f : Formula}, Formula.empty n = .ok f → I f)
    (hadd : ∀ {f f' : Formula} {ls i}, I f → f.add ls = .ok (i, f') → I f') : I f := by
  induction h with
  | empty hok => exact hempty hok
  | ofSigned hsigned =>
      unfold Formula.ofSigned at hsigned
      simp only [bind, Except.bind] at hsigned
      split at hsigned
      · cases hsigned
      · split at hsigned
        · cases hsigned
        · rename_i g hg
          exact addAll_invariant hadd _ (hempty hg) hsigned
  | parsed hparse =>
      -- A document that is read becomes a formula as a list of clauses does.
      unfold Dimacs.parse at hparse
      simp only [bind, Except.bind] at hparse
      split at hparse
      · cases hparse
      · rename_i document _
        split at hparse
        · rename_i g hg
          cases hparse
          unfold Dimacs.Document.formula at hg
          simp only [bind, Except.bind] at hg
          split at hg
          · cases hg
          · rename_i g hok
            exact addAll_invariant hadd _ (hempty hok) hg
        · cases hparse
  | added _ hok ih => exact hadd ih hok

/-- Proper, and nothing was learned yet. -/
structure Pristine (f : Formula) : Prop where
  proper : f.Proper
  learnts_eq : f.learnts = #[]

theorem Pristine.empty {n : Nat} (h : Formula.empty n = .ok f) : f.Pristine := by
  unfold Formula.empty at h
  split at h
  · cases h
  · cases h
    refine ⟨?_, rfl⟩
    intro c hc
    simp [clauses] at hc

theorem Pristine.add (h : f.Pristine) (hadd : f.add ls = .ok (i, f')) : f'.Pristine := by
  rcases add_eq_ok hadd with ⟨_, rfl, hls⟩
  exact ⟨h.proper.extended hls, h.learnts_eq⟩

theorem Pristine.sound (h : f.Pristine) : f.Sound := by
  intro c hc
  simp [h.learnts_eq] at hc

/-- What is built is proper and holds no learned clause. -/
theorem Built.pristine (h : f.Built) : f.Pristine :=
  h.invariant .empty .add

/-- Two clauses over three variables: the first variable or the second one, and not the first one
or the third one. -/
def sample : Formula :=
  ⟨3, #[⟨[⟨0, true⟩, ⟨1, true⟩], false⟩, ⟨[⟨0, false⟩, ⟨2, true⟩], false⟩], #[]⟩

theorem built_sample : sample.Built :=
  .ofSigned (show Formula.ofSigned [[1, 2], [-1, 3]] = .ok sample by rfl)

/-- Two clauses over two variables that refute the first one: not the first variable or the second
one, and not both of them. -/
def refuting : Formula :=
  ⟨2, #[⟨[⟨0, false⟩, ⟨1, true⟩], false⟩, ⟨[⟨0, false⟩, ⟨1, false⟩], false⟩], #[]⟩

theorem built_refuting : refuting.Built :=
  .ofSigned (show Formula.ofSigned [[-1, 2], [-1, -2]] = .ok refuting by rfl)

/-- Two clauses refute the first of four variables, and the third one implies the fourth one. -/
def staged : Formula :=
  ⟨4, #[⟨[⟨0, false⟩, ⟨1, true⟩], false⟩, ⟨[⟨0, false⟩, ⟨1, false⟩], false⟩,
    ⟨[⟨2, false⟩, ⟨3, true⟩], false⟩], #[]⟩

theorem built_staged : staged.Built :=
  .ofSigned (show Formula.ofSigned [[-1, 2], [-1, -2], [-3, 4]] = .ok staged by rfl)

/-- With one more clause the third variable is refuted as well. That the first one is has been
learned before. -/
def revised : Formula :=
  ⟨4, staged.given.push ⟨[⟨2, false⟩, ⟨3, false⟩], false⟩, #[⟨[⟨0, false⟩], true⟩]⟩

/-- The four clauses over two variables, which no values satisfy together. -/
def contradictory : Formula :=
  ⟨2, #[⟨[⟨0, true⟩, ⟨1, true⟩], false⟩, ⟨[⟨0, true⟩, ⟨1, false⟩], false⟩,
    ⟨[⟨0, false⟩, ⟨1, true⟩], false⟩, ⟨[⟨0, false⟩, ⟨1, false⟩], false⟩], #[]⟩

theorem built_contradictory : contradictory.Built :=
  .ofSigned (show Formula.ofSigned [[1, 2], [1, -2], [-1, 2], [-1, -2]] = .ok contradictory by rfl)

end Formula
end SatSearch
