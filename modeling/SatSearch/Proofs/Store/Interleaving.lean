import SatSearch.Proofs.Store.Vector

/-!
# Interleaving — given and learned clauses that come in any order

Whatever is asked of a formula, its vector holds the given clauses that were accepted and then the
ones that were learned, each in the order they came. A given clause is inserted between the two, and
a learned one is appended; a clause that is refused leaves everything as it was.
-/

namespace SatSearch

/-! ## Requests -/

namespace Formula

/-- What is asked of a formula: to add a clause, or to take in one that was learned. -/
inductive Request
  | add (ls : List Literal)
  | learn (c : Clause)
  deriving DecidableEq, Repr

/-- The clause that is given by the request, if all its literals are below `n`. -/
def Request.given? (n : Nat) : Request → Option Clause
  | .add ls => if ∀ l ∈ ls, l.var < n then some ⟨ls.eraseDups, false⟩ else none
  | .learn _ => none

/-- The clause that is learned by the request. -/
def Request.learned? : Request → Option Clause
  | .add _ => none
  | .learn c => some ⟨c.literals, true⟩

/-- Does what is asked, and tells the index of the clause or why it is refused. -/
def answer (f : Formula) : Request → Except FormulaError Nat × Formula
  | .add ls =>
    match f.add ls with
    | .error e => (.error e, f)
    | .ok (i, f') => (.ok i, f')
  | .learn c =>
    match f.learn c with
    | (i, f') => (.ok i, f')

/-- Does what is asked, in order. -/
def answerAll : List Request → Formula → Formula
  | [], f => f
  | r :: rs, f => answerAll rs (f.answer r).2

end Formula

namespace ClauseVector

/-- Does what is asked with the one vector. -/
def answer (v : ClauseVector) : Formula.Request → Except FormulaError Nat × ClauseVector
  | .add ls =>
    match v.add ls with
    | .error e => (.error e, v)
    | .ok (i, v') => (.ok i, v')
  | .learn c =>
    match v.learn c with
    | (i, v') => (.ok i, v')

def answerAll : List Formula.Request → ClauseVector → ClauseVector
  | [], v => v
  | r :: rs, v => answerAll rs (v.answer r).2

end ClauseVector

namespace Formula

variable {n : Nat} {f : Formula} {ls : List Literal} {c : Clause} {r : Request}

/-- The second list has the first occurrence of each literal of the first list, in their order: it
repeats none, and which literal is the first one of a kind is the same for both. -/
structure FirstOccurrences (ls ks : List Literal) : Prop where
  nodup : ks.Nodup
  find?_eq : ∀ ofKind : Literal → Bool, ks.find? ofKind = ls.find? ofKind

/-- How a formula over `n` variables answers a request, and what becomes of its vector. -/
inductive Answered (n : Nat) (f : Formula) : Request → Except FormulaError Nat × Formula → Prop
  | accepted {ls : List Literal} {f' : Formula} : (∀ l ∈ ls, l.var < n) →
      FirstOccurrences ls ls.eraseDups → f'.clause? f.vector.split = some ⟨ls.eraseDups, false⟩ →
      f'.vector = f.vector.insert ⟨ls.eraseDups, false⟩ →
      Answered n f (.add ls) (.ok f.vector.split, f')
  | refused {ls : List Literal} {l : Literal} : ls.find? (fun l => n ≤ l.var) = some l →
      Answered n f (.add ls) (.error (.literalOutOfRange l n), f)
  | learned {c : Clause} {f' : Formula} :
      f'.clause? f.vector.clauses.size = some ⟨c.literals, true⟩ →
      f'.vector = f.vector.append ⟨c.literals, true⟩ →
      Answered n f (.learn c) (.ok f.vector.clauses.size, f')

/-! ## One request -/

/-- A request is answered as the vector answers it. -/
theorem answer_vector (f : Formula) (r : Request) :
    f.vector.answer r = Prod.map id vector (f.answer r) := by
  cases r with
  | add ls =>
      rw [ClauseVector.answer, add_vector, answer]
      cases f.add ls <;> rfl
  | learn c =>
      rw [ClauseVector.answer, learn_vector]
      rfl

theorem clause?_extended_self :
    (f.extended ls).clause? f.vector.split = some ⟨ls.eraseDups, false⟩ := by
  rw [clause?_eq_vector, vector_extended]
  exact f.vector.getElem?_insert_self _

theorem firstOccurrences_eraseDups (ls : List Literal) : FirstOccurrences ls ls.eraseDups :=
  ⟨nodup_eraseDups ls, fun ofKind => find?_eraseDups ofKind ls⟩

theorem answer_add_of_inRange (h : ∀ l ∈ ls, l.var < f.numVars) :
    f.answer (.add ls) = (.ok f.given.size, f.extended ls) := by
  simp only [answer, f.add_inRange h]

theorem answer_add_of_outOfRange (h : ∃ l ∈ ls, f.numVars ≤ l.var) :
    ∃ l, ls.find? (fun l => f.numVars ≤ l.var) = some l ∧
      f.answer (.add ls) = (.error (.literalOutOfRange l f.numVars), f) := by
  rcases f.add_outOfRange h with ⟨l, hfind, hadd⟩
  exact ⟨l, hfind, by simp only [answer, hadd]⟩

theorem answer_learn : f.answer (.learn c) = (.ok f.vector.clauses.size, (f.learn c).2) := by
  have hindex : (f.learn c).1 = f.vector.clauses.size := by
    rw [fst_learn, ← toList_vector, Array.length_toList]
  rw [← hindex, answer]

/-- A list of literals is in range, or one of them is not. -/
theorem inRange_or_outOfRange (n : Nat) (ls : List Literal) :
    (∀ l ∈ ls, l.var < n) ∨ ∃ l ∈ ls, n ≤ l.var := by
  by_cases h : ∀ l ∈ ls, l.var < n
  · exact .inl h
  · exact .inr (by simpa using h)

/-- Every request is answered, from the store as it is then. -/
theorem answered (f : Formula) (r : Request) : Answered f.numVars f r (f.answer r) := by
  cases r with
  | add ls =>
      rcases inRange_or_outOfRange f.numVars ls with hrange | hrange
      · rw [answer_add_of_inRange hrange]
        exact .accepted hrange (firstOccurrences_eraseDups ls) clause?_extended_self
          (vector_extended f ls)
      · rcases answer_add_of_outOfRange hrange with ⟨l, hfind, hanswer⟩
        rw [hanswer]
        exact .refused hfind
  | learn c =>
      have hself := clause?_learn_self (f := f) (c := c)
      rw [← toList_vector, Array.length_toList] at hself
      rw [answer_learn]
      exact .learned hself (vector_learn f c)

/-- What a request gives and learns is all that is new on the two sides of the split. -/
theorem answer_snd (f : Formula) (r : Request) :
    (f.answer r).2.numVars = f.numVars ∧
      (f.answer r).2.vector.originals = f.vector.originals ++ (r.given? f.numVars).toList ∧
      (f.answer r).2.vector.learnts = f.vector.learnts ++ r.learned?.toList := by
  cases r with
  | add ls =>
      rcases inRange_or_outOfRange f.numVars ls with hrange | hrange
      · rw [answer_add_of_inRange hrange, Request.given?, if_pos hrange, vector_extended,
          (f.vector.sides_insert _).1, (f.vector.sides_insert _).2]
        simp [Request.learned?, Clause.given]
      · rcases answer_add_of_outOfRange hrange with ⟨l, _, hanswer⟩
        rw [hanswer, Request.given?, if_neg (by simpa using hrange)]
        simp [Request.learned?]
  | learn c =>
      rw [answer_learn, vector_learn, (f.vector.sides_append _).1, (f.vector.sides_append _).2]
      simp [Request.given?, Request.learned?, Clause.learned]

/-! ## Any number of requests -/

/-- What the requests give and learn, in order, is all that is new. -/
theorem answerAll_eq (rs : List Request) : ∀ f : Formula,
    (answerAll rs f).numVars = f.numVars ∧
      (answerAll rs f).vector.originals =
        f.vector.originals ++ rs.filterMap (·.given? f.numVars) ∧
      (answerAll rs f).vector.learnts = f.vector.learnts ++ rs.filterMap (·.learned?) := by
  induction rs with
  | nil =>
      intro f
      simp [answerAll]
  | cons r rs ih =>
      intro f
      rcases answer_snd f r with ⟨hvars, horiginals, hlearnts⟩
      rcases ih (f.answer r).2 with ⟨hvars', horiginals', hlearnts'⟩
      refine ⟨hvars'.trans hvars, ?_, ?_⟩
      · rw [answerAll, horiginals', horiginals, hvars, List.append_assoc]
        simp only [List.filterMap_eq_flatMap_toList, List.flatMap_cons]
      · rw [answerAll, hlearnts', hlearnts, List.append_assoc]
        simp only [List.filterMap_eq_flatMap_toList, List.flatMap_cons]

theorem Request.inRange_of_given? (h : r.given? n = some c) : ∀ l ∈ c.literals, l.var < n := by
  cases r with
  | learn c' => cases h
  | add ls =>
      simp only [given?] at h
      split at h
      · rename_i hrange
        cases h
        intro l hl
        exact hrange l (List.mem_eraseDups.1 hl)
      · cases h

/-- Requests are answered one after the other as the vector answers them. -/
theorem answerAll_vector (rs : List Request) : ∀ f : Formula,
    ClauseVector.answerAll rs f.vector = (answerAll rs f).vector := by
  induction rs with
  | nil =>
      intro f
      rfl
  | cons r rs ih =>
      intro f
      rw [ClauseVector.answerAll, answer_vector, answerAll, ← ih]
      rfl

/-- What is asked of a formula over `n` variables, and what its vector is then: the given clauses
that were accepted come first, and then the learned ones. Every further request is answered. -/
structure KeepsApart (n : Nat) (rs : List Request) (f : Formula) : Prop where
  numVars_eq : f.numVars = n
  /-- The vector is what inserting and appending make of the one without clauses. -/
  vector_eq : ∃ v, ClauseVector.empty n = .ok v ∧ f.vector = ClauseVector.answerAll rs v
  originals : f.vector.originals = rs.filterMap (·.given? n)
  learned : f.vector.learnts = rs.filterMap (·.learned?)
  inRange : ∀ c ∈ f.vector.originals, ∀ l ∈ c.literals, l.var < n
  answered : ∀ r, Answered n f r (f.answer r)
  answer_eq : ∀ r, f.vector.answer r = Prod.map id vector (f.answer r)

/-- However adding and learning alternate, and whatever is refused in between, the given and the
learned clauses are kept apart and in order in one vector, and each request is answered with the
index that its clause has by then. -/
theorem answerAll_keepsApart (h : Formula.empty n = .ok f) (rs : List Request) :
    KeepsApart n rs (answerAll rs f) := by
  have hvector : ClauseVector.empty n = .ok f.vector := by
    rw [empty_vector, h]
    rfl
  obtain rfl : f = ⟨n, #[], #[]⟩ := by
    unfold Formula.empty at h
    split at h
    · cases h
    · exact (Except.ok.inj h).symm
  rcases answerAll_eq rs ⟨n, #[], #[]⟩ with ⟨hvars, horiginals, hlearnts⟩
  -- On both sides of the split there was nothing before.
  have horiginals : (answerAll rs ⟨n, #[], #[]⟩).vector.originals =
      rs.filterMap (·.given? n) := horiginals
  refine ⟨hvars, ⟨_, hvector, (answerAll_vector rs _).symm⟩, horiginals, hlearnts, ?_,
    fun r => ?_, answer_vector _⟩
  · intro c hc
    rw [horiginals] at hc
    rcases List.mem_filterMap.1 hc with ⟨r, _, hr⟩
    exact Request.inRange_of_given? hr
  · have hanswered := answered (answerAll rs ⟨n, #[], #[]⟩) r
    rwa [hvars] at hanswered

/-- A clause is learned between two that are given, and one that is out of range is refused. -/
def Request.sample : List Request :=
  [.add [⟨0, true⟩, ⟨1, true⟩, ⟨0, true⟩], .learn ⟨[⟨0, false⟩], false⟩,
    .add [⟨1, true⟩, ⟨2, true⟩], .add [⟨1, false⟩]]

/-- The second given clause takes the place of the learned one, which moves up. -/
theorem answerAll_keepsApart_sample :
    ∃ f, Formula.empty 2 = .ok f ∧ KeepsApart 2 Request.sample (answerAll Request.sample f) ∧
      (answerAll Request.sample f).vector.clauses =
        #[⟨[⟨0, true⟩, ⟨1, true⟩], false⟩, ⟨[⟨1, false⟩], false⟩, ⟨[⟨0, false⟩], true⟩] ∧
      (answerAll Request.sample f).vector.split = 2 := by
  have hempty : Formula.empty 2 = .ok ⟨2, #[], #[]⟩ := rfl
  exact ⟨_, hempty, answerAll_keepsApart hempty _, by decide +kernel, by decide +kernel⟩

end Formula
end SatSearch
