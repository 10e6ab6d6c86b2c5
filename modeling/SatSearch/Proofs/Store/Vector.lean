import SatSearch.Proofs.Store

/-!
# Vector — all clauses in one vector that an index splits

A formula keeps given and learned clauses in two arrays. Both are read here as one vector with the
index where the learned clauses start. A given clause is inserted at that index, which goes up by
one, and a learned clause is appended. Whatever is done to a formula is done to its vector, with the
same answers, and clauses are addressed by their positions in it.
-/

namespace SatSearch

/-- All clauses in one vector. Those in front of the split are given, the others are learned. -/
@[ext]
structure ClauseVector where
  numVars : Nat
  clauses : Array Clause
  split : Nat
  split_le : split ≤ clauses.size
  deriving DecidableEq, Repr

namespace ClauseVector

/-! ## Inserting and appending -/

/-- The vector without clauses. -/
def empty (numVars : Nat) : Except FormulaError ClauseVector :=
  if Formula.maxVars < numVars then .error (.tooManyVariables numVars)
  else .ok ⟨numVars, #[], 0, Nat.le_refl 0⟩

/-- The clause goes where the learned ones start, and all of these move up by one. -/
def insert (v : ClauseVector) (c : Clause) : ClauseVector :=
  ⟨v.numVars, v.clauses.insertIdx v.split c v.split_le, v.split + 1, by
    rw [Array.size_insertIdx]
    exact Nat.succ_le_succ v.split_le⟩

/-- The clause comes last. -/
def append (v : ClauseVector) (c : Clause) : ClauseVector :=
  ⟨v.numVars, v.clauses.push c, v.split, by
    rw [Array.size_push]
    exact Nat.le_succ_of_le v.split_le⟩

/-- Adds a given clause and tells its index. The first literal that is out of range refuses it. -/
def add (v : ClauseVector) (ls : List Literal) : Except FormulaError (Nat × ClauseVector) :=
  let clause := Clause.given ls
  match clause.literals.find? fun l => v.numVars ≤ l.var with
  | some l => .error (.literalOutOfRange l v.numVars)
  | none => .ok (v.split, v.insert clause)

/-- Adds a learned clause and tells its index. -/
def learn (v : ClauseVector) (c : Clause) : Nat × ClauseVector :=
  (v.clauses.size, v.append (.learned c.literals))

theorem getElem?_insert_self (v : ClauseVector) (c : Clause) :
    (v.insert c).clauses[v.split]? = some c := by
  rw [insert, Array.getElem?_insertIdx, if_neg (Nat.lt_irrefl _), if_pos rfl, if_pos v.split_le]

theorem add_eq_ok {v v' : ClauseVector} {ls : List Literal} {i : Nat}
    (h : v.add ls = .ok (i, v')) :
    i = v.split ∧ v' = v.insert (.given ls) ∧
      ∀ l ∈ (Clause.given ls).literals, l.var < v.numVars := by
  dsimp only [add] at h
  split at h
  · cases h
  · rename_i hnone
    cases h
    refine ⟨rfl, rfl, ?_⟩
    intro l hl
    simpa using List.find?_eq_none.1 hnone l hl

theorem learn_eq {v v' : ClauseVector} {c : Clause} {i : Nat} (h : v.learn c = (i, v')) :
    i = v.clauses.size ∧ v' = v.append (.learned c.literals) := by
  cases h
  exact ⟨rfl, rfl⟩

/-! ## The two sides of the split -/

def originals (v : ClauseVector) : List Clause :=
  v.clauses.toList.take v.split

def learnts (v : ClauseVector) : List Clause :=
  v.clauses.toList.drop v.split

theorem originals_append_learnts (v : ClauseVector) :
    v.originals ++ v.learnts = v.clauses.toList :=
  List.take_append_drop _ _

theorem length_originals (v : ClauseVector) : v.originals.length = v.split := by
  rw [originals, List.length_take, Array.length_toList, Nat.min_eq_left v.split_le]

/-- What is inserted where a list ends goes between that list and the rest. -/
theorem insertIdx_length_append {α : Type} (as bs : List α) (b : α) :
    (as ++ bs).insertIdx as.length b = as ++ b :: bs := by
  induction as with
  | nil => exact List.insertIdx_zero
  | cons a as ih => rw [List.cons_append, List.length_cons, List.insertIdx_succ_cons, ih]; rfl

theorem toList_insert (v : ClauseVector) (c : Clause) :
    (v.insert c).clauses.toList = v.originals ++ c :: v.learnts := by
  have hinsert := insertIdx_length_append v.originals v.learnts c
  rw [originals_append_learnts, length_originals] at hinsert
  rw [insert, Array.toList_insertIdx, hinsert]

theorem toList_append (v : ClauseVector) (c : Clause) :
    (v.append c).clauses.toList = v.originals ++ (v.learnts ++ [c]) := by
  rw [append, Array.toList_push, ← originals_append_learnts, List.append_assoc]

/-- What lies on the two sides, if the clauses are told apart where they are split. -/
theorem sides_eq {v : ClauseVector} {given learned : List Clause}
    (h : v.clauses.toList = given ++ learned) (hsplit : v.split = given.length) :
    v.originals = given ∧ v.learnts = learned := by
  rw [originals, learnts, h, hsplit]
  exact ⟨List.take_left, List.drop_left⟩

theorem sides_insert (v : ClauseVector) (c : Clause) :
    (v.insert c).originals = v.originals ++ [c] ∧ (v.insert c).learnts = v.learnts := by
  refine sides_eq ?_ ?_
  · rw [toList_insert, List.append_assoc, List.singleton_append]
  · rw [List.length_append, length_originals]
    rfl

theorem sides_append (v : ClauseVector) (c : Clause) :
    (v.append c).originals = v.originals ∧ (v.append c).learnts = v.learnts ++ [c] :=
  sides_eq (v.toList_append c) v.length_originals.symm

end ClauseVector

/-! ## The vector of a formula -/

namespace Formula

variable {n i : Nat} {f f' : Formula} {ls : List Literal} {c : Clause}

/-- The given clauses and then the learned ones, split between the two. -/
def vector (f : Formula) : ClauseVector :=
  ⟨f.numVars, f.given ++ f.learnts, f.given.size, by
    rw [Array.size_append]
    exact Nat.le_add_right _ _⟩

theorem toList_vector (f : Formula) : f.vector.clauses.toList = f.clauses :=
  Array.toList_append

theorem sides_vector (f : Formula) :
    f.vector.originals = f.given.toList ∧ f.vector.learnts = f.learnts.toList :=
  ClauseVector.sides_eq f.toList_vector Array.length_toList.symm

/-- A formula is told by its vector. -/
theorem vector_injective (h : f.vector = f'.vector) : f = f' := by
  have hgiven : f.given.toList = f'.given.toList := by
    rw [← f.sides_vector.1, h, f'.sides_vector.1]
  have hlearnts : f.learnts.toList = f'.learnts.toList := by
    rw [← f.sides_vector.2, h, f'.sides_vector.2]
  have hvars : f.numVars = f'.numVars := congrArg ClauseVector.numVars h
  rcases f with ⟨numVars, given, learnts⟩
  rcases f' with ⟨numVars', given', learnts'⟩
  rw [Formula.mk.injEq]
  exact ⟨hvars, Array.toList_inj.1 hgiven, Array.toList_inj.1 hlearnts⟩

/-- A clause is addressed by its position in the vector. -/
theorem clause?_eq_vector (f : Formula) (i : Nat) : f.clause? i = f.vector.clauses[i]? := by
  rw [clause?_eq_getElem?, ← toList_vector, Array.getElem?_toList]

/-! ## Every operation is that of the vector -/

theorem empty_vector (n : Nat) : ClauseVector.empty n = (Formula.empty n).map vector := by
  rw [ClauseVector.empty, Formula.empty]
  split <;> rfl

/-- One more given clause is inserted. -/
theorem vector_extended (f : Formula) (ls : List Literal) :
    (f.extended ls).vector = f.vector.insert (.given ls) := by
  have hclauses : (f.extended ls).vector.clauses = (f.vector.insert (.given ls)).clauses := by
    refine Array.toList_inj.1 ?_
    rw [toList_vector, ClauseVector.toList_insert, f.sides_vector.1, f.sides_vector.2]
    simp [clauses, extended]
  have hsplit : (f.extended ls).vector.split = (f.vector.insert (.given ls)).split :=
    Array.size_push _
  exact ClauseVector.ext rfl hclauses hsplit

/-- One more learned clause is appended. -/
theorem vector_learn (f : Formula) (c : Clause) :
    (f.learn c).2.vector = f.vector.append (.learned c.literals) := by
  have hclauses :
      (f.learn c).2.vector.clauses = (f.vector.append (.learned c.literals)).clauses := by
    refine Array.toList_inj.1 ?_
    rw [toList_vector, clauses_learn, ← toList_vector, ClauseVector.append, Array.toList_push]
  exact ClauseVector.ext rfl hclauses rfl

theorem add_vector (f : Formula) (ls : List Literal) :
    f.vector.add ls = (f.add ls).map (Prod.map id vector) := by
  -- Both look for a literal out of range in the same list.
  have hadd : f.vector.add ls =
      match (Clause.given ls).literals.find? fun l => f.numVars ≤ l.var with
      | some l => .error (.literalOutOfRange l f.numVars)
      | none => .ok (f.given.size, f.vector.insert (.given ls)) := rfl
  rw [hadd, add_eq]
  cases (Clause.given ls).literals.find? fun l => f.numVars ≤ l.var with
  | some l => rfl
  | none =>
      rw [← vector_extended]
      rfl

theorem learn_vector (f : Formula) (c : Clause) :
    f.vector.learn c = Prod.map id vector (f.learn c) := by
  refine Prod.ext ?_ (f.vector_learn c).symm
  exact Array.size_append

theorem add_vector_of_ok (h : f.add ls = .ok (i, f')) : f.vector.add ls = .ok (i, f'.vector) := by
  rw [add_vector, h]
  rfl

/-- What an operation makes of the vector determines what becomes of the formula. -/
theorem eq_extended_of_vector (h : f.vector.add ls = .ok (i, f'.vector)) : f' = f.extended ls := by
  rcases ClauseVector.add_eq_ok h with ⟨_, hvector, _⟩
  rw [← vector_extended] at hvector
  exact vector_injective hvector

theorem eq_learn_of_vector (h : f.vector.learn c = (i, f'.vector)) : f' = (f.learn c).2 := by
  rw [learn_vector] at h
  exact (vector_injective (congrArg Prod.snd h)).symm

end Formula
end SatSearch
