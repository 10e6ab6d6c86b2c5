import SatSearch.Trail

/-!
# Outcome — what unit propagation ends in
-/

namespace SatSearch

/-- Propagation assigns literals until no clause asks for another one, or a clause fails. -/
inductive Outcome
  | fixpoint
  /-- Every literal of this clause is false. -/
  | conflict (clause : Nat)
  deriving DecidableEq, Repr

end SatSearch
