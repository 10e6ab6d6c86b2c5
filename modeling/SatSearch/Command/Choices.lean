import SatSearch.Search.Solver

/-!
# Choices — the values an option can take, by name
-/

namespace SatSearch
namespace Command

/-- The values of an option with their names, in the order they are listed. -/
structure Choices (α : Type) where
  named : List (String × α)
  standard : α

namespace Choices

variable {α : Type}

def names (c : Choices α) : List String :=
  c.named.map Prod.fst

/-- The value with this name. With `anyCase` ASCII letters are compared without case. -/
def find? (c : Choices α) (anyCase : Bool) (name : String) : Option α :=
  let fold := fun (s : String) => if anyCase then s.toList.map Char.toLower else s.toList
  (c.named.find? fun x => fold x.1 == fold name).map Prod.snd

/-- The name of a value. -/
def name? [BEq α] (c : Choices α) (value : α) : Option String :=
  (c.named.find? fun x => x.2 == value).map Prod.fst

end Choices

def searches : Choices SearchKind :=
  ⟨[("cdcl", .cdcl), ("dpll", .dpll)], .cdcl⟩

def propagators : Choices PropagatorKind :=
  ⟨[("watched-literals", .watch), ("unit-search", .scan)], .watch⟩

def branchings : Choices BranchingKind :=
  ⟨[("fixed-order", .fixedOrder), ("vsids", .activity)], .fixedOrder⟩

/-- The schedules of the command line have a unit of a hundred conflicts. -/
def schedules : Choices Schedule :=
  ⟨[("fixed", .fixed 100), ("linear", .linear 100), ("geometric", .geometric 100),
    ("luby", .luby 100), ("never", .never)], .fixed 100⟩

def analysers : Choices AnalyserKind :=
  ⟨[("first-uip", .firstUip), ("level-scan", .levelScan)], .firstUip⟩

def switches : Choices Bool :=
  ⟨[("true", true), ("false", false)], true⟩

end Command
end SatSearch
