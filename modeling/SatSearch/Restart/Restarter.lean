import SatSearch.Restart.Luby

/-!
# Restarter — when to give up the current assignment and start over

A schedule is a sequence of intervals. Conflicts are counted down through the current interval;
once it has elapsed a restart is due, and stays due until the restart is made, which begins the
next interval. Interval lengths stop growing at a ceiling, if there is one, and the unit of a
schedule is at least one.
-/

namespace SatSearch

inductive Schedule
  /-- The same interval over and over. -/
  | fixed (unit : Nat)
  /-- One unit more each time. -/
  | linear (unit : Nat)
  /-- Twice as long each time. -/
  | geometric (unit : Nat)
  /-- A term of the Luby sequence times the unit. -/
  | luby (unit : Nat)
  | never
  deriving DecidableEq, Repr

structure Restarter where
  schedule : Schedule
  /-- Growing intervals do not get longer than this. -/
  ceiling : Option Nat
  /-- The length of the current interval. -/
  interval : Nat
  /-- The number of the current interval, counted from one. -/
  term : Nat
  /-- Conflicts left in the current interval. -/
  left : Nat
  /-- Restarts made so far. -/
  restarts : Nat
  deriving DecidableEq, Repr

namespace Restarter

/-- The length of the first interval. A schedule without restarts shows the ceiling. -/
def firstInterval (ceiling : Option Nat) : Schedule → Nat
  | .fixed unit => max unit 1
  | .linear unit => max unit 1
  | .geometric unit => max unit 1
  | .luby unit => max unit 1
  | .never => ceiling.getD 0

/-- Before the first conflict. -/
def fresh (ceiling : Option Nat) (schedule : Schedule) : Restarter :=
  ⟨schedule, ceiling, firstInterval ceiling schedule, 1, firstInterval ceiling schedule, 0⟩

/-- Before the first conflict, with intervals up to the largest 64-bit number. -/
def start (schedule : Schedule) : Restarter :=
  fresh (some 18446744073709551615) schedule

/-- Counts one conflict. -/
def tick (r : Restarter) : Restarter :=
  match r.schedule with
  | .never => r
  | _ => { r with left := r.left - 1 }

/-- Whether the current interval has elapsed. -/
def isDue (r : Restarter) : Bool :=
  match r.schedule with
  | .never => false
  | _ => r.left == 0

/-- The length, or the ceiling if that is shorter. -/
def capped (r : Restarter) (length : Nat) : Nat :=
  match r.ceiling with
  | none => length
  | some ceiling => min length ceiling

/-- Counts a restart and begins an interval. -/
def beginInterval (r : Restarter) (interval : Nat) : Restarter :=
  { r with interval, term := r.term + 1, left := interval, restarts := r.restarts + 1 }

def restart (r : Restarter) : Restarter :=
  match r.schedule with
  | .fixed unit => r.beginInterval (max unit 1)
  | .linear unit => r.beginInterval (r.capped (r.interval + max unit 1))
  | .geometric _ => r.beginInterval (r.capped (2 * r.interval))
  | .luby unit => r.beginInterval (r.capped (SatSearch.luby (r.term + 1) * max unit 1))
  | .never => r

end Restarter
end SatSearch
