import SatSearch.Branching.Selector

/-!
# Activity — branching on the variable that met most conflicts lately

Every variable has a score, a double. A reward adds the current increment to a score, and ageing
divides the increment by the decay instead of shrinking all scores. Once a score or the increment
passes a limit, all of them are scaled down together. The variable with the highest score is
picked, the lowest one of several that are equal.
-/

namespace SatSearch

/-- Orders doubles: by value, the two zeros equal, and everything that is not a number equal and
above all numbers. -/
def scoreKey (x : Float) : Int :=
  let bits := x.toBits.toNat
  let magnitude := bits % 0x8000000000000000
  if 0x7FF0000000000000 < magnitude then 0x8000000000000000
  else if bits < 0x8000000000000000 then (magnitude : Int) else -(magnitude : Int)

structure Activity where
  scores : Array Float
  decay : Float
  increment : Float

namespace Activity

def defaultDecay : Float := 0.95

/-- Above this limit scores are scaled down. -/
def scaleLimit : Float := 1e100

def scaleFactor : Float := 1e-100

def empty (numVars : Nat) (decay : Float) : Activity :=
  ⟨Array.replicate numVars 0.0, decay, 1.0⟩

/-! ## Rewarding -/

def rescale : Activity → Activity
  | ⟨scores, decay, increment⟩ =>
    ⟨scores.map (· * scaleFactor), decay, increment * scaleFactor⟩

def bump : Activity → Nat → Except Fault Activity
  | ⟨scores, decay, increment⟩, v =>
    match scores[v]? with
    | none => .error (.noVariable v)
    | some score =>
      let score := score + increment
      let raised : Activity := ⟨scores.setIfInBounds v score, decay, increment⟩
      .ok (if scaleLimit < score then raised.rescale else raised)

def reward : Activity → List Nat → Except Fault Activity
  | s, [] => .ok s
  | s, v :: vs =>
    match s.bump v with
    | .error e => .error e
    | .ok s => reward s vs

def age : Activity → Activity
  | ⟨scores, decay, increment⟩ =>
    let increment := increment / decay
    let aged : Activity := ⟨scores, decay, increment⟩
    if scaleLimit < increment then aged.rescale else aged

/-! ## Picking -/

/-- The best of `best` and the variables without a value among those from `v` on, whose scores
are listed. A later variable is better only with a higher score. -/
def bestFrom (a : Assignment) (best : Option (Nat × Int)) (v : Nat) :
    List Float → Except Fault (Option Nat)
  | [] => .ok (best.map Prod.fst)
  | score :: scores =>
    match a.values[v]? with
    | none => .error (.noVariable v)
    | some (some _) => bestFrom a best (v + 1) scores
    | some none =>
      let key := scoreKey score
      match best with
      | none => bestFrom a (some (v, key)) (v + 1) scores
      | some (w, top) =>
        bestFrom a (some (if top < key then (v, key) else (w, top))) (v + 1) scores

def pick (s : Activity) (a : Assignment) : Except Fault (Option Nat) :=
  bestFrom a none 0 s.scores.toList

instance : Selector Activity where
  pick := pick
  reward := reward
  decay := age

end Activity
end SatSearch
