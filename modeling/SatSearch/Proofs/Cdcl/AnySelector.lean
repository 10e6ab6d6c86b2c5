import SatSearch.Proofs.Cdcl.Lifetime

/-!
# AnySelector — what a search keeps if nothing is known of its selector

A selector that does not keep to its rules can make a round fail, or end a call although a variable
is free. But the rounds that are made leave the search as regular as before, and ready for the next
one if they go on: picking decides which literal is pushed, not whether it may be.
-/

namespace SatSearch

open Trail

/-- If branching goes well, the literal was free. -/
theorem Position.Settled.branch_eq_ok {p p' : Position} {l : Literal} (h : p.Settled)
    (hok : p.branch l .decision = .ok p') : p'.Ready ∧ p'.formula = p.formula := by
  have hbranch := h.branch (l := l) (r := .decision)
  rcases p with ⟨f, propagator, t, count⟩
  simp only [Position.branch] at hok
  split at hok
  · cases hok
  · rename_i u hpush
    rcases push_eq_ok h.wellFormed.newLevel.toRecorded hpush with ⟨hlt, hfree, rfl⟩
    rcases hbranch hlt hfree trivial (by simp) with ⟨_, hok', hready, hformula, _⟩
    simp only [Position.branch, hpush, Except.ok.injEq] at hok'
    cases hok
    subst hok'
    exact ⟨hready, hformula⟩

namespace Cdcl

variable {σ : Type} [Selector σ] {n i : Nat} {s s' : Cdcl σ} {q : Position} {c : Clause}
variable {move : Move} {kind : AnalyserKind}

/-- Regular, whatever the selector is like. -/
abbrev Going (n : Nat) (kind : AnalyserKind) : Cdcl σ → Prop :=
  Regular n (fun _ => True) kind

/-- A round that propagates to `q` and makes the move leaves a search that is going, and that is
ready if it is to go on. -/
structure Went (n : Nat) (kind : AnalyserKind) (q : Position) (move : Move) (s' : Cdcl σ) :
    Prop where
  going : s'.Going n kind
  ready : move.verdict? = none → s'.position.Ready
  restarted : move = .restarted → q.Settled ∧ s'.position = q.clear

/-! ## Moves -/

theorem Going.onConflict (hs : s.Going n kind) (h : q.Failed i c)
    (hformula : q.formula = s.position.formula)
    (hforced : Forced s.position.formula s.position.trail q.trail)
    (hmove : Cdcl.onConflict i { s with position := q } = .ok (move, s')) :
    Went n kind q move s' := by
  rcases onConflict_rounded hs h hformula hforced fun _ _ _ _ => trivial with
    ⟨_, _, hok, hrounded⟩ | ⟨_, _, _, _, herror⟩
  · cases hok.symm.trans hmove
    refine ⟨hrounded.regular hs, hrounded.ready, ?_⟩
    rintro rfl
    rcases hrounded.made with ⟨hposition, hsettled, _⟩
    exact ⟨hsettled, hposition⟩
  · cases herror.symm.trans hmove

theorem Going.onFixpoint (hs : s.Going n kind) (h : q.Settled)
    (hformula : q.formula = s.position.formula)
    (hmove : Cdcl.onFixpoint { s with position := q } = .ok (move, s')) :
    Went n kind q move s' := by
  rcases s with ⟨p, selector, analyser, restarter, conflicts, decisions, budget⟩
  have hvars : q.formula.numVars = n := by
    rw [hformula]
    exact hs.numVars_eq
  dsimp only [Cdcl.onFixpoint] at hmove
  split at hmove
  · cases hmove
    exact ⟨⟨h.left, hvars, trivial, hs.analyser, hs.restarter⟩, nofun, nofun⟩
  · split at hmove
    · cases hmove
      have hready := h.left.clear
      exact ⟨⟨hready.left, hvars, trivial, hs.analyser, hs.restarter.restart⟩, fun _ => hready,
        fun _ => ⟨h, rfl⟩⟩
    · -- The selector has the word now, and may pick anything.
      split at hmove
      · cases hmove
      · cases hmove
        exact ⟨⟨h.left, hvars, trivial, hs.analyser, hs.restarter⟩, nofun, nofun⟩
      · split at hmove
        · cases hmove
        · rename_i p' hbranch
          cases hmove
          rcases h.branch_eq_ok hbranch with ⟨hready, hkept⟩
          exact ⟨⟨hready.left, by rw [hkept, hvars], trivial, hs.analyser, hs.restarter⟩,
            fun _ => hready, nofun⟩

/-! ## Rounds and calls -/

theorem Going.respond {o : Outcome} (hs : s.Going n kind) (hready : s.position.Ready)
    (hpropagate : s.position.propagate = .ok (o, q))
    (hmove : Cdcl.respond { s with position := q } o = .ok (move, s')) : Went n kind q move s' := by
  rcases hready.propagate with ⟨_, _, hok, hformula, hforced, hend⟩
  cases hok.symm.trans hpropagate
  cases o with
  | fixpoint => exact hs.onFixpoint hend hformula hmove
  | conflict i =>
      rcases hend with ⟨hleft, c, hc, hfalse⟩
      exact hs.onConflict (hleft.failed (hformula ▸ hc) hfalse) hformula hforced hmove

theorem Going.round (hs : s.Going n kind) (hready : s.position.Ready)
    (hround : s.round = .ok (move, s')) : ∃ q, Went n kind q move s' := by
  rcases hready.propagate with ⟨o, q, hok, _⟩
  refine ⟨q, hs.respond hready hok ?_⟩
  rcases s with ⟨p, selector, analyser, restarter, conflicts, decisions, budget⟩
  dsimp only at hok
  simpa only [Cdcl.round, Cdcl.propagate, hok] using hround

theorem Going.run {conflicts decisions fuel : Nat} {answer : Option Verdict} (hs : s.Going n kind)
    (hready : s.position.Ready)
    (hrun : Cdcl.run conflicts decisions fuel s = .ok (answer, s')) :
    s'.Going n kind ∧ (answer = none → s'.position.Ready) := by
  induction fuel generalizing s with
  | zero =>
      cases hrun
      exact ⟨hs, fun _ => hready⟩
  | succ fuel ih =>
      cases hexhausted : s.isExhausted conflicts decisions with
      | true =>
          simp only [Cdcl.run, hexhausted, if_true] at hrun
          cases hrun
          exact ⟨hs, by simp⟩
      | false =>
          simp only [Cdcl.run, hexhausted, Bool.false_eq_true, if_false] at hrun
          cases hround : s.round with
          | error e =>
              simp only [hround] at hrun
              cases hrun
          | ok result =>
              rcases result with ⟨move, s₁⟩
              -- A round with a verdict ends the call, and after any other it goes on.
              rcases hs.round hready hround with ⟨q, hwent⟩
              cases hverdict : move.verdict? with
              | some verdict =>
                  simp only [hround, hverdict] at hrun
                  cases hrun
                  exact ⟨hwent.going, by simp⟩
              | none =>
                  simp only [hround, hverdict] at hrun
                  exact ih hwent.going (hwent.ready hverdict) hrun

theorem Going.solve {fuel : Nat} {answer : Option Verdict} (hs : s.Going n kind)
    (hsolve : s.solve fuel = .ok (answer, s')) :
    s'.Going n kind ∧ (answer = none → s'.position.Ready) :=
  Going.run hs.clear hs.ready_clear hsolve

/-- All its lifetime a search keeps going, as far as it comes. -/
theorem Lifetime.going {fit : Nat → σ → Prop} (h : s.Lifetime fit kind) :
    ∃ n, s.Going n kind := by
  induction h with
  | started hf hp _ => exact ⟨_, regular_start hf.pristine hp trivial (Restarter.live_start _)⟩
  | added _ hadd ih =>
      rcases ih with ⟨n, hs⟩
      rcases add_spec hs _ with ⟨_, _, hok, hregular, _⟩
      cases hadd.symm.trans hok
      exact ⟨n, hregular⟩
  | budgeted _ ih =>
      rcases ih with ⟨n, hs⟩
      exact ⟨n, regular_setBudget hs _⟩
  | solved _ hsolve ih =>
      rcases ih with ⟨n, hs⟩
      exact ⟨n, (hs.solve hsolve).1⟩

end Cdcl
end SatSearch
