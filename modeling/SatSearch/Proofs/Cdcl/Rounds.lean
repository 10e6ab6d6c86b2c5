import SatSearch.Proofs.Branching
import SatSearch.Proofs.Conflict.Analyser
import SatSearch.Proofs.Restarter
import SatSearch.Proofs.Search.Verdict
import SatSearch.Search.Cdcl

/-!
# Rounds — what the search that learns does in a round

`Made` says of every move what it found and what it changed, and `Rounded` what a round does to the
rest of the search. A round never fails, is one of these moves, and leaves a position that is ready
for the next round unless it ends with a verdict; and a verdict is right.
-/

namespace SatSearch

open Trail

namespace Cdcl

variable {σ : Type} [Selector σ] {n i : Nat} {P : σ → Prop} {s s' : Cdcl σ} {q p' : Position}
variable {move : Move} {c : Clause} {kind : AnalyserKind}

/-! ## What the moves do -/

/-- What the move found at the propagated position `q`, and what it made of it. -/
def Move.Made (s : Cdcl σ) (q p' : Position) : Move → Prop
  | .refuted i => p' = q ∧ q.trail.level = 0 ∧ ∃ c, q.Failed i c
  | .closed i analysis => p' = q ∧ analysis ≠ .ground ∧ (∃ c, q.Failed i c) ∧
      q.trail.openBranch? q.trail.level = none
  | .asserted i learned level => ∃ c l rest t', q.Failed i c ∧
      Asserting q.formula q.trail q.trail.level learned level ∧ learned.literals = l :: rest ∧
      SteppedBack level q.trail t' ∧ p'.formula = (q.formula.learn learned).2 ∧
      p'.trail = t'.pushed l (.clause q.formula.clauses.length)
  | .flipped i learned level branch => ∃ c t', q.Failed i c ∧ q.trail.level = level + 1 ∧
      learned = .learned c.literals ∧ q.trail.openBranch? q.trail.level = some branch ∧
      SteppedBack (branch.level - 1) q.trail t' ∧ p'.formula = (q.formula.learn learned).2 ∧
      p'.trail = t'.newLevel.pushed branch.literal.negate .flipped
  | .completed m => p' = q ∧ q.Settled ∧ q.trail.values.isComplete = true ∧
      m = .ofAssignment q.trail.values
  | .restarted => p' = q.clear ∧ q.Settled ∧ s.restarter.isDue = true
  | .decided l => q.Settled ∧ s.restarter.isDue = false ∧ l.positive = true ∧
      Selector.pick s.selector q.trail.values = .ok (some l.var) ∧ l.var < q.formula.numVars ∧
      q.trail.Free l.var ∧ p'.formula = q.formula ∧
      p'.trail = q.trail.newLevel.pushed l .decision
  | .undecided _ => False

/-- What the move does to the restarter. -/
def Move.restarter (r : Restarter) : Move → Restarter
  | .asserted _ _ _ => r.tick
  | .flipped _ _ _ _ => r.tick
  | .restarted => r.restart
  | _ => r

/-- How many conflicts the move counts. -/
def Move.conflicts : Move → Nat
  | .refuted _ => 1
  | .closed _ _ => 1
  | .asserted _ _ _ => 1
  | .flipped _ _ _ _ => 1
  | _ => 0

/-- How many decisions the move counts. -/
def Move.decisions : Move → Nat
  | .decided _ => 1
  | _ => 0

/-- Whether a conflicting clause was learned as it is, or retried without a way on. -/
def Move.IsRetry : Move → Prop
  | .closed _ _ => True
  | .flipped _ _ _ _ => True
  | _ => False

/-- Whether a clause was learned and its first literal asserted. -/
def Move.IsAsserted : Move → Prop
  | .asserted _ _ _ => True
  | _ => False

/-- A search between rounds: its components go on without faults. -/
structure Regular (n : Nat) (P : σ → Prop) (kind : AnalyserKind) (s : Cdcl σ) : Prop where
  position : s.position.Left
  numVars_eq : s.position.formula.numVars = n
  selector : P s.selector
  analyser : s.analyser.Fresh kind
  restarter : s.restarter.Live

/-- What a round that propagates to `q` and makes the move turns the search into. -/
structure Rounded (P : σ → Prop) (kind : AnalyserKind) (s : Cdcl σ) (q : Position) (move : Move)
    (s' : Cdcl σ) : Prop where
  formula_eq : q.formula = s.position.formula
  forced : Forced s.position.formula s.position.trail q.trail
  made : move.Made s q s'.position
  left : s'.position.Left
  ready : move.verdict? = none → s'.position.Ready
  selector : P s'.selector
  analyser : s'.analyser.Fresh kind
  not_isRetry : kind = .firstUip → ¬ move.IsRetry
  not_isAsserted : kind = .levelScan → ¬ move.IsAsserted
  restarter_eq : s'.restarter = move.restarter s.restarter
  conflicts_eq : s'.conflicts = s.conflicts + move.conflicts
  decisions_eq : s'.decisions = s.decisions + move.decisions
  budget_eq : s'.budget = s.budget

/-! ## After a conflict -/

/-- Jumping back, learning the clause and asserting its first literal. -/
theorem assertLearned_spec {learned : Clause} {level : Nat} (h : q.Failed i c)
    (hasserting : Asserting q.formula q.trail q.trail.level learned level) :
    ∃ p' l rest t', assertLearned q learned level = .ok p' ∧ p'.Ready ∧
      learned.literals = l :: rest ∧ SteppedBack level q.trail t' ∧
      p'.formula = (q.formula.learn learned).2 ∧
      p'.trail = t'.pushed l (.clause q.formula.clauses.length) := by
  rcases hasserting.split with ⟨l, rest, hsplit, ⟨s, hs, hsl, hlevel⟩, hrest, hnil, hhead⟩
  rcases h.toLeft.backstep hasserting.lt with ⟨q₁, hok, hsettled, hformula, hback⟩
  have hfree : q₁.trail.Free l.var := by
    have hlt := hasserting.lt
    have := hback.free h.wellFormed.toRecorded hs (by omega)
    simpa [hsl] using this
  have hothers : ∀ a ∈ rest, q₁.trail.Assigns a.negate := by
    intro a ha
    rcases hrest a ha with ⟨s', hs', hs'a, _, hle⟩
    exact hback.assigns_iff.2 ⟨s', hs', hs'a, hle⟩
  -- Resuming at a level above zero, the second literal was falsified there.
  have hcurrent : q₁.trail.level = 0 ∨ ∃ a ∈ rest, ∃ s ∈ q₁.trail.steps,
      s.literal = a.negate ∧ s.level = q₁.trail.level := by
    have hlevel' : q₁.trail.level = level := by
      have h1 := hback.level_eq
      have h2 := hasserting.lt
      omega
    cases hrest' : rest with
    | nil => exact .inl (hlevel'.trans (hnil hrest'))
    | cons b bs =>
        rcases hhead b (by simp [hrest']) with ⟨s', hs', hs'b, heq⟩
        exact .inr ⟨b, List.mem_cons_self, s', hback.mem_iff.2 ⟨hs', heq.le⟩, hs'b,
          heq.trans hlevel'.symm⟩
  obtain ⟨q₂, p', hlearn, hpush, hready, hformula', htrail⟩ :=
    hsettled.assert (hformula ▸ hasserting.proper) (hformula ▸ hasserting.entailed) hsplit hfree
      hothers hcurrent
  rw [hformula] at hformula' htrail
  refine ⟨p', l, rest, q₁.trail, ?_, hready, hsplit, hback, hformula', htrail⟩
  simp only [assertLearned, hsplit, hok, hlearn, hpush]

/-- Stepping back below the branch, learning a copy of the failed clause, and taking the other side
of the branch. -/
theorem flip_spec {branch : Step} (h : q.Failed i c)
    (hsome : q.trail.openBranch? q.trail.level = some branch) :
    ∃ p' t', flip q (.learned c.literals) branch = .ok p' ∧ p'.Ready ∧
      SteppedBack (branch.level - 1) q.trail t' ∧
      p'.formula = (q.formula.learn (.learned c.literals)).2 ∧
      p'.trail = t'.newLevel.pushed branch.literal.negate .flipped := by
  rcases h.justified.openBranch?_eq_some h.wellFormed.toLevelled hsome with ⟨_, _, hpos, hle, _⟩
  rcases h.toLeft.backstep (k := branch.level - 1) (by omega) with
    ⟨q₁, hok, hsettled, hformula, hback⟩
  have hc := Formula.mem_of_clause? h.clause
  -- Below the current level the clause was quiet, so two of its literals are not false.
  rcases (h.quiet (branch.level - 1) (by omega) c hc).two_above h.wellFormed.toRecorded
      h.failsAt.falsifies with
    ⟨a, ha, b, hb, hab, hna, hnb⟩
  have hproper := h.proper c hc
  obtain ⟨q₂, hlearn, hsettled', hformula', htrail⟩ :=
    hsettled.learn (c := .learned c.literals) (hformula ▸ ⟨hproper.nodup, hproper.inRange⟩)
      (fun v hv => h.sound.holds_clauses (hformula ▸ hv) c hc) ha hb hab
      (fun hfalse => hna (hback.assigns_iff.1 hfalse))
      (fun hfalse => hnb (hback.assigns_iff.1 hfalse))
  rcases h.branch hsome hsettled'
      (by rw [hformula', Formula.numVars_learn, hformula])
      (fun v hv => by rwa [hformula', Formula.holds_learn, hformula] at hv) (htrail ▸ hback) with
    ⟨p', hbranch, hready, hformula'', htrail'⟩
  refine ⟨p', q₁.trail, ?_, hready, hback, ?_, ?_⟩
  · cases hlevel : branch.level with
    | zero => omega
    | succ below =>
        rw [hlevel, Nat.add_sub_cancel] at hok
        simp only [flip, hlevel, hok, hlearn, hbranch]
  · rw [hformula'', hformula', hformula]
  · rw [htrail', htrail]

/-- After a failed clause the search is over, or has learned and goes on, unless the selector refuses
to reward variables in range. -/
theorem onConflict_rounded (hs : s.Regular n P kind) (h : q.Failed i c)
    (hformula : q.formula = s.position.formula)
    (hforced : Forced s.position.formula s.position.trail q.trail)
    (hkeeps : ∀ vars selector', Selector.reward s.selector vars = .ok selector' →
      (∀ v ∈ vars, v < n) → P (Selector.decay selector')) :
    (∃ move s', onConflict i { s with position := q } = .ok (move, s') ∧
      Rounded P kind s q move s') ∨
    ∃ vars e, (∀ v ∈ vars, v < n) ∧ Selector.reward s.selector vars = .error e ∧
      onConflict i { s with position := q } = .error e := by
  rcases s with ⟨p, selector, analyser, restarter, conflicts, decisions, budget⟩
  have hselector : P selector := hs.selector
  have hfresh : analyser.Fresh kind := hs.analyser
  have hvars : q.formula.numVars = n := by
    rw [hformula]
    exact hs.numVars_eq
  dsimp only
  unfold onConflict
  by_cases hzero : q.trail.level = 0
  · simp only [if_pos hzero]
    exact .inl ⟨_, _, rfl, hformula, hforced, ⟨rfl, hzero, c, h⟩, h.toLeft,
      by simp [Move.verdict?], hselector, hfresh, fun _ => id, fun _ => id, rfl, rfl, rfl, rfl⟩
  simp only [if_neg hzero]
  obtain ⟨analysis, vars, analyser', hanalyse, hfresh', hrange, hfits, hretry, hasserts⟩ :=
    Analyser.analyse_spec h.proper h.sound h.wellFormed h.justified h.clause h.failsAt.falsifies
      hfresh
  rw [hvars] at hrange
  cases hreward : Selector.reward selector vars with
  | error e => exact .inr ⟨vars, e, hrange, hreward, by simp only [hanalyse, hreward]⟩
  | ok selector' =>
      left
      have hdecay := hkeeps vars selector' hreward hrange
      simp only [hanalyse, hreward]
      -- The analysis is about the current level, at which the clause fails.
      cases analysis with
      | ground => exact absurd (h.eq_level hfits).symm hzero
      | asserting learned level =>
          rcases hfits with ⟨d, hfails, hasserting⟩
          obtain rfl := h.eq_level hfails
          rcases assertLearned_spec h hasserting with
            ⟨p', l, rest, t', hok, hready, hsplit, hback, hformula', htrail⟩
          simp only [hok]
          exact ⟨_, _, rfl, hformula, hforced,
            ⟨c, l, rest, t', h, hasserting, hsplit, hback, hformula', htrail⟩, hready.left,
            fun _ => hready, hdecay, hfresh', fun _ => id,
            fun hscan => absurd rfl (hasserts hscan learned level), rfl, rfl, rfl, rfl⟩
      | retry learned level =>
          rcases hfits with ⟨hfails, rfl⟩
          have heq := h.eq_level hfails
          have hnot : kind ≠ .firstUip := fun hfirst => hretry hfirst _ _ rfl
          simp only [heq]
          cases hopen : q.trail.openBranch? q.trail.level with
          | none =>
              exact ⟨_, _, rfl, hformula, hforced, ⟨rfl, by simp, ⟨c, h⟩, hopen⟩, h.toLeft,
                by simp [Move.verdict?], hdecay, hfresh', fun hfirst => absurd hfirst hnot,
                fun _ => id, rfl, rfl, rfl, rfl⟩
          | some branch =>
              rcases flip_spec h hopen with ⟨p', t', hok, hready, hback, hformula', htrail⟩
              simp only [hok]
              exact ⟨_, _, rfl, hformula, hforced,
                ⟨c, t', h, heq.symm, rfl, hopen, hback, hformula', htrail⟩, hready.left,
                fun _ => hready, hdecay, hfresh', fun hfirst => absurd hfirst hnot, fun _ => id,
                rfl, rfl, rfl, rfl⟩

/-- A lawful selector rewards whatever is in range, so there is always a move. -/
theorem onConflict_spec (hP : Selector.Lawful n P) (hs : s.Regular n P kind) (h : q.Failed i c)
    (hformula : q.formula = s.position.formula)
    (hforced : Forced s.position.formula s.position.trail q.trail) :
    ∃ move s', onConflict i { s with position := q } = .ok (move, s') ∧
      Rounded P kind s q move s' := by
  have hreward := hP.reward s.selector hs.selector
  have hkeeps : ∀ vars selector', Selector.reward s.selector vars = .ok selector' →
      (∀ v ∈ vars, v < n) → P (Selector.decay selector') := by
    intro vars selector' hok hrange
    rcases hreward vars hrange with ⟨_, hok', hselector'⟩
    cases hok.symm.trans hok'
    exact hP.decay selector' hselector'
  rcases onConflict_rounded hs h hformula hforced hkeeps with hmade | ⟨vars, e, hrange, herror, _⟩
  · exact hmade
  · rcases hreward vars hrange with ⟨_, hok, _⟩
    cases herror.symm.trans hok

/-! ## At a fixpoint -/

/-- At a fixpoint the search is over, starts over or decides: there is always a variable to
pick. -/
theorem onFixpoint_spec (hP : Selector.Lawful n P) (hs : s.Regular n P kind) (h : q.Settled)
    (hformula : q.formula = s.position.formula)
    (hforced : Forced s.position.formula s.position.trail q.trail) :
    ∃ move s', onFixpoint { s with position := q } = .ok (move, s') ∧
      Rounded P kind s q move s' := by
  rcases s with ⟨p, selector, analyser, restarter, conflicts, decisions, budget⟩
  have hselector : P selector := hs.selector
  have hfresh : analyser.Fresh kind := hs.analyser
  have hvars : q.formula.numVars = n := by
    rw [hformula]
    exact hs.numVars_eq
  dsimp only
  unfold onFixpoint
  by_cases hfull : q.trail.values.isComplete = true
  · simp only [if_pos hfull]
    exact ⟨_, _, rfl, hformula, hforced, ⟨rfl, h, hfull, rfl⟩, h.left, by simp [Move.verdict?],
      hselector, hfresh, fun _ => id, fun _ => id, rfl, rfl, rfl, rfl⟩
  simp only [if_neg hfull]
  cases hdue : restarter.isDue with
  | true =>
      have hready := h.left.clear
      simp only [if_true]
      exact ⟨_, _, rfl, hformula, hforced, ⟨rfl, h, hdue⟩, hready.left, fun _ => hready, hselector,
        hfresh, fun _ => id, fun _ => id, rfl, rfl, rfl, rfl⟩
  | false =>
      -- An assignment that is not complete leaves a variable free.
      have hsome : ∃ v < q.formula.numVars, q.trail.Free v := by
        by_contra hnone
        exact hfull (h.wellFormed.isComplete_iff.2 fun v hv hfree => hnone ⟨v, hv, hfree⟩)
      rcases h.decide hP hselector hvars hsome with
        ⟨u, p', hpick, hlt, hufree, hok, hready, hformula', htrail⟩
      simp only [Bool.false_eq_true, if_false, hpick, hok]
      exact ⟨_, _, rfl, hformula, hforced, ⟨h, hdue, rfl, hpick, hlt, hufree, hformula', htrail⟩,
        hready.left, fun _ => hready, hselector, hfresh, fun _ => id, fun _ => id, rfl, rfl, rfl,
        rfl⟩

/-! ## Rounds -/

/-- Whatever propagating a ready position comes to, a move is made. -/
theorem respond_spec {o : Outcome} (hP : Selector.Lawful n P) (hs : s.Regular n P kind)
    (hready : s.position.Ready) (hpropagate : s.position.propagate = .ok (o, q)) :
    ∃ move s', respond { s with position := q } o = .ok (move, s') ∧
      Rounded P kind s q move s' := by
  rcases hready.propagate with ⟨_, _, hok, hformula, hforced, hend⟩
  cases hok.symm.trans hpropagate
  cases o with
  | fixpoint => exact onFixpoint_spec hP hs hend hformula hforced
  | conflict i =>
      rcases hend with ⟨hleft, c, hc, hfalse⟩
      exact onConflict_spec hP hs (hleft.failed (hformula ▸ hc) hfalse) hformula hforced

/-- A round propagates and makes its move. -/
theorem round_spec (hP : Selector.Lawful n P) (hs : s.Regular n P kind)
    (hready : s.position.Ready) :
    ∃ q move s', s.round = .ok (move, s') ∧ Rounded P kind s q move s' := by
  rcases hready.propagate with ⟨o, q, hok, _⟩
  rcases respond_spec hP hs hready hok with ⟨move, s', hrespond, hrounded⟩
  refine ⟨q, move, s', ?_, hrounded⟩
  -- Propagation changes the position only.
  rcases s with ⟨p, selector, analyser, restarter, conflicts, decisions, budget⟩
  dsimp only at hok hrespond
  simp only [round, propagate, hok, hrespond]

/-- A move keeps the formula or learns one clause, which it asserts or has copied from the one that
failed. -/
theorem Move.Made.formula_eq_or_learned (h : move.Made s q p') :
    p'.formula = q.formula ∨ ∃ i c learned, q.Failed i c ∧
      p'.formula = (q.formula.learn learned).2 ∧
      (move.IsAsserted ∧ (∃ level, Asserting q.formula q.trail q.trail.level learned level) ∨
        move.IsRetry ∧ learned = .learned c.literals) := by
  cases move with
  | refuted i => exact .inl (by rw [h.1])
  | closed i analysis => exact .inl (by rw [h.1])
  | asserted i learned level =>
      rcases h with ⟨c, _, _, _, hfailed, hasserting, _, _, hformula, _⟩
      exact .inr ⟨i, c, learned, hfailed, hformula, .inl ⟨trivial, level, hasserting⟩⟩
  | flipped i learned level branch =>
      rcases h with ⟨c, _, hfailed, _, hcopy, _, _, hformula, _⟩
      exact .inr ⟨i, c, learned, hfailed, hformula, .inr ⟨trivial, hcopy⟩⟩
  | completed m => exact .inl (by rw [h.1])
  | restarted => exact .inl (by rw [h.1, Position.formula_clear])
  | decided l =>
      rcases h with ⟨_, _, _, _, _, _, hformula, _⟩
      exact .inl hformula
  | undecided m => exact h.elim

/-- Moves keep the given clauses and the variables. -/
theorem Move.Made.given_eq (h : move.Made s q p') :
    p'.formula.given = q.formula.given ∧ p'.formula.numVars = q.formula.numVars := by
  rcases h.formula_eq_or_learned with hformula | ⟨_, _, _, _, hformula, _⟩
  · exact ⟨by rw [hformula], by rw [hformula]⟩
  · exact ⟨by rw [hformula, Formula.given_learn], by rw [hformula, Formula.numVars_learn]⟩

theorem Move.live_restarter {r : Restarter} (h : r.Live) : (move.restarter r).Live := by
  cases move with
  | asserted _ _ _ => exact h.tick
  | flipped _ _ _ _ => exact h.tick
  | restarted => exact h.restart
  | _ => exact h

/-- A round leaves a search that is as regular as before. -/
theorem Rounded.regular (h : Rounded P kind s q move s') (hs : s.Regular n P kind) :
    s'.Regular n P kind where
  position := h.left
  numVars_eq := by
    rw [h.made.given_eq.2, h.formula_eq]
    exact hs.numVars_eq
  selector := h.selector
  analyser := h.analyser
  restarter := by
    rw [h.restarter_eq]
    exact Move.live_restarter hs.restarter

/-! ## Rounds, by how propagation ended -/

theorem Rounded.leads (h : Rounded P kind s q move s') : s.position.Leads q :=
  ⟨h.formula_eq, h.forced⟩

theorem Rounded.failed_or_settled (h : Rounded P kind s q move s') :
    (∃ i c, q.Failed i c) ∨ q.Settled := by
  have hmade := h.made
  cases move with
  | refuted i =>
      rcases hmade with ⟨_, _, c, hfailed⟩
      exact .inl ⟨i, c, hfailed⟩
  | closed i analysis =>
      rcases hmade with ⟨_, _, ⟨c, hfailed⟩, _⟩
      exact .inl ⟨i, c, hfailed⟩
  | asserted i learned level =>
      rcases hmade with ⟨c, _, _, _, hfailed, _⟩
      exact .inl ⟨i, c, hfailed⟩
  | flipped i learned level branch =>
      rcases hmade with ⟨c, _, hfailed, _⟩
      exact .inl ⟨i, c, hfailed⟩
  | completed m => exact .inr hmade.2.1
  | restarted => exact .inr hmade.2.1
  | decided l => exact .inr hmade.1
  | undecided m => exact hmade.elim

/-- With the analyser that retries, a failed clause is counted as a conflict, and the highest open
branch is flipped if there is one. -/
theorem Rounded.of_failed (h : Rounded P .levelScan s q move s') (hq : q.Failed i c) :
    s'.conflicts = s.conflicts + 1 ∧ s'.decisions = s.decisions ∧
      q.trail.Backtracked move.verdict? s'.position.trail := by
  have hmade := h.made
  have hconflicts := h.conflicts_eq
  have hdecisions := h.decisions_eq
  cases move with
  | refuted i => exact ⟨hconflicts, hdecisions, .inl ⟨rfl, openBranch?_of_level_eq_zero hmade.2.1⟩⟩
  | closed i analysis => exact ⟨hconflicts, hdecisions, .inl ⟨rfl, hmade.2.2.2⟩⟩
  | asserted i learned level => exact absurd trivial (h.not_isAsserted rfl)
  | flipped i learned level branch =>
      rcases hmade with ⟨_, t', _, _, _, hopen, hback, _, htrail⟩
      exact ⟨hconflicts, hdecisions, .inr ⟨rfl, branch, hopen, t', hback, htrail⟩⟩
  | completed m => exact (hq.not_settled hmade.2.1).elim
  | restarted => exact (hq.not_settled hmade.2.1).elim
  | decided l => exact (hq.not_settled hmade.1).elim
  | undecided m => exact hmade.elim

/-- At a fixpoint, with no restart due, the search is over if every variable has a value, and else
the variable that is picked is decided. -/
theorem Rounded.of_settled (h : Rounded P kind s q move s') (hq : q.Settled)
    (hdue : s.restarter.isDue = false) :
    s'.conflicts = s.conflicts ∧ s'.position.formula = q.formula ∧
      (q.trail.values.isComplete = true ∧ s'.decisions = s.decisions ∧
          move.verdict? = some (.satisfiable (.ofAssignment q.trail.values)) ∨
        s'.decisions = s.decisions + 1 ∧ move.verdict? = none ∧ ∃ v,
          Selector.pick s.selector q.trail.values = .ok (some v) ∧ v < q.formula.numVars ∧
          q.trail.Free v ∧ s'.position.trail = q.trail.newLevel.pushed ⟨v, true⟩ .decision) := by
  have hmade := h.made
  have hconflicts := h.conflicts_eq
  have hdecisions := h.decisions_eq
  cases move with
  -- A position that is settled has no failed clause.
  | refuted i =>
      rcases hmade with ⟨_, _, c, hfailed⟩
      exact (hfailed.not_settled hq).elim
  | closed i analysis =>
      rcases hmade with ⟨_, _, ⟨c, hfailed⟩, _⟩
      exact (hfailed.not_settled hq).elim
  | asserted i learned level =>
      rcases hmade with ⟨c, _, _, _, hfailed, _⟩
      exact (hfailed.not_settled hq).elim
  | flipped i learned level branch =>
      rcases hmade with ⟨c, _, hfailed, _⟩
      exact (hfailed.not_settled hq).elim
  | completed m =>
      rcases hmade with ⟨hposition, _, hfull, rfl⟩
      exact ⟨hconflicts, by rw [hposition], .inl ⟨hfull, hdecisions, rfl⟩⟩
  | restarted =>
      rw [hmade.2.2] at hdue
      cases hdue
  | decided l =>
      rcases l with ⟨v, positive⟩
      rcases hmade with ⟨_, _, rfl, hpick, hlt, hfree, hformula, htrail⟩
      exact ⟨hconflicts, hformula, .inr ⟨hdecisions, rfl, v, hpick, hlt, hfree, htrail⟩⟩
  | undecided m => exact hmade.elim

/-- A move that ends the search ends it with a right verdict. -/
theorem Move.Made.rightFor {verdict : Verdict} (h : move.Made s q p')
    (hverdict : move.verdict? = some verdict) : verdict.RightFor q.formula := by
  cases move with
  | refuted i =>
      cases hverdict
      -- At level zero there is no branch, so none is open.
      rcases h with ⟨_, hzero, c, hfailed⟩
      have hnone := openBranch?_of_level_eq_zero hzero
      exact Verdict.rightFor_unsatisfiable (hfailed.unsatisfiable hnone)
  | closed i analysis =>
      cases hverdict
      rcases h with ⟨_, _, ⟨c, hfailed⟩, hnone⟩
      exact Verdict.rightFor_unsatisfiable (hfailed.unsatisfiable hnone)
  | completed m =>
      cases hverdict
      rcases h with ⟨_, hsettled, hfull, rfl⟩
      exact hsettled.rightFor hfull
  | undecided m => exact h.elim
  | asserted i learned level => cases hverdict
  | flipped i learned level branch => cases hverdict
  | restarted => cases hverdict
  | decided l => cases hverdict

end Cdcl
end SatSearch
