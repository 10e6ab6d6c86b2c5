import SatSearch.Proofs.Propagation.Propagator

/-!
# Confluence — what propagation forces does not depend on the order

A trail under which every clause is quiet has nothing left to force. So whatever one propagation
pushes, another one that started with the same trail and reached a fixpoint has assigned as well,
and neither finds a clause that fails if the other one reached a fixpoint. Two propagations
therefore both fail, or end with the same literals at the same levels, whichever clauses they looked
at first. Propagating at a fixpoint changes nothing at all.
-/

namespace SatSearch
namespace Trail

variable {n k : Nat} {f f' : Formula} {t t' u u' : Trail} {c : Clause} {l : Literal} {s : Step}

/-- The two trails assign the same literals at the same levels, if not in the same order or for the
same reasons, and everything has been propagated as far. -/
structure Alike (t u : Trail) : Prop where
  values_eq : t.values = u.values
  levelOf_eq : ∀ v, t.levelOf v = u.levelOf v
  levelStarts_eq : t.levelStarts = u.levelStarts
  head_eq : t.head = u.head
  steps_perm : (t.steps.toList.map fun s => (s.literal, s.level)).Perm
    (u.steps.toList.map fun s => (s.literal, s.level))

/-! ## Trails without anything left to force -/

section Quiet

variable (hu : u.WellFormed n) (hsub : ∀ a, t.Assigns a → u.Assigns a)
include hu hsub

/-- What a clause forces under fewer assignments is true where it is quiet. -/
theorem Quiet.assigns_of_forces (hq : u.Quiet u.level c) (hforces : t.Forces c l) :
    u.Assigns l := by
  refine (hq.trueBy_of_others hu.toRecorded fun a ha hal => ?_).assigns
  exact hu.toLevelled.trueBy_level.2 (hsub _ (hforces.others a ha hal))

/-- What falsifies a clause does not hold where the clause is quiet. -/
theorem Quiet.not_falsifies (hq : u.Quiet u.level c) : ¬ t.Falsifies c := by
  intro hfalse
  rcases hq with ⟨a, ha, htrue⟩ | ⟨a, ha, _, _, _, hna, _⟩
  · exact hu.not_assigns_negate htrue.assigns (hsub _ (hfalse a ha))
  · exact hna (hu.toLevelled.trueBy_level.2 (hsub _ (hfalse a ha)))

/-- No clause fails under fewer assignments than those that make all clauses quiet. -/
theorem not_reports_conflict {i : Nat} (hquiet : ∀ c ∈ f.clauses, u.Quiet u.level c) :
    ¬ Outcome.Reports f t (.conflict i) := by
  rintro ⟨c, hc, hfalse⟩
  exact (hquiet c (Formula.mem_of_clause? hc)).not_falsifies hu hsub hfalse

end Quiet

/-- A quiet clause is neither falsified nor unit. -/
theorem Quiet.state_ne (hu : u.WellFormed n) (hq : u.Quiet u.level c) :
    c.state u.values ≠ .falsified ∧ ∀ l, c.state u.values ≠ .unit l := by
  constructor
  · intro hst
    exact hq.not_falsifies hu (fun _ => id) (falsifies_of_state hu.toRecorded hst)
  · intro l hst
    have hforces := forces_of_state hu.toRecorded hst
    rcases hq.assigns_of_forces hu (fun _ => id) hforces with ⟨s, hs, rfl⟩
    exact hforces.free s hs rfl

/-- A trail with all clauses quiet has assigned whatever can be forced from a part of it. -/
theorem Forced.assigns_of_quiet (h : Forced f t u) (hu' : u'.WellFormed n)
    (hquiet : ∀ c ∈ f.clauses, u'.Quiet u'.level c) (hsub : ∀ a, t.Assigns a → u'.Assigns a) :
    ∀ a, u.Assigns a → u'.Assigns a := by
  induction h with
  | refl => exact hsub
  | moved _ _ ih => exact ih hsub
  | pushed hc hforces _ ih =>
      refine ih fun a ha => ?_
      rcases assigns_pushed.1 ha with ha | rfl
      · exact hsub a ha
      · exact (hquiet _ (Formula.mem_of_clause? hc)).assigns_of_forces hu' hsub hforces

/-- With all clauses quiet, only the head can move. -/
theorem Forced.eq_withHead (h : Forced f t u) (ht : t.WellFormed n)
    (hquiet : ∀ c ∈ f.clauses, t.Quiet t.level c) : u = t.withHead u.head := by
  induction h with
  | refl => rfl
  | moved head _ ih => exact ih ht.withHead hquiet
  | pushed hc hforces _ _ =>
      rcases (hquiet _ (Formula.mem_of_clause? hc)).assigns_of_forces ht (fun _ => id) hforces with
        ⟨s, hs, rfl⟩
      exact absurd rfl (hforces.free s hs)

theorem Forced.eq_self (h : Forced f t u) (ht : t.WellFormed n)
    (hquiet : ∀ c ∈ f.clauses, t.Quiet t.level c) (hhead : u.head = t.head) : u = t := by
  rw [h.eq_withHead ht hquiet, hhead]
  rfl

/-! ## Two ends of one trail -/

theorem Forced.levelStarts_eq (h : Forced f t u) : u.levelStarts = t.levelStarts := by
  induction h with
  | refl => rfl
  | moved _ _ ih => exact ih
  | pushed _ _ _ ih => exact ih

/-- Every step of the first trail has one of the same literal and level in the second. -/
def MarkedIn (t u : Trail) : Prop :=
  ∀ s ∈ t.steps, ∃ s' ∈ u.steps, s'.literal = s.literal ∧ s'.level = s.level

theorem MarkedIn.refl (t : Trail) : t.MarkedIn t :=
  fun s hs => ⟨s, hs, rfl, rfl⟩

/-- Of two trails forced from trails with the same marks, what the first assigns is a step of the
same level in the second, if that assigns it at all. -/
theorem Forced.exists_step (h : Forced f t u) (h' : Forced f' t' u') (hlevel : t.level = t'.level)
    (hmarked : t.MarkedIn t') (hmarked' : t'.MarkedIn t) (hu : u.Recorded n) (hs : s ∈ u.steps)
    (hassigns : u'.Assigns s.literal) :
    ∃ s' ∈ u'.steps, s'.literal = s.literal ∧ s'.level = s.level := by
  rcases h.mem_new hs with hold | ⟨hnew, _⟩
  · rcases hmarked s hold with ⟨s', hs', hmark⟩
    exact ⟨s', h'.mem hs', hmark⟩
  · -- What is new here is new there, or it would have been old here.
    rcases hassigns with ⟨s', hs', hlit⟩
    rcases h'.mem_new hs' with hold' | ⟨hnew', _⟩
    · rcases hmarked' s' hold' with ⟨s'', hs'', hlit'', hlevel''⟩
      obtain rfl : s'' = s :=
        hu.step_unique (h.mem hs'') hs (congrArg Literal.var (hlit''.trans hlit))
      exact ⟨s', hs', hlit, hlevel''.symm⟩
    · exact ⟨s', hs', hlit, by rw [hnew', hnew, hlevel]⟩

theorem MarkedIn.assigns (h : t.MarkedIn u) (hl : t.Assigns l) : u.Assigns l := by
  rcases hl with ⟨s, hs, hsl⟩
  rcases h s hs with ⟨s', hs', hlit, _⟩
  exact ⟨s', hs', hlit.trans hsl⟩

theorem MarkedIn.free (h : t.MarkedIn u) {v : Nat} (hfree : u.Free v) : t.Free v := by
  intro s hs hv
  rcases h s hs with ⟨s', hs', hlit, _⟩
  exact hfree s' hs' (by rw [hlit, hv])

section Marks

variable (ht : t.Recorded n) (hu : u.Recorded n) (htu : t.MarkedIn u) (hut : u.MarkedIn t)
include ht hu htu hut

theorem steps_perm_of_markedIn : (t.steps.toList.map fun s => (s.literal, s.level)).Perm
    (u.steps.toList.map fun s => (s.literal, s.level)) := by
  have hnodup : ∀ {t : Trail}, t.Recorded n →
      (t.steps.toList.map fun s => (s.literal, s.level)).Nodup := by
    intro t ht
    refine List.Nodup.of_map (fun mark => mark.1.var) ?_
    rw [List.map_map]
    exact ht.nodup
  have hmem : ∀ {t u : Trail}, t.MarkedIn u → ∀ mark,
      mark ∈ t.steps.toList.map (fun s => (s.literal, s.level)) →
      mark ∈ u.steps.toList.map fun s => (s.literal, s.level) := by
    intro t u htu mark hmark
    rcases List.mem_map.1 hmark with ⟨s, hs, rfl⟩
    rcases htu s (Array.mem_toList_iff.1 hs) with ⟨s', hs', hlit, hlevel⟩
    exact List.mem_map.2 ⟨s', Array.mem_toList_iff.2 hs', by rw [hlit, hlevel]⟩
  exact (List.perm_ext_iff_of_nodup (hnodup ht) (hnodup hu)).2
    fun mark => ⟨hmem htu mark, hmem hut mark⟩

theorem values_eq_of_markedIn : t.values = u.values := by
  have hlength := (steps_perm_of_markedIn ht hu htu hut).length_eq
  simp only [List.length_map, Array.length_toList] at hlength
  exact ht.values_eq hu hlength fun _ => ⟨htu.assigns, hut.assigns⟩

theorem levelOf_eq_of_markedIn (v : Nat) : t.levelOf v = u.levelOf v := by
  by_cases hv : v < n
  · by_cases hfree : u.Free v
    · rw [ht.levelOf_free hv (htu.free hfree), hu.levelOf_free hv hfree]
    · rcases not_forall₂.1 hfree with ⟨s, hs, hsv⟩
      obtain rfl : s.literal.var = v := not_not.1 hsv
      rcases hut s hs with ⟨s', hs', hlit, hlevel⟩
      rw [hu.levelOf_step hs, ← hlit, ht.levelOf_step hs', hlevel]
  · have hnone : t.origins[v]? = none ∧ u.origins[v]? = none :=
      ⟨Array.getElem?_eq_none (by rw [ht.origins_size]; omega),
        Array.getElem?_eq_none (by rw [hu.origins_size]; omega)⟩
    simp only [levelOf, hnone]

end Marks

/-- Of two trails forced from one, each with all clauses quiet, both assign the same. -/
theorem Forced.alike (h : Forced f t u) (h' : Forced f t u') (hf : f.Proper)
    (ht : t.WellFormed f.numVars) (hquiet : ∀ c ∈ f.clauses, u.Quiet u.level c)
    (hquiet' : ∀ c ∈ f.clauses, u'.Quiet u'.level c) (hhead : u.head = u.steps.size)
    (hhead' : u'.head = u'.steps.size) : Alike u u' := by
  have hu := h.wellFormed hf ht
  have hu' := h'.wellFormed hf ht
  have hmarked : u.MarkedIn u' := fun s hs => h.exists_step h' rfl (.refl t) (.refl t) hu.toRecorded
    hs (h.assigns_of_quiet hu' hquiet' (fun _ => h'.assigns) _ ⟨s, hs, rfl⟩)
  have hmarked' : u'.MarkedIn u := fun s hs => h'.exists_step h rfl (.refl t) (.refl t)
    hu'.toRecorded hs (h'.assigns_of_quiet hu hquiet (fun _ => h.assigns) _ ⟨s, hs, rfl⟩)
  have hperm := steps_perm_of_markedIn hu.toRecorded hu'.toRecorded hmarked hmarked'
  refine ⟨values_eq_of_markedIn hu.toRecorded hu'.toRecorded hmarked hmarked',
    levelOf_eq_of_markedIn hu.toRecorded hu'.toRecorded hmarked hmarked',
    h.levelStarts_eq.trans h'.levelStarts_eq.symm, ?_, hperm⟩
  have := hperm.length_eq
  simp only [List.length_map, Array.length_toList] at this
  rw [hhead, hhead', this]

end Trail

open Trail

namespace Propagator

variable {f : Formula} {t : Trail} {p p' : Propagator}

/-! ## Any two propagators -/

/-- A fixpoint is told with everything propagated. -/
theorem propagate_fixpoint {u : Trail} {q : Propagator} (hf : f.Proper)
    (ht : t.WellFormed f.numVars) (h : p.Ready f t)
    (hok : p.propagate f t = .ok (.fixpoint, q, u)) : u.head = u.steps.size := by
  cases p with
  | scan =>
      rcases Scan.propagate_spec hf ht with ⟨o, u', hu', _, _, hhead⟩
      simp only [propagate, hu', Except.ok.injEq, Prod.mk.injEq] at hok
      rcases hok with ⟨_, _, rfl⟩
      exact hhead
  | watch w =>
      rcases WatchIndex.propagate_spec hf ht h with ⟨o, w', u', hu', _, hends, _⟩
      simp only [propagate, hu', Except.ok.injEq, Prod.mk.injEq] at hok
      rcases hok with ⟨rfl, _, rfl⟩
      exact hends.2

/-- Any two propagators that are ready under a trail both find a clause that fails, or both reach a
fixpoint and assign the same. -/
theorem propagate_agree (hf : f.Proper) (ht : t.WellFormed f.numVars) (h : p.Ready f t)
    (h' : p'.Ready f t) :
    ∃ o q u o' q' u', p.propagate f t = .ok (o, q, u) ∧ p'.propagate f t = .ok (o', q', u') ∧
      ((∃ i j, o = .conflict i ∧ o' = .conflict j) ∨
        o = .fixpoint ∧ o' = .fixpoint ∧ Alike u u') := by
  rcases propagate_spec hf ht h with ⟨o, q, u, hok, hforced, hreports, _, _⟩
  rcases propagate_spec hf ht h' with ⟨o', q', u', hok', hforced', hreports', _, _⟩
  have hu := hforced.wellFormed hf ht
  have hu' := hforced'.wellFormed hf ht
  refine ⟨o, q, u, o', q', u', hok, hok', ?_⟩
  -- A clause that fails for one of them cannot be quiet in the end for the other.
  cases o with
  | conflict i =>
      cases o' with
      | conflict j => exact .inl ⟨i, j, rfl, rfl⟩
      | fixpoint =>
          have hsub := hforced.assigns_of_quiet hu' hreports' fun _ => hforced'.assigns
          exact absurd hreports (not_reports_conflict hu' hsub hreports')
  | fixpoint =>
      cases o' with
      | conflict j =>
          have hsub := hforced'.assigns_of_quiet hu hreports fun _ => hforced.assigns
          exact absurd hreports' (not_reports_conflict hu hsub hreports)
      | fixpoint =>
          exact .inr ⟨rfl, rfl, hforced.alike hforced' hf ht hreports hreports'
            (propagate_fixpoint hf ht h hok) (propagate_fixpoint hf ht h' hok')⟩

/-! ## Propagating once more -/

/-- With all clauses quiet and everything propagated, propagating again changes nothing. -/
theorem propagate_settled (hf : f.Proper) (ht : t.WellFormed f.numVars) (h : p.Settled f t)
    (hquiet : ∀ c ∈ f.clauses, t.Quiet t.level c) (hhead : t.head = t.steps.size) :
    p.propagate f t = .ok (.fixpoint, p, t) := by
  -- No clause fails and none forces anything, so whatever is run leaves the trail as it is.
  have hfails : ∀ i, ¬ Outcome.Reports f t (.conflict i) :=
    fun _ => not_reports_conflict ht (fun _ => id) hquiet
  cases p with
  | scan =>
      rcases Scan.propagate_spec hf ht with ⟨o, u, hok, hforced, hreports, hhead'⟩
      have hsame : u.head = t.head := by
        have hsteps : u.steps = (t.withHead u.head).steps :=
          congrArg steps (hforced.eq_withHead ht hquiet)
        rw [hhead', hsteps, hhead]
        rfl
      obtain rfl := hforced.eq_self ht hquiet hsame
      cases o with
      | fixpoint => simp only [propagate, hok]
      | conflict i => exact absurd hreports (hfails i)
  | watch w =>
      have hunits : ∀ i ∈ w.units.toList, ∃ c l, f.clause? i = some c ∧ c.literals = [l] :=
        fun i hi => h.indexes.exists_unit (by simpa using hi)
      rcases WatchIndex.assertUnits_spec hf _ t ht hunits with
        ⟨failed, u, hok, hforced, hhead', hend⟩
      obtain rfl := hforced.eq_self ht hquiet hhead'
      have hempty : w.empties[0]? = none := by
        refine Option.eq_none_iff_forall_ne_some.2 fun i hi => ?_
        rcases h.indexes.exists_empty (Array.mem_of_getElem? hi) with ⟨c, hc, hnil⟩
        exact hfails i ⟨c, hc, by simp [Falsifies, hnil]⟩
      have hnone : u.steps[u.head]? = none := by
        rw [hhead]
        exact Array.getElem?_eq_none le_rfl
      cases failed with
      | some i => exact absurd hend (hfails i)
      | none =>
          have hdrain : ∀ fuel, WatchIndex.drain f fuel w u = .ok (.fixpoint, w, u) := by
            intro fuel
            cases fuel with
            | zero => rfl
            | succ fuel => simp only [WatchIndex.drain, hnone]
          simp only [propagate, WatchIndex.propagate, hempty, hok, hdrain]

end Propagator
end SatSearch
