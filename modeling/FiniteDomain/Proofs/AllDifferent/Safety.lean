import FiniteDomain.Proofs.AllDifferent.Hints
import FiniteDomain.Proofs.AllDifferent.Room
import FiniteDomain.Proofs.AllDifferent.Solutions
import FiniteDomain.Proofs.Model.Rounds

/-!
# Models that do not fault

A model of all different constraints is used in any order of calls, without discipline: states may be
stale or failed, and constraints may share variables.  Still every run of the propagators ends with an
answer, unless a check fails that was asked for.

* `Guarded.turns` says what a step of a run needs, and `Guarded.fixpoint_cases` what a run comes to.
* `Model.counters` are the cells that hold cursors and counts, and `Guarded.read_counters` says that
  none of them falls below zero.
* `Reached.never_faults` gathers the calls that could go wrong.
-/

namespace FiniteDomain.Model

open AllDifferent ValueGraph

variable {m m' : Model AllDifferent} {verdict : Verdict} {vars : List Var} {options : Options}

/-- Some propagator of the model was asked to check what it keeps. -/
def IsChecked (m : Model AllDifferent) : Prop := ∃ p ∈ m.propagators, p.options.checked = true

/-- The constraints that are scheduled exist. -/
def Staffed (due : List Constraint) (m : Model AllDifferent) : Prop :=
  ∀ c ∈ due, c.index < m.propagators.size

/-! ## Runs -/

theorem Follows.isChecked (h : Follows m m') (hchecked : m'.IsChecked) : m.IsChecked := by
  obtain ⟨p', hp', hchecked⟩ := hchecked
  obtain ⟨i, hi, rfl⟩ := Array.mem_iff_getElem.1 hp'
  obtain ⟨p, hp, _, hoptions, _⟩ := h.back (Array.getElem?_eq_getElem hi)
  exact ⟨p, Array.mem_of_getElem? hp, hoptions ▸ hchecked⟩

namespace Guarded

/-- The steps of a run need guarded propagators.  Only checks can fail, and only if `checked`. -/
theorem turns (checked : Prop) :
    Turns (fun due m => m.Guarded ∧ m.Staffed due ∧ (m.IsChecked → checked))
      fun fault => checked ∧ (fault = .brokenMatching ∨ fault = .staleComponents) where
  sound h := h.1.store
  wakes {m} h := by
    obtain ⟨hguarded, hstaffed, hchecked⟩ := h
    obtain ⟨w, hwake⟩ := hguarded.toTallied.exists_wake
    have hfollows := hguarded.wake_follows hwake
    refine ⟨w, hwake, hfollows.guarded, fun c hc => ?_, hchecked ∘ hfollows.isChecked⟩
    rw [hfollows.size_eq]
    obtain hheard | hc := ((Model.wake_eq hwake).2.2.1 c).1 hc
    · obtain ⟨x, hx⟩ := List.exists_mem_of_ne_nil _ hheard
      exact hguarded.fired_lt (mem_heard.1 hx)
    · exact hstaffed c hc
  plans hperm h :=
    ⟨(h.1.plan [] _).guarded, fun c hc => h.2.1 c (hperm.mem_iff.1 hc), h.2.2⟩
  runs {c rest m} h := by
    obtain ⟨hguarded, hstaffed, hchecked⟩ := h
    have hp := Array.getElem?_eq_getElem (hstaffed c (List.mem_cons_self ..))
    obtain ⟨verdict, p', m', hret, hran⟩ | ⟨hasked, hfails, _⟩ := hguarded.runOne_cases hp
    · cases verdict with
      | consistent =>
        refine Or.inl ⟨m', hret, ⟨hran.follows.guarded, fun d hd => ?_,
          hchecked ∘ hran.follows.isChecked⟩, .of_evolves hran.propagated.advance.evolves⟩
        rw [hran.follows.size_eq]
        exact hstaffed d (List.mem_cons_of_mem _ hd)
      | failed why => exact Or.inr (Or.inl ⟨why, m', hret⟩)
    · have hchecked := hchecked ⟨_, Array.mem_of_getElem? hp, hasked⟩
      exact Or.inr (Or.inr (hfails.elim (fun hret => ⟨_, hret, hchecked, Or.inl rfl⟩)
        fun hret => ⟨_, hret, hchecked, Or.inr rfl⟩))

/-- A run of the propagators gets an answer, unless a check fails that was asked for. -/
theorem fixpoint_cases (h : m.Guarded) (hstaffed : m.Staffed m.scheduled) :
    (∃ answer, m.fixpoint = .ok answer) ∨ m.IsChecked ∧ CheckFails m.fixpoint := by
  obtain ⟨m', hret, _⟩ | ⟨why, m', hret⟩ | ⟨fault, hret, hchecked, hfault⟩ :=
    (turns m.IsChecked).fixpoint_cases ⟨h, hstaffed, id⟩
  · exact Or.inl ⟨_, hret⟩
  · exact Or.inl ⟨_, hret⟩
  · refine Or.inr ⟨hchecked, ?_⟩
    rw [CheckFails, hret]
    exact hfault.imp (congrArg Except.error) (congrArg Except.error)

end Guarded

/-! ## Scheduled constraints exist -/

/-- Running constraints schedules none. -/
theorem runAll_scheduled {π : Type} [Propagator π] {cs : List Constraint} {m m' : Model π}
    (h : runAll cs m = .ok (verdict, m')) : m'.scheduled = m.scheduled := by
  induction cs generalizing m with
  | nil =>
    cases h
    rfl
  | cons c rest ih =>
    rw [runAll] at h
    obtain ⟨⟨v, m₁⟩, hone, h⟩ := bind_eq_ok_iff.1 h
    obtain ⟨_, _, _, _, _, heq⟩ := runOne_eq hone
    have hsame : m₁.scheduled = m.scheduled := by rw [heq]
    cases v with
    | failed why =>
      cases h
      exact hsame
    | consistent => exact (ih h).trans hsame

/-- After a run nothing is scheduled. -/
theorem runRounds_scheduled {π : Type} [Propagator π] {fuel : Nat} {m m' : Model π}
    (h : m.runRounds fuel = .ok (verdict, m')) : m'.scheduled = [] := by
  induction fuel generalizing m with
  | zero => cases h
  | succ fuel ih =>
    rw [runRounds] at h
    obtain ⟨w, _, h⟩ := bind_eq_ok_iff.1 h
    split at h
    · rename_i hidle
      cases h
      exact List.isEmpty_iff.1 hidle
    · obtain ⟨⟨v, m₁⟩, hdrain, h⟩ := bind_eq_ok_iff.1 h
      cases v with
      | failed why =>
        cases h
        exact runAll_scheduled hdrain
      | consistent => exact ih h

theorem Staffed.schedule (h : m.Staffed m.scheduled) {c : Constraint}
    (hc : c.index < m.propagators.size) : (m.schedule c).Staffed (m.schedule c).scheduled := by
  have hsame : (m.schedule c).propagators = m.propagators := by
    rw [Model.schedule]
    split
    · rfl
    · rfl
  intro d hd
  rw [hsame]
  obtain rfl | hd := mem_schedule.1 hd
  · exact hc
  · exact h d hd

theorem Extends.staffed (h : Extends m m') (hstaffed : m.Staffed m.scheduled) :
    m'.Staffed m'.scheduled := by
  intro c hc
  rw [h.scheduled_eq] at hc
  have hp := h.propagators_eq _ _ (Array.getElem?_eq_getElem (hstaffed c hc))
  exact (Array.getElem?_eq_some_iff.1 hp).1

/-- A constraint that is enlisted exists. -/
theorem Guarded.enlist_staffed (h : m.Guarded) (hstaffed : m.Staffed m.scheduled)
    (hvars : ∀ x ∈ vars, x.index < m.store.definitions.size)
    (hret : m.enlist id vars options = .ok m') : m'.Staffed m'.scheduled := by
  rw [enlist_eq] at hret
  obtain ⟨⟨c, m₁⟩, hattach, hret⟩ := bind_eq_ok_iff.1 hret
  cases hret
  obtain ⟨p, hattached⟩ := h.attach_eq hvars hattach
  refine (hattached.staffed hstaffed).schedule ?_
  rw [hattached.constraint_eq, hattached.propagators_push, Array.size_push]
  exact Nat.lt_succ_self _

/-- However the model was used, the constraints that are scheduled exist. -/
theorem Reached.staffed (h : m.Reached) : m.Staffed m.scheduled := by
  induction h with
  | start order => exact fun c hc => absurd hc List.not_mem_nil
  | @call m m' c verdict hvalid hret hreached ih =>
    have hguarded := hreached.guarded
    cases c with
    | declare d =>
      obtain ⟨⟨x, m₁⟩, hdeclare, hret⟩ := bind_eq_ok_iff.1 hret
      obtain ⟨s, hs, rfl⟩ := onStore_eq_ok_iff.1 hdeclare
      cases hret
      exact ih
    | add vars options =>
      obtain ⟨⟨c, m₁⟩, hadd, hret⟩ := bind_eq_ok_iff.1 hret
      cases hret
      obtain ⟨p, s, hadded⟩ := hguarded.add_eq hvalid hadd
      rw [hadded.model_eq]
      intro d hd
      rw [Array.size_push]
      exact Nat.lt_succ_of_lt (ih d hd)
    | listen c kind x =>
      obtain ⟨m₁, hlisten, hret⟩ := bind_eq_ok_iff.1 hret
      cases hret
      exact (hguarded.listen_eq hvalid.1 hlisten).1.staffed ih
    | attach vars options =>
      obtain ⟨⟨c, m₁⟩, hattach, hret⟩ := bind_eq_ok_iff.1 hret
      cases hret
      obtain ⟨p, hattached⟩ := hguarded.attach_eq hvalid hattach
      exact hattached.staffed ih
    | schedule c =>
      cases hret
      exact ih.schedule hvalid
    | install vars options =>
      obtain ⟨m₁, _, hret⟩ := bind_eq_ok_iff.1 hret
      rw [runRounds_scheduled hret]
      exact fun c hc => absurd hc List.not_mem_nil
    | attempt a =>
      have hret : m.onStore (·.attempt a) = .ok (verdict, m') := hret
      obtain ⟨s, hs, rfl⟩ := onStore_eq_ok_iff.1 hret
      exact ih
    | save =>
      cases hret
      exact ih
    | restore =>
      obtain ⟨m₁, hrestore, hret⟩ := bind_eq_ok_iff.1 hret
      cases hret
      obtain ⟨_, _, _, _, _, hscheduled, _⟩ := hguarded.restore_eq hrestore
      rw [hscheduled]
      exact fun c hc => absurd hc List.not_mem_nil
    | fixpoint =>
      rw [runRounds_scheduled hret]
      exact fun c hc => absurd hc List.not_mem_nil

/-! ## Cursors and counts -/

/-- The cells of a propagator that hold cursors and counts. -/
def cursors (p : AllDifferent) : List Cell :=
  p.graph.liveTotal :: p.graph.activeTotal :: p.reach.previous :: p.graph.live.toList

/-- The cells of a model that hold cursors and counts, with those of its store, of the domains and of
the propagators. -/
def counters (m : Model AllDifferent) : List Cell :=
  [m.propagatorCount, m.conditionCount, m.store.varCount, m.store.eventCount] ++
    m.store.trail.sets.toList.map SparseSet.size ++ m.propagators.toList.flatMap cursors

/-- A cell that holds a count is read as that count. -/
theorem read_of_get {s : Store} {c : Cell} {n : Nat} (hhas : s.trail.now.Has c)
    (hget : s.trail.now.get c = n) : ∃ n : Nat, s.read c = .ok n :=
  ⟨n, (Trail.read_eq hhas).trans (congrArg Except.ok hget)⟩

/-- No cursor and no count of a propagator is below zero. -/
theorem read_cursors {p : AllDifferent} {s : Store} (h : p.Sound s) :
    ∀ c ∈ cursors p, ∃ n : Nat, s.read c = .ok n := by
  have hintact := h.graph.intact
  have hread : ∀ {r : Role} {c : Cell}, p.graph.cell? r = some c → 0 ≤ p.graph.now s r →
      ∃ n : Nat, s.read c = .ok n := fun hr hnonneg =>
    ⟨_, (read_eq h.graph.wired hr).trans (congrArg Except.ok (Int.toNat_of_nonneg hnonneg).symm)⟩
  simp only [cursors, List.forall_mem_cons]
  refine ⟨hread (r := .liveTotal) rfl ?_, hread (r := .activeTotal) rfl hintact.active_nonneg,
    read_of_get h.previous_has h.shows.limit_eq, fun c hc => ?_⟩
  · rw [hintact.total_eq]
    exact Int.natCast_nonneg _
  · obtain ⟨v, hv, rfl⟩ := Array.mem_iff_getElem.1 (Array.mem_toList_iff.1 hc)
    have hlt : v < p.graph.valueTotal := h.graph.layout.size_live ▸ hv
    exact hread (r := .live v) (Array.getElem?_eq_getElem hv) (hintact.live_nonneg v hlt)

/-- No cursor and no count is below zero. -/
theorem Guarded.read_counters (h : m.Guarded) :
    ∀ c ∈ m.counters, ∃ n : Nat, m.store.read c = .ok n := by
  have htallies := h.toTallied.now
  have hcounts := h.store.counts _ (List.mem_cons_self ..)
  simp only [counters, List.forall_mem_append, List.forall_mem_cons]
  refine ⟨⟨⟨read_of_get htallies.has_propagators htallies.propagators_eq,
    read_of_get htallies.has_conditions htallies.conditions_eq,
    read_of_get hcounts.has_vars hcounts.vars_eq, read_of_get hcounts.has_events hcounts.events_eq,
    fun c hc => absurd hc List.not_mem_nil⟩, fun c hc => ?_⟩, fun c hc => ?_⟩
  · obtain ⟨set, hset, rfl⟩ := List.mem_map.1 hc
    exact h.store.trail.read_size (Array.mem_toList_iff.1 hset)
  · obtain ⟨p, hp, hc⟩ := List.mem_flatMap.1 hc
    obtain ⟨i, hi, rfl⟩ := Array.mem_iff_getElem.1 (Array.mem_toList_iff.1 hp)
    exact read_cursors (h.guarded i _ (Array.getElem?_eq_getElem hi)).toSound c hc

/-! ## What could go wrong -/

/-- However the model was used, a run of the propagators, a hint and a restored level get an answer,
and so does the installation of a constraint once its value graph was built: nothing is indexed out of
bounds, no value leaves the signed 64-bit range and no assertion fails but a check that was asked for.
No cursor and no count is below zero, neither in the model nor when a constraint runs.  A level must
have been saved to be restored, and a constraint cannot be added when the number of constraints or of
conditions does not fit into a word. -/
theorem Reached.never_faults (h : m.Reached) :
    (∀ c ∈ m.counters, ∃ n : Nat, m.store.read c = .ok n) ∧
    (∀ d m', (d, m') ∈ m.runs → ∀ c ∈ m'.counters, ∃ n : Nat, m'.store.read c = .ok n) ∧
    ((∃ answer, m.fixpoint = .ok answer) ∨ m.IsChecked ∧ CheckFails m.fixpoint) ∧
    (∃ hint, m.hint? = .ok hint) ∧
    ((∃ m', m.restore = .ok m') ∨ m.store.trail.past = [] ∧ m.restore = .error .rootLevel) ∧
    ∀ vars options built, (∀ x ∈ vars, x.index < m.store.definitions.size) →
      ValueGraph.build m.store vars.toArray = .ok built →
      (∃ answer, m.install id vars options = .ok answer) ∨
      (m.IsChecked ∨ options.checked = true) ∧ CheckFails (m.install id vars options) ∨
      Word.greatest ≤ m.propagators.size ∨ Word.greatest < m.conditions.size + vars.length := by
  obtain ⟨hint, hhint, _⟩ := h.guarded.hint?_eq
  refine ⟨h.guarded.read_counters, fun d m' hruns => ?_, h.guarded.fixpoint_cases h.staffed,
    ⟨hint, hhint⟩, h.guarded.toTallied.restore_cases, fun vars options built hvars hbuild => ?_⟩
  · obtain ⟨_, hm', _⟩ :=
      (Guarded.turns m.IsChecked).turning.mem_runs ⟨h.guarded, h.staffed, id⟩ hruns
    exact hm'.read_counters
  have hnew : ∃ made, AllDifferent.new m.store vars.toArray options = .ok made := by
    rw [AllDifferent.new, hbuild]
    exact ⟨_, rfl⟩
  obtain ⟨⟨p, s⟩, hnew⟩ := hnew
  by_cases hfull : Word.greatest ≤ m.propagators.size ∨
      Word.greatest < m.conditions.size + vars.length
  · exact Or.inr (Or.inr hfull)
  rw [not_or, Int.not_le, Int.not_lt] at hfull
  obtain ⟨m₁, henlist⟩ := h.guarded.exists_enlist hvars hnew hfull.1 hfull.2
  have hguarded := h.guarded.enlist hvars henlist
  have hinstall : m.install id vars options = m₁.fixpoint := by
    rw [install, henlist, ok_bind]
  rw [hinstall]
  obtain hanswer | ⟨⟨q, hq, hchecked⟩, hfails⟩ :=
    hguarded.fixpoint_cases (h.guarded.enlist_staffed h.staffed hvars henlist)
  · exact Or.inl hanswer
  · refine Or.inr (Or.inl ⟨?_, hfails⟩)
    obtain ⟨_, _, _, p, hpush, _, hoptions⟩ := h.guarded.enlisted hvars henlist
    rw [hpush, Array.mem_push] at hq
    obtain hq | rfl := hq
    · exact Or.inl ⟨q, hq, hchecked⟩
    · exact Or.inr (hoptions ▸ hchecked)

/-- A variable and its opposite are constrained, with the variable once more, so that a run fails.
The failure is not restored, and another level is saved. -/
def failing : List Call :=
  [.declare (.primitive 0 3), .declare (.negate ⟨0⟩), .declare (.primitive 0 1),
    .attach [⟨0⟩, ⟨1⟩, ⟨2⟩, ⟨0⟩] .usual, .schedule ⟨0⟩, .fixpoint, .save, .attempt (.remove ⟨2⟩ 0),
    .schedule ⟨0⟩]

/-- In a failed state no cursor is below zero, a run, a hint and a restored level get an answer, and the
same variables can be constrained again. -/
theorem Reached.never_faults_failing : ∃ m built, (Model.empty .lastFirst).performAll failing = .ok m ∧
    ValueGraph.build m.store #[⟨0⟩, ⟨1⟩, ⟨2⟩, ⟨0⟩] = .ok built ∧
    (∀ c ∈ m.counters, ∃ n : Nat, m.store.read c = .ok n) ∧
    (∃ answer, m.fixpoint = .ok answer) ∧ (∃ hint, m.hint? = .ok hint) ∧
    (∃ m', m.restore = .ok m') ∧
    ∃ answer, m.install id [⟨0⟩, ⟨1⟩, ⟨2⟩, ⟨0⟩] .usual = .ok answer := by
  have hrun : ((Model.empty .lastFirst).performAll failing >>= fun m =>
      ValueGraph.build m.store #[⟨0⟩, ⟨1⟩, ⟨2⟩, ⟨0⟩] >>= fun _ =>
        .ok (m.propagators.toList.map fun p => p.options.checked, m.conditions.size,
          m.store.definitions.size, decide (m.store.trail.past = []))) =
      .ok ([false], 2, 3, false) := by
    decide +kernel
  obtain ⟨m, hm, hrun⟩ := bind_eq_ok_iff.1 hrun
  obtain ⟨built, hbuild, hrun⟩ := bind_eq_ok_iff.1 hrun
  injection hrun with hrun
  simp only [Prod.mk.injEq, decide_eq_false_iff_not] at hrun
  obtain ⟨hoptions, hconditions, hsize, hpast⟩ := hrun
  obtain ⟨hcounters, _, hfixpoint, hhint, hrestore, hinstall⟩ :=
    Reached.never_faults ((Reached.start _).performAll hm)
  -- There is one constraint, and it is not checked.
  have hunchecked : ¬ m.IsChecked := by
    rintro ⟨p, hp, hchecked⟩
    have hmem := List.mem_map_of_mem (f := fun p => p.options.checked) (Array.mem_def.1 hp)
    rw [hoptions, List.mem_singleton, hchecked] at hmem
    cases hmem
  have hone : m.propagators.size = 1 := by
    have hlength := congrArg List.length hoptions
    rwa [List.length_map, Array.length_toList] at hlength
  refine ⟨m, built, hm, hbuild, hcounters, hfixpoint.resolve_right fun h => hunchecked h.1, hhint,
    hrestore.resolve_right fun h => hpast h.1, ?_⟩
  obtain hanswer | ⟨hchecked | hchecked, _⟩ | hfull | hfull :=
    hinstall [⟨0⟩, ⟨1⟩, ⟨2⟩, ⟨0⟩] .usual built (by rw [hsize]; decide) hbuild
  · exact hanswer
  · exact absurd hchecked hunchecked
  · cases hchecked
  · rw [hone] at hfull
    exact absurd hfull (by decide)
  · rw [hconditions] at hfull
    exact absurd hfull (by decide)

end FiniteDomain.Model
