import FiniteDomain.Proofs.AllDifferent.Hosting

/-!
# Disciplined runs with an all different constraint

An all different constraint is installed in a model with any other propagators, and the model is
used with discipline: a level is saved only while nothing is left to do, and restored after every
failure.

* `Model.Deals` is what clients do within a level, `Orderly.deals` says that they do no more.
* `Orderly.minds_enlist` is about a constraint that is added, `Minds.save` and `Hosts.restore` are
  about levels.
* `Model.Conducted` are the runs with discipline, and `Model.Hosted` those in which the constraint
  was added and is still there.  `Model.Tracks` is what they keep: `Tracks.apply`, `Hosted.tracks`.
* `Hosted.assured` is what the constraint can rely on whenever it runs.
-/

namespace FiniteDomain

/-- Where variables and cells are added, no domain is emptied. -/
theorem Store.Grown.alive {s s' : Store} (h : s.Grown s') : s.Alive s' := by
  intro q hq
  obtain hlt | hle := Nat.lt_or_ge q.index s.definitions.size
  · rw [h.domain_eq q hlt]
    exact hq
  · exact absurd (Store.domain_eq_empty hle) hq

/-- A level is saved only while nothing is left to do, and after a failure a level is restored. -/
def Operation.Disciplined {π : Type} (m : Model π) (last : Verdict) : Operation π → Prop
  | .restore => True
  | .save => last = .consistent ∧ m.Quiet
  | _ => last = .consistent

theorem Operation.Disciplined.consistent {π : Type} {m : Model π} {last : Verdict}
    {op : Operation π} (h : op.Disciplined m last) (hrestore : op ≠ .restore) :
    last = .consistent := by
  cases op with
  | restore => exact absurd rfl hrestore
  | save => exact h.1
  | _ => exact h

namespace Model

open AllDifferent ValueGraph Tame

variable {π : Type} [Propagator π] [Tame π] {candid : Prop} {wrap : AllDifferent → π}
  {m m' m'' : Model π} {i : Nat} {p : AllDifferent} {due : List Constraint}
  {c : Constraint} {verdict last : Verdict} {op : Operation π} {ops : List (Operation π)}
  {vars : List Var} {options : Options}

/-! ## What clients do within a level -/

/-- Nothing happened to the store but that it grew, that domains were narrowed and that constraints
and listeners were counted.  The propagators are the same, or have more behind them. -/
structure Deals (m : Model π) (verdict : Verdict) (m' : Model π) : Prop extends Proceeds m m' where
  acts : m.store.Acts (fun d => d = m.propagatorCount ∨ d = m.conditionCount) m'.store
  alive : verdict = .consistent → m.store.Alive m'.store
  propagators_eq : ∀ (j : Nat) (q : π), m.propagators[j]? = some q → m'.propagators[j]? = some q
  scheduled : ∀ d ∈ m.scheduled, d ∈ m'.scheduled

theorem Deals.refl (h : m.Orderly) : Deals m verdict m :=
  ⟨.refl h, .done, fun _ => .refl _, fun _ _ hq => hq, fun _ hd => hd⟩

theorem Deals.trans (h : Deals m .consistent m') (h' : Deals m' verdict m'') :
    Deals m verdict m'' := by
  have hacts := h'.acts
  rw [h.keeps.propagatorCount_eq, h.keeps.conditionCount_eq] at hacts
  exact ⟨h.toProceeds.trans h'.toProceeds, h.acts.trans hacts,
    fun hwell => (h.alive rfl).trans (h'.alive hwell),
    fun j q hq => h'.propagators_eq j q (h.propagators_eq j q hq),
    fun d hd => h'.scheduled d (h.scheduled d hd)⟩

/-- A variable has the primitive variable that it had. -/
theorem Deals.source_eq (h : Deals m verdict m') (hm : m.store.Sound) {x y : Var}
    (hsource : m.store.source x = .ok y) : m'.store.source x = .ok y := by
  rw [Store.source, h.acts.path_eq hm (Store.lt_of_source hsource)]
  exact hsource

/-- Clients do nothing that a propagator is not told of. -/
theorem Minds.deals {due' : List Constraint} (h : m.Minds candid wrap i p due)
    (hwrap : Embeds wrap) (hd : Deals m verdict m') (hdue : ⟨i⟩ ∈ due → ⟨i⟩ ∈ due') :
    Passes candid wrap i p m verdict due' p m' := by
  refine h.passes_acts hwrap hd.toProceeds hd.acts (fun d ho heq => ?_) (fun _ => hd.alive)
    (hd.propagators_eq i _ h.here) hdue
  obtain ⟨hpropagators, hconditions⟩ := h.uncounted i _ d h.here (Or.inr (hwrap.relied ho))
  exact heq.elim hpropagators hconditions

namespace Orderly

/-- A constraint is made to listen. -/
theorem deals_listen (h : m.Orderly) (hc : c.index < m.propagators.size) {kind : Condition.Kind}
    {x : Var} (hret : m.listen c kind x = .ok m') :
    Deals m .consistent m' ∧ m'.propagators = m.propagators ∧
      ∃ y, m.store.source x = .ok y ∧ (⟨kind, y⟩, c) ∈ m'.conditions := by
  obtain ⟨horderly, hsame⟩ := h.listen hc hret
  have hstays : Stays m m' := .of_same horderly (h.toTallied.keeps_listen hc hret)
    fun j q hq => by rwa [hsame]
  obtain ⟨y, hy, _, ⟨hmem, rfl⟩ | ⟨s, hwrote, rfl⟩⟩ := h.toTallied.listen_cases hc hret
  · exact ⟨.refl h, rfl, y, hy, hmem⟩
  · exact ⟨⟨⟨hstays, fun _ hpair => Array.mem_push_of_mem _ hpair⟩,
      .of_evolves (hwrote.toEvolves.mono fun _ => Or.inr), fun _ => .of_eq hwrote.domain_eq,
      fun _ _ hq => hq, fun _ hd => hd⟩, rfl, y, hy, Array.mem_push_self ..⟩

/-- A constraint is scheduled. -/
theorem deals_schedule (h : m.Orderly) (c : Constraint) : Deals m verdict (m.schedule c) := by
  have hsame : (m.schedule c).store = m.store ∧ (m.schedule c).propagators = m.propagators ∧
      (m.schedule c).conditions = m.conditions := by
    rw [Model.schedule]
    split <;> exact ⟨rfl, rfl, rfl⟩
  have hkept : ∀ (j : Nat) (q : π), m.propagators[j]? = some q →
      (m.schedule c).propagators[j]? = some q := fun _ _ hq => hsame.2.1 ▸ hq
  exact ⟨⟨.of_same (h.schedule c) (schedule_keeps m c) hkept, fun _ hpair => hsame.2.2 ▸ hpair⟩,
    hsame.1 ▸ .done, fun _ => hsame.1 ▸ .refl _, hkept, fun _ hd => mem_schedule.2 (Or.inr hd)⟩

/-- What clients do, but for saving and restoring levels and running the propagators. -/
theorem deals (h : m.Orderly) (hallows : m.Allows op) (hsave : op ≠ .save)
    (hrestore : op ≠ .restore) (hfixpoint : op ≠ .fixpoint)
    (hret : m.apply op = .ok (verdict, m')) : Deals m verdict m' := by
  have hstays := h.stays_apply hallows hsave hrestore hret
  cases op with
  | declare d =>
    obtain ⟨⟨x, m₁⟩, hdeclare, hret⟩ := bind_eq_ok_iff.1 hret
    obtain ⟨s, hs, rfl⟩ := onStore_eq_ok_iff.1 hdeclare
    cases hret
    have hgrown := Declaration.declare_grown h.store hallows.inRange hs
    exact ⟨⟨hstays, fun _ hpair => hpair⟩, .grown hgrown .done, fun _ => hgrown.alive,
      fun _ _ hq => hq, fun _ hd => hd⟩
  | post make =>
    obtain ⟨⟨p, m₁⟩, hmake, hret⟩ := bind_eq_ok_iff.1 hret
    obtain ⟨s, hs, rfl⟩ := onStore_eq_ok_iff.1 hmake
    obtain ⟨⟨c, m₂⟩, hpost, hret⟩ := bind_eq_ok_iff.1 hret
    cases hret
    obtain ⟨hgrown, _⟩ := hallows.posts make rfl p s hs
    obtain ⟨s₂, hwrote, _, rfl, _⟩ := (h.of_grown hgrown).toTallied.post_eq hpost
    exact ⟨⟨hstays, fun _ hpair => hpair⟩,
      .evolves (hwrote.toEvolves.mono fun _ => Or.inl) (.grown hgrown .done),
      fun _ => hgrown.alive.trans (.of_eq hwrote.domain_eq), fun j q hq => by
        rw [Array.getElem?_push_lt (Array.getElem?_eq_some_iff.1 hq).1]
        exact (Array.getElem?_eq_getElem _).symm.trans hq, fun _ hd => hd⟩
  | listen c kind x =>
    obtain ⟨m₁, hlisten, hret⟩ := bind_eq_ok_iff.1 hret
    cases hret
    exact (h.deals_listen hallows.inRange.1 hlisten).1
  | schedule c =>
    cases hret
    exact h.deals_schedule c
  | attempt a =>
    have hret : m.onStore (·.attempt a) = .ok (verdict, m') := hret
    obtain ⟨s, hs, rfl⟩ := onStore_eq_ok_iff.1 hret
    obtain ⟨_, _, _, _, hshrinks, _⟩ := Store.attempt_spec h.store hs
    refine ⟨⟨hstays, fun _ hpair => hpair⟩,
      .of_evolves (hshrinks.toEvolves.mono fun _ => False.elim), ?_, fun _ _ hq => hq,
      fun _ hd => hd⟩
    rintro rfl
    exact Store.alive_attempt h.store hs
  | save => exact absurd rfl hsave
  | restore => exact absurd rfl hrestore
  | fixpoint => exact absurd rfl hfixpoint

end Orderly

/-! ## Levels -/

/-- When nothing is due and nothing happened, the propagator is at rest. -/
theorem Minds.calm (h : m.Minds candid wrap i p []) (hquiet : m.Quiet) :
    AtRest candid (p.shown m.store) := by
  refine ⟨h.lasting, h.firm.resolve_right fun hfirst => List.not_mem_nil hfirst.2,
    fun hcandid => (h.settled hcandid).mono fun x _ hlate => ?_⟩
  obtain hwaits | hpending := hlate
  · exact List.not_mem_nil (h.waiting (List.ne_nil_of_mem hwaits))
  · exact hquiet.not_pending h.store _ hpending

/-- A level is saved. -/
theorem Minds.save (h : m.Minds candid wrap i p []) (hwrap : Embeds wrap) (hquiet : m.Quiet)
    (hlistens : m.Listens i p) : m.save.Minds candid wrap i p [] ∧ m.save.Listens i p := by
  obtain ⟨_, hsight, hpast, hnow⟩ := (h.guarded hwrap).save
  have hshown : p.shown m.save.store = p.shown m.store :=
    (hsight _).trans (congrArg (p.sight m.store) hnow)
  refine ⟨⟨⟨h.toOrderly.save, h.here, fun w hw hseen => ?_⟩, ?_, ?_, h.waiting, ?_⟩,
    hlistens.now, fun w hw hseen x hx => ?_⟩
  · rw [show p.sight m.save.store w = _ from hsight w]
    obtain rfl | hw := List.mem_cons.1 (hpast ▸ hw)
    · exact h.calm hquiet
    · exact h.past w hw hseen
  · rw [hshown]
    exact h.lasting
  · rw [hshown]
    exact h.settled
  · rw [hshown]
    exact h.firm
  · obtain rfl | hw := List.mem_cons.1 (hpast ▸ hw)
    · obtain ⟨k, hk, hpair⟩ := Array.mem_iff_getElem.1 (hlistens.now x hx)
      refine ⟨k, h.conditions_now.symm ▸ hk, ?_⟩
      exact (Array.getElem?_eq_getElem hk).trans (congrArg some hpair)
    · exact hlistens.past w hw hseen x hx

/-- A level is restored in which there was the constraint.  Nothing is due afterwards. -/
theorem Hosts.restore (h : m.Hosts candid wrap i p) (hwrap : Embeds wrap)
    (hlistens : m.Listens i p) (hret : m.restore = .ok m') (hstill : i < m'.propagators.size) :
    m'.Minds candid wrap i p.onRestore [] ∧ m'.Listens i p.onRestore ∧ m'.scheduled = [] := by
  obtain ⟨horderly, hquiet, _⟩ := h.toOrderly.restore hret
  obtain ⟨w, rest, s, hpast, hrestored, rfl, _⟩ := h.toTallied.restore_eq hret
  have hmem : w ∈ m.store.trail.past := hpast ▸ List.mem_cons_self ..
  have hold : ∀ w' ∈ s.trail.past, w' ∈ m.store.trail.past := fun w' hw' => by
    rw [hpast, ← hrestored.past_eq]
    exact List.mem_cons_of_mem _ hw'
  have hseen : i < m.constraintsIn w := by
    rwa [Array.size_map, Trail.size_shrink (h.past_le hmem).1] at hstill
  obtain ⟨_, hshown, hrecalls⟩ := (h.guarded hwrap).restored hpast hrestored hseen
  have hrest := h.past w hmem hseen
  rw [← hshown] at hrest
  have hhere : ((m.propagators.shrink (m.constraintsIn w)).map Propagator.onRestore)[i]? =
      some (wrap p.onRestore) := by
    rw [Array.getElem?_map, Trail.getElem?_shrink, if_pos hseen, h.here, Option.map_some,
      hwrap.onRestore_eq]
  have hafter : ∀ w' ∈ s.trail.past, m.conditionsIn w' ≤ m.conditionsIn w := by
    have hpairs := (List.pairwise_cons.1 h.after).2
    rw [hpast] at hpairs
    exact fun w' hw' => ((List.pairwise_cons.1 hpairs).1 w' (hrestored.past_eq ▸ hw')).2
  have hkept : ∀ {k : Nat}, k < m.conditionsIn w →
      (m.conditions.shrink (m.conditionsIn w))[k]? = m.conditions[k]? := fun hk => by
    rw [Trail.getElem?_shrink, if_pos hk]
  refine ⟨⟨⟨horderly, hhere, fun w' hw' hseen' => ?_⟩, hrest.lasting,
    fun hcandid => (hrest.settled hcandid).mono fun _ _ => False.elim, fun hne => absurd rfl hne,
    Or.inl hrest.covered⟩, ⟨fun x hx => ?_, fun w' hw' hseen' x hx => ?_⟩, hquiet.2⟩
  · rw [hrecalls w' hw' hseen']
    exact h.past w' (hold w' hw') hseen'
  · obtain ⟨k, hk, hpair⟩ := hlistens.past w hmem hseen x hx
    exact Array.mem_of_getElem? ((hkept hk).trans hpair)
  · obtain ⟨k, hk, hpair⟩ := hlistens.past w' (hold w' hw') hseen' x hx
    exact ⟨k, hk, (hkept (Nat.lt_of_lt_of_le hk (hafter w' hw'))).trans hpair⟩

/-! ## The constraint is added -/

/-- A constraint is made to listen to all changes of several variables. -/
theorem Orderly.deals_listenAll (h : m.Orderly) (hc : c.index < m.propagators.size)
    (hret : listenAll c vars m = .ok m') : Deals m .consistent m' ∧
      ∀ x ∈ vars, ∃ y, m'.store.source x = .ok y ∧ (⟨.domainChanged, y⟩, c) ∈ m'.conditions := by
  induction vars generalizing m with
  | nil =>
    cases hret
    exact ⟨.refl h, nofun⟩
  | cons x rest ih =>
    obtain ⟨m₁, hlisten, hret⟩ := bind_eq_ok_iff.1 hret
    obtain ⟨hfirst, hsame, y, hy, hpair⟩ := h.deals_listen hc hlisten
    obtain ⟨hdeals, hlistens⟩ := ih hfirst.orderly (by rwa [hsame]) hret
    refine ⟨hfirst.trans hdeals, List.forall_mem_cons.2 ⟨⟨y, ?_, hdeals.listens _ hpair⟩, hlistens⟩⟩
    exact hdeals.source_eq hfirst.orderly.store (hfirst.source_eq h.store hy)

/-- The propagator of a constraint that was just posted is settled and never ran. -/
theorem Orderly.minds_post {s : Store} (h : m.Orderly) (candid : Prop) (hwrap : Embeds wrap)
    (hnew : AllDifferent.new m.store vars.toArray options = .ok (p, s))
    (hpost : ({ m with store := s } : Model π).post (wrap p) = .ok (c, m')) :
    c.index = m.propagators.size ∧ m'.Minds candid wrap c.index p [c] ∧ p.graph.vars = vars.toArray ∧
      ∀ w ∈ m'.store.trail.past, m'.constraintsIn w ≤ c.index := by
  have hcreated := AllDifferent.new_eq h.store
    (fun x hx => AllDifferent.lt_of_new hnew x (List.mem_toArray.1 hx)) hnew
  obtain ⟨hgrown, hadmits⟩ := h.admits_new hwrap.toWraps hnew
  have hgrew := h.of_grown hgrown
  obtain ⟨horderly, _, hpush, _⟩ := hgrew.post hadmits hpost
  obtain ⟨s₂, hwrote, rfl, rfl, _⟩ := hgrew.toTallied.post_eq hpost
  have hfresh : p.Guarded s fun _ => False := hcreated.guarded fun _ _ => id
  have hshown : p.shown s₂ = p.shown s :=
    (hfresh.of_wrote hwrote fun ho => hcreated.new _ ho h.now.has_propagators).2.2
  refine ⟨rfl, ⟨⟨horderly, ?_, fun w hw hseen => ?_⟩, ?_, fun _ => ?_, fun hne => ?_, Or.inr ?_⟩,
    hcreated.vars_eq, ?_⟩
  · rw [hpush]
    exact Array.getElem?_push_size
  · -- The constraint is in no frame of the past.
    exact absurd hseen (Nat.not_lt.2 (hgrew.toTallied.past_le (hwrote.past_eq ▸ hw)).1)
  · rw [hshown]
    exact hcreated.lasting
  · rw [hshown]
    exact hcreated.settled.mono fun _ _ => False.elim
  · rw [hcreated.work_eq] at hne
    exact absurd rfl hne
  · exact ⟨hcreated.ready_eq, List.mem_singleton_self _⟩
  · exact fun w hw => (hgrew.toTallied.past_le (hwrote.past_eq ▸ hw)).1

/-- A constraint is added, listens to its variables and is scheduled. -/
theorem Orderly.minds_enlist (h : m.Orderly) (hwrap : Embeds wrap)
    (hret : m.enlist wrap vars options = .ok m') : ∃ p,
      m'.Minds candid wrap m.propagators.size p m'.scheduled ∧ m'.Listens m.propagators.size p ∧
        p.graph.vars = vars.toArray := by
  obtain ⟨⟨p, m₁⟩, hnew, hret⟩ := bind_eq_ok_iff.1 hret
  obtain ⟨s, hs, rfl⟩ := onStore_eq_ok_iff.1 hnew
  obtain ⟨⟨c, m₂⟩, hpost, hret⟩ := bind_eq_ok_iff.1 hret
  obtain ⟨m₃, hlisten, heq⟩ := bind_eq_ok_iff.1 hret
  cases heq
  obtain ⟨hc, hminds, hvars, hnew⟩ := h.minds_post candid hwrap hs hpost
  rw [← hc]
  obtain ⟨hdeals, hlistens⟩ := hminds.toOrderly.deals_listenAll hminds.index_lt hlisten
  have hguarded := (hminds.deals hwrap hdeals id).hosts.guarded hwrap
  have hlater : Deals m₃ .consistent (m₃.schedule c) := hdeals.orderly.deals_schedule c
  have hdeals := hdeals.trans hlater
  have hdue : ⟨c.index⟩ ∈ (m₃.schedule c).scheduled := mem_schedule.2 (Or.inl rfl)
  refine ⟨p, (hminds.deals hwrap hdeals fun _ => hdue).minds rfl,
    ⟨fun x hx => ?_, fun w hw hseen => ?_⟩, hvars⟩
  · have hmem : p.graph.varOf x ∈ vars := by
      rw [← List.mem_toArray, ← hvars]
      exact mem_vars.2 ⟨x, hx, rfl⟩
    obtain ⟨y, hy, hlistening⟩ := hlistens _ hmem
    obtain ⟨b, rfl, _, hsource, _⟩ := hguarded.store.base_of_source hy
    obtain ⟨b', hsource', hb'⟩ := hguarded.anchored.source_eq x hx
    obtain rfl : b = b' := Except.ok.inj (hsource.symm.trans hsource')
    rw [← hb']
    exact hlater.listens _ hlistening
  · rw [hdeals.keeps.constraintsIn_eq] at hseen
    rw [hdeals.keeps.store.past_eq] at hw
    exact absurd hseen (Nat.not_lt.2 (hnew w hw))

/-! ## Runs with discipline -/

/-- What disciplined operations make of a new model, with the answer of the last one. -/
inductive Conducted : Model π → Verdict → Prop
  | start (order : DrainOrder) : Conducted (Model.empty order) .consistent
  | step {m m' : Model π} {op : Operation π} {last verdict : Verdict} (hallows : m.Allows op)
      (hdiscipline : op.Disciplined m last) (hret : m.apply op = .ok (verdict, m')) :
      Conducted m last → Conducted m' verdict

/-- In a run with discipline the constraint `c` was added, and it is still there. -/
inductive Hosted (wrap : AllDifferent → π) (c : Constraint) (vars : List Var) (options : Options) :
    Model π → Verdict → Prop
  | added {m m' : Model π} (hrun : Conducted m .consistent) (hnew : c.index = m.propagators.size)
      (hret : m.enlist wrap vars options = .ok m') : Hosted wrap c vars options m' .consistent
  | step {m m' : Model π} {op : Operation π} {last verdict : Verdict} (hallows : m.Allows op)
      (hdiscipline : op.Disciplined m last) (hret : m.apply op = .ok (verdict, m'))
      (hstill : c.index < m'.propagators.size) :
      Hosted wrap c vars options m last → Hosted wrap c vars options m' verdict

theorem Conducted.orderly (h : Conducted m last) : m.Orderly := by
  induction h with
  | start order => exact .empty order
  | step hallows _ hret _ ih => exact ih.apply hallows hret

/-- What holds of the constraint after an operation with the answer `last`. -/
structure Tracks (candid : Prop) (wrap : AllDifferent → π) (i : Nat) (vars : List Var)
    (p : AllDifferent) (last : Verdict) (m : Model π) : Prop extends Hosts candid wrap i p m where
  vars_eq : p.graph.vars = vars.toArray
  listens : m.Listens i p
  minds : last = .consistent → m.Minds candid wrap i p m.scheduled

/-- What holds of the constraint still does. -/
theorem Tracks.passes (h : m.Tracks candid wrap i vars p last)
    (hpasses : Passes candid wrap i p m verdict due p' m')
    (hdue : verdict = .consistent → m'.scheduled = due) :
    m'.Tracks candid wrap i vars p' verdict := by
  refine ⟨hpasses.hosts, hpasses.alike.vars_eq.trans h.vars_eq,
    hpasses.proceeds.keeps_listening hpasses.alike h.listens, fun hwell => ?_⟩
  rw [hdue hwell]
  exact hpasses.minds hwell

/-- A disciplined operation is done, and the constraint is still there. -/
theorem Tracks.apply (h : m.Tracks candid wrap i vars p last) (hfrank : candid → Frank π)
    (hwrap : Embeds wrap) (hallows : m.Allows op) (hdiscipline : op.Disciplined m last)
    (hret : m.apply op = .ok (verdict, m')) (hstill : i < m'.propagators.size) :
    ∃ p', m'.Tracks candid wrap i vars p' verdict := by
  by_cases hrestore : op = .restore
  · subst hrestore
    obtain ⟨m₁, hret, heq⟩ := bind_eq_ok_iff.1 hret
    cases heq
    obtain ⟨hminds, hlistens, hscheduled⟩ := h.toHosts.restore hwrap h.listens hret hstill
    refine ⟨p.onRestore, hminds.toHosts, h.vars_eq, hlistens, fun _ => ?_⟩
    rw [hscheduled]
    exact hminds
  have hminds := h.minds (hdiscipline.consistent hrestore)
  by_cases hsave : op = .save
  · subst hsave
    cases hret
    have hquiet : m.Quiet := hdiscipline.2
    have hscheduled : m.save.scheduled = [] := hquiet.2
    rw [hquiet.2] at hminds
    obtain ⟨hminds, hlistens⟩ := hminds.save hwrap hquiet h.listens
    refine ⟨p, hminds.toHosts, h.vars_eq, hlistens, fun _ => ?_⟩
    rw [hscheduled]
    exact hminds
  by_cases hfixpoint : op = .fixpoint
  · subst hfixpoint
    obtain ⟨⟨p', hpasses⟩, hquiet⟩ := hminds.fixpoint hfrank hwrap h.listens hret
    exact ⟨p', h.passes hpasses fun hwell => (hquiet hwell).2⟩
  · have hdeals := h.toOrderly.deals hallows hsave hrestore hfixpoint hret
    exact ⟨p, h.passes (hminds.deals hwrap hdeals (hdeals.scheduled _)) fun _ => rfl⟩

/-- Disciplined runs never lose sight of the constraint.  The induction is on the run since it was
added. -/
theorem Hosted.tracks (h : Hosted wrap c vars options m last) (hfrank : candid → Frank π)
    (hwrap : Embeds wrap) : ∃ p, m.Tracks candid wrap c.index vars p last := by
  induction h with
  | added hrun hnew hret =>
    obtain ⟨p, hminds, hlistens, hvars⟩ := hrun.orderly.minds_enlist hwrap hret
    rw [← hnew] at hminds hlistens
    exact ⟨p, hminds.toHosts, hvars, hlistens, fun _ => hminds⟩
  | step hallows hdiscipline hret hstill _ ih =>
    obtain ⟨p, htracks⟩ := ih
    exact htracks.apply hfrank hwrap hallows hdiscipline hret hstill

/-- Whenever the constraint runs, it can rely on its matching, its tags and what it counted last. -/
theorem Hosted.assured (h : Hosted wrap c vars options m .consistent) (hwrap : Embeds wrap)
    (hruns : (c, m') ∈ m.runs) : ∃ p, m'.propagators[c.index]? = some (wrap p) ∧
      p.Sound m'.store ∧ (p.shown m'.store).Honest ∧ p.Assured m'.store ∧
      (p.shown m'.store).graph.Bounded (p.shown m'.store).limit := by
  obtain ⟨p, htracks⟩ := h.tracks False.elim hwrap
  obtain ⟨rest, p', hminds, _⟩ :=
    (Minds.turning hwrap).mem_runs ⟨p, htracks.minds rfl, htracks.listens⟩ hruns
  have hguarded := hminds.guarded hwrap
  exact ⟨p', hminds.here, hguarded.toSound, hguarded.honest, hminds.assured, hminds.lasting.bounded⟩

/-! ## Runs that are given -/

instance (m : Model π) (last : Verdict) : DecidablePred (Operation.Disciplined m last)
  | .restore => .isTrue trivial
  | .save => inferInstanceAs (Decidable (_ ∧ _ ∧ _))
  | .declare _ | .post _ | .listen _ _ _ | .schedule _ | .attempt _ | .fixpoint =>
    inferInstanceAs (Decidable (last = .consistent))

/-- Does several operations with discipline that leave at least `n` constraints, and gives the answer
of the last one. -/
def conductAll (n : Nat) (last : Verdict) (m : Model π) :
    List (Operation π) → Except Fault (Verdict × Model π)
  | [] => .ok (last, m)
  | op :: ops =>
    if op.InRange m ∧ op.Disciplined m last then do
      let (verdict, m) ← m.apply op
      if n ≤ m.propagators.size then
        m.conductAll n verdict ops
      else
        .error .outOfBounds
    else
      .error .outOfBounds

/-- What welcome operations keep if they are disciplined and leave at least `n` constraints. -/
theorem conductAll_induction {P : Model π → Verdict → Prop} {n : Nat}
    (horderly : ∀ {m last}, P m last → m.Orderly)
    (hstep : ∀ {m m' op last verdict}, m.Allows op → op.Disciplined m last →
      m.apply op = .ok (verdict, m') → n ≤ m'.propagators.size → P m last → P m' verdict)
    (hops : ∀ op ∈ ops, Welcome op) (h : P m last)
    (hret : m.conductAll n last ops = .ok (verdict, m')) : P m' verdict := by
  induction ops generalizing m last with
  | nil =>
    cases hret
    exact h
  | cons op rest ih =>
    obtain ⟨hop, hrest⟩ := List.forall_mem_cons.1 hops
    rw [conductAll] at hret
    split at hret
    · rename_i hchecked
      obtain ⟨⟨v, m₁⟩, happly, hret⟩ := bind_eq_ok_iff.1 hret
      dsimp only at hret
      split at hret
      · rename_i hle
        exact ih hrest (hstep (hop m (horderly h) hchecked.1) hchecked.2 happly hle h) hret
      · cases hret
    · cases hret

/-- Welcome operations that are disciplined, before the constraint is added and afterwards. -/
theorem Hosted.of_conductAll {order : DrainOrder} {m₀ m₁ : Model π} {before after : List (Operation π)}
    (hwrap : Embeds wrap) (hbefore : ∀ op ∈ before, Welcome op) (hafter : ∀ op ∈ after, Welcome op)
    (hm₀ : (Model.empty order).conductAll 0 .consistent before = .ok (.consistent, m₀))
    {n : Nat} (hsize : m₀.propagators.size = n) (hm₁ : m₀.enlist wrap vars options = .ok m₁)
    (hm : m₁.conductAll (n + 1) .consistent after = .ok (verdict, m)) :
    Hosted wrap ⟨n⟩ vars options m verdict := by
  have hconducted : Conducted m₀ .consistent :=
    conductAll_induction (P := Conducted) (fun h => h.orderly)
      (fun hallows hdiscipline hret _ h => h.step hallows hdiscipline hret) hbefore
      (.start order) hm₀
  exact conductAll_induction (P := Hosted wrap ⟨n⟩ vars options)
    (fun h => (h.tracks False.elim hwrap).elim fun _ htracks => htracks.toOrderly)
    (fun hallows hdiscipline hret hle h => h.step hallows hdiscipline hret hle) hafter
    (.added hconducted hsize.symm hm₁) hm

/-- The propagator of an all different constraint of a mixed model. -/
def allDifferentAt (m : Model Rule) (i : Nat) : Except Fault AllDifferent :=
  match m.propagators[i]? with
  | some (.allDifferent p) => .ok p
  | _ => .error .outOfBounds

theorem getElem?_of_allDifferentAt {m : Model Rule} (h : m.allDifferentAt i = .ok p) :
    m.propagators[i]? = some (.allDifferent p) := by
  rw [allDifferentAt] at h
  split at h
  · rename_i q hq
    cases h
    exact hq
  · cases h

end Model

end FiniteDomain
