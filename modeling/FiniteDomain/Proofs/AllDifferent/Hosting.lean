import FiniteDomain.Proofs.AllDifferent.Settling
import FiniteDomain.Proofs.Model.Restoration

/-!
# An all different constraint among other propagators

In a model of tame propagators one of them is the propagator of an all different constraint.  Its
matching, its tags and what it counted last can be relied on, whatever the others do, as long as the
model is used with discipline.  If the others are `candid`, so that nobody conceals a failure, what
it remembers is never out of date by more than it is told.

* `Model.Hosts` is what holds of the constraint at any moment, also after a failure, and
  `Model.Minds` what holds as long as nothing failed: it is settled except for variables that wait
  in it or that something happened to, and if there is something to do, it is `due`.
* `Model.Listens` says that the constraint listens to its variables.
* `Passes` is what becomes of the constraint in a step.  `Minds.passes_acts` is about what clients
  and other propagators do, `Minds.runOne` about one propagator that runs and `Minds.fixpoint` about
  a run of them all.
* `Minds.turning` gathers the steps: what they keep holds whenever the constraint runs.
-/

namespace FiniteDomain.Model

open AllDifferent ValueGraph Tame

variable {π : Type} [Propagator π] [Tame π] {candid : Prop} {wrap : AllDifferent → π}
  {m m' m'' : Model π} {i : Nat} {p p' p'' : AllDifferent} {due due' rest : List Constraint}
  {c : Constraint} {verdict : Verdict}

/-! ## What holds of the constraint -/

/-- What a propagator shows that has its matching and nothing to do.  If nobody concealed a failure,
it is settled. -/
structure AtRest (candid : Prop) (σ : Sight) : Prop where
  lasting : σ.Lasting
  covered : σ.graph.Covered
  settled : candid → σ.Settled fun _ => False

/-- The constraint `i` has the propagator `p`, which was at rest whenever a level was saved. -/
structure Hosts (candid : Prop) (wrap : AllDifferent → π) (i : Nat) (p : AllDifferent)
    (m : Model π) : Prop extends Orderly m where
  here : m.propagators[i]? = some (wrap p)
  past : ∀ w ∈ m.store.trail.past, i < m.constraintsIn w → AtRest candid (p.sight m.store w)

/-- The propagator has its matching or never ran, and if nobody concealed a failure, it is settled,
except for variables that wait or that something happened to.  It is due if a variable waits or if
it never ran. -/
structure Minds (candid : Prop) (wrap : AllDifferent → π) (i : Nat) (p : AllDifferent)
    (due : List Constraint) (m : Model π) : Prop extends Hosts candid wrap i p m where
  lasting : (p.shown m.store).Lasting
  settled : candid → (p.shown m.store).Settled fun x =>
    x ∈ p.work.waiting ∨ m.store.Pending (p.graph.sourceOf x)
  waiting : p.work.waiting ≠ [] → ⟨i⟩ ∈ due
  firm : (p.shown m.store).graph.Covered ∨ p.ready = false ∧ ⟨i⟩ ∈ due

/-- The constraint listens to all changes of its variables, in every frame in which there is the
constraint. -/
structure Listens (i : Nat) (p : AllDifferent) (m : Model π) : Prop where
  now : ∀ x < p.graph.varTotal, (⟨.domainChanged, p.graph.sourceOf x⟩, ⟨i⟩) ∈ m.conditions
  past : ∀ w ∈ m.store.trail.past, i < m.constraintsIn w → ∀ x < p.graph.varTotal,
    ∃ k < m.conditionsIn w,
      m.conditions[k]? = some (⟨.domainChanged, p.graph.sourceOf x⟩, ⟨i⟩)

/-- No level was saved or restored, and whoever listened still does. -/
structure Proceeds (m m' : Model π) : Prop extends Stays m m' where
  listens : ∀ pair ∈ m.conditions, pair ∈ m'.conditions

namespace Proceeds

theorem refl (h : m.Orderly) : Proceeds m m := ⟨.refl h, fun _ hpair => hpair⟩

theorem trans (h : Proceeds m m') (h' : Proceeds m' m'') : Proceeds m m'' :=
  ⟨h.toStays.trans h'.toStays, fun pair hpair => h'.listens pair (h.listens pair hpair)⟩

/-- The constraint still listens. -/
theorem keeps_listening (h : Proceeds m m') (halike : Alike p.graph p'.graph)
    (hm : Listens i p m) : Listens i p' m' := by
  refine ⟨fun x hx => ?_, fun w hw hseen x hx => ?_⟩
  · rw [halike.sourceOf_eq]
    exact h.listens _ (hm.now x (halike.varTotal_eq ▸ hx))
  · rw [h.keeps.store.past_eq] at hw
    rw [h.keeps.constraintsIn_eq] at hseen
    obtain ⟨k, hk, hpair⟩ := hm.past w hw hseen x (halike.varTotal_eq ▸ hx)
    rw [halike.sourceOf_eq, h.keeps.conditionsIn_eq]
    exact ⟨k, hk, (h.keeps.conditions_below w hw k hk).trans hpair⟩

end Proceeds

namespace Hosts

theorem guarded (h : m.Hosts candid wrap i p) (hwrap : Embeds wrap) :
    p.Guarded m.store fun w => i < m.constraintsIn w :=
  hwrap.guarded (h.fits i _ h.here)

theorem index_lt (h : m.Hosts candid wrap i p) : i < m.propagators.size :=
  (Array.getElem?_eq_some_iff.1 h.here).1

/-- The past shows what it showed. -/
theorem proceed (h : m.Hosts candid wrap i p) (hp : Proceeds m m')
    (hhere : m'.propagators[i]? = some (wrap p'))
    (hrecalls : Recalls p m.store p' m'.store fun w => i < m.constraintsIn w) :
    m'.Hosts candid wrap i p' := by
  refine ⟨hp.orderly, hhere, fun w hw hseen => ?_⟩
  rw [hp.keeps.constraintsIn_eq] at hseen
  rw [hrecalls w hw hseen]
  exact h.past w (hp.keeps.store.past_eq ▸ hw) hseen

/-- Others act on the store. -/
theorem acts {C : Cell → Prop} (h : m.Hosts candid wrap i p) (hwrap : Embeds wrap)
    (hp : Proceeds m m') (hacts : m.store.Acts C m'.store) (hC : ∀ d, p.Owns d → ¬ C d)
    (hhere : m'.propagators[i]? = some (wrap p)) : m'.Hosts candid wrap i p :=
  h.proceed hp hhere ((h.guarded hwrap).of_acts hacts hC).2.1

end Hosts

/-! ## What others do -/

namespace Minds

/-- Others act on the store.  The propagator has to look at the variables that lost values, of which
something happened to each. -/
theorem acts {C : Cell → Prop} (h : m.Minds candid wrap i p due) (hwrap : Embeds wrap)
    (hp : Proceeds m m') (hacts : m.store.Acts C m'.store) (hC : ∀ d, p.Owns d → ¬ C d)
    (halive : candid → m.store.Alive m'.store) (hhere : m'.propagators[i]? = some (wrap p))
    (hdue : ⟨i⟩ ∈ due → ⟨i⟩ ∈ due') : m'.Minds candid wrap i p due' := by
  have hguarded := h.guarded hwrap
  obtain ⟨_, _, hshown, hsub⟩ := hguarded.of_acts hacts hC
  refine ⟨h.toHosts.acts hwrap hp hacts hC hhere, ?_, fun hcandid => ?_,
    fun hne => hdue (h.waiting hne), ?_⟩
  · rw [hshown]
    exact h.lasting.narrow hsub
  · have hsettled := hguarded.settled_acts hacts hC (halive hcandid) (h.settled hcandid)
    refine hsettled.mono fun x hx hlate => ?_
    have hlt := hguarded.toFitted.source_lt hx (hguarded.anchored.var_lt x hx)
    rw [hacts.pending_iff hlt, ← or_assoc]
    exact hlate
  · rw [hshown]
    exact h.firm.imp_right fun hfirst => ⟨hfirst.1, hdue hfirst.2⟩

/-- The order in which the constraints are going to run does not matter. -/
theorem plan (h : m.Minds candid wrap i p due) (hwrap : Embeds wrap) (hperm : due'.Perm due)
    (scheduled : List Constraint) (rounds : Nat) :
    Proceeds m { m with scheduled, rounds } ∧
      ({ m with scheduled, rounds } : Model π).Minds candid wrap i p due' := by
  have hproceeds : Proceeds m { m with scheduled, rounds } :=
    ⟨h.toOrderly.stays_plan scheduled rounds, fun _ hpair => hpair⟩
  exact ⟨hproceeds, h.acts (C := fun _ => False) hwrap hproceeds .done (fun _ _ => id)
    (fun _ => .refl _) h.here hperm.mem_iff.2⟩

/-- Constraints are told of what happened. -/
theorem wake (h : m.Minds candid wrap i p m.scheduled) (hwrap : Embeds wrap)
    (hlistens : m.Listens i p) (hret : m.wake = .ok m') :
    ∃ p', Alike p.graph p'.graph ∧ Proceeds m m' ∧ m'.Minds candid wrap i p' m'.scheduled := by
  have hguarded := h.guarded hwrap
  obtain ⟨heq, _, hget⟩ := told_eq hret
  obtain ⟨hstore, _, hscheduled, _⟩ := Model.wake_eq hret
  have hproceeds : Proceeds m m' := ⟨h.toOrderly.wake hret, fun pair hpair => by rwa [heq]⟩
  have hhere : m'.propagators[i]? = some (wrap { p with
      work := p.work.pushAll ((m.heard ⟨i⟩).flatMap p.graph.route) }) := by
    rw [← hwrap.notifyAll_eq, hget]
    exact congrArg (Option.map _) h.here
  have hsight : ∀ w, p.sight m'.store w = p.sight m.store w := by
    rw [hstore]
    exact hguarded.clearEvents.2
  have hshown : p.shown m'.store = p.shown m.store := by
    rw [shown, hstore]
    exact hguarded.clearEvents.2 _
  have hhosts := h.toHosts.proceed hproceeds hhere fun w _ _ => hsight w
  have hmem : ∀ x < p.graph.varTotal,
      x ∈ (p.work.pushAll ((m.heard ⟨i⟩).flatMap p.graph.route)).waiting ↔
        x ∈ p.work.waiting ∨ p.graph.sourceOf x ∈ m.heard ⟨i⟩ :=
    fun _ hx => mem_waiting_told hguarded.layout hx
  have hlasting := h.lasting
  have hsettled := h.settled
  have hfirm := h.firm
  rw [← hshown] at hlasting hsettled hfirm
  refine ⟨{ p with work := p.work.pushAll ((m.heard ⟨i⟩).flatMap p.graph.route) }, .refl _,
    hproceeds, hhosts, hlasting, fun hcandid => (hsettled hcandid).mono fun x hx hlate => ?_,
    fun hne => ?_, ?_⟩
  · exact Or.inl ((hmem x hx).2 (hlate.imp_right (h.mem_heard_of_pending (hlistens.now x hx))))
  · obtain ⟨x, hx⟩ := List.exists_mem_of_ne_nil _ hne
    rw [hscheduled]
    obtain hwaits | hheard := (hmem x ((hhosts.guarded hwrap).work_lt x hx)).1 hx
    · exact Or.inr (h.waiting (List.ne_nil_of_mem hwaits))
    · exact Or.inl (List.ne_nil_of_mem hheard)
  · rw [hscheduled]
    exact hfirm.imp_right fun hfirst => ⟨hfirst.1, Or.inr hfirst.2⟩

end Minds

/-! ## Runs -/

/-- What becomes of the constraint in a step with the answer `verdict`: its propagator is `p'` then,
and it is minded if nothing failed. -/
structure Passes (candid : Prop) (wrap : AllDifferent → π) (i : Nat) (p : AllDifferent)
    (m : Model π) (verdict : Verdict) (due : List Constraint) (p' : AllDifferent) (m' : Model π) :
    Prop where
  alike : Alike p.graph p'.graph
  proceeds : Proceeds m m'
  hosts : m'.Hosts candid wrap i p'
  minds : verdict = .consistent → m'.Minds candid wrap i p' due

/-- One step after another. -/
theorem Passes.after {last : Verdict} (h : Passes candid wrap i p' m' verdict due' p'' m'')
    (hfirst : Passes candid wrap i p m last due p' m') :
    Passes candid wrap i p m verdict due' p'' m'' :=
  ⟨hfirst.alike.trans h.alike, hfirst.proceeds.trans h.proceeds, h.hosts, h.minds⟩

namespace Minds

/-- Others act on the store.  If they are candid, they empty no domain unless they fail. -/
theorem passes_acts {C : Cell → Prop} (h : m.Minds candid wrap i p due) (hwrap : Embeds wrap)
    (hp : Proceeds m m') (hacts : m.store.Acts C m'.store) (hC : ∀ d, p.Owns d → ¬ C d)
    (halive : candid → verdict = .consistent → m.store.Alive m'.store)
    (hhere : m'.propagators[i]? = some (wrap p)) (hdue : ⟨i⟩ ∈ due → ⟨i⟩ ∈ due') :
    Passes candid wrap i p m verdict due' p m' :=
  ⟨.refl _, hp, h.toHosts.acts hwrap hp hacts hC hhere,
    fun hwell => h.acts hwrap hp hacts hC (fun hcandid => halive hcandid hwell) hhere hdue⟩

/-- What the propagator can rely on when it runs. -/
theorem assured (h : m.Minds candid wrap i p due) : p.Assured m.store :=
  ⟨h.lasting.grounded, h.firm.symm.imp And.left fun hcovered =>
    ⟨hcovered, h.lasting.tagged.sharp hcovered⟩⟩

/-- The propagator of the constraint runs. -/
theorem passes_own {s : Store} (h : m.Minds candid wrap i p (⟨i⟩ :: rest)) (hwrap : Embeds wrap)
    (hpropagate : p.propagate m.store = .ok (verdict, p', s)) (hproceeds : Proceeds m { m with
      store := s, propagators := m.propagators.setIfInBounds i (wrap p') }) :
    Passes candid wrap i p m verdict rest p' { m with
      store := s, propagators := m.propagators.setIfInBounds i (wrap p') } := by
  have hguarded := h.guarded hwrap
  have hpropagated := hguarded.propagated hpropagate
  have hadvance := hpropagated.advance
  have hhosts := h.toHosts.proceed hproceeds
    (Array.getElem?_setIfInBounds_self_of_lt h.index_lt)
    (hguarded.advance hadvance hpropagated.honest).2
  refine ⟨hadvance.alike, hproceeds, hhosts, fun hwell => ?_⟩
  subst hwell
  have hlasting : (p'.shown s).Lasting :=
    ⟨hpropagated.grounded rfl h.lasting.grounded, hpropagated.tagged rfl (Or.inr h.lasting.tagged),
      hpropagated.bounded rfl h.lasting.grounded h.lasting.bounded⟩
  refine ⟨hhosts, hlasting, fun hcandid => ?_, fun hne => ?_, Or.inl ?_⟩
  · exact (hpropagated.settled_pending (h.settled hcandid)).mono fun x _ => Or.inr
  · rw [hpropagated.done rfl] at hne
    exact absurd rfl hne
  · exact hpropagated.covered rfl (h.firm.symm.imp_left And.left)

/-- Another propagator runs, which does not know the cells of the constraint. -/
theorem passes_other {q q' : π} {s : Store} (h : m.Minds candid wrap i p (c :: rest))
    (hfrank : candid → Frank π) (hwrap : Embeds wrap) (hne : c.index ≠ i)
    (hq : m.propagators[c.index]? = some q)
    (hpropagate : Propagator.propagate q m.store = .ok (verdict, q', s))
    (hproceeds : Proceeds m { m with
      store := s, propagators := m.propagators.setIfInBounds c.index q' }) :
    Passes candid wrap i p m verdict rest p { m with
      store := s, propagators := m.propagators.setIfInBounds c.index q' } := by
  have hguarded := h.guarded hwrap
  obtain ⟨_, hacts, _⟩ := Tame.propagated (h.fits _ q hq) hpropagate
  have hC : ∀ d, p.Owns d → ¬ (Writes q d ∨ ¬ m.store.trail.now.Has d) := fun d hd =>
    not_or.2 ⟨fun hw => h.apart c.index i q (wrap p) d hq h.here hne hw (hwrap.relied hd),
      not_not.2 (hguarded.has hd)⟩
  refine h.passes_acts hwrap hproceeds hacts hC ?_
    ((Array.getElem?_setIfInBounds_ne hne).trans h.here) fun hmem => ?_
  · rintro hcandid rfl
    exact (hfrank hcandid).alive (h.fits _ q hq) hpropagate
  · exact (List.mem_cons.1 hmem).resolve_left fun heq => hne (congrArg Constraint.index heq).symm

/-- One of the propagators runs. -/
theorem runOne (h : m.Minds candid wrap i p (c :: rest)) (hfrank : candid → Frank π)
    (hwrap : Embeds wrap) (hret : m.runOne c = .ok (verdict, m')) :
    ∃ p', Passes candid wrap i p m verdict rest p' m' := by
  obtain ⟨q, q', s, hq, hpropagate, rfl⟩ := runOne_eq hret
  have hproceeds : Proceeds m _ := ⟨h.toOrderly.runOne hret, fun _ hpair => hpair⟩
  by_cases hc : c.index = i
  · subst hc
    obtain rfl := Option.some.inj (hq.symm.trans h.here)
    rw [hwrap.propagate_eq] at hpropagate
    obtain ⟨⟨v, p', s'⟩, hown, heq⟩ := bind_eq_ok_iff.1 hpropagate
    cases heq
    exact ⟨p', h.passes_own hwrap hown hproceeds⟩
  · exact ⟨p, h.passes_other hfrank hwrap hc hq hpropagate hproceeds⟩

/-- Several propagators run, until one fails. -/
theorem runAll {cs : List Constraint} (h : m.Minds candid wrap i p cs) (hfrank : candid → Frank π)
    (hwrap : Embeds wrap) (hret : runAll cs m = .ok (verdict, m')) :
    ∃ p', Passes candid wrap i p m verdict [] p' m' := by
  induction cs generalizing m p with
  | nil =>
    cases hret
    exact ⟨p, .refl _, .refl h.toOrderly, h.toHosts, fun _ => h⟩
  | cons c rest ih =>
    rw [Model.runAll] at hret
    obtain ⟨⟨v, m₁⟩, hone, hret⟩ := bind_eq_ok_iff.1 hret
    obtain ⟨p₁, hpasses⟩ := h.runOne hfrank hwrap hone
    cases v with
    | failed why =>
      cases hret
      exact ⟨p₁, hpasses.alike, hpasses.proceeds, hpasses.hosts, fun hwell => by cases hwell⟩
    | consistent =>
      obtain ⟨p', hrest⟩ := ih (hpasses.minds rfl) hret
      exact ⟨p', hrest.after hpasses⟩

/-- Rounds follow each other.  Where they end without a failure, nothing is left to do. -/
theorem runRounds {fuel : Nat} (h : m.Minds candid wrap i p m.scheduled)
    (hfrank : candid → Frank π) (hwrap : Embeds wrap) (hlistens : m.Listens i p)
    (hret : m.runRounds fuel = .ok (verdict, m')) :
    (∃ p', Passes candid wrap i p m verdict [] p' m') ∧ (verdict = .consistent → m'.Quiet) := by
  induction fuel generalizing m p with
  | zero => cases hret
  | succ fuel ih =>
    rw [Model.runRounds] at hret
    obtain ⟨w, hwake, hret⟩ := bind_eq_ok_iff.1 hret
    obtain ⟨p₁, halike, hproceeds, hminds⟩ := h.wake hwrap hlistens hwake
    split at hret
    · rename_i hidle
      cases hret
      have hnone := List.isEmpty_iff.1 hidle
      refine ⟨⟨p₁, halike, hproceeds, hminds.toHosts, fun _ => hnone ▸ hminds⟩,
        fun _ => ⟨?_, hnone⟩⟩
      rw [(wake_eq hwake).1]
      exact Store.news_clearEvents _
    · obtain ⟨⟨v, m₁⟩, hdrain, hret⟩ := bind_eq_ok_iff.1 hret
      obtain ⟨hplan, hplanned⟩ := hminds.plan hwrap (w.order.arrange_perm w.rounds w.scheduled) []
        (w.rounds + 1)
      obtain ⟨p₂, hran⟩ := hplanned.runAll hfrank hwrap hdrain
      have hround : Passes candid wrap i p m v [] p₂ m₁ :=
        ⟨halike.trans hran.alike, (hproceeds.trans hplan).trans hran.proceeds, hran.hosts,
          hran.minds⟩
      cases v with
      | failed why =>
        cases hret
        exact ⟨⟨p₂, hround⟩, fun hwell => by cases hwell⟩
      | consistent =>
        have hscheduled : m₁.scheduled = [] := (drain_eq hdrain).1
        obtain ⟨⟨p', hrest⟩, hquiet⟩ := ih (hscheduled ▸ hround.minds rfl)
          (hround.proceeds.keeps_listening hround.alike hlistens) hret
        exact ⟨⟨p', hrest.after hround⟩, hquiet⟩

/-- The propagators run. -/
theorem fixpoint (h : m.Minds candid wrap i p m.scheduled) (hfrank : candid → Frank π)
    (hwrap : Embeds wrap) (hlistens : m.Listens i p) (hret : m.fixpoint = .ok (verdict, m')) :
    (∃ p', Passes candid wrap i p m verdict [] p' m') ∧ (verdict = .consistent → m'.Quiet) :=
  h.runRounds hfrank hwrap hlistens hret

/-- The steps of a run, after which the constraint still listens. -/
theorem turning (hwrap : Embeds wrap) : Turning (π := π) fun due m =>
    ∃ p, m.Minds False wrap i p due ∧ m.Listens i p where
  wakes := by
    rintro m w ⟨p, hminds, hlistens⟩ hwake
    obtain ⟨p', halike, hproceeds, hminds'⟩ := hminds.wake hwrap hlistens hwake
    exact ⟨p', hminds', hproceeds.keeps_listening halike hlistens⟩
  plans := by
    rintro due due' m hperm ⟨p, hminds, hlistens⟩
    obtain ⟨hproceeds, hminds'⟩ := hminds.plan hwrap hperm [] (m.rounds + 1)
    exact ⟨p, hminds', hproceeds.keeps_listening (.refl _) hlistens⟩
  runs := by
    rintro c rest m m' ⟨p, hminds, hlistens⟩ hone
    obtain ⟨p', hpasses⟩ := hminds.runOne False.elim hwrap hone
    exact ⟨p', hpasses.minds rfl, hpasses.proceeds.keeps_listening hpasses.alike hlistens⟩

end Minds

end FiniteDomain.Model
