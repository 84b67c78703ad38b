import FiniteDomain.Proofs.AllDifferent.Twins

/-!
# Runs that agree

The same calls are made on two models.  Their constraints run in different orders, and have
different options.  If levels are saved while the models are quiet, and restored after a failure,
then both runs fail at the same calls, and the variables have the same values after all others.

* `Model.Later`: the model came to stand so without a level being restored below it.
* `Model.Levels` relates two models whose levels were saved while they were twins.
* `Model.Abreast` is what holds of both models between two calls, and `Abreast.perform` the step.
* `driveAll_agree` is the result.
-/

namespace FiniteDomain

open AllDifferent ValueGraph

/-- The constraint that was scheduled first is run first. -/
def DrainOrder.firstFirst : DrainOrder where
  arrange _ scheduled := scheduled.reverse
  arrange_perm _ scheduled := scheduled.reverse_perm

namespace Model

variable {m m' m₀ m₀' m₁ m₁' : Model AllDifferent} {c c' : Call} {v v' : Verdict} {vars : List Var}
  {options : Options}

/-! ## Levels -/

/-- No level was restored that `m` has.  Constraints may have been added. -/
structure Later (m m₁ : Model AllDifferent) : Prop where
  keeps : m.Keeps m₁
  posted : m.posted <+: m₁.posted

theorem Later.trans {m₂ : Model AllDifferent} (h : Later m m₁) (h' : Later m₁ m₂) : Later m m₂ :=
  ⟨h.keeps.trans h'.keeps, h.posted.trans h'.posted⟩

theorem Later.of_store {s : Store} (h : m.store.Keeps s) : Later m { m with store := s } :=
  ⟨.of_store h, List.prefix_rfl⟩

theorem Follows.later (h : Follows m m₁) : Later m m₁ :=
  ⟨h.sameBelow.keeps, h.posted_eq ▸ List.prefix_rfl⟩

namespace Guarded

theorem later_listen (h : m.Guarded) {c : Constraint} (hc : c.index < m.propagators.size)
    {kind : Condition.Kind} {x : Var} (hret : m.listen c kind x = .ok m₁) : Later m m₁ := by
  refine ⟨h.toTallied.keeps_listen hc hret, ?_⟩
  rw [posted, posted, (h.listen_eq hc hret).2.1]

theorem later_listenAll (h : m.Guarded) {c : Constraint} (hc : c.index < m.propagators.size)
    (hret : listenAll c vars m = .ok m₁) : Later m m₁ := by
  induction vars generalizing m with
  | nil =>
    cases hret
    exact ⟨.refl _, List.prefix_rfl⟩
  | cons x rest ih =>
    obtain ⟨m₂, hlisten, hret⟩ := bind_eq_ok_iff.1 hret
    exact (h.later_listen hc hlisten).trans
      (ih (h.listen hc hlisten) (by rw [(h.listen_eq hc hlisten).2.1]; exact hc) hret)

theorem later_enlist (h : m.Guarded) (hvars : ∀ x ∈ vars, x.index < m.store.definitions.size)
    (hret : m.enlist id vars options = .ok m₁) : Later m m₁ := by
  rw [enlist_eq] at hret
  obtain ⟨⟨c, m₂⟩, hattach, hret⟩ := bind_eq_ok_iff.1 hret
  cases hret
  obtain ⟨⟨c', m₃⟩, hadd, hattach⟩ := bind_eq_ok_iff.1 hattach
  obtain ⟨m₄, hlisten, heq⟩ := bind_eq_ok_iff.1 hattach
  cases heq
  obtain ⟨p, s, hadded⟩ := h.add_eq hvars hadd
  have hadded_later : Later m m₃ := by
    have hkeeps := (Store.Keeps.of_grown h.store hadded.created.grown).trans
      (.of_evolves hadded.created.grown.sound hadded.wrote.toEvolves)
    have heq := hadded.model_eq
    refine ⟨⟨hkeeps, by rw [heq], by rw [heq], fun _ _ _ _ => by rw [heq], by rw [heq]⟩, ?_⟩
    rw [posted_push (m := m) (congrArg propagators heq)]
    exact List.prefix_append ..
  have hlisten_later := hadded.guarded.later_listenAll
    (by rw [hadded.constraint_eq, hadded.model_eq, Array.size_push]; exact Nat.lt_succ_self _)
    hlisten
  refine (hadded_later.trans hlisten_later).trans ⟨schedule_keeps _ _, ?_⟩
  rw [posted, posted, Model.schedule]
  split <;> exact List.prefix_rfl

/-- All calls but those that save and restore levels leave the levels as they are. -/
theorem later_perform (h : m.Guarded) (hinstalls : c.Installs m) (hvalid : c.Valid m)
    (hsave : c ≠ .save) (hrestore : c ≠ .restore) (hret : m.perform c = .ok (v, m₁)) :
    Later m m₁ := by
  cases c with
  | declare d =>
    obtain ⟨⟨x, m₂⟩, hdeclare, hret⟩ := bind_eq_ok_iff.1 hret
    obtain ⟨s, hs, rfl⟩ := onStore_eq_ok_iff.1 hdeclare
    cases hret
    exact .of_store (.of_grown h.store (Declaration.declare_grown h.store hvalid hs))
  | add vars options => exact hinstalls.elim
  | listen c kind x =>
    obtain ⟨m₂, hlisten, hret⟩ := bind_eq_ok_iff.1 hret
    cases hret
    exact h.later_listen hvalid.1 hlisten
  | attach vars options => exact hinstalls.elim
  | schedule c =>
    cases hret
    refine ⟨schedule_keeps m c, ?_⟩
    rw [posted, posted, Model.schedule]
    split <;> exact List.prefix_rfl
  | install vars options =>
    obtain ⟨m₂, henlist, hret⟩ := bind_eq_ok_iff.1 hret
    exact (h.later_enlist hvalid henlist).trans
      ((h.enlist hvalid henlist).fixpoint_obeys hret).toFollows.later
  | attempt a =>
    have hret : m.onStore (·.attempt a) = .ok (v, m₁) := hret
    obtain ⟨s, hs, rfl⟩ := onStore_eq_ok_iff.1 hret
    obtain ⟨_, _, _, _, hshrinks, _⟩ := Store.attempt_spec h.store hs
    exact .of_store (.of_evolves h.store hshrinks.toEvolves)
  | save => exact absurd rfl hsave
  | restore => exact absurd rfl hrestore
  | fixpoint => exact (h.fixpoint_obeys hret).toFollows.later

theorem prefix_restore (h : m.Guarded) (hret : m.restore = .ok m₁) : m₁.posted <+: m.posted := by
  obtain ⟨w, _, s, _, _, heq, _⟩ := h.toTallied.restore_eq hret
  have hposted : m₁.posted = m.posted.take (m.constraintsIn w) := by
    have hvars : ∀ p : AllDifferent,
        (Propagator.onRestore p).graph.vars.toList = p.graph.vars.toList := fun _ => rfl
    simp [heq, posted, hvars, Function.comp_def]
  rw [hposted]
  exact List.take_prefix ..

end Guarded

/-- The last level that `m` has was saved when it was `m₀`. -/
structure Since (m₀ m : Model AllDifferent) : Prop where
  tallied : m₀.Tallied
  keeps : m₀.save.Keeps m
  posted : m₀.posted <+: m.posted

namespace Since

theorem later (h : Since m₀ m) (h' : Later m m₁) : Since m₀ m₁ :=
  ⟨h.tallied, h.keeps.trans h'.keeps, h.posted.trans h'.posted⟩

/-- The level is restored, and the model stands where it stood. -/
theorem restore (h : Since m₀ m) (hm : m.Guarded) :
    ∃ m₁, m.restore = .ok m₁ ∧ m₀.Resumed m₁ ∧ m₁.posted = m₀.posted := by
  obtain ⟨m₁, hret, _, hresumed⟩ := h.tallied.resumes hm.toTallied h.keeps
  refine ⟨m₁, hret, hresumed, ?_⟩
  have hlength : m₁.posted.length = m₀.posted.length := by
    rw [length_posted, length_posted, hresumed.size_eq]
  exact (List.prefix_of_prefix_length_le (hm.prefix_restore hret) h.posted
    (Nat.le_of_eq hlength)).eq_of_length hlength

end Since

/-- Both have the same number of levels, and were twins whenever one was saved. -/
inductive Levels : Model AllDifferent → Model AllDifferent → Prop
  | ground {m m' : Model AllDifferent} (hpast : m.store.trail.past = [])
      (hpast' : m'.store.trail.past = []) : Levels m m'
  | level {m₀ m₀' m m' : Model AllDifferent} (hbelow : Levels m₀ m₀') (htwins : Twins m₀ m₀')
      (hsince : Since m₀ m) (hsince' : Since m₀' m') : Levels m m'

theorem Levels.later (h : Levels m m') (hlater : Later m m₁) (hlater' : Later m' m₁') :
    Levels m₁ m₁' := by
  cases h with
  | ground hpast hpast' =>
    exact .ground (hlater.keeps.store.past_eq.trans hpast)
      (hlater'.keeps.store.past_eq.trans hpast')
  | level hbelow htwins hsince hsince' =>
    exact .level hbelow htwins (hsince.later hlater) (hsince'.later hlater')

/-- Twins that stand where they stood are twins. -/
theorem Twins.resumed (h : Twins m m') (hr : m.Resumed m₁) (hr' : m'.Resumed m₁')
    (hposted : m₁.posted = m.posted) (hposted' : m₁'.posted = m'.posted) (hs : m₁.store.Sound)
    (hs' : m₁'.store.Sound) (hquiet : m₁.Quiet) (hquiet' : m₁'.Quiet) : Twins m₁ m₁' where
  store :=
    { definitions_eq := by
        rw [hr'.resumed.definitions_eq, hr.resumed.definitions_eq, h.store.definitions_eq]
      offsets_eq := by rw [hr'.resumed.sets_eq, hr.resumed.sets_eq, h.store.offsets_eq]
      dense_size := by
        have hdense := congrArg Frame.dense hr.resumed.now_eq
        have hdense' := congrArg Frame.dense hr'.resumed.now_eq
        exact hdense'.trans (h.store.dense_size.trans hdense.symm)
      domain_eq := fun q => by
        rw [hr'.resumed.domain_eq, hr.resumed.domain_eq, h.store.domain_eq] }
  posted_eq := by rw [hposted', hposted, h.posted_eq]
  conditions_eq := by rw [hr'.conditions_eq, hr.conditions_eq, h.conditions_eq]
  pending_iff q := iff_of_false (hquiet'.not_pending hs' q) (hquiet.not_pending hs q)
  scheduled_iff c := by rw [hquiet.2, hquiet'.2]

/-! ## Two runs -/

/-- Both calls do the same, but the options of a constraint that is installed may differ. -/
inductive Call.Like : Call → Call → Prop
  | refl (c : Call) : Like c c
  | install (vars : List Var) (options options' : Options) :
      Like (.install vars options) (.install vars options')

theorem Call.Like.symm (h : c.Like c') : c'.Like c := by
  cases h with
  | refl => exact .refl _
  | install vars options options' => exact .install vars options' options

/-- Where one run gave the answer `w` and came to `m₁`, the other gives an answer that agrees. -/
def Agrees (w : Verdict) (m₁ : Model AllDifferent)
    (other : Except Fault (Verdict × Model AllDifferent)) : Prop :=
  ∃ w' m₁', other = .ok (w', m₁') ∧ (w = .consistent ↔ w' = .consistent) ∧
    (w = .consistent → Twins m₁ m₁')

theorem Twins.agrees (h : Twins m₁ m₁') {w : Verdict} : Agrees w m₁ (.ok (w, m₁')) :=
  ⟨w, m₁', rfl, Iff.rfl, fun _ => h⟩

namespace Twins

variable {w : Verdict}

theorem fixpoint_agrees (h : Twins m m') (hm : m.Poised (fun _ => False) m.scheduled)
    (hm' : m'.Poised (fun _ => False) m'.scheduled) (hret : m.fixpoint = .ok (w, m₁)) :
    Agrees w m₁ m'.fixpoint := by
  obtain ⟨_, m₁', hret₂, hret', htwins⟩ | ⟨why, why', _, m₁', hret₂, hret'⟩ := h.fixpoint hm hm'
  · cases hret.symm.trans hret₂
    rw [hret']
    exact htwins.agrees
  · cases hret.symm.trans hret₂
    exact ⟨_, m₁', hret', iff_of_false (by simp) (by simp), fun hw => by cases hw⟩

theorem install_agrees (h : Twins m m') (hm : m.Poised (fun _ => False) m.scheduled)
    (hm' : m'.Poised (fun _ => False) m'.scheduled)
    (hvars : ∀ x ∈ vars, x.index < m.store.definitions.size)
    (hret : m.install id vars options = .ok (w, m₁)) (options' : Options) :
    Agrees w m₁ (m'.install id vars options') := by
  obtain ⟨m₂, henlist, hret⟩ := bind_eq_ok_iff.1 hret
  obtain ⟨m₂', henlist', htwins⟩ := h.enlist hm.toGuarded hm'.toGuarded hvars henlist options'
  have hvars' : ∀ x ∈ vars, x.index < m'.store.definitions.size := by
    rw [h.store.definitions_eq]
    exact hvars
  rw [Model.install, henlist', ok_bind]
  exact htwins.fixpoint_agrees (hm.enlist hvars henlist) (hm'.enlist hvars' henlist') hret

/-- A like call is made on the other. -/
theorem perform_agrees (h : Twins m m') (hm : m.Poised (fun _ => False) m.scheduled)
    (hm' : m'.Poised (fun _ => False) m'.scheduled) (hlike : c.Like c')
    (hinstalls : c.Installs m) (hvalid : c.Valid m) (hrestore : c ≠ .restore)
    (hret : m.perform c = .ok (w, m₁)) : Agrees w m₁ (m'.perform c') := by
  cases hlike with
  | install vars options options' => exact h.install_agrees hm hm' hvalid hret options'
  | refl =>
    cases c with
    | declare d =>
      obtain ⟨⟨x, m₂⟩, hdeclare, hret⟩ := bind_eq_ok_iff.1 hret
      cases hret
      obtain ⟨m₁', hdeclare', htwins⟩ := h.declare hm.store hm'.store hvalid hdeclare
      rw [perform, hdeclare', ok_bind]
      exact htwins.agrees
    | add vars options => exact hinstalls.elim
    | listen c kind x =>
      obtain ⟨m₂, hlisten, hret⟩ := bind_eq_ok_iff.1 hret
      cases hret
      obtain ⟨m₁', hlisten', htwins⟩ :=
        h.listen hm.toTallied hm'.toTallied hvalid.1 hvalid.2 hlisten
      rw [perform, hlisten', ok_bind]
      exact htwins.agrees
    | attach vars options => exact hinstalls.elim
    | schedule c =>
      cases hret
      exact (h.schedule c).agrees
    | install vars options => exact h.install_agrees hm hm' hvalid hret options
    | attempt a =>
      obtain ⟨m₁', hret', htwins⟩ := h.attempt hm.store hm'.store hret
      rw [perform, hret']
      exact htwins.agrees
    | save =>
      cases hret
      exact h.save.agrees
    | restore => exact absurd rfl hrestore
    | fixpoint => exact h.fixpoint_agrees hm hm' hret

/-- A call that is allowed on one is allowed on the other. -/
theorem allowed (h : Twins m m') (hs : m.store.Sound) (hs' : m'.store.Sound) (hlike : c.Like c')
    (hallowed : c.Installs m ∧ c.Valid m ∧ c.Disciplined m .consistent) :
    c'.Installs m' ∧ c'.Valid m' ∧ c'.Disciplined m' .consistent := by
  obtain ⟨hinstalls, hvalid, hdiscipline⟩ := hallowed
  have hsize : m'.store.definitions.size = m.store.definitions.size :=
    congrArg Array.size h.store.definitions_eq
  cases hlike with
  | install vars options options' =>
    refine ⟨trivial, fun x hx => ?_, rfl⟩
    rw [hsize]
    exact hvalid x hx
  | refl =>
    cases c with
    | declare d => exact ⟨trivial, h.store.valid hvalid, rfl⟩
    | add vars options => exact hinstalls.elim
    | listen c kind x =>
      refine ⟨trivial, ⟨?_, ?_⟩, rfl⟩
      · rw [h.size_eq]
        exact hvalid.1
      · rw [hsize]
        exact hvalid.2
    | attach vars options => exact hinstalls.elim
    | schedule c => exact ⟨trivial, by rw [Call.Valid, h.size_eq]; exact hvalid, rfl⟩
    | install vars options =>
      refine ⟨trivial, fun x hx => ?_, rfl⟩
      rw [hsize]
      exact hvalid x hx
    | attempt a => exact ⟨trivial, by rw [Call.Valid, hsize]; exact hvalid, rfl⟩
    | save => exact ⟨trivial, trivial, rfl, h.quiet hs hs' hdiscipline.2⟩
    | restore => exact ⟨trivial, trivial, trivial⟩
    | fixpoint => exact ⟨trivial, trivial, rfl⟩

end Twins

/-- What holds of two models on which like calls were made. -/
structure Abreast (v v' : Verdict) (m m' : Model AllDifferent) : Prop where
  driven : Driven Call.Installs m v
  driven' : Driven Call.Installs m' v'
  consistent_iff : v = .consistent ↔ v' = .consistent
  twins : v = .consistent → Twins m m'
  levels : Levels m m'

namespace Abreast

variable {w : Verdict}

theorem start (order order' : DrainOrder) :
    Abreast .consistent .consistent (Model.empty order) (Model.empty order') where
  driven := .start order
  driven' := .start order'
  consistent_iff := Iff.rfl
  twins _ := ⟨⟨rfl, rfl, rfl, fun _ => rfl⟩, rfl, rfl, fun _ => Iff.rfl, fun _ => Iff.rfl⟩
  levels := .ground rfl rfl

/-- Both runs restore a level. -/
theorem restore (h : Abreast v v' m m') (hret : m.restore = .ok m₁) :
    ∃ m₁', m'.restore = .ok m₁' ∧ Twins m₁ m₁' ∧ Levels m₁ m₁' := by
  have hm := h.driven.kept
  have hm' := h.driven'.kept
  cases h.levels with
  | ground hpast _ =>
    obtain ⟨w, rest, _, hpast', _⟩ := hm.recoverable.toGuarded.toTallied.restore_eq hret
    cases hpast.symm.trans hpast'
  | level hbelow htwins hsince hsince' =>
    obtain ⟨_, hret₂, hresumed, hposted⟩ := hsince.restore hm.recoverable.toGuarded
    cases hret.symm.trans hret₂
    obtain ⟨m₁', hret', hresumed', hposted'⟩ := hsince'.restore hm'.recoverable.toGuarded
    obtain ⟨htended, hquiet⟩ := hm.recoverable.restore hret
    obtain ⟨htended', hquiet'⟩ := hm'.recoverable.restore hret'
    refine ⟨m₁', hret', htwins.resumed hresumed hresumed' hposted hposted' htended.store
      htended'.store hquiet hquiet', hbelow.later ⟨hresumed.toSameBelow.keeps, ?_⟩
        ⟨hresumed'.toSameBelow.keeps, ?_⟩⟩
    · rw [hposted]
    · rw [hposted']

/-- A call is made on one, and a like call on the other. -/
theorem perform (h : Abreast v v' m m') (hlike : c.Like c')
    (hallowed : c.Installs m ∧ c.Valid m ∧ c.Disciplined m v)
    (hret : m.perform c = .ok (w, m₁)) :
    (c'.Installs m' ∧ c'.Valid m' ∧ c'.Disciplined m' v') ∧
      ∃ w' m₁', m'.perform c' = .ok (w', m₁') ∧ Abreast w w' m₁ m₁' := by
  have hdriven : Driven Call.Installs m₁ w :=
    h.driven.call hallowed.1 hallowed.2.1 hallowed.2.2 hret
  by_cases hrestore : c = .restore
  · subst hrestore
    cases hlike
    obtain ⟨m₂, hret, heq⟩ := bind_eq_ok_iff.1 hret
    cases heq
    obtain ⟨m₁', hret', htwins, hlevels⟩ := h.restore hret
    have hperform : m'.perform .restore = .ok (.consistent, m₁') := by
      rw [Model.perform, hret', ok_bind]
      rfl
    exact ⟨⟨trivial, trivial, trivial⟩, .consistent, m₁', hperform, hdriven,
      h.driven'.call (c := .restore) trivial trivial trivial hperform, Iff.rfl, fun _ => htwins,
      hlevels⟩
  have hv := hallowed.2.2.consistent hrestore
  have hv' := h.consistent_iff.1 hv
  subst hv hv'
  have hm := h.driven.kept.poised rfl
  have hm' := h.driven'.kept.poised rfl
  have htwins := h.twins rfl
  have hallowed' := htwins.allowed hm.store hm'.store hlike hallowed
  obtain ⟨w', m₁', hret', hiff, htwins'⟩ :=
    htwins.perform_agrees hm hm' hlike hallowed.1 hallowed.2.1 hrestore hret
  refine ⟨hallowed', w', m₁', hret', hdriven,
    h.driven'.call hallowed'.1 hallowed'.2.1 hallowed'.2.2 hret', hiff, htwins', ?_⟩
  by_cases hsave : c = .save
  · subst hsave
    cases hlike
    cases hret
    cases hret'
    exact .level h.levels htwins ⟨hm.toTallied, .refl _, List.prefix_rfl⟩
      ⟨hm'.toTallied, .refl _, List.prefix_rfl⟩
  · have hsame : c' ≠ .save ∧ c' ≠ .restore := by
      cases hlike with
      | refl => exact ⟨hsave, hrestore⟩
      | install => simp
    exact h.levels.later (hm.toGuarded.later_perform hallowed.1 hallowed.2.1 hsave hrestore hret)
      (hm'.toGuarded.later_perform hallowed'.1 hallowed'.2.1 hsame.1 hsame.2 hret')

/-- Several calls are made. -/
theorem driveAll {calls calls' : List Call} (h : Abreast v v' m m')
    (hlike : List.Forall₂ Call.Like calls calls')
    (hret : m.driveAll Call.Installs v calls = .ok (w, m₁)) :
    ∃ w' m₁', m'.driveAll Call.Installs v' calls' = .ok (w', m₁') ∧ Abreast w w' m₁ m₁' := by
  induction hlike generalizing m m' v v' with
  | nil =>
    cases hret
    exact ⟨v', m', rfl, h⟩
  | cons hhead _ ih =>
    rw [Model.driveAll] at hret
    split at hret
    · rename_i hallowed
      obtain ⟨⟨v₂, m₂⟩, hcall, hret⟩ := bind_eq_ok_iff.1 hret
      obtain ⟨hallowed', v₂', m₂', hcall', h₂⟩ := h.perform hhead hallowed hcall
      obtain ⟨w', m₁', hret', h₁⟩ := ih h₂ hret
      refine ⟨w', m₁', ?_, h₁⟩
      rw [Model.driveAll, if_pos hallowed', hcall', ok_bind]
      exact hret'
    · cases hret

end Abreast

/-- Both runs were refused, both failed, or both have the same variables with the same values. -/
inductive Agree : Except Fault (Verdict × Model AllDifferent) →
    Except Fault (Verdict × Model AllDifferent) → Prop
  | refused (fault fault' : Fault) : Agree (.error fault) (.error fault')
  | failed {m m' : Model AllDifferent} (why why' : Inconsistency) :
      Agree (.ok (.failed why, m)) (.ok (.failed why', m'))
  | consistent {m m' : Model AllDifferent}
      (definitions_eq : m'.store.definitions = m.store.definitions)
      (view_eq : ∀ x, m'.store.view x = m.store.view x) :
      Agree (.ok (.consistent, m)) (.ok (.consistent, m'))

theorem Agree.exists_other {run run' : Except Fault (Verdict × Model AllDifferent)}
    (h : Agree run run') (hrun : run = .ok (.consistent, m)) :
    ∃ m', run' = .ok (.consistent, m') ∧ m'.store.definitions = m.store.definitions ∧
      ∀ x, m'.store.view x = m.store.view x := by
  cases h with
  | refused => cases hrun
  | failed => cases hrun
  | consistent hdefinitions hview =>
    cases hrun
    exact ⟨_, rfl, hdefinitions, hview⟩

/-- The same calls are made on two new models, whose constraints run in any orders and have any
options.  Then no call is refused on one alone, the same calls fail, and after the others the
variables have the same values. -/
theorem driveAll_agree (order order' : DrainOrder) {calls calls' : List Call}
    (hlike : List.Forall₂ Call.Like calls calls') :
    Agree ((Model.empty order).driveAll Call.Installs .consistent calls)
      ((Model.empty order').driveAll Call.Installs .consistent calls') := by
  have hlike' : List.Forall₂ Call.Like calls' calls :=
    hlike.flip.imp fun _ _ h => h.symm
  cases hret : (Model.empty order).driveAll Call.Installs .consistent calls with
  | ok answer =>
    obtain ⟨w', m₁', hret', h⟩ := (Abreast.start order order').driveAll hlike hret
    rw [hret']
    obtain ⟨w, m₁⟩ := answer
    cases w with
    | consistent =>
      obtain rfl := h.consistent_iff.1 rfl
      have htwins := h.twins rfl
      exact .consistent htwins.store.definitions_eq htwins.store.view_eq
    | failed why =>
      cases w' with
      | consistent => cases h.consistent_iff.2 rfl
      | failed why' => exact .failed why why'
  | error fault =>
    cases hret' : (Model.empty order').driveAll Call.Installs .consistent calls' with
    | ok answer =>
      obtain ⟨w, m₁, hret₂, _⟩ := (Abreast.start order' order).driveAll hlike' hret'
      cases hret.symm.trans hret₂
    | error fault' => exact .refused fault fault'

/-- Two constraints with a variable in common, on a variable and a shifted one too.  A level is
saved, on which a value is decided. -/
def crossing (options options' : Options) : List Call :=
  [.declare (.primitive 1 2), .declare (.primitive 1 2), .declare (.primitive 1 4),
    .declare (.plus ⟨2⟩ 1), .declare (.primitive 3 5), .install [⟨0⟩, ⟨1⟩, ⟨2⟩] options, .save,
    .install [⟨1⟩, ⟨3⟩, ⟨4⟩] options', .attempt (.fix ⟨0⟩ 1), .attempt (.remove ⟨4⟩ 5), .fixpoint]

theorem crossing_like (options₁ options₂ options₁' options₂' : Options) :
    List.Forall₂ Call.Like (crossing options₁ options₂) (crossing options₁' options₂') := by
  simp only [crossing, List.forall₂_cons, List.Forall₂.nil, Call.Like.refl, Call.Like.install,
    and_self]

theorem driveAll_agree_crossing : ∃ m m',
    (Model.empty .lastFirst).driveAll Call.Installs .consistent
      (crossing ⟨true, true, false⟩ ⟨false, true, true⟩) = .ok (.consistent, m) ∧
    (Model.empty .firstFirst).driveAll Call.Installs .consistent
      (crossing ⟨false, false, false⟩ ⟨true, false, false⟩) = .ok (.consistent, m') ∧
    ∀ x, m'.store.view x = m.store.view x := by
  have hrun : ((Model.empty .lastFirst).driveAll Call.Installs .consistent
      (crossing ⟨true, true, false⟩ ⟨false, true, true⟩) >>= fun answer => .ok answer.1) =
      .ok .consistent := by decide +kernel
  obtain ⟨⟨v, m⟩, hm, hv⟩ := bind_eq_ok_iff.1 hrun
  cases hv
  obtain ⟨m', hm', _, hview⟩ := (driveAll_agree .lastFirst .firstFirst (crossing_like
    ⟨true, true, false⟩ ⟨false, true, true⟩ ⟨false, false, false⟩
    ⟨true, false, false⟩)).exists_other hm
  exact ⟨m, m', hm, hm', hview⟩

end Model

end FiniteDomain
