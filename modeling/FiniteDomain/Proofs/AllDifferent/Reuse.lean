import FiniteDomain.Proofs.AllDifferent.Conduct
import FiniteDomain.Proofs.AllDifferent.Restarts

/-!
# Tags that are used again

As long as the matching stays the same, a propagator tags only the components that were touched when
the graph was brought in line with the domains.  In a run with discipline this comes to what a full
pass comes to.

* `AllDifferent.Begins` says with which states the passes of a run begin, and `Begins.assured` what
  they can rely on: the tags are those of the components.
* `tagTouched_sharp` is one pass that tags in parts, and `Begins.retagged` those of a run.
* `Model.Hosted.retags` is the result for all runs of a constraint among other propagators.
-/

namespace FiniteDomain

open AllDifferent ValueGraph

namespace AllDifferent

variable {p p' q : AllDifferent} {s s' t : Store} {changes : Changes}

/-! ## The passes of a run -/

/-- A pass of the loop of a run begins with the propagator `p'` and the store `s'`. -/
inductive Begins (p : AllDifferent) (s : Store) : AllDifferent → Store → Prop
  | first : Begins p s { p with work := p.alarm } s
  | again {p' : AllDifferent} {s' : Store} (h : p.Restarts s p' s') : Begins p s p' s'

/-- What a pass can rely on, the next one can. -/
theorem BeginsAgain.assured {forced : Bool} (h : BeginsAgain forced p s p' s') (hp : p.Sound s)
    (hhonest : (p.shown s).Honest) (ha : p.Assured s) : p'.Assured s' := by
  obtain ⟨_, _, _, _, _, hsync, hprepared, hdeduced⟩ := h.deduced hp hhonest
  exact ha.rest hsync hprepared hdeduced

theorem Restarts.assured (h : p.Restarts s p' s') (hp : p.Sound s)
    (hhonest : (p.shown s).Honest) (ha : p.Assured s) : p'.Assured s' := by
  induction h with
  | first h => exact h.assured (Advance.alarm hp).sound hhonest ha
  | again h' h ih =>
    obtain ⟨hsound, hhonest, _⟩ := h.stale hp hhonest
    exact h'.assured hsound hhonest ih

/-- What a run can rely on, all of its passes can. -/
theorem Begins.assured (h : p.Begins s p' s') (hp : p.Sound s) (hhonest : (p.shown s).Honest)
    (ha : p.Assured s) : p'.Sound s' ∧ p'.Assured s' := by
  cases h with
  | first => exact ⟨(Advance.alarm hp).sound, ha⟩
  | again h => exact ⟨(h.stale hp hhonest).1, h.assured hp hhonest ha⟩

/-! ## A pass that tags in parts -/

/-- The variables that are touched were active. -/
theorem touched_active (hp : p.Sound s) {verdict : Verdict}
    (hret : p.synchronize s = .ok (verdict, changes, q, t)) :
    ∀ z ∈ changes.touched, z ∈ (p.shown s).graph.active := by
  obtain ⟨⟨verdict', y⟩, hforward, hret⟩ := bind_eq_ok_iff.1 hret
  cases hret
  intro z hz
  exact (Sync.run_touched hp.sync hforward z hz).resolve_left fun hnone => nomatch hnone

/-- The components of the touched variables are tagged, and the tags are those of all components
then. -/
theorem tagTouched_sharp (hp : p.Sound s) (ha : p.Assured s)
    (hsynchronize : p.synchronize s = .ok (.consistent, changes, q, t)) (hready : q.ready = true)
    (hsame : changes.matchingChanged = false) :
    ∃ c u, Tagging.tagTouched q.graph changes.touched.toList q.tagging t = .ok (c, u) ∧
      Tagging.Ready q.graph c u ∧ q.graph.now u = q.graph.now t ∧
      (∀ x ∈ (q.shown t).graph.active, ∀ y ∈ (q.shown t).graph.active,
        c.tagNow u x = c.tagNow u y ↔ (q.shown t).graph.Together x y) ∧
      (p.shown s).Sharp ∧ ∀ x ∈ (q.shown t).graph.active,
        (∀ z ∈ changes.touched, ¬ (p.shown s).graph.Together x z) →
          c.tagNow u x = p.tagging.tagNow s x := by
  obtain ⟨_, _, _, _, hret, hsync⟩ := synchronize_eq hp
  cases hsynchronize.symm.trans hret
  have hkept := hsync.kept ha.2 hready hsame
  have hsharp : (p.shown s).Sharp := by
    refine (ha.2.resolve_left fun hnot => ?_).2
    rw [hsync.rest_eq] at hready
    exact absurd (hready.symm.trans hnot) (by decide)
  obtain ⟨c, u, htag, hpass, hr⟩ := Retagged.of_touched hsync.advance.sound fun x hx =>
    hsync.touched_lt x (Array.mem_toList_iff.1 hx)
  have hsharp' := hr.sharp (Or.inr hkept.2)
  rw [hr.shown_eq] at hsharp'
  have htag_eq : q.tagging.tagNow t = p.tagging.tagNow s := hsync.tag_eq
  refine ⟨c, u, htag, hpass.ready, hpass.now_eq, hsharp', hsharp, fun x hx hnone => ?_⟩
  rw [← htag_eq]
  refine hpass.other x fun ⟨_, z, hz, heq⟩ => ?_
  -- A touched variable with the old tag of `x` belonged together with `x`.
  have hz := Array.mem_toList_iff.1 hz
  have hxa := (hsync.thins hsame).active_subset hx
  rw [htag_eq] at heq
  exact hnone z hz ((hsharp x hxa z (touched_active hp hsynchronize z hz)).1 heq.symm)

/-- The tags of a pass that began with the propagator `p` and the store `s`, had come to `q` and `t`
and tagged the components of the variables `touched`. -/
structure Retags (p : AllDifferent) (s : Store) (touched : Array Nat) (q : AllDifferent) (t : Store)
    (tagging : Tagging) (u : Store) (tags : Nat → Int) : Prop where
  made : Tagging.tagTouched q.graph touched.toList q.tagging t = .ok (tagging, u)
  tag_eq : ∀ x < q.graph.varTotal, tagging.tag u x = .ok (tags x)
  agree : ∃ full v, Tagging.tagsAgree q.graph tagging u = .ok (true, full, v)
  /-- A full pass over the same graph makes the same partition of the active variables. -/
  full : ∃ (full : Tagging) (v : Store) (tags' : Nat → Int),
    Tagging.tagAll q.graph q.tagging t = .ok (full, v) ∧
    (∀ x < q.graph.varTotal, full.tag v x = .ok (tags' x)) ∧
    ∀ x ∈ (q.graph.snapshot (q.graph.now t)).active,
      ∀ y ∈ (q.graph.snapshot (q.graph.now t)).active, tags x = tags y ↔ tags' x = tags' y
  /-- The tags before were those of the components, and where nothing was touched they stay. -/
  kept : ∃ old : Nat → Int, (∀ x < p.graph.varTotal, p.tagging.tag s x = .ok (old x)) ∧
    (∀ x ∈ (p.graph.snapshot (p.graph.now s)).active,
      ∀ y ∈ (p.graph.snapshot (p.graph.now s)).active,
        old x = old y ↔ (p.graph.snapshot (p.graph.now s)).Together x y) ∧
    ∀ x ∈ (q.graph.snapshot (q.graph.now t)).active,
      (∀ z ∈ touched, ¬ (p.graph.snapshot (p.graph.now s)).Together x z) → tags x = old x

/-- When the matching stays the same, a pass of a run can tag in parts. -/
theorem Begins.retagged {q' : AllDifferent} {t' : Store} (h : p.Begins s p' s') (hp : p.Sound s)
    (hhonest : (p.shown s).Honest) (ha : p.Assured s)
    (hsynchronize : p'.synchronize s' = .ok (.consistent, changes, q, t))
    (hrepair : q.repair changes t = .ok (.unchanged, q', t')) :
    ∃ tagging u tags, Retags p' s' changes.touched q' t' tagging u tags := by
  obtain ⟨hp', ha'⟩ := h.assured hp hhonest ha
  obtain ⟨_, _, _, _, hret, hsync⟩ := synchronize_eq hp'
  cases hsynchronize.symm.trans hret
  have hq := hsync.advance.sound
  obtain ⟨_, _, _, hret, hr⟩ := repair_eq hq changes
  cases hrepair.symm.trans hret
  obtain ⟨hready, hsame⟩ := hr.unchanged_iff.1 rfl
  obtain ⟨rfl, rfl⟩ := hr.unchanged rfl
  obtain ⟨tagging, u, htag, htagged, hnow, hsharp, hold, hkeeps⟩ :=
    tagTouched_sharp hp' ha' hsynchronize hready hsame
  obtain ⟨same, full, v, hagree, _, _, hsame'⟩ := Tagging.tagsAgree_eq htagged
  obtain ⟨full', v', hall, hpass, htogether⟩ := Tagging.tagAll_eq hq.ready
  have hread : ∀ {c : Tagging} {g : ValueGraph} {s : Store}, Tagging.Ready g c s →
      ∀ x < g.varTotal, c.tag s x = .ok (c.tagNow s x) := fun hc x hx =>
    Tagging.tag_eq hc.wired (hc.fit.size_tags.symm ▸ hx)
  refine ⟨tagging, u, _, htag, hread htagged, ⟨full, v, ?_⟩,
    ⟨full', v', _, hall, hread hpass.ready, fun x hx y hy => ?_⟩, _, hread hp'.ready, hold, hkeeps⟩
  · rw [hagree, hsame' (by rw [hnow]; exact hsharp)]
  · exact (hsharp x hx y hy).trans (htogether x hx y hy).symm

end AllDifferent

namespace Model

variable {π : Type} [Propagator π] [Tame π] {wrap : AllDifferent → π} {m m' : Model π}
  {c : Constraint} {vars : List Var} {options : Options}

/-- Whatever propagators there are in a model and whatever was done to it with discipline: whenever
an all different constraint runs and tags in parts, the tags agree with those of a full pass, and the
variables without a touched one in their component keep the tags they had. -/
theorem Hosted.retags (h : Hosted wrap c vars options m .consistent) (hwrap : Embeds wrap)
    (hruns : (c, m') ∈ m.runs) : ∃ p, m'.propagators[c.index]? = some (wrap p) ∧
      ∀ p' s' changes q t q' t', p.Begins m'.store p' s' →
        p'.synchronize s' = .ok (.consistent, changes, q, t) →
        q.repair changes t = .ok (.unchanged, q', t') →
        ∃ tagging u tags, Retags p' s' changes.touched q' t' tagging u tags := by
  obtain ⟨p, hp, hsound, hhonest, hassured, _⟩ := h.assured hwrap hruns
  exact ⟨p, hp, fun _ _ _ _ _ _ _ hbegins => hbegins.retagged hsound hhonest hassured⟩

/-- Five variables and a view, a constraint that is posted only, and a script that cuts a domain. -/
def twofold : List (Operation Rule) :=
  [.declare (.primitive 0 1), .declare (.primitive 0 1), .declare (.primitive 2 5),
    .declare (.primitive 2 4), .declare (.primitive 1 3), .declare (.plus ⟨4⟩ 1),
    .making .allDifferent [⟨0⟩, ⟨3⟩] .usual, posting (.new [.removeAbove ⟨2⟩ 4] none), .schedule ⟨1⟩]

/-- A level is restored, and then the component of three variables loses arcs. -/
def loosened : List (Operation Rule) :=
  [.fixpoint, .save, .attempt (.fix ⟨2⟩ 3), .fixpoint, .restore, .attempt (.remove ⟨3⟩ 2),
    .attempt (.remove ⟨5⟩ 2)]

/-- The component of three variables splits while the one of the other two is left alone. -/
theorem Hosted.retags_split :
    ∃ (m₀ m₁ m m' : Model Rule) (p : AllDifferent) (changes : Changes) (q : AllDifferent) (t : Store)
      (q' : AllDifferent) (t' : Store) (tagging : Tagging) (u : Store) (tags : Nat → Int),
    (Model.empty .lastFirst).conductAll 0 .consistent twofold = .ok (.consistent, m₀) ∧
      m₀.enlist .allDifferent [⟨0⟩, ⟨1⟩, ⟨2⟩, ⟨3⟩, ⟨5⟩] .usual = .ok m₁ ∧
      m₁.conductAll 3 .consistent loosened = .ok (.consistent, m) ∧ (⟨2⟩, m') ∈ m.runs ∧
      m'.propagators[2]? = some (.allDifferent p) ∧
      { p with work := p.alarm }.synchronize m'.store = .ok (.consistent, changes, q, t) ∧
      q.repair changes t = .ok (.unchanged, q', t') ∧
      (List.range 5).mapM (p.tagging.tag m'.store) = .ok [0, 0, 2, 2, 2] ∧
      (List.range 5).mapM (tagging.tag u) = .ok [0, 0, 5, 6, 6] ∧
      Retags { p with work := p.alarm } m'.store changes.touched q' t' tagging u tags := by
  have htwofold : ∀ op ∈ twofold, Welcome op := Welcome.of_posts <| List.forall_mem_cons.2
    ⟨.making Rule.wraps_allDifferent _ _, List.forall_mem_singleton.2 (.posting (by simp [Script.new]))⟩
  have hloosened : ∀ op ∈ loosened, Welcome op := Welcome.of_posts (List.forall_mem_nil _)
  have hrun : ((Model.empty .lastFirst : Model Rule).conductAll 0 .consistent twofold >>= fun a =>
      a.2.enlist .allDifferent [⟨0⟩, ⟨1⟩, ⟨2⟩, ⟨3⟩, ⟨5⟩] .usual >>= fun m₁ =>
      m₁.conductAll 3 .consistent loosened >>= fun b => b.2.wake >>= fun w =>
      w.allDifferentAt 2 >>= fun p =>
      { p with work := p.alarm }.synchronize w.store >>= fun y =>
      y.2.2.1.repair y.2.1 y.2.2.2 >>= fun z =>
      Tagging.tagTouched z.2.1.graph y.2.1.touched.toList z.2.1.tagging z.2.2 >>= fun made =>
      (List.range 5).mapM (p.tagging.tag w.store) >>= fun old =>
      (List.range 5).mapM (made.1.tag made.2) >>= fun new =>
      .ok ((a.1, b.1, y.1, z.1), (a.2.propagators.size, w.order.arrange w.rounds w.scheduled),
        old, new)) =
      .ok ((.consistent, .consistent, .consistent, .unchanged), (2, [⟨2⟩]), [0, 0, 2, 2, 2],
        [0, 0, 5, 6, 6]) := by
    decide +kernel
  obtain ⟨⟨v₀, m₀⟩, hm₀, hrun⟩ := bind_eq_ok_iff.1 hrun
  obtain ⟨m₁, hm₁, hrun⟩ := bind_eq_ok_iff.1 hrun
  obtain ⟨⟨v, m⟩, hm, hrun⟩ := bind_eq_ok_iff.1 hrun
  obtain ⟨w, hwake, hrun⟩ := bind_eq_ok_iff.1 hrun
  obtain ⟨p, hp, hrun⟩ := bind_eq_ok_iff.1 hrun
  obtain ⟨⟨verdict, changes, q, t⟩, hsynchronize, hrun⟩ := bind_eq_ok_iff.1 hrun
  obtain ⟨⟨repair, q', t'⟩, hrepair, hrun⟩ := bind_eq_ok_iff.1 hrun
  obtain ⟨⟨tagging, u⟩, htag, hrun⟩ := bind_eq_ok_iff.1 hrun
  obtain ⟨old, hold, hrun⟩ := bind_eq_ok_iff.1 hrun
  obtain ⟨new, hnew, heq⟩ := bind_eq_ok_iff.1 hrun
  injection heq with heq
  simp only [Prod.mk.injEq] at heq
  obtain ⟨⟨rfl, rfl, rfl, rfl⟩, ⟨hsize, harrange⟩, rfl, rfl⟩ := heq
  have hhosted := Hosted.of_conductAll Rule.embeds_allDifferent htwofold hloosened hm₀ hsize hm₁ hm
  have hruns := mem_runs_of_wake hwake harrange
  have hhere := getElem?_of_allDifferentAt hp
  obtain ⟨_, hp', hretags⟩ := Hosted.retags hhosted Rule.embeds_allDifferent hruns
  cases hhere.symm.trans hp'
  obtain ⟨_, _, tags, hmade⟩ := hretags _ _ _ _ _ _ _ .first hsynchronize hrepair
  cases htag.symm.trans hmade.made
  exact ⟨m₀, m₁, m, _, p, changes, q, t, q', t', tagging, u, tags, hm₀, hm₁, hm, hruns, hhere,
    hsynchronize, hrepair, hold, hnew, hmade⟩

end Model

end FiniteDomain
