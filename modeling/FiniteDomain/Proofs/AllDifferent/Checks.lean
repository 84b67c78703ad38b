import FiniteDomain.Proofs.AllDifferent.Creation
import FiniteDomain.Proofs.AllDifferent.Mirrors

/-!
# Propagators that check, and others that do not

A propagator that checks the matching after each repair and the tags after each partial pass goes
through the same steps as one that does not.  The check of the tags takes a full pass, after which the
tags are others; but the components are the same, and the deductions depend on them alone.

* `Yields P x` says that the answer of `x`, if there is one, has the property `P`.  Passes over the
  components write tags only: `Tagging.retag_spares`, `AllDifferent.retag_spares`.
* `AllDifferent.Mirrors hidden p p'` relates two propagators that differ in their tags, which are
  hidden, and in whether they check.  New propagators do (`new_inStep`).
* `Mirrors.prunable` is where the tags are read: on both sides they tell the same components apart.
* `Mirrors.filter`, `Mirrors.run` and `Mirrors.propagate` say that such propagators run in step, as long
  as both are `Reliable`.  So no check fails.
-/

namespace FiniteDomain

/-! ## Properties of answers -/

/-- The answer has a property, if there is one. -/
def Yields {α : Type} (P : α → Prop) (x : Except Fault α) : Prop := ∀ a, x = .ok a → P a

namespace Yields

variable {α β : Type} {P : α → Prop} {Q : β → Prop} {x y : Except Fault α}
  {f : α → Except Fault β}

theorem ok {a : α} (h : P a) : Yields P (.ok a) := by
  rintro _ ⟨⟩
  exact h

theorem error (fault : Fault) : Yields P (.error fault) := by
  rintro _ ⟨⟩

theorem bind (h : Yields P x) (hf : ∀ a, P a → Yields Q (f a)) : Yields Q (x >>= f) := by
  intro b hb
  obtain ⟨a, ha, hb⟩ := bind_eq_ok_iff.1 hb
  exact hf a (h a ha) b hb

/-- Nothing is said of the answer of the first part. -/
theorem andThen (hf : ∀ a, Yields Q (f a)) : Yields Q (x >>= f) :=
  bind (P := fun _ => True) (fun _ _ => trivial) fun a _ => hf a

theorem ite {c : Prop} [Decidable c] (h : Yields P x) (h' : Yields P y) :
    Yields P (if c then x else y) := by
  split
  · exact h
  · exact h'

end Yields

namespace AllDifferent

variable {hidden : Cell → Prop} {s s' s₁ s₁' : Store} {p p' p₁ p₁' : AllDifferent}
  {changes : Changes}

/-! ## Tags are written only -/

namespace Tagging

variable {g : ValueGraph} {c : Tagging} {tags : Array Cell}

/-- The cells of the tags are these, and the store mirrors what it was before. -/
def Spares (hidden : Cell → Prop) (s : Store) (tags : Array Cell) (r : Tagging × Store) : Prop :=
  r.1.tags = tags ∧ s.Mirrors hidden r.2

/-- A loop that leaves the cells of the tags alone. -/
theorem foldl_tags {α : Type} {f : Tagging → α → Tagging} (hf : ∀ c a, (f c a).tags = c.tags)
    (as : List α) (c : Tagging) : (as.foldl f c).tags = c.tags := by
  induction as generalizing c with
  | nil => rfl
  | cons a rest ih => exact (ih (f c a)).trans (hf c a)

section

variable (htags : ∀ d ∈ tags, hidden d)

include htags

theorem closeStack_spares (h : s.Mirrors hidden s') (hc : c.tags = tags) (root : Nat) (tag : Int)
    (stack : List Nat) : Yields (Spares hidden s tags) (closeStack root tag stack c s') := by
  induction stack generalizing c s' with
  | nil => exact .ok ⟨hc, h⟩
  | cons y rest ih =>
    have hfetch : Yields hidden (fetch c.tags y) := fun d hd =>
      htags d (hc ▸ Array.mem_of_getElem? (fetch_eq_ok_iff.1 hd))
    rw [closeStack]
    exact hfetch.bind fun d hd => Yields.bind (fun _ => h.write_hidden hd)
      fun s₁ h₁ => .ite (.ok ⟨hc, h₁⟩) (ih h₁ hc)

theorem leave_spares (h : s.Mirrors hidden s') (hc : c.tags = tags) (x : Nat)
    (calls : List (Nat × Nat)) : Yields (Spares hidden s tags) (c.leave s' x calls) := by
  have hclose : ∀ c₁ : Tagging, c₁.tags = tags →
      Yields (Spares hidden s tags) (c₁.closeComponent s' x) :=
    fun c₁ hc₁ => closeStack_spares htags h (c := { c₁ with nextTag := c₁.nextTag + 1 }) hc₁ x _ _
  refine .andThen fun low => ?_
  cases calls with
  | nil => exact .andThen fun met => .ite (hclose _ hc) (.ok ⟨hc, h⟩)
  | cons call rest => exact .andThen fun met => .ite (hclose _ hc) (.ok ⟨hc, h⟩)

omit htags in
theorem followArc_tags (hc : c.tags = tags) (counter x y : Nat) :
    Yields (fun r => r.2.tags = tags) (followArc c counter x y) := by
  refine .ite (.ok hc) (.andThen fun _ => .andThen fun _ => .ite (.ok hc) (.andThen fun met => ?_))
  cases met with
  | none => exact .ok hc
  | some i =>
    refine .andThen fun on => .ok ?_
    cases on <;> exact hc

theorem step_spares (h : s.Mirrors hidden s') (hc : c.tags = tags) (g : ValueGraph)
    (counter : Nat) :
    Yields (fun r => ∀ next, r = some next → Spares hidden s tags next.2)
      (step g counter c s') := by
  have hleave : ∀ (x : Nat) (calls : List (Nat × Nat)),
      Yields (fun r : Option (Nat × Tagging × Store) => ∀ next, r = some next →
        Spares hidden s tags next.2)
        (c.leave s' x calls >>= fun left => .ok (some (counter, left.1, left.2))) := by
    refine fun x calls => (leave_spares htags h hc x calls).bind fun r hr => .ok ?_
    rintro _ ⟨⟩
    exact hr
  rw [step]
  cases c.calls with
  | nil =>
    refine .ok ?_
    rintro _ ⟨⟩
  | cons call calls =>
    refine .andThen fun mate => ?_
    cases mate with
    | none => exact hleave _ _
    | some v =>
      refine .andThen fun count => .ite (.andThen fun y => ?_) (hleave _ _)
      refine (followArc_tags (c := { c with calls := (call.1, call.2 + 1) :: calls }) hc _ _ _).bind
        fun r hr => .ok ?_
      rintro _ ⟨⟩
      exact ⟨hr, h⟩

theorem search_spares (h : s.Mirrors hidden s') (hc : c.tags = tags) (g : ValueGraph)
    (fuel counter : Nat) :
    Yields (fun r => Spares hidden s tags r.2) (search g fuel counter c s') := by
  induction fuel generalizing counter c s' with
  | zero => exact .error _
  | succ fuel ih =>
    rw [search]
    refine (step_spares htags h hc g counter).bind fun r hr => ?_
    cases r with
    | none => exact .ok ⟨hc, h⟩
    | some next => exact ih (hr next rfl).2 (hr next rfl).1 _

theorem searchAll_spares (h : s.Mirrors hidden s') (hc : c.tags = tags) (g : ValueGraph)
    (roots : List Nat) (counter : Nat) :
    Yields (Spares hidden s tags) (searchAll g roots counter c s') := by
  induction roots generalizing counter c s' with
  | nil => exact .ok ⟨hc, h⟩
  | cons root rest ih =>
    rw [searchAll]
    refine .andThen fun met => ?_
    cases met with
    | some _ => exact ih h hc counter
    | none =>
      exact (search_spares htags h (c := c.enter root counter) hc g _ _).bind fun r hr =>
        ih hr.2 hr.1 _

/-- A pass over several variables writes tags only. -/
theorem retag_spares (h : s.Mirrors hidden s') (hc : c.tags = tags) (g : ValueGraph)
    (members : List Nat) : Yields (Spares hidden s tags) (retag g members c s') := by
  refine (searchAll_spares htags h hc g members 0).bind fun r hr => .ok ⟨?_, hr.2⟩
  exact (foldl_tags (f := forget) (fun _ _ => rfl) members r.1).trans hr.1

theorem tagAll_spares (h : s.Mirrors hidden s') (hc : c.tags = tags) (g : ValueGraph) :
    Yields (Spares hidden s tags) (tagAll g c s') := by
  refine .andThen fun members => retag_spares htags h (Eq.trans ?_ hc) g _
  refine foldl_tags (fun _ _ => ?_) members c
  rfl

theorem tagTouched_spares (h : s.Mirrors hidden s') (hc : c.tags = tags) (g : ValueGraph)
    (touched : List Nat) : Yields (Spares hidden s tags) (tagTouched g touched c s') := by
  refine .andThen fun affected => .andThen fun active => .andThen fun members =>
    retag_spares htags h (Eq.trans ?_ hc) g _
  refine foldl_tags (fun _ _ => ?_) members c
  rfl

theorem tagsAgree_spares (h : s.Mirrors hidden s') (hc : c.tags = tags) (g : ValueGraph) :
    Yields (fun r => Spares hidden s tags r.2) (tagsAgree g c s') :=
  .andThen fun _ => .andThen fun _ => (tagAll_spares htags h hc g).bind fun _ hr =>
    .andThen fun _ => .ok hr

end

end Tagging

open ValueGraph

/-! ## Propagators that differ in their tags -/

/-- Two propagators differ in their tags, which are hidden, and in whether they check. -/
inductive Mirrors (hidden : Cell → Prop) : AllDifferent → AllDifferent → Prop
  | intro {options : Options} {checked : Bool} {graph : ValueGraph} {matcher : Matcher}
      {tagging tagging' : Tagging} {reach : Reach} {work : Worklist} {ready : Bool}
      (htags : tagging'.tags = tagging.tags) (hhidden : ∀ d ∈ tagging.tags, hidden d)
      (hg : graph.Shown hidden) (hprevious : ¬ hidden reach.previous) :
      Mirrors hidden ⟨options, graph, matcher, tagging, reach, work, ready⟩
        ⟨{ options with checked }, graph, matcher, tagging', reach, work, ready⟩

/-- The two sides give the same answer, and propagators and stores that mirror each other. -/
def Paired {α : Type} (hidden : Cell → Prop) (r r' : α × AllDifferent × Store) : Prop :=
  r.1 = r'.1 ∧ r.2.1.Mirrors hidden r'.2.1 ∧ r.2.2.Mirrors hidden r'.2.2

namespace Mirrors

theorem graph_eq (h : p.Mirrors hidden p') : p'.graph = p.graph := by
  obtain ⟨_⟩ := h
  rfl

theorem reach_eq (h : p.Mirrors hidden p') : p'.reach = p.reach := by
  obtain ⟨_⟩ := h
  rfl

theorem ready_eq (h : p.Mirrors hidden p') : p'.ready = p.ready := by
  obtain ⟨_⟩ := h
  rfl

theorem shown (h : p.Mirrors hidden p') : p.graph.Shown hidden := by
  obtain ⟨_, _, hg, _⟩ := h
  exact hg

theorem tags_hidden (h : p.Mirrors hidden p') : ∀ d ∈ p.tagging.tags, hidden d := by
  obtain ⟨_, hhidden, _, _⟩ := h
  exact hhidden

theorem tags_hidden' (h : p.Mirrors hidden p') : ∀ d ∈ p'.tagging.tags, hidden d := by
  obtain ⟨hsame, hhidden, _, _⟩ := h
  exact fun d hd => hhidden d (hsame ▸ hd)

/-- Other cells are hidden, but none of the propagator's but its tags. -/
theorem rehide {hidden' : Cell → Prop} (h : p.Mirrors hidden p')
    (htags : ∀ d ∈ p.tagging.tags, hidden' d) (hless : ∀ c, p.Owns c → hidden' c → hidden c) :
    p.Mirrors hidden' p' := by
  obtain ⟨hsame, _, hg, hprevious⟩ := h
  exact .intro hsame htags
    (.of_owns fun c hc hc' => hg.not_hidden hc (hless c (Or.inl hc) hc'))
    fun hc' => hprevious (hless _ (Or.inr (Or.inr rfl)) hc')

/-! ### Steps that do not look at the tags -/

theorem extend (h : p.Mirrors hidden p') (hs : s.Mirrors hidden s') :
    InStep (Paired hidden) (p.extend s) (p'.extend s') := by
  obtain ⟨htags, hhidden, hg, hprevious⟩ := h
  refine (hg.augment hs _).bind ?_
  rintro ⟨outcome, matcher, s₁⟩ ⟨_, _, s₁'⟩ ⟨rfl, rfl, hs₁⟩
  cases outcome with
  | impossible => exact .ok ⟨rfl, .intro htags hhidden hg hprevious, hs₁⟩
  | covered paths => exact .ok ⟨rfl, .intro htags hhidden hg hprevious, hs₁⟩

theorem repair (h : p.Mirrors hidden p') (hs : s.Mirrors hidden s') (changes : Changes) :
    InStep (Paired hidden) (p.repair changes s) (p'.repair changes s') := by
  rw [AllDifferent.repair, AllDifferent.repair, h.graph_eq, h.ready_eq]
  exact .ite (fun _ => (h.shown.greedy hs).bind fun _ _ hs₁ => h.extend hs₁) fun _ =>
    .ite (fun _ => h.extend hs) fun _ => .ok ⟨rfl, h, hs⟩

theorem synchronize (h : p.Mirrors hidden p') (hs : s.Mirrors hidden s') :
    InStep (fun r r' => r.1 = r'.1 ∧ Paired hidden r.2 r'.2) (p.synchronize s)
      (p'.synchronize s') := by
  obtain ⟨htags, hhidden, hg, hprevious⟩ := h
  refine (Sync.Mirrors.forwardCheck (.intro hg hs)).bind ?_
  rintro ⟨verdict, y⟩ ⟨_, y'⟩ ⟨rfl, hy⟩
  obtain ⟨hg₁, hs₁⟩ := hy
  exact .ok ⟨rfl, rfl, .intro htags hhidden hg₁ hprevious, hs₁⟩

theorem shortcuts (h : p.Mirrors hidden p') (hs : s.Mirrors hidden s') :
    InStep Eq (p.shortcuts s) (p'.shortcuts s') := by
  obtain ⟨htags, hhidden, hg, hprevious⟩ := h
  refine .ite (fun _ => .ok rfl) fun _ => .filterMapM fun v _ => (hg.liveCount hs v).andThen
    fun count => .ite (fun _ => (hg.owner? hs v).andThen fun owner => ?_) fun _ => .ok rfl
  cases owner with
  | none => exact .ok rfl
  | some x =>
    exact (hg.isActive hs x).andThen fun _ => .ite (fun _ => (InStep.fetch _ _).andThen fun var =>
      (hs.size var).andThen fun _ => .ite (fun _ => (InStep.fetch _ _).andThen fun _ => .ok rfl)
        fun _ => .ok rfl) fun _ => .ok rfl

/-- Deductions are carried out in step, by any way to narrow domains that keeps in step. -/
theorem carryOut {g : ValueGraph} {narrow : Narrowing}
    (hnarrow : ∀ {s s' : Store}, s.Mirrors hidden s' → ∀ (x : Var) (v : Int),
      InStep (Store.Paired hidden) (narrow s x v) (narrow s' x v))
    (hs : s.Mirrors hidden s') (ds : List Deduction) (work : Worklist) :
    InStep (fun r r' => r.1 = r'.1 ∧ r.2.1 = r'.2.1 ∧ r.2.2.Mirrors hidden r'.2.2)
      (carryOut g narrow ds work s) (carryOut g narrow ds work s') := by
  induction ds generalizing work s s' with
  | nil => exact .ok ⟨rfl, rfl, hs⟩
  | cons d rest ih =>
    obtain ⟨x, v⟩ := d
    refine (InStep.fetch _ _).andThen fun var => (hnarrow hs var v).bind ?_
    rintro ⟨verdict, s₁⟩ ⟨_, s₁'⟩ ⟨rfl, hs₁⟩
    cases verdict with
    | failed why => exact .ok ⟨rfl, rfl, hs₁⟩
    | consistent => exact (sharers_inStep g x).andThen fun _ => ih hs₁ _

theorem conclude (h : p.Mirrors hidden p') (hs : s.Mirrors hidden s')
    (fixes removals : List Deduction) :
    InStep (Paired hidden) (p.conclude fixes removals s) (p'.conclude fixes removals s') := by
  obtain ⟨htags, hhidden, hg, hprevious⟩ := h
  refine (carryOut (fun h => h.fix) hs fixes _).bind ?_
  rintro ⟨verdict, work, s₁⟩ ⟨_, _, s₁'⟩ ⟨rfl, rfl, hs₁⟩
  cases verdict with
  | failed why => exact .ok ⟨rfl, .intro htags hhidden hg hprevious, hs₁⟩
  | consistent =>
    refine (carryOut (fun h => h.remove) hs₁ removals _).bind ?_
    rintro ⟨verdict, work, s₂⟩ ⟨_, _, s₂'⟩ ⟨rfl, rfl, hs₂⟩
    exact .ok ⟨rfl, .intro htags hhidden hg hprevious, hs₂⟩

theorem notify (h : p.Mirrors hidden p') (x : Var) :
    (p.notify x).Mirrors hidden (p'.notify x) := by
  obtain ⟨htags, hhidden, hg, hprevious⟩ := h
  exact .intro htags hhidden hg hprevious

theorem onRestore (h : p.Mirrors hidden p') : p.onRestore.Mirrors hidden p'.onRestore := by
  obtain ⟨htags, hhidden, hg, hprevious⟩ := h
  exact .intro htags hhidden hg hprevious

theorem smallest? {g : ValueGraph} (hs : s.Mirrors hidden s') (xs : List Nat)
    (best : Option (Nat × Nat)) :
    InStep Eq (smallest? g s xs best) (smallest? g s' xs best) := by
  induction xs generalizing best with
  | nil => exact .ok rfl
  | cons x rest ih =>
    exact (InStep.fetch _ _).andThen fun var => (hs.size var).andThen fun _ => ih _

/-- The same decision is suggested. -/
theorem hint? (h : p.Mirrors hidden p') (hs : s.Mirrors hidden s') :
    InStep Eq (p.hint? s) (p'.hint? s') := by
  obtain ⟨htags, hhidden, hg, hprevious⟩ := h
  refine (hg.activeVars hs).andThen fun xs => (smallest? hs xs none).andThen fun best => ?_
  cases best with
  | none => exact .ok rfl
  | some best =>
    refine (hg.mate? hs best.1).andThen fun mate => ?_
    cases mate with
    | none => exact .ok rfl
    | some a =>
      exact (InStep.fetch _ _).andThen fun _ => (InStep.fetch _ _).andThen fun _ =>
        (hg.liveCount hs a).andThen fun _ => (InStep.subCount _ _).andThen fun _ =>
          (InStep.subCount _ _).andThen fun _ => (InStep.addCount _ _).andThen fun _ => .ok rfl

/-! ### Deductions from the tags -/

theorem now_eq {g : ValueGraph} (hg : g.Shown hidden) (hs : s.Mirrors hidden s') :
    g.now s' = g.now s := by
  funext r
  rw [now, now, registers, registers]
  cases hc : g.cell? r with
  | none => rfl
  | some c => exact hs.trail.now.get_eq c (hg.not_hidden ⟨r, hc⟩)

/-- Both see the same graph. -/
theorem snapshot_eq (h : p.Mirrors hidden p') (hs : s.Mirrors hidden s') :
    (p'.shown s').graph = (p.shown s).graph := by
  show p'.graph.snapshot (p'.graph.now s') = p.graph.snapshot (p.graph.now s)
  rw [h.graph_eq, now_eq h.shown hs]

theorem outsiders (h : p.Mirrors hidden p') (hs : s.Mirrors hidden s') (hp : p.Sound s)
    (hp' : p'.Sound s') {x a : Nat} (hx : x < p.graph.varTotal) (ha : a < p.graph.valueTotal)
    (htag : ∀ y ∈ (p.shown s).graph.active,
      (p'.shown s').tag y = (p'.shown s').tag x ↔ (p.shown s).tag y = (p.shown s).tag x) :
    InStep Eq (p.outsiders s x a) (p'.outsiders s' x a) := by
  have hgraph := h.graph_eq
  have hread : ∀ {z}, z < p.graph.varTotal → p.tagging.tag s z = .ok ((p.shown s).tag z) :=
    fun hz => Tagging.tag_eq hp.tags_wired (hp.tags_fit.size_tags ▸ hz)
  have hread' : ∀ {z}, z < p.graph.varTotal → p'.tagging.tag s' z = .ok ((p'.shown s').tag z) :=
    fun hz => Tagging.tag_eq hp'.tags_wired (hp'.tags_fit.size_tags ▸ hgraph ▸ hz)
  rw [AllDifferent.outsiders, AllDifferent.outsiders, hread hx, hread' hx, ok_bind, ok_bind, hgraph]
  refine (h.shown.liveVars hs a).bind_of_eq fun ys _ hys _ hsame => ?_
  subst hsame
  obtain ⟨zs, hzs, _, hmem⟩ := hp.graph.liveVars_eq ha
  cases hys.symm.trans hzs
  refine .filterMapM fun y hy => .ite (fun _ => .ok rfl) fun _ => ?_
  have hy : y < p.graph.varTotal := (hp.graph.within.live_lt y a ((hmem y).1 hy)).1
  refine (h.shown.isActive hs y).bind_of_eq fun active _ hactive _ hsame => ?_
  subst hsame
  rw [hp.graph.isActive_eq hy, Except.ok.injEq] at hactive
  refine .ite (fun htrue => ?_) fun _ => .ok rfl
  rw [htrue, decide_eq_true_iff] at hactive
  rw [hread hy, hread' hy, ok_bind, ok_bind]
  by_cases hsame : (p.shown s).tag y = (p.shown s).tag x
  · rw [if_pos hsame, if_pos ((htag y hactive).2 hsame)]
    exact .ok rfl
  · rw [if_neg hsame, if_neg fun hsame' => hsame ((htag y hactive).1 hsame')]
    exact (InStep.fetch _ _).andThen fun _ => .ok rfl

/-- If the tags are those of the components on both sides, the same values can be removed. -/
theorem prunable (h : p.Mirrors hidden p') (hs : s.Mirrors hidden s') (hp : p.Sound s)
    (hp' : p'.Sound s') (hsharp : (p.shown s).Sharp) (hsharp' : (p'.shown s').Sharp) :
    InStep Eq (p.prunable s) (p'.prunable s') := by
  have hsnapshot := h.snapshot_eq hs
  have htag : ∀ x ∈ (p.shown s).graph.active, ∀ y ∈ (p.shown s).graph.active,
      (p'.shown s').tag y = (p'.shown s').tag x ↔ (p.shown s).tag y = (p.shown s).tag x := by
    intro x hx y hy
    rw [hsharp y hy x hx, hsharp' y (hsnapshot ▸ hy) x (hsnapshot ▸ hx), hsnapshot]
  rw [AllDifferent.prunable, AllDifferent.prunable, h.graph_eq, h.reach_eq]
  refine (h.shown.activeVars hs).bind_of_eq fun xs _ hxs _ hsame => ?_
  subst hsame
  obtain ⟨ys, hys, _, hmem⟩ := hp.graph.activeVars_eq
  cases hxs.symm.trans hys
  refine (InStep.mapM fun x hx => ?_).andThen fun _ => .ok rfl
  have hactive : x ∈ (p.shown s).graph.active := (hmem x).1 hx
  have hx := hp.graph.within.active_lt x hactive
  refine (isMarked_inStep _ x).andThen fun _ => .ite (fun _ => .ok rfl) fun _ => ?_
  refine (h.shown.mate? hs x).bind_of_eq fun mate _ hmate _ hsame => ?_
  subst hsame
  rw [hp.graph.mate?_eq hx, Except.ok.injEq] at hmate
  cases mate with
  | none => exact .ok rfl
  | some a => exact h.outsiders hs hp hp' hx (hp.graph.within.mate_lt x a hmate).2 (htag x hactive)

theorem deduce (h : p.Mirrors hidden p') (hs : s.Mirrors hidden s') (hp : p.Sound s)
    (hp' : p'.Sound s') (hsharp : (p.shown s).Sharp) (hsharp' : (p'.shown s').Sharp) :
    InStep (fun r r' => r.1 = r'.1 ∧ Paired hidden r.2 r'.2) (p.deduce s) (p'.deduce s') := by
  refine (h.shortcuts hs).andThen fun fixes => (h.prunable hs hp hp' hsharp hsharp').andThen
    fun removals => .ite (fun _ => .ok ⟨rfl, rfl, h, hs⟩) fun _ =>
      (h.conclude hs fixes removals).bind ?_
  rintro ⟨verdict, p₁, s₁⟩ ⟨_, p₁', s₁'⟩ ⟨rfl, h₁, hs₁⟩
  exact .ok ⟨rfl, rfl, h₁, hs₁⟩

end Mirrors

/-! ## New propagators -/

/-- The same propagator is made, whether it is going to check or not.  Its tags are hidden from then
on. -/
theorem new_inStep {vars : Array Var} (h : s.Mirrors hidden s') (hs : s.Sound)
    (hvars : ∀ x ∈ vars, x.index < s.definitions.size) (options : Options) (checked : Bool) :
    InStep (fun r r' => r.1.Mirrors (fun c => hidden c ∨ c ∈ r.1.tagging.tags) r'.1 ∧
        r.2.Mirrors (fun c => hidden c ∨ c ∈ r.1.tagging.tags) r'.2)
      (new s vars options) (new s' vars { options with checked }) := by
  -- At first the tags are not hidden.
  have hmade : InStep (fun r r' => r'.1 = { r.1 with options := { r.1.options with checked } } ∧
      r.1.graph.Shown hidden ∧ ¬ hidden r.1.reach.previous ∧ r.2.Mirrors hidden r'.2)
      (new s vars options) (new s' vars { options with checked }) := by
    refine (build_inStep h vars).bind ?_
    rintro ⟨g, s₁⟩ ⟨_, s₁'⟩ ⟨rfl, hg, h₁⟩
    obtain ⟨⟨htags, h₂⟩, _⟩ := h₁.newCells (List.replicate g.varTotal (-1))
    obtain ⟨hprevious, h₃⟩ := h₂.newCell g.varTotal
    have hshown := h₂.not_hidden_newCell g.varTotal
    dsimp only [Tagging.new, Reach.new]
    rw [← htags, ← hprevious]
    exact .ok ⟨rfl, hg, hshown, h₃⟩
  refine hmade.of_ok fun r r' hret _ hr => ?_
  obtain ⟨p, s₁⟩ := r
  obtain ⟨p', s₁'⟩ := r'
  obtain ⟨hp', hg, hprevious, h₁⟩ := hr
  dsimp only at hp' hg hprevious h₁ ⊢
  have hfitted := (new_eq hs hvars hret).sound.toFitted
  refine ⟨?_, h₁.hide (fun _ => Or.inl) (fun c hc => ?_) fun c hc => ?_⟩
  · rw [hp']
    exact .intro rfl (fun _ => Or.inr) (.of_owns fun c hc hor => hor.elim (hg.not_hidden hc)
      (hfitted.tags_apart c hc)) fun hor => hor.elim hprevious hfitted.previous_apart.2
  · exact hc.elim h₁.free (hfitted.tags_wired.free c)
  · exact hc.elim (h₁.trail.has c) (hfitted.tags_wired.has c)

/-! ## Passes -/

/-- Tags are written only, also by a check. -/
theorem retag_spares (htags : ∀ d ∈ p.tagging.tags, hidden d) (h : s.Mirrors hidden s')
    (repair : Repair) (touched : List Nat) :
    Yields (fun r => (∃ tagging, r.1 = { p with tagging } ∧ tagging.tags = p.tagging.tags) ∧
      s.Mirrors hidden r.2) (p.retag repair touched s') := by
  refine .ite ?_ ?_
  · refine (Tagging.tagTouched_spares htags h rfl p.graph touched).bind fun r hr => .ite ?_ ?_
    · refine (Tagging.tagsAgree_spares htags hr.2 hr.1 p.graph).bind fun r hr => .ite ?_ (.error _)
      exact .ok ⟨⟨r.2.1, rfl, hr.1⟩, hr.2⟩
    · exact .ok ⟨⟨r.1, rfl, hr.1⟩, hr.2⟩
  · refine (Tagging.tagAll_spares htags h rfl p.graph).bind fun r hr => ?_
    exact .ok ⟨⟨r.1, rfl, hr.1⟩, hr.2⟩

/-- A pass that can rely on the matching and on the tags passes its checks. -/
theorem Repaired.retag_eq {repair : Repair} {p₁ : AllDifferent} {s₁ : Store} (h : p.Sound s)
    (hr : Repaired p s changes repair p₁ s₁) (hpossible : repair ≠ .impossible)
    (htouched : ∀ x ∈ changes.touched, x < p.graph.varTotal)
    (hgrounded : (p.shown s).Grounded) (hkept : p.Kept s changes) :
    p₁.checkMatching s₁ = .ok () ∧
      ∃ p₂ s₂, p₁.retag repair changes.touched.toList s₁ = .ok (p₂, s₂) ∧
        Retagged p₁ s₁ repair changes.touched.toList p₂ s₂ := by
  have hsound := hr.advance.sound
  refine ⟨?_, ?_⟩
  · obtain hcheck | ⟨_, _, hnot⟩ := checkMatching_cases hsound
    · exact hcheck
    · exact absurd (fun x hx =>
        (hr.grounded hgrounded).exists_mate (hr.covered hpossible hkept.covered) hx) hnot
  · obtain hretag | ⟨_, _, hsame, hnot⟩ := retag_cases hsound repair changes.touched.toList
      fun x hx => by
        rw [hr.advance.alike.varTotal_eq]
        exact htouched x (Array.mem_toList_iff.1 hx)
    · exact hretag
    · obtain ⟨hready, hunchanged⟩ := hr.unchanged_iff.1 hsame
      obtain ⟨rfl, rfl⟩ := hr.unchanged hsame
      exact absurd (hkept hready hunchanged).2 hnot

/-- What a propagator can rely on when it is run. -/
structure Reliable (p : AllDifferent) (s : Store) : Prop where
  sound : p.Sound s
  honest : (p.shown s).Honest
  assured : p.Assured s

namespace Reliable

/-- What a pass can rely on. -/
theorem synchronized (h : p.Reliable s) (hsync : Synchronized p s .consistent changes p₁ s₁) :
    (p₁.shown s₁).Grounded ∧ p₁.Kept s₁ changes :=
  ⟨hsync.grounded h.assured.1, hsync.kept h.assured.2⟩

/-- What a run can rely on, the rest of it can. -/
theorem rest {p₂ : AllDifferent} {s₂ : Store} (h : p.Reliable s)
    (hsync : Synchronized p s .consistent changes p₁ s₁)
    (hfilter : p₁.filter changes s₁ = .ok (.consistent, true, p₂, s₂)) : p₂.Reliable s₂ := by
  obtain ⟨p', s', hfilter', _⟩ | ⟨p', s', hfilter', hprepared⟩ | ⟨_, hfails, _⟩ :=
    filter_cases hsync.advance.sound changes hsync.touched_lt (hsync.sane h.honest)
  · cases hfilter.symm.trans hfilter'
  · obtain ⟨verdict, more, p'', s'', hdeduce, hdeduced⟩ :=
      deduce_eq hprepared.advance.sound hprepared.located hprepared.honest
    cases hfilter.symm.trans (hfilter'.trans hdeduce)
    exact ⟨hdeduced.advance.sound, hdeduced.honest,
      h.assured.rest hsync hprepared hdeduced⟩
  · rw [hfilter] at hfails
    obtain hfails | hfails := hfails
    · cases hfails
    · cases hfails

end Reliable

namespace Mirrors

/-- Other tags take the place of the present ones. -/
theorem retagged (h : p.Mirrors hidden p') {tagging tagging' : Tagging}
    (htags : tagging.tags = p.tagging.tags) (htags' : tagging'.tags = p'.tagging.tags) :
    Mirrors hidden { p with tagging } { p' with tagging := tagging' } := by
  obtain ⟨hsame, hhidden, hg, hprevious⟩ := h
  exact .intro (htags'.trans (hsame.trans htags.symm)) (fun d hd => hhidden d (htags ▸ hd)) hg
    hprevious

/-- The variables that are reached are marked in step. -/
theorem marked (h : p.Mirrors hidden p') (hs : s.Mirrors hidden s') {count : Nat} {reach : Reach}
    (hcompute : p.reach.compute p.graph s = .ok (count, reach, s₁)) :
    ∃ count' s₁', p'.reach.compute p'.graph s' = .ok (count', reach, s₁') ∧
      Mirrors hidden { p with reach } { p' with reach } ∧ s₁.Mirrors hidden s₁' := by
  obtain ⟨hsame, hhidden, hg, hprevious⟩ := h
  have hstep := hg.compute hs hprevious
  rw [hcompute] at hstep
  obtain ⟨⟨count', _, s₁'⟩, hcompute', rfl, hkept, hs₁⟩ := hstep.exists_of_ok
  exact ⟨count', s₁', hcompute', .intro hsame hhidden hg (hkept ▸ hprevious), hs₁⟩

/-- What the two sides see after the matching was repaired is tagged and searched alike, whatever
the tags are: what they deduce from them is the same. -/
theorem filter (h : p.Mirrors hidden p') (hs : s.Mirrors hidden s') (hp : p.Sound s)
    (hp' : p'.Sound s') (htouched : ∀ x ∈ changes.touched, x < p.graph.varTotal)
    (hsane : (p.shown s).Sane (changes.matchingChanged = false))
    (hsane' : (p'.shown s').Sane (changes.matchingChanged = false))
    (hkept : (p.shown s).Grounded ∧ p.Kept s changes)
    (hkept' : (p'.shown s').Grounded ∧ p'.Kept s' changes) :
    InStep (fun r r' => r.1 = r'.1 ∧ Paired hidden r.2 r'.2) (p.filter changes s)
      (p'.filter changes s') := by
  obtain ⟨repair, p₁, s₁, hrepair, hr⟩ := repair_eq hp changes
  have hstep := h.repair hs changes
  rw [hrepair] at hstep
  obtain ⟨⟨_, p₁', s₁'⟩, hrepair', rfl, h₁, hs₁⟩ := hstep.exists_of_ok
  obtain ⟨_, _, _, hrepair'', hr'⟩ := repair_eq hp' changes
  cases hrepair'.symm.trans hrepair''
  rw [filter_of_repair hrepair, filter_of_repair hrepair']
  refine .ite (fun _ => .ok ⟨rfl, rfl, h₁, hs₁⟩) fun hpossible => ?_
  -- Both pass their checks.
  obtain ⟨hcheck, p₂, s₂, hretag, ht⟩ := hr.retag_eq hp hpossible htouched hkept.1 hkept.2
  obtain ⟨hcheck', p₂', s₂', hretag', ht'⟩ :=
    hr'.retag_eq hp' hpossible (h.graph_eq ▸ htouched) hkept'.1 hkept'.2
  obtain ⟨⟨tagging, rfl, htags⟩, hs₂⟩ := retag_spares h₁.tags_hidden hs₁.symm _ _ _ hretag
  obtain ⟨⟨tagging', rfl, htags'⟩, hs₂⟩ := retag_spares h₁.tags_hidden' hs₂.symm _ _ _ hretag'
  have h₂ := h₁.retagged htags htags'
  -- Both mark the same variables.
  obtain ⟨count, reach, s₃, hcompute, hm⟩ := compute_eq ht.advance.sound
  obtain ⟨count', s₃', hcompute', h₃, hs₃⟩ := h₂.marked hs₂ hcompute
  obtain ⟨_, _, _, hcompute'', hm'⟩ := compute_eq ht'.advance.sound
  cases hcompute'.symm.trans hcompute''
  rw [hcheck, hcheck', ok_bind, ok_bind, hretag, hretag', ok_bind, ok_bind, hcompute, hcompute',
    ok_bind, ok_bind]
  -- On both sides the tags are those of the components.
  have hprepared := Prepared.of_marked hp hsane hr hpossible ht hm
  have hprepared' := Prepared.of_marked hp' hsane' hr' hpossible ht' hm'
  exact h₃.deduce hs₃ hm.advance.sound hm'.advance.sound
    ((hprepared.tagged (Or.inl hkept.2)).sharp (hprepared.covered hkept.2.covered))
    ((hprepared'.tagged (Or.inl hkept'.2)).sharp (hprepared'.covered hkept'.2.covered))

/-- The two propagators go through the same repetitions. -/
theorem run (fuel : Nat) (forced repeated : Bool) (h : p.Mirrors hidden p')
    (hs : s.Mirrors hidden s') (hp : p.Reliable s) (hp' : p'.Reliable s') :
    InStep (Paired hidden) (run fuel forced repeated p s) (run fuel forced repeated p' s') := by
  induction fuel generalizing forced repeated p p' s s' with
  | zero => exact .error (by decide)
  | succ fuel ih =>
    rw [AllDifferent.run, AllDifferent.run, h.graph_eq]
    refine (h.shown.liveEdges hs).andThen fun before => (h.synchronize hs).bind_of_eq ?_
    rintro ⟨verdict, changes, p₁, s₁⟩ ⟨_, _, p₁', s₁'⟩ hleft hright ⟨rfl, rfl, h₁, hs₁⟩
    obtain ⟨_, _, _, _, hleft', hsync⟩ := synchronize_eq hp.sound
    cases hleft.symm.trans hleft'
    obtain ⟨_, _, _, _, hright', hsync'⟩ := synchronize_eq hp'.sound
    cases hright.symm.trans hright'
    cases verdict with
    | failed why => exact .ok ⟨rfl, h₁, hs₁⟩
    | consistent =>
      refine .ite (fun _ => .ok ⟨rfl, h₁, hs₁⟩) fun _ => ?_
      rw [h₁.graph_eq]
      refine (h₁.shown.liveEdges hs₁).andThen fun after =>
        .ite (fun _ => .error (by decide)) fun _ => ?_
      refine (h₁.filter hs₁ hsync.advance.sound hsync'.advance.sound hsync.touched_lt
        (hsync.sane hp.honest) (hsync'.sane hp'.honest) (hp.synchronized hsync)
        (hp'.synchronized hsync')).bind_of_eq ?_
      rintro ⟨verdict, more, p₂, s₂⟩ ⟨_, _, p₂', s₂'⟩ hleft hright ⟨rfl, rfl, h₂, hs₂⟩
      cases verdict with
      | failed why => exact .ok ⟨rfl, h₂, hs₂⟩
      | consistent =>
        cases more with
        | false => exact .ok ⟨rfl, h₂, hs₂⟩
        | true => exact ih false true h₂ hs₂ (hp.rest hsync hleft) (hp'.rest hsync' hright)

/-- A run with checks and one without them do the same. -/
theorem propagate (h : p.Mirrors hidden p') (hs : s.Mirrors hidden s') (hp : p.Reliable s)
    (hp' : p'.Reliable s') :
    InStep (Paired hidden) (p.propagate s) (p'.propagate s') := by
  have halarm : Mirrors hidden { p with work := p.alarm } { p' with work := p'.alarm } := by
    obtain ⟨hsame, hhidden, hg, hprevious⟩ := h
    exact .intro hsame hhidden hg hprevious
  rw [propagate_eq_run, propagate_eq_run, show (!p'.ready) = !p.ready from congrArg _ h.ready_eq]
  exact halarm.run _ _ _ hs ⟨(Advance.alarm hp.sound).sound, hp.honest, hp.assured⟩
    ⟨(Advance.alarm hp'.sound).sound, hp'.honest, hp'.assured⟩

end Mirrors

end AllDifferent

end FiniteDomain
