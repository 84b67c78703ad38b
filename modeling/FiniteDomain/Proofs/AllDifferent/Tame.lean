import FiniteDomain.Proofs.AllDifferent.Attachment
import FiniteDomain.Proofs.Model.Tame

/-!
# All different propagators are tame

An all different propagator writes its own cells only, relies on them, and makes none after it was
made.  It can be installed in every model whose propagators are tame.

* `Wraps` and `Embeds` say how all different propagators are among the propagators of a type.
* `Model.Orderly.admits_new`: a model of tame propagators admits one that was just made.
-/

namespace FiniteDomain

open AllDifferent ValueGraph

namespace AllDifferent.Guarded

variable {p p' : AllDifferent} {s s' : Store} {seen : Frame → Prop} {verdict : Verdict}

/-- What is told of is remembered, and nothing else changes. -/
theorem notify (h : p.Guarded s seen) (x : Var) : (Propagator.notify p x).Guarded s seen := by
  refine h.of_work (Worklist.nodup_pushAll h.work_nodup _) fun y hy => ?_
  obtain hy | hy := Worklist.mem_pushAll.1 hy
  · exact h.layout.size_sources ▸ (mem_route.1 hy).1
  · exact h.work_lt y hy

theorem propagated (h : p.Guarded s seen) (hret : p.propagate s = .ok (verdict, p', s')) :
    Propagated p s verdict p' s' := by
  obtain ⟨_, _, _, hret', hpropagated⟩ | ⟨_, hfails, _⟩ := propagate_cases h.toSound h.honest
  · cases hret.symm.trans hret'
    exact hpropagated
  · rw [hret] at hfails
    exact hfails.elim (fun hfault => by cases hfault) fun hfault => by cases hfault

/-- Others act on the store, but not on the cells of the propagator. -/
theorem of_acts {C : Cell → Prop} (h : p.Guarded s seen) (hacts : s.Acts C s')
    (hC : ∀ c, p.Owns c → ¬ C c) : p.Guarded s' seen ∧ Recalls p s p s' seen ∧
      p.shown s' = (p.shown s).narrow (p.shown s').domains ∧
        ∀ x < p.graph.varTotal, (p.shown s').domains x ⊆ (p.shown s).domains x := by
  induction hacts with
  | done => exact ⟨h, fun _ _ _ => rfl, rfl, fun _ _ => Finset.Subset.refl _⟩
  | @grown s₁ s₂ hg hacts ih =>
    obtain ⟨hguarded, hrecalls, hshown, hsub⟩ := ih
    obtain ⟨hguarded', hrecalls', hshown'⟩ := hguarded.of_grown hg
    refine ⟨hguarded', fun w hw hseen => ?_, ?_, ?_⟩
    · exact (hrecalls' w hw hseen).trans (hrecalls w (hg.past_eq ▸ hw) hseen)
    · rw [hshown']
      exact hshown
    · rw [hshown']
      exact hsub
  | @evolves s₁ s₂ he hacts ih =>
    obtain ⟨hguarded, hrecalls, hshown, hsub⟩ := ih
    obtain ⟨hguarded', hrecalls', hshown'⟩ := hguarded.of_evolves he hC
    refine ⟨hguarded', fun w hw hseen => ?_, ?_, fun x hx => ?_⟩
    · exact (hrecalls' w hw hseen).trans (hrecalls w (he.past_eq ▸ hw) hseen)
    · rw [hshown', hshown]
      rfl
    · exact (domains_subset_of_evolves he hx).trans (hsub x hx)

/-- A settled propagator has to look at the variables that lost values when others acted. -/
theorem settled_acts {C : Cell → Prop} (h : p.Guarded s seen) (hacts : s.Acts C s')
    (hC : ∀ c, p.Owns c → ¬ C c) (halive : s.Alive s') {late : Nat → Prop}
    (hsettled : (p.shown s).Settled late) :
    (p.shown s').Settled fun x =>
      late x ∨ s'.domain (p.graph.sourceOf x) ≠ s.domain (p.graph.sourceOf x) := by
  obtain ⟨_, _, hshown, hsub⟩ := h.of_acts hacts hC
  have hpath : ∀ x < p.graph.varTotal, s'.path (p.graph.varOf x) = s.path (p.graph.varOf x) :=
    fun x hx => hacts.path_eq h.store (h.anchored.var_lt x hx)
  have hnarrow := hsettled.narrow (D := (p.shown s').domains) hsub fun x hx hne => by
    rw [shown_domains hx, domains_eq] at hne ⊢
    exact halive.view (hpath x hx) hne
  rw [← hshown] at hnarrow
  exact hnarrow.mono fun x hx => Or.imp_right (h.domain_ne hx (hpath x hx))

end AllDifferent.Guarded

instance : Tame AllDifferent where
  Writes p c := p.Owns c
  Relies p c := p.Owns c
  Fits p s seen := p.Guarded s seen
  held h hc := h.has (hc.elim id id)
  grown h hg := (h.of_grown hg).1
  evolves h he hC := (h.of_evolves he hC).1
  clearEvents h := h.clearEvents.1
  save h := h.save.1
  restored h hpast hr hseen := (h.restored hpast hr hseen).1
  within_onRestore _ := ⟨fun _ => Or.inl, fun _ => Or.inl⟩
  notified x h := h.notify x
  within_notify _ _ := ⟨fun _ => Or.inl, fun _ => Or.inl⟩
  propagated h hret := by
    have hpropagated := h.propagated hret
    have hadvance := hpropagated.advance
    refine ⟨(h.advance hadvance hpropagated.honest).1,
      .of_evolves (hadvance.evolves.mono fun _ => Or.inl), fun _ hc => ?_, fun _ hc => ?_⟩
    · exact Or.inl (hadvance.owns_iff.1 hc)
    · exact Or.inl (hadvance.owns_iff.1 hc)

instance : Frank AllDifferent where
  alive h hret := (h.propagated hret).alive rfl

/-! ## All different propagators are made -/

theorem Store.lt_of_source {s : Store} {x y : Var} (hret : s.source x = .ok y) :
    x.index < s.definitions.size := by
  by_contra hx
  rw [source, path_eq_missing hx] at hret
  cases hret

/-- The variables whose edges were added exist. -/
theorem ValueGraph.Draft.lt_of_foldlM {s : Store} {vars : List Var} {d d' : Draft}
    (hret : vars.foldlM (Draft.addVar s) d = .ok d') :
    ∀ x ∈ vars, x.index < s.definitions.size := by
  induction vars generalizing d with
  | nil => exact fun x hx => absurd hx List.not_mem_nil
  | cons y rest ih =>
    rw [List.foldlM_cons] at hret
    obtain ⟨d₁, hadd, hret⟩ := bind_eq_ok_iff.1 hret
    rw [Draft.addVar] at hadd
    obtain ⟨_, hsource, _⟩ := bind_eq_ok_iff.1 hadd
    exact List.forall_mem_cons.2 ⟨Store.lt_of_source hsource, ih hret⟩

/-- A constraint is made on variables that exist only. -/
theorem AllDifferent.lt_of_new {s s' : Store} {vars : List Var} {options : Options}
    {p : AllDifferent} (hret : new s vars.toArray options = .ok (p, s')) :
    ∀ x ∈ vars, x.index < s.definitions.size := by
  obtain ⟨⟨g, s₁⟩, hbuild, _⟩ := bind_eq_ok_iff.1 hret
  obtain ⟨d, hread, _⟩ := bind_eq_ok_iff.1 hbuild
  rw [List.foldlM_toArray] at hread
  exact ValueGraph.Draft.lt_of_foldlM hread

/-- All different propagators are among the propagators of the type. -/
structure Wraps {π : Type} [Propagator π] [Tame π] (wrap : AllDifferent → π) : Prop where
  fits : ∀ {p : AllDifferent} {s : Store} {seen : Frame → Prop}, p.Guarded s seen →
    Tame.Fits (wrap p) s seen
  writes : ∀ {p : AllDifferent} {c : Cell}, Tame.Writes (wrap p) c → p.Owns c
  relies : ∀ {p : AllDifferent} {c : Cell}, Tame.Relies (wrap p) c → p.Owns c

/-- An all different propagator does what it does also among the propagators of the type, and nobody
else may write its cells. -/
structure Embeds {π : Type} [Propagator π] [Tame π] (wrap : AllDifferent → π) : Prop
    extends Wraps wrap where
  guarded : ∀ {p : AllDifferent} {s : Store} {seen : Frame → Prop},
    Tame.Fits (wrap p) s seen → p.Guarded s seen
  relied : ∀ {p : AllDifferent} {c : Cell}, p.Owns c → Tame.Relies (wrap p) c
  propagate_eq : ∀ (p : AllDifferent) (s : Store), Propagator.propagate (wrap p) s =
    p.propagate s >>= fun r => .ok (r.1, wrap r.2.1, r.2.2)
  notify_eq : ∀ (p : AllDifferent) (x : Var), Propagator.notify (wrap p) x = wrap (p.notify x)
  onRestore_eq : ∀ p : AllDifferent, Propagator.onRestore (wrap p) = wrap p.onRestore
  hint?_eq : ∀ (p : AllDifferent) (s : Store), Propagator.hint? (wrap p) s = p.hint? s

/-- Telling it of several variables. -/
theorem Embeds.notifyAll_eq {π : Type} [Propagator π] [Tame π] {wrap : AllDifferent → π}
    (h : Embeds wrap) (p : AllDifferent) (xs : List Var) : xs.foldl Propagator.notify (wrap p) =
      wrap { p with work := p.work.pushAll (xs.flatMap p.graph.route) } := by
  rw [← Model.notifyAll_eq]
  induction xs generalizing p with
  | nil => rfl
  | cons x xs ih =>
    rw [List.foldl_cons, h.notify_eq, ih]
    rfl

/-- A model of tame propagators admits an all different propagator that was just made. -/
theorem Model.Orderly.admits_new {π : Type} [Propagator π] [Tame π] {m : Model π} (h : m.Orderly)
    {wrap : AllDifferent → π} (hwrap : Wraps wrap) {vars : List Var} {options : Options}
    {p : AllDifferent} {s : Store}
    (hret : AllDifferent.new m.store vars.toArray options = .ok (p, s)) :
    m.store.Grown s ∧ ({ m with store := s } : Model π).Admits (wrap p) := by
  have hcreated := AllDifferent.new_eq h.store
    (fun x hx => AllDifferent.lt_of_new hret x (List.mem_toArray.1 hx)) hret
  have hnew : ∀ {d : Cell}, p.Owns d → ¬ m.store.trail.now.Has d := fun hd => hcreated.new _ hd
  refine ⟨hcreated.grown, fun seen hseen => ?_, fun d hd q hq hr => ?_, fun d hd q hq hw => ?_,
    fun d hd => ?_⟩
  · exact hwrap.fits (hcreated.guarded fun w hw => hseen w (hcreated.grown.past_eq ▸ hw))
  · obtain ⟨i, hi⟩ := Array.mem_iff_getElem?.1 hq
    exact hnew (hwrap.writes hd) (Tame.held (h.fits i q hi) (Or.inr hr))
  · obtain ⟨i, hi⟩ := Array.mem_iff_getElem?.1 hq
    exact hnew (hwrap.relies hd) (Tame.held (h.fits i q hi) (Or.inl hw))
  · have hd := hnew (hd.elim hwrap.writes hwrap.relies)
    refine ⟨fun heq => hd ?_, fun heq => hd ?_⟩
    · rw [heq]
      exact h.now.has_propagators
    · rw [heq]
      exact h.now.has_conditions

end FiniteDomain
