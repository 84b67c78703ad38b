import FiniteDomain.Proofs.AllDifferent.Constraints
import FiniteDomain.Proofs.Store.Weights

/-!
# Hints

A propagator that is asked for a hint always answers, in whatever state it is.  It suggests a value
that its variable could take when the graph was made, and that can be looked up.

* `smallest?_eq` finds the variable, and `hint?_eq` is the answer of a propagator.
* `Guarded.hint?_eq` is the answer of a model.
-/

namespace FiniteDomain

namespace AllDifferent

open ValueGraph

variable {p : AllDifferent} {s : Store}

/-- The variable at a position has more than one value, of which there are `size`. -/
def Eligible (p : AllDifferent) (s : Store) (x size : Nat) : Prop :=
  p.graph.Active (p.graph.now s) x ∧ size = (s.view (p.graph.varOf x)).card ∧ 1 < size

/-- The smallest variable is one of those that are looked at. -/
theorem smallest?_eq (h : p.Sound s) {xs : List Nat}
    (hxs : ∀ x ∈ xs, p.graph.Active (p.graph.now s) x) (best : Option (Nat × Nat))
    (hbest : ∀ x size, best = some (x, size) → p.Eligible s x size) :
    ∃ answer, smallest? p.graph s xs best = .ok answer ∧
      ∀ x size, answer = some (x, size) → p.Eligible s x size := by
  induction xs generalizing best with
  | nil => exact ⟨best, rfl, hbest⟩
  | cons x rest ih =>
    have hactive := hxs x (List.mem_cons_self ..)
    rw [smallest?, var_eq hactive.1, ok_bind,
      Store.size_eq h.store (h.anchored.var_lt x hactive.1), ok_bind]
    refine ih (fun y hy => hxs y (List.mem_cons_of_mem _ hy)) _ fun y size heq => ?_
    split_ifs at heq with hbetter
    · cases heq
      rw [Bool.and_eq_true, decide_eq_true_eq] at hbetter
      exact ⟨hactive, rfl, hbetter.1⟩
    · exact hbest y size heq

/-- The hint names one of the variables `P`, and a value of it that can be looked up. -/
structure Apt (s : Store) (P : Var → Prop) (hint : Hint) : Prop where
  named : P hint.var
  index_lt : hint.var.index < s.definitions.size
  reads : s.Reads hint.var hint.value

/-- A hint is about a variable of the constraint, and a value of it that can be looked up. -/
theorem hint?_eq (h : p.Sound s) : ∃ answer, p.hint? s = .ok answer ∧
    ∀ hint, answer = some hint → Apt s (· ∈ p.graph.vars) hint := by
  obtain ⟨actives, hactives, _, hmem⟩ := h.graph.activeVars_eq
  obtain ⟨answer, hsmallest, heligible⟩ := smallest?_eq h
    (fun x hx => mem_active.1 ((hmem x).1 hx)) none fun _ _ hnone => nomatch hnone
  rw [hint?, hactives, ok_bind, hsmallest, ok_bind]
  cases answer with
  | none => exact ⟨none, rfl, nofun⟩
  | some pair =>
    obtain ⟨x, size⟩ := pair
    obtain ⟨hactive, hsize, hone⟩ := heligible x size rfl
    have hmate := h.graph.mate?_eq hactive.1
    cases hm : (p.graph.snapshot (p.graph.now s)).mate x with
    | none =>
      rw [hm] at hmate
      dsimp only
      rw [hmate, ok_bind]
      exact ⟨none, rfl, nofun⟩
    | some a =>
      rw [hm] at hmate
      -- The mate is along a live edge, so that its count of live edges is not zero.
      obtain ⟨e, hlive, htail, hhead⟩ := mem_live.1 (h.shows.matched.live_of_mate x a hm)
      have ha : a < p.graph.valueTotal := (h.graph.intact.mate_lt hm).2
      have hlive : p.graph.Live (p.graph.now s) e := hlive
      have hcount := hlive.2
      rw [hhead] at hcount
      have hstart := ((h.layout.head_eq_iff e hlive.1 a ha).1 hhead).1
      have hcount_le := h.graph.intact.live_le a ha
      have hstart_le := (h.layout.start_le a ha).2
      have htotal := h.layout.edgeTotal_le
      obtain ⟨b, _, hsource, hb⟩ := h.store.exists_base (h.anchored.var_lt x hactive.1)
      obtain ⟨set, hset, hcard⟩ := h.store.card_domain_le hb
      have hcapacity := h.store.trail.capacity_le set (Trail.Sound.mem_sets hset)
      rw [Store.card_view h.store (h.anchored.var_lt x hactive.1) hsource] at hsize
      have hrivals : Word.subCount (count (p.graph.now s) a) 1 =
          .ok (count (p.graph.now s) a - 1) := if_pos (by omega)
      have hothers : Word.subCount size 1 = .ok (size - 1) := if_pos (by omega)
      have hscore : Word.addCount (count (p.graph.now s) a - 1) (size - 1) =
          .ok (count (p.graph.now s) a - 1 + (size - 1)) := by
        refine if_pos ?_
        unfold Word.greatest at htotal hcapacity
        unfold Word.countBound
        omega
      refine ⟨some ⟨p.graph.varOf x, p.graph.val a, count (p.graph.now s) a - 1 + (size - 1)⟩,
        ?_, ?_⟩
      · dsimp only
        rw [hmate, ok_bind]
        dsimp only
        rw [var_eq hactive.1, ok_bind, value_eq ha, ok_bind, h.graph.liveCount_eq ha, ok_bind,
          hrivals, ok_bind, hothers, ok_bind, hscore]
        rfl
      · rintro hint heq
        cases heq
        have hreads := h.anchored.reads e hlive.1
        rw [htail, hhead] at hreads
        exact ⟨mem_vars.2 ⟨x, hactive.1, rfl⟩, h.anchored.var_lt x hactive.1, hreads⟩

end AllDifferent

namespace Model

open AllDifferent

variable {m : Model AllDifferent}

/-- The best of several hints is one of them. -/
theorem bestHint?_eq {s : Store} {P : Var → Prop} {ps : List AllDifferent}
    (h : ∀ p ∈ ps, p.Sound s ∧ ∀ x ∈ p.graph.vars, P x) {best : Option Hint}
    (hbest : ∀ hint, best = some hint → Apt s P hint) :
    ∃ answer, bestHint? s ps best = .ok answer ∧ ∀ hint, answer = some hint → Apt s P hint := by
  induction ps generalizing best with
  | nil => exact ⟨best, rfl, hbest⟩
  | cons p rest ih =>
    obtain ⟨hsound, hP⟩ := h p (List.mem_cons_self ..)
    obtain ⟨answer, hhint, hapt⟩ := AllDifferent.hint?_eq hsound
    have hhint : Propagator.hint? p s = .ok answer := hhint
    have hapt : ∀ hint, answer = some hint → Apt s P hint := fun hint heq =>
      ⟨hP _ (hapt hint heq).named, (hapt hint heq).index_lt, (hapt hint heq).reads⟩
    have hrest : ∀ q ∈ rest, q.Sound s ∧ ∀ x ∈ q.graph.vars, P x :=
      fun q hq => h q (List.mem_cons_of_mem _ hq)
    rw [bestHint?, hhint, ok_bind]
    cases answer with
    | none => exact ih hrest hbest
    | some hint =>
      cases best with
      | none => exact ih hrest hapt
      | some other =>
        refine ih hrest fun hint' heq => ?_
        split at heq
        · exact hapt hint' heq
        · exact hbest hint' heq

/-- A model always has an answer when it is asked for a hint, and a hint is about a variable that is
constrained. -/
theorem Guarded.hint?_eq (h : m.Guarded) : ∃ answer, m.hint? = .ok answer ∧
    ∀ hint, answer = some hint →
      Apt m.store (fun x => ∃ p ∈ m.propagators, x ∈ p.graph.vars) hint := by
  refine bestHint?_eq (fun p hp => ?_) nofun
  have hp := Array.mem_toList_iff.1 hp
  refine ⟨?_, fun x hx => ⟨p, hp, hx⟩⟩
  obtain ⟨i, hi, rfl⟩ := Array.mem_iff_getElem.1 hp
  exact (h.guarded i _ (Array.getElem?_eq_getElem hi)).toSound

end Model

end FiniteDomain
