import FiniteDomain.Proofs.AllDifferent.Consistency

/-!
# The first matching of a constraint

A constraint that is attached without being run has no matching until it runs for the first time.  The
propagator remembers outside of the store that it was ready once, so a level that was saved before must
not be restored after that.

* `Model.Timely` are the runs in which this does not happen.  For each level the constraints are noted
  that were without a matching when it was saved.
* `Timely.leaves_supported`: every fixpoint of such a run that does not fail leaves a scheduled
  constraint with supported domains.
* Otherwise a constraint may run without looking at anything: `first_matching_forgotten`.
-/

namespace FiniteDomain.Model

open AllDifferent ValueGraph

variable {m m' : Model AllDifferent} {last verdict : Verdict} {levels : List (List Nat)} {i : Nat}

/-! ## Levels that were saved before a first matching -/

/-- The call does not add constraints that do not listen to their variables. -/
def Call.Attends (_ : Model AllDifferent) : Call → Prop
  | .add _ _ => False
  | _ => True

/-- The constraints that have still to find a first matching. -/
def unmatched (m : Model AllDifferent) : List Nat :=
  (List.range m.propagators.size).filter fun i => (m.propagators[i]?).any fun p => !p.ready

theorem mem_unmatched : i ∈ m.unmatched ↔ ∃ p, m.propagators[i]? = some p ∧ p.ready = false := by
  rw [unmatched, List.mem_filter, List.mem_range, Option.any_eq_true]
  refine ⟨fun ⟨_, p, hp, hready⟩ => ⟨p, hp, by simpa using hready⟩, fun ⟨p, hp, hready⟩ => ?_⟩
  exact ⟨(Array.getElem?_eq_some_iff.1 hp).1, p, hp, by simpa using hready⟩

/-- Notes for each level that is saved the constraints that have still to find a first matching. -/
def Call.note (m : Model AllDifferent) (levels : List (List Nat)) : Call → List (List Nat)
  | .save => m.unmatched :: levels
  | .restore => levels.tail
  | _ => levels

/-- In addition, no level is restored that was saved before a constraint found its first matching, if
it was found since then. -/
def Call.Awaits (m : Model AllDifferent) (levels : List (List Nat)) : Call → Prop
  | .add _ _ => False
  | .restore => ∀ i ∈ levels.headD [], i ∈ m.unmatched
  | _ => True

instance (m : Model AllDifferent) : DecidablePred (Call.Attends m)
  | .add _ _ => .isFalse id
  | .attach _ _ | .declare _ | .listen _ _ _ | .schedule _ | .install _ _ | .attempt _ | .save
  | .restore | .fixpoint => .isTrue trivial

instance (m : Model AllDifferent) (levels : List (List Nat)) : DecidablePred (Call.Awaits m levels)
  | .add _ _ => .isFalse id
  | .restore => inferInstanceAs (Decidable (∀ i ∈ levels.headD [], i ∈ m.unmatched))
  | .attach _ _ | .declare _ | .listen _ _ _ | .schedule _ | .install _ _ | .attempt _ | .save
  | .fixpoint => .isTrue trivial

/-- What disciplined calls come to if no level that was saved before a first matching is restored after
it, with the notes on the levels and the answer of the last call. -/
inductive Timely : List (List Nat) → Model AllDifferent → Verdict → Prop
  | start (order : DrainOrder) : Timely [] (Model.empty order) .consistent
  | call {levels : List (List Nat)} {m m' : Model AllDifferent} {c : Call} {last verdict : Verdict}
      (hawaits : c.Awaits m levels) (hvalid : c.Valid m) (hdiscipline : c.Disciplined m last)
      (hret : m.perform c = .ok (verdict, m')) :
      Timely levels m last → Timely (c.note m levels) m' verdict

/-- Performs several calls, if they make a timely run. -/
def timeAll (levels : List (List Nat)) (last : Verdict) (m : Model AllDifferent) :
    List Call → Except Fault (Verdict × Model AllDifferent)
  | [] => .ok (last, m)
  | c :: rest =>
    if c.Awaits m levels ∧ c.Valid m ∧ c.Disciplined m last then do
      let (verdict, m') ← m.perform c
      timeAll (c.note m levels) verdict m' rest
    else
      .error .outOfBounds

theorem Timely.timeAll (h : Timely levels m last) {calls : List Call}
    (hret : m.timeAll levels last calls = .ok (verdict, m')) : ∃ levels, Timely levels m' verdict := by
  induction calls generalizing levels m last with
  | nil =>
    cases hret
    exact ⟨levels, h⟩
  | cons c rest ih =>
    rw [Model.timeAll] at hret
    split at hret
    · rename_i hchecked
      obtain ⟨⟨v, m₁⟩, hcall, hret⟩ := bind_eq_ok_iff.1 hret
      exact ih (h.call hchecked.1 hchecked.2.1 hchecked.2.2 hcall) hret
    · cases hret

/-! ## Supported domains -/

/-- A constraint may have to find its first matching, and may have had to on the levels that say so. -/
theorem Timely.kept (h : Timely levels m last) :
    m.Kept (fun _ => True) (fun k i => i ∈ levels.getD k []) last := by
  induction h with
  | start order => exact .of_poised (fun _ _ hp => (nomatch hp)) (empty_poised order)
  | @call levels m m' c last verdict hawaits hvalid hdiscipline hret _ ih =>
    by_cases hsave : c = .save
    · subst hsave
      obtain ⟨rfl, hquiet⟩ := hdiscipline
      cases hret
      refine ih.save hquiet fun i p hp => ?_
      exact ((ih.poised rfl).firm i p hp).imp_right fun hfirst => mem_unmatched.2 ⟨p, hp, hfirst.1⟩
    by_cases hrestore : c = .restore
    · subst hrestore
      obtain ⟨m₁, hrestore, hret⟩ := bind_eq_ok_iff.1 hret
      cases hret
      have hlacking : ∀ (i : Nat) (p : AllDifferent), m.propagators[i]? = some p →
          i ∈ levels.getD 0 [] → p.ready = false ∧ True := by
        intro i p hp hi
        rw [← List.headD_eq_getD] at hi
        obtain ⟨p', hp', hready⟩ := mem_unmatched.1 (hawaits i hi)
        obtain rfl := Option.some.inj (hp.symm.trans hp')
        exact ⟨hready, trivial⟩
      have hkept := (ih.restore hlacking hrestore).1
      cases levels with
      | nil => exact hkept
      | cons noted levels => exact hkept
    have hnote : c.note m levels = levels := by
      cases c with
      | save => exact absurd rfl hsave
      | restore => exact absurd rfl hrestore
      | _ => rfl
    rw [hnote]
    refine ih.perform hvalid hdiscipline hsave hrestore (fun vars options hc => ?_)
      (fun _ _ _ _ => trivial) hret
    subst hc
    exact hawaits

/-- Where no level that was saved before a constraint found its first matching is restored after that,
a fixpoint that does not fail leaves the variables of a scheduled constraint only values that belong to
a choice of pairwise distinct values from the domains then. -/
theorem Timely.leaves_supported (h : Timely levels m .consistent) (hscheduled : ⟨i⟩ ∈ m.scheduled)
    (hret : m.fixpoint = .ok (.consistent, m')) :
    ∃ p, m'.propagators[i]? = some p ∧ ∀ (j : Nat) (x : Var), p.graph.vars.toList[j]? = some x →
      ∀ u ∈ m'.store.view x, ∃ vs, m'.store.Chooses p.graph.vars.toList vs ∧ vs[j]? = some u := by
  -- The constraint is due, so it is not late.
  have hpoised : m.Poised (fun j => j ≠ i) m.scheduled := by
    refine (h.kept.poised rfl).relate fun j _ => ?_
    by_cases hj : j = i
    · subst hj
      exact Or.inl hscheduled
    · exact Or.inr hj
  obtain ⟨m₁, hret', hpoised', hquiet⟩ | ⟨why, m₁, hret'⟩ := hpoised.fixpoint_cases
  swap
  · cases hret.symm.trans hret'
  cases hret.symm.trans hret'
  obtain ⟨p, hp, _⟩ := (hpoised.toGuarded.fixpoint_obeys hret).alike i _
    (Array.getElem?_eq_getElem (hpoised.due_lt _ hscheduled))
  refine ⟨p, hp, fun j x hx u hu => ?_⟩
  have hlt : j < p.graph.varTotal := by
    have hlength := (List.getElem?_eq_some_iff.1 hx).1
    rwa [Array.length_toList] at hlength
  obtain rfl := Option.some.inj ((getElem?_vars hlt).symm.trans hx)
  exact (exists_chooses_iff hlt).2
    ((hpoised'.supported hquiet hp fun hne => hne rfl).used j hlt u hu)

/-- Three variables, of which the first two need the values 1 and 2, with a constraint that is attached
and not yet run. -/
def unrun : List Call :=
  [.declare (.primitive 1 2), .declare (.primitive 1 2), .declare (.primitive 1 3),
    .attach [⟨0⟩, ⟨1⟩, ⟨2⟩] .usual]

/-- The first level is restored before the constraint runs.  On the second one it runs, and the level
saved after that is restored. -/
def belated : List Call :=
  [.save, .attempt (.fix ⟨2⟩ 3), .restore, .save, .schedule ⟨0⟩, .fixpoint, .save,
    .attempt (.fix ⟨0⟩ 1), .fixpoint, .restore, .schedule ⟨0⟩]

/-- The constraint finds its first matching on a level that stays, and is scheduled again. -/
theorem Timely.leaves_supported_unrun : ∃ m m',
    (Model.empty .lastFirst).timeAll [] .consistent (unrun ++ belated) = .ok (.consistent, m) ∧
      ⟨0⟩ ∈ m.scheduled ∧ m.fixpoint = .ok (.consistent, m') ∧ ∃ p, m'.propagators[0]? = some p ∧
        ∀ (j : Nat) (x : Var), p.graph.vars.toList[j]? = some x → ∀ u ∈ m'.store.view x,
          ∃ vs, m'.store.Chooses p.graph.vars.toList vs ∧ vs[j]? = some u := by
  have hrun : ((Model.empty .lastFirst).timeAll [] .consistent (unrun ++ belated) >>= fun r =>
      r.2.fixpoint >>= fun answer => .ok (r.1, answer.1, r.2.scheduled)) =
      .ok (.consistent, .consistent, [⟨0⟩]) := by
    decide +kernel
  obtain ⟨⟨last, m⟩, hm, hrun⟩ := bind_eq_ok_iff.1 hrun
  obtain ⟨⟨v, m'⟩, hret, heq⟩ := bind_eq_ok_iff.1 hrun
  injection heq with heq
  simp only [Prod.mk.injEq] at heq
  obtain ⟨rfl, rfl, hscheduled⟩ := heq
  have hmem : ⟨0⟩ ∈ m.scheduled := by
    rw [hscheduled]
    exact List.mem_singleton.2 rfl
  obtain ⟨levels, htimely⟩ := (Timely.start .lastFirst).timeAll hm
  exact ⟨m, m', hm, hmem, hret, Timely.leaves_supported htimely hmem hret⟩

/-- If the first matching is found on a level that is restored, the constraint takes itself to be ready
although nothing is matched, and leaves the value 1 to the third variable. -/
theorem first_matching_forgotten : ∃ m m' p, (Model.empty .lastFirst).driveAll Call.Attends .consistent
      (unrun ++ [.save, .schedule ⟨0⟩, .fixpoint, .restore, .schedule ⟨0⟩]) =
        .ok (.consistent, m) ∧ ⟨0⟩ ∈ m.scheduled ∧ m.fixpoint = .ok (.consistent, m') ∧
      m'.propagators[0]? = some p ∧ p.graph.vars.toList = [⟨0⟩, ⟨1⟩, ⟨2⟩] ∧
      1 ∈ m'.store.view ⟨2⟩ ∧ ¬ ∃ vs, m'.store.Chooses [⟨0⟩, ⟨1⟩, ⟨2⟩] vs ∧ vs[2]? = some 1 := by
  have hrun : ((Model.empty .lastFirst).driveAll Call.Attends .consistent
      (unrun ++ [.save, .schedule ⟨0⟩, .fixpoint, .restore, .schedule ⟨0⟩]) >>= fun r =>
        r.2.fixpoint >>= fun answer => .ok (r.1, answer.1, decide (r.2.scheduled = [⟨0⟩] ∧
          answer.2.store.definitions.size = 3 ∧
          answer.2.propagators.toList.map (fun p => p.graph.vars.toList) = [[⟨0⟩, ⟨1⟩, ⟨2⟩]]))) =
      .ok (.consistent, .consistent, true) := by decide +kernel
  have hviews : ((Model.empty .lastFirst).driveAll Call.Attends .consistent
      (unrun ++ [.save, .schedule ⟨0⟩, .fixpoint, .restore, .schedule ⟨0⟩]) >>= fun r =>
        r.2.fixpoint >>= fun answer => .ok ([⟨0⟩, ⟨1⟩].map answer.2.store.size,
          [⟨0⟩, ⟨1⟩, ⟨2⟩].map fun x => answer.2.store.contains x 1,
          [⟨0⟩, ⟨1⟩].map fun x => answer.2.store.contains x 2)) =
      .ok ([.ok 2, .ok 2], [.ok true, .ok true, .ok true], [.ok true, .ok true]) := by
    decide +kernel
  obtain ⟨⟨last, m⟩, hm, hrun⟩ := bind_eq_ok_iff.1 hrun
  obtain ⟨⟨v, m'⟩, hret, heq⟩ := bind_eq_ok_iff.1 hrun
  injection heq with heq
  simp only [Prod.mk.injEq, decide_eq_true_eq] at heq
  obtain ⟨rfl, rfl, hscheduled, hsize, hvars⟩ := heq
  rw [hm, ok_bind, hret, ok_bind] at hviews
  injection hviews with hviews
  simp only [Prod.mk.injEq, List.map_cons, List.map_nil, List.cons.injEq, and_true] at hviews
  obtain ⟨⟨hfirst, hsecond⟩, ⟨hfirst₁, hsecond₁, hthird₁⟩, hfirst₂, hsecond₂⟩ := hviews
  obtain ⟨p, hp, hpvars⟩ := List.map_eq_singleton_iff.1 hvars
  have hdriven : Driven Call.Attends m .consistent := (Driven.start .lastFirst).driveAll hm
  have hstore := (hdriven.reached.call (c := .fixpoint) trivial hret).guarded.store
  have hmem : ∀ {x : Var} {u : Int}, x.index < 3 → m'.store.contains x u = .ok true →
      u ∈ m'.store.view x := fun hx hu =>
    of_decide_eq_true (Store.contains_spec hstore (hsize.symm ▸ hx) hu).symm
  -- With two values, and 1 and 2 among them, there is no third one.
  have hpair : ∀ {x : Var} {u : Int}, x.index < 3 → m'.store.size x = .ok 2 →
      m'.store.contains x 1 = .ok true → m'.store.contains x 2 = .ok true →
      u ∈ m'.store.view x → u = 1 ∨ u = 2 := by
    intro x u hx hcard h₁ h₂ hu
    have hcard := (Store.size_eq hstore (hsize.symm ▸ hx)).symm.trans hcard
    have hsub : ({1, 2} : Finset Int) ⊆ m'.store.view x := by
      intro w hw
      obtain rfl | hw := Finset.mem_insert.1 hw
      · exact hmem hx h₁
      · rw [Finset.mem_singleton.1 hw]
        exact hmem hx h₂
    rw [← Finset.eq_of_subset_of_card_le hsub (Except.ok.inj hcard).le] at hu
    exact (Finset.mem_insert.1 hu).imp_right Finset.mem_singleton.1
  refine ⟨m, m', p, hm, hscheduled ▸ List.mem_singleton.2 rfl, hret, ?_, hpvars,
    hmem (by decide) hthird₁, ?_⟩
  · rw [← Array.getElem?_toList, hp]
    rfl
  · rintro ⟨vs, hvs, hone⟩
    obtain ⟨a, b, c, rfl⟩ := List.length_eq_three.1 hvs.length_eq
    obtain rfl : c = 1 := Option.some.inj hone
    have ha := hpair (by decide) hfirst hfirst₁ hfirst₂ (hvs.mem 0 _ a rfl rfl)
    have hb := hpair (by decide) hsecond hsecond₁ hsecond₂ (hvs.mem 1 _ b rfl rfl)
    have hnodup := hvs.nodup
    simp only [List.nodup_cons, List.mem_cons, List.not_mem_nil, or_false, not_or] at hnodup
    omega

end FiniteDomain.Model
