import FiniteDomain.Proofs.AllDifferent.Restarts
import FiniteDomain.Proofs.Model.Ending
import FiniteDomain.Proofs.Model.Restoration

/-!
# Everything ends

Three loops stand on top of each other: a propagator repeats its steps, a run of the propagators
goes through rounds, and a search goes through nodes.  None of them goes on forever, as long as the
propagators return, make no variables and change domains in no other way than by taking values away.

* `Action.returns_performAll` says that scripts return; together with the all different propagators
  they are `Steady`.
* `Reachable.terminates` is about all loops.
-/

namespace FiniteDomain

/-! ## Scripts return -/

namespace Action

variable {s : Store} {actions : List Action}

theorem returns_narrow {attempt : Except Fault (Verdict × Store)} (h : Returns attempt) :
    Returns (narrow attempt) :=
  h.bind fun _ _ => .ok _

theorem returns_makeLess (h : s.Sound) (x y : Var) : Returns (makeLess x y s) := by
  refine (Store.returns_bound? h .upper y).bind fun top _ => ?_
  cases top with
  | none => exact .ok _
  | some top =>
    refine (Word.returns_check _).bind fun bound _ =>
      (Store.returns_removeBeyond h .upper x bound).bind fun answer hret => ?_
    obtain ⟨_ | why, s₁⟩ := answer
    · have hevolves := (narrows_attempt h (fun _ => False) (a := .removeAbove x bound) hret).evolves
      refine (Store.returns_bound? hevolves.sound .lower x).bind fun bottom _ => ?_
      cases bottom with
      | none => exact .ok _
      | some bottom =>
        exact (Word.returns_check _).bind fun bound' _ =>
          Store.returns_removeBeyond hevolves.sound .lower y bound'
    · exact .ok _

theorem returns_fixedValue? (h : s.Sound) (x : Var) : Returns (fixedValue? s x) := by
  refine (Store.returns_isFixed h x).bind fun fixed _ => ?_
  split
  · exact Store.returns_bound? h .lower x
  · exact .ok none

theorem returns_makeDiffer (h : s.Sound) (x y : Var) (k : Int) : Returns (makeDiffer x y k s) := by
  -- What is done to `y` after `x` was looked at.
  have hlast : ∀ {s₁ : Store}, s₁.Sound → ∀ u : Int,
      Returns (Word.sub u k >>= fun w => s₁.remove y w) := fun hs₁ _ =>
    (Word.returns_check _).bind fun w _ => Store.returns_remove hs₁ y w
  refine (returns_fixedValue? h y).bind fun value _ => ?_
  cases value with
  | none =>
    refine (returns_fixedValue? h x).bind fun value _ => ?_
    cases value with
    | none => exact .ok _
    | some u => exact hlast h u
  | some u =>
    refine (Word.returns_check _).bind fun w _ =>
      (Store.returns_remove h x w).bind fun answer hret => ?_
    obtain ⟨_ | why, s₁⟩ := answer
    · have hevolves := (narrows_attempt h (fun _ => False) (a := .remove x w) hret).evolves
      refine (returns_fixedValue? hevolves.sound x).bind fun value _ => ?_
      cases value with
      | none => exact .ok _
      | some u => exact hlast hevolves.sound u
    · exact .ok _

/-- An action returns. -/
theorem returns_perform (h : s.Sound) (a : Action) : Returns (perform s a) := by
  cases a with
  | fix x v => exact returns_narrow (Store.returns_fix h x v)
  | remove x v => exact returns_narrow (Store.returns_remove h x v)
  | removeBelow x v => exact returns_narrow (Store.returns_removeBeyond h .lower x v)
  | removeAbove x v => exact returns_narrow (Store.returns_removeBeyond h .upper x v)
  | fail why => exact .ok _
  | whenMin x v =>
    refine (Store.returns_bound? h .lower x).bind fun least _ => ?_
    cases least <;> exact .ok _
  | whenFixed x => exact (Store.returns_isFixed h x).bind fun _ _ => .ok _
  | less x y => exact returns_narrow (returns_makeLess h x y)
  | differ x y k => exact returns_narrow (returns_makeDiffer h x y k)
  | count c => exact (Store.returns_increment c).bind fun _ _ => .ok _

/-- Several actions return, if they count in free cells. -/
theorem returns_performAll (h : s.Sound) (hfree : ∀ c, Counts actions c → s.Free c) :
    Returns (performAll actions s) := by
  induction actions generalizing s with
  | nil => exact .ok _
  | cons a rest ih =>
    refine (returns_perform h a).bind fun answer hret => ?_
    obtain ⟨_ | _ | why, s₁⟩ := answer
    · have hfirst : ∀ c, a = .count c → s.Free c ∧ True := by
        rintro c rfl
        exact ⟨hfree c (List.mem_cons_self ..), trivial⟩
      have hevolves := (narrows_perform h (C := fun _ => True) hfirst hret).evolves
      exact ih hevolves.sound fun c hc => hevolves.free (hfree c (List.mem_cons_of_mem _ hc))
    · exact .ok _
    · exact .ok _

namespace Fit

variable {seen : Frame → Prop}

theorem returns (h : Fit actions s seen) : Returns (performAll actions s) :=
  returns_performAll h.sound h.free

/-- Actions make no variables. -/
theorem size_eq {s' : Store} {verdict : Verdict} (h : Fit actions s seen)
    (hret : performAll actions s = .ok (verdict, s')) :
    s'.definitions.size = s.definitions.size := by
  rw [(narrows_performAll h.sound h.free hret).evolves.definitions_eq]

end Fit

end Action

instance : Steady Script where
  propagates h := (Action.Fit.returns h).bind fun _ _ => .ok _
  hints _ := .ok _
  size_eq h hret := by
    obtain ⟨⟨_, _⟩, hret, heq⟩ := bind_eq_ok_iff.1 hret
    cases heq
    exact Action.Fit.size_eq h hret

instance : Steady Rule where
  propagates {p _ _} h := by
    cases p with
    | allDifferent p => exact (Steady.propagates (π := AllDifferent) h).bind fun _ _ => .ok _
    | script p => exact (Steady.propagates (π := Script) h).bind fun _ _ => .ok _
    | routine actions => exact (Action.Fit.returns h).bind fun _ _ => .ok _
  hints {p _ _} h := by
    cases p with
    | allDifferent p => exact Steady.hints (π := AllDifferent) h
    | script p => exact .ok _
    | routine actions => exact .ok _
  size_eq {p _ _ _ _ _} h hret := by
    cases p with
    | allDifferent p =>
      obtain ⟨⟨_, _, _⟩, hret, heq⟩ := bind_eq_ok_iff.1 hret
      cases heq
      exact Steady.size_eq (π := AllDifferent) h hret
    | script p =>
      obtain ⟨⟨_, _, _⟩, hret, heq⟩ := bind_eq_ok_iff.1 hret
      cases heq
      exact Steady.size_eq (π := Script) h hret
    | routine actions =>
      obtain ⟨⟨_, _⟩, hret, heq⟩ := bind_eq_ok_iff.1 hret
      cases heq
      exact Action.Fit.size_eq h hret

/-! ## All loops -/

namespace Model

variable {π : Type} [Propagator π] [Tame π] {m : Model π}

/-- Propagators that return, make no variables and change domains only by taking values away are run
to an end, whatever happened before, whatever is scheduled and in whatever order constraints run.
The rounds are bounded by the values that can be lost.  Every search ends as well, on any variables,
with both kinds of decisions and whatever the propagators suggest; no branch has more decisions than
there are values to lose.  And the loop of an all different propagator ends, because the number of
live edges falls each time it begins again. -/
theorem Reachable.terminates [Steady π] (h : m.Reachable) :
    (∀ events scheduled order rounds, events.map Event.var = m.store.events.map Event.var →
      Returns (m.primed events scheduled order rounds).fixpoint ∧
      (Halts (m.store.weight + 2) fun fuel =>
        (m.primed events scheduled order rounds).runRounds fuel) ∧
      ∀ (ρ : Type) (q : Search) (observe : Model π → Except Fault ρ),
        (∀ m, m.Orderly → Returns (observe m)) →
        Returns (q.solve observe (m.primed events scheduled order rounds))) ∧
    (∀ (ρ : Type) (q : Search) (observe : Model π → Except Fault ρ) (t : Tally ρ),
      (∀ m, m.Orderly → Returns (observe m)) →
      Halts (m.store.weight + 1) fun fuel => q.explore observe fuel m t) ∧
    ∀ (p : AllDifferent) (s : Store) (seen : Frame → Prop), p.Guarded s seen → p.Ends s := by
  have hm := h.orderly
  refine ⟨fun events scheduled order rounds hevents => ⟨?_, ?_, ?_⟩, ?_, fun p s seen => ?_⟩
  · exact (hm.concludes_fixpoint scheduled order rounds hevents).returns
  · exact hm.halts_runRounds scheduled order rounds hevents
  · exact fun ρ q observe => hm.returns_solve hevents scheduled order rounds q
  · exact fun ρ q observe t hobserve => hm.halts_explore q hobserve t
  · exact AllDifferent.Guarded.ends

/-! ### A run -/

/-- In every other round, the constraint that was scheduled first is run first. -/
def turning : DrainOrder where
  arrange round scheduled := if round % 2 = 0 then scheduled else scheduled.reverse
  arrange_perm round scheduled := by
    split
    · exact .refl _
    · exact scheduled.reverse_perm

/-- Two variables take the first two values of a third one, and two scripts narrow that one and a
fourth in turns.  One of them suggests a value that does not exist. -/
def chasing : List (Operation Rule) :=
  [.declare (.primitive 0 1), .declare (.primitive 0 1), .declare (.primitive 0 5),
    .declare (.primitive 0 5), .declare (.plus ⟨2⟩ 2),
    .making .allDifferent [⟨0⟩, ⟨1⟩, ⟨2⟩] .usual, .listen ⟨0⟩ .domainChanged ⟨2⟩,
    posting (.new [.less ⟨2⟩ ⟨3⟩] (some ⟨⟨2⟩, 77, 9⟩)), .listen ⟨1⟩ .maxChanged ⟨3⟩,
    posting (.new [.less ⟨3⟩ ⟨4⟩] none), .listen ⟨2⟩ .maxChanged ⟨2⟩]

/-- The all different propagator, if the propagator is one. -/
def allDifferent? : Rule → Except Fault AllDifferent
  | .allDifferent p => .ok p
  | .script _ | .routine _ => .error .outOfBounds

/-- Everything happened to the variable. -/
def alarming (e : Event) : Event := ⟨e.var, true, true, true, true, true⟩

theorem Reachable.terminates_chasing : ∃ m : Model Rule,
    (Model.empty .lastFirst).applyAll chasing = .ok m ∧
    Returns (m.primed (m.store.events.map alarming) [⟨2⟩, ⟨0⟩, ⟨2⟩] turning 7).fixpoint ∧
    Returns (Search.solve ⟨[⟨3⟩, ⟨4⟩, ⟨3⟩], .hinted, none⟩ (fun m : Model Rule => m.store.min? ⟨0⟩)
      (m.primed (m.store.events.map alarming) [⟨2⟩, ⟨0⟩, ⟨2⟩] turning 7)) ∧
    ∃ p p₁ p₂ s₁ s₂ changes, m.propagators[0]? = some (.allDifferent p) ∧
      p.Restarts m.store p₁ s₁ ∧ p₁.synchronize s₁ = .ok (.consistent, changes, p₂, s₂) ∧
      p₂.edges s₂ < p₁.edges s₁ := by
  have hchasing : ∀ op ∈ chasing, Welcome op := Welcome.of_posts <| List.forall_mem_cons.2
    ⟨.making Rule.wraps_allDifferent _ _, List.forall_mem_cons.2 ⟨.posting (by simp [Script.new]),
      List.forall_mem_singleton.2 (.posting (by simp [Script.new]))⟩⟩
  have hrun : ((Model.empty .lastFirst).applyAll chasing >>= fun m => fetch m.propagators 0 >>=
      fun rule => allDifferent? rule >>= fun p =>
        AllDifferent.synchronize { p with work := p.alarm } m.store >>=
          fun a => a.2.2.1.filter a.2.1 a.2.2.2 >>= fun b => b.2.2.1.synchronize b.2.2.2 >>=
            fun c => .ok (a.1, !(!p.ready) && a.2.1.isEmpty, b.1, b.2.1, c.1)) =
      .ok (.consistent, false, .consistent, true, .consistent) := by
    decide +kernel
  obtain ⟨m, hm, hrun⟩ := bind_eq_ok_iff.1 hrun
  obtain ⟨rule, hrule, hrun⟩ := bind_eq_ok_iff.1 hrun
  obtain ⟨p, hkind, hrun⟩ := bind_eq_ok_iff.1 hrun
  have hp : m.propagators[0]? = some (.allDifferent p) := by
    cases rule with
    | allDifferent p' =>
      cases hkind
      exact fetch_eq_ok_iff.1 hrule
    | script p' => cases hkind
    | routine actions => cases hkind
  obtain ⟨⟨_, changes, p', s'⟩, hsynchronize, hrun⟩ := bind_eq_ok_iff.1 hrun
  obtain ⟨⟨_, _, p₁, s₁⟩, hfilter, hrun⟩ := bind_eq_ok_iff.1 hrun
  obtain ⟨⟨_, changes', p₂, s₂⟩, hagain, hrun⟩ := bind_eq_ok_iff.1 hrun
  injection hrun with hrun
  simp only [Prod.mk.injEq] at hrun
  obtain ⟨rfl, hmore, rfl, rfl, rfl⟩ := hrun
  have hreachable := Reachable.of_applyAll hchasing hm
  have hevents : (m.store.events.map alarming).map Event.var = m.store.events.map Event.var := by
    rw [Array.map_map]
    rfl
  obtain ⟨hloops, _, hends⟩ := Reachable.terminates hreachable
  obtain ⟨hfixpoint, _, hsearch⟩ := hloops _ [⟨2⟩, ⟨0⟩, ⟨2⟩] turning 7 hevents
  have hrestarts : p.Restarts m.store p₁ s₁ :=
    .first ⟨changes, p', s', hsynchronize, hmore, hfilter⟩
  refine ⟨m, hm, hfixpoint, hsearch _ _ _ fun m hm => Store.returns_bound? hm.store .lower _, p, p₁,
    p₂, s₁, s₂, changes', hp, hrestarts, hagain, ?_⟩
  have hends := hends p m.store _ (hreachable.orderly.fits 0 _ hp)
  exact (hends.falls p₁ s₁ hrestarts _ _ _ hagain).2.2

end Model

end FiniteDomain
