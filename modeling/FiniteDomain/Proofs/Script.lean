import FiniteDomain.Proofs.AllDifferent.Tame

/-!
# Scripts are tame

A script narrows domains and counts in cells.  It must not count in the cells of a domain, nor in
those in which a store or a model counts.  Then it is tame, and so are the propagators of models
that mix scripts and all different constraints.
-/

namespace FiniteDomain

/-- A cell is counted up. -/
theorem Store.wrote_of_increment {s s' : Store} (h : s.Sound) {c : Cell} (hfree : s.Free c) {v : Int}
    (hret : s.increment c = .ok (v, s')) : s.trail.now.Has c ∧ s.Wrote s' c v := by
  obtain ⟨⟨u, t⟩, ht, heq⟩ := bind_eq_ok_iff.1 ((onTrail_eq s _).symm.trans hret)
  cases heq
  rw [Trail.increment] at ht
  obtain ⟨r, hread, ht⟩ := bind_eq_ok_iff.1 ht
  obtain ⟨_, _, ht⟩ := bind_eq_ok_iff.1 ht
  obtain ⟨_, hwrite, ht⟩ := bind_eq_ok_iff.1 ht
  cases ht
  have hhas : s.trail.now.Has c := by
    obtain ⟨state, hfetch, _⟩ := bind_eq_ok_iff.1 hread
    rw [Frame.Has, Trail.size_values_now]
    exact (Array.getElem?_eq_some_iff.1 (fetch_eq_ok_iff.1 hfetch)).1
  obtain ⟨s₁, hs₁, hwrote⟩ := write_eq h hhas hfree u
  have hs₁' : s.write c u = .ok { s with trail := t } := bind_eq_ok_iff.2 ⟨t, hwrite, rfl⟩
  rw [hs₁'] at hs₁
  cases hs₁
  exact ⟨hhas, hwrote⟩

namespace Action

variable {s s' : Store} {a : Action} {actions : List Action} {answer : Answer} {verdict : Verdict}

/-- The cell is counted in. -/
def Counts (actions : List Action) (c : Cell) : Prop := .count c ∈ actions

/-- Domains were narrowed and cells in `C` written.  If all went `well`, no domain was emptied. -/
structure Narrows (C : Cell → Prop) (well : Prop) (s s' : Store) : Prop where
  evolves : s.Evolves C s'
  alive : well → s.Alive s'

theorem Narrows.refl (C : Cell → Prop) (well : Prop) (h : s.Sound) : Narrows C well s s :=
  ⟨.refl C h, fun _ => .refl s⟩

/-- What follows something that went well. -/
theorem Narrows.trans {C : Cell → Prop} {well well' : Prop} {s'' : Store}
    (h : Narrows C well s s') (hwell : well) (h' : Narrows C well' s' s'') :
    Narrows C well' s s'' :=
  ⟨h.evolves.trans h'.evolves, fun hwell' => (h.alive hwell).trans (h'.alive hwell')⟩

/-- What went wrong may have emptied a domain. -/
theorem Narrows.ill {C : Cell → Prop} {well well' : Prop} (h : Narrows C well s s')
    (hill : ¬ well') : Narrows C well' s s' :=
  ⟨h.evolves, fun hwell => absurd hwell hill⟩

theorem narrows_attempt (h : s.Sound) {a : Attempt} (C : Cell → Prop)
    (hret : s.attempt a = .ok (verdict, s')) : Narrows C (verdict = .consistent) s s' := by
  obtain ⟨_, _, _, _, hshrinks, _⟩ := Store.attempt_spec h hret
  refine ⟨hshrinks.toEvolves.mono fun _ => False.elim, ?_⟩
  rintro rfl
  exact Store.alive_attempt h hret

theorem narrows_makeLess (h : s.Sound) {x y : Var} (C : Cell → Prop)
    (hret : makeLess x y s = .ok (verdict, s')) : Narrows C (verdict = .consistent) s s' := by
  obtain ⟨top, _, hret⟩ := bind_eq_ok_iff.1 hret
  cases top with
  | none =>
    cases hret
    exact .refl C _ h
  | some top =>
    obtain ⟨bound, _, hret⟩ := bind_eq_ok_iff.1 hret
    obtain ⟨⟨v, s₁⟩, hfirst, hret⟩ := bind_eq_ok_iff.1 hret
    have hnarrows := narrows_attempt h C (a := .removeAbove x bound) hfirst
    cases v with
    | failed why =>
      cases hret
      exact hnarrows
    | consistent =>
      obtain ⟨bottom, _, hret⟩ := bind_eq_ok_iff.1 hret
      cases bottom with
      | none =>
        cases hret
        exact hnarrows.ill nofun
      | some bottom =>
        obtain ⟨bound', _, hret⟩ := bind_eq_ok_iff.1 hret
        exact hnarrows.trans rfl
          (narrows_attempt hnarrows.evolves.sound C (a := .removeBelow y bound') hret)

theorem narrows_of_fixedValue {C : Cell → Prop} {well : Prop} {x : Var}
    {go : Option Int → Except Fault (Verdict × Store)}
    (hnone : go none = .ok (verdict, s') → Narrows C well s s')
    (hsome : ∀ u, go (some u) = .ok (verdict, s') → Narrows C well s s')
    (hret : (fixedValue? s x >>= go) = .ok (verdict, s')) : Narrows C well s s' := by
  obtain ⟨value, _, hret⟩ := bind_eq_ok_iff.1 hret
  cases value with
  | none => exact hnone hret
  | some u => exact hsome u hret

theorem narrows_makeDiffer (h : s.Sound) {x y : Var} {k : Int} (C : Cell → Prop)
    (hret : makeDiffer x y k s = .ok (verdict, s')) : Narrows C (verdict = .consistent) s s' := by
  -- What is done to `y` after `x` was looked at.
  have hlast : ∀ {s₁ : Store} {u : Int}, s₁.Sound →
      (Word.sub u k >>= fun w => s₁.remove y w) = .ok (verdict, s') →
        Narrows C (verdict = .consistent) s₁ s' := by
    intro s₁ u hs₁ hret
    obtain ⟨w, _, hret⟩ := bind_eq_ok_iff.1 hret
    exact narrows_attempt hs₁ C (a := .remove y w) hret
  refine narrows_of_fixedValue (fun hret => ?_) (fun u hret => ?_) hret
  · refine narrows_of_fixedValue (fun hret => ?_) (fun u hret => hlast h hret) hret
    cases hret
    exact .refl C _ h
  · obtain ⟨w, _, hret⟩ := bind_eq_ok_iff.1 hret
    obtain ⟨⟨v, s₁⟩, hfirst, hret⟩ := bind_eq_ok_iff.1 hret
    have hnarrows := narrows_attempt h C (a := .remove x w) hfirst
    cases v with
    | failed why =>
      cases hret
      exact hnarrows
    | consistent =>
      have hsound := hnarrows.evolves.sound
      refine hnarrows.trans rfl (narrows_of_fixedValue (fun hret => ?_)
        (fun u hret => hlast hsound hret) hret)
      cases hret
      exact .refl C _ hsound

theorem narrows_narrow {C : Cell → Prop} {attempt : Except Fault (Verdict × Store)}
    (hattempt : ∀ verdict s', attempt = .ok (verdict, s') →
      Narrows C (verdict = .consistent) s s')
    (hret : narrow attempt = .ok (answer, s')) : Narrows C (∀ why, answer ≠ .failed why) s s' := by
  obtain ⟨⟨verdict, s₁⟩, hret, heq⟩ := bind_eq_ok_iff.1 hret
  cases heq
  have hnarrows := hattempt _ _ hret
  refine ⟨hnarrows.evolves, fun hwell => hnarrows.alive ?_⟩
  cases verdict with
  | consistent => rfl
  | failed why => exact absurd rfl (hwell why)

/-- An action narrows domains and counts in cells. -/
theorem narrows_perform (h : s.Sound) {C : Cell → Prop}
    (hfree : ∀ c, a = .count c → s.Free c ∧ C c) (hret : perform s a = .ok (answer, s')) :
    Narrows C (∀ why, answer ≠ .failed why) s s' := by
  cases a with
  | fix x v => exact narrows_narrow (fun _ _ => narrows_attempt h C (a := .fix x v)) hret
  | remove x v => exact narrows_narrow (fun _ _ => narrows_attempt h C (a := .remove x v)) hret
  | removeBelow x v =>
    exact narrows_narrow (fun _ _ => narrows_attempt h C (a := .removeBelow x v)) hret
  | removeAbove x v =>
    exact narrows_narrow (fun _ _ => narrows_attempt h C (a := .removeAbove x v)) hret
  | fail why =>
    cases hret
    exact .refl C _ h
  | whenMin x v =>
    obtain ⟨least, _, hret⟩ := bind_eq_ok_iff.1 hret
    cases least with
    | none =>
      cases hret
      exact .refl C _ h
    | some least =>
      cases hret
      exact .refl C _ h
  | whenFixed x =>
    obtain ⟨fixed, _, hret⟩ := bind_eq_ok_iff.1 hret
    cases hret
    exact .refl C _ h
  | less x y => exact narrows_narrow (fun _ _ => narrows_makeLess h C) hret
  | differ x y k => exact narrows_narrow (fun _ _ => narrows_makeDiffer h C) hret
  | count c =>
    obtain ⟨⟨v, s₁⟩, hret, heq⟩ := bind_eq_ok_iff.1 hret
    cases heq
    obtain ⟨hc, hC⟩ := hfree c rfl
    have hwrote := (Store.wrote_of_increment h hc hret).2
    refine ⟨hwrote.toEvolves.mono fun d hd => ?_, fun _ => .of_eq hwrote.domain_eq⟩
    rw [hd]
    exact hC

/-- Actions narrow domains and count in cells, and they empty no domain unless they fail. -/
theorem narrows_performAll (h : s.Sound) (hfree : ∀ c, Counts actions c → s.Free c)
    (hret : performAll actions s = .ok (verdict, s')) :
    Narrows (Counts actions) (verdict = .consistent) s s' := by
  have main : ∀ (rest : List Action) (s : Store), s.Sound →
      (∀ a ∈ rest, ∀ c, a = .count c → s.Free c ∧ Counts actions c) →
      performAll rest s = .ok (verdict, s') →
        Narrows (Counts actions) (verdict = .consistent) s s' := by
    intro rest
    induction rest with
    | nil =>
      intro s hs _ hret
      cases hret
      exact .refl _ _ hs
    | cons a rest ih =>
      intro s hs hrest hret
      obtain ⟨⟨answer, s₁⟩, hfirst, hret⟩ := bind_eq_ok_iff.1 hret
      have hnarrows := narrows_perform hs (hrest a (List.mem_cons_self ..)) hfirst
      have hevolves := hnarrows.evolves
      cases answer with
      | goOn =>
        refine hnarrows.trans nofun (ih s₁ hevolves.sound (fun b hb c hc => ?_) hret)
        obtain ⟨hfree, hcounts⟩ := hrest b (List.mem_cons_of_mem _ hb) c hc
        exact ⟨hevolves.free hfree, hcounts⟩
      | stop =>
        cases hret
        exact ⟨hevolves, fun _ => hnarrows.alive nofun⟩
      | failed why =>
        cases hret
        exact hnarrows.ill nofun
  refine main actions s h (fun a ha c hc => ?_) hret
  subst hc
  exact ⟨hfree c ha, ha⟩

/-- The cells in which the actions count are there, in all frames that are `seen`, and are free. -/
structure Fit (actions : List Action) (s : Store) (seen : Frame → Prop) : Prop where
  sound : s.Sound
  has : ∀ c, Counts actions c → s.trail.now.Has c
  free : ∀ c, Counts actions c → s.Free c
  past_has : ∀ w ∈ s.trail.past, seen w → ∀ c, Counts actions c → w.Has c

namespace Fit

variable {seen : Frame → Prop} {w : Frame}

theorem of_grown (h : Fit actions s seen) (hg : s.Grown s') : Fit actions s' seen :=
  ⟨hg.sound, fun c hc => hg.has c (h.has c hc), fun c hc => hg.free c (h.has c hc) (h.free c hc),
    fun w hw => h.past_has w (hg.past_eq ▸ hw)⟩

theorem of_evolves {C : Cell → Prop} (h : Fit actions s seen) (he : s.Evolves C s') :
    Fit actions s' seen :=
  ⟨he.sound, fun c hc => he.has (h.has c hc), fun c hc => he.free (h.free c hc),
    fun w hw => h.past_has w (he.past_eq ▸ hw)⟩

theorem clearEvents (h : Fit actions s seen) : Fit actions s.clearEvents seen :=
  ⟨h.sound.clearEvents, h.has, fun c hc => ⟨(h.free c hc).1, (h.free c hc).2, (h.free c hc).3⟩,
    h.past_has⟩

theorem save (h : Fit actions s seen) : Fit actions s.save seen := by
  obtain ⟨hnow, hpast, _⟩ := Trail.save_eq h.sound.trail.tracked
  have hnow : s.save.trail.now = s.trail.now := hnow
  have hpast : s.save.trail.past = s.trail.now :: s.trail.past := hpast
  refine ⟨h.sound.save, fun c hc => ?_, fun c hc => ⟨(h.free c hc).1, (h.free c hc).2, (h.free c hc).3⟩,
    fun w hw hseen c hc => ?_⟩
  · rw [hnow]
    exact h.has c hc
  · rw [hpast] at hw
    obtain rfl | hw := List.mem_cons.1 hw
    · exact h.has c hc
    · exact h.past_has w hw hseen c hc

theorem restored (h : Fit actions s seen) {rest : List Frame} (hpast : s.trail.past = w :: rest)
    (hr : s.Restored s' w rest) (hseen : seen w) : Fit actions s' seen := by
  refine ⟨hr.sound, fun c hc => ?_, fun c hc => ⟨?_, ?_, ?_⟩, fun w' hw' hseen' => ?_⟩
  · rw [hr.now_eq]
    exact h.past_has w (hpast ▸ List.mem_cons_self ..) hseen c hc
  · rintro ⟨set, hset, hmem⟩
    rw [hr.sets_eq] at hset
    obtain ⟨i, hi⟩ := Array.mem_iff_getElem?.1 hset
    rw [Trail.getElem?_shrink] at hi
    split at hi
    · exact (h.free c hc).not_isSetCell ⟨set, Array.mem_of_getElem? hi, hmem⟩
    · cases hi
  · rw [hr.varCount_eq]
    exact (h.free c hc).ne_varCount
  · rw [hr.eventCount_eq]
    exact (h.free c hc).ne_eventCount
  · rw [hr.past_eq] at hw'
    exact h.past_has w' (hpast ▸ List.mem_cons_of_mem _ hw') hseen'

end Fit

end Action

instance : Tame Script where
  Writes p c := Action.Counts p.actions c
  Relies _ _ := False
  Fits p s seen := Action.Fit p.actions s seen
  held h hc := h.has _ (hc.elim id False.elim)
  grown h hg := h.of_grown hg
  evolves h he _ := h.of_evolves he
  clearEvents h := h.clearEvents
  save h := h.save
  restored h hpast hr hseen := h.restored hpast hr hseen
  within_onRestore _ := ⟨fun _ => Or.inl, fun _ => Or.inl⟩
  notified _ h := h
  within_notify _ _ := ⟨fun _ => Or.inl, fun _ => Or.inl⟩
  propagated h hret := by
    obtain ⟨⟨v, s₁⟩, hret, heq⟩ := bind_eq_ok_iff.1 hret
    cases heq
    have hevolves := (Action.narrows_performAll h.sound h.free hret).evolves
    exact ⟨h.of_evolves hevolves, .of_evolves (hevolves.mono fun _ => Or.inl),
      fun _ => Or.inl, fun _ => Or.inl⟩

instance : Frank Script where
  alive h hret := by
    obtain ⟨⟨v, s₁⟩, hret, heq⟩ := bind_eq_ok_iff.1 hret
    cases heq
    exact (Action.narrows_performAll h.sound h.free hret).alive rfl

namespace Rule

/-- The cells that the propagator may write. -/
def Writes : Rule → Cell → Prop
  | allDifferent p => p.Owns
  | script p => Action.Counts p.actions
  | routine actions => Action.Counts actions

/-- The cells that nobody else may write. -/
def Relies : Rule → Cell → Prop
  | allDifferent p => p.Owns
  | script _ => fun _ => False
  | routine _ => fun _ => False

/-- The propagator can work on the store. -/
def Fits : Rule → Store → (Frame → Prop) → Prop
  | allDifferent p => p.Guarded
  | script p => Action.Fit p.actions
  | routine actions => Action.Fit actions

instance : Tame Rule where
  Writes := Writes
  Relies := Relies
  Fits := Fits
  held {p _ _ _} h hc := by
    cases p with
    | allDifferent p => exact h.has (hc.elim id id)
    | script p => exact h.has _ (hc.elim id False.elim)
    | routine actions => exact h.has _ (hc.elim id False.elim)
  grown {p _ _ _} h hg := by
    cases p with
    | allDifferent p => exact (h.of_grown hg).1
    | script p => exact h.of_grown hg
    | routine actions => exact h.of_grown hg
  evolves {p _ _ _ _} h he hC := by
    cases p with
    | allDifferent p => exact (h.of_evolves he hC).1
    | script p => exact h.of_evolves he
    | routine actions => exact h.of_evolves he
  clearEvents {p _ _} h := by
    cases p with
    | allDifferent p => exact h.clearEvents.1
    | script p => exact h.clearEvents
    | routine actions => exact h.clearEvents
  save {p _ _} h := by
    cases p with
    | allDifferent p => exact h.save.1
    | script p => exact h.save
    | routine actions => exact h.save
  restored {p _ _ _ _ _} h hpast hr hseen := by
    cases p with
    | allDifferent p => exact (h.restored hpast hr hseen).1
    | script p => exact h.restored hpast hr hseen
    | routine actions => exact h.restored hpast hr hseen
  within_onRestore p := by
    cases p <;> exact ⟨fun _ => Or.inl, fun _ => Or.inl⟩
  notified {p _ _} x h := by
    cases p with
    | allDifferent p => exact h.notify x
    | script p => exact h
    | routine actions => exact h
  within_notify p _ := by
    cases p <;> exact ⟨fun _ => Or.inl, fun _ => Or.inl⟩
  propagated {p _ _ _ _ _} h hret := by
    cases p with
    | allDifferent p =>
      obtain ⟨⟨_, _, _⟩, hret, heq⟩ := bind_eq_ok_iff.1 hret
      cases heq
      obtain ⟨hfits, hacts, hwithin⟩ := Tame.propagated (π := AllDifferent) h hret
      exact ⟨hfits, hacts, hwithin.writes, hwithin.relies⟩
    | script p =>
      obtain ⟨⟨_, _, _⟩, hret, heq⟩ := bind_eq_ok_iff.1 hret
      cases heq
      obtain ⟨hfits, hacts, hwithin⟩ := Tame.propagated (π := Script) h hret
      exact ⟨hfits, hacts, hwithin.writes, hwithin.relies⟩
    | routine actions =>
      obtain ⟨⟨_, _⟩, hret, heq⟩ := bind_eq_ok_iff.1 hret
      cases heq
      have hevolves := (Action.narrows_performAll h.sound h.free hret).evolves
      exact ⟨h.of_evolves hevolves, .of_evolves (hevolves.mono fun _ => Or.inl),
        fun _ => Or.inl, fun _ => Or.inl⟩

theorem wraps_allDifferent : Wraps allDifferent := ⟨id, id, id⟩

theorem embeds_allDifferent : Embeds allDifferent where
  toWraps := wraps_allDifferent
  guarded h := h
  relied h := h
  propagate_eq _ _ := rfl
  notify_eq _ _ := rfl
  onRestore_eq _ := rfl
  hint?_eq _ _ := rfl

instance : Frank Rule where
  alive {p _ _ _ _} h hret := by
    cases p with
    | allDifferent p =>
      obtain ⟨⟨_, _, _⟩, hret, heq⟩ := bind_eq_ok_iff.1 hret
      cases heq
      exact Frank.alive (π := AllDifferent) h hret
    | script p =>
      obtain ⟨⟨_, _, _⟩, hret, heq⟩ := bind_eq_ok_iff.1 hret
      cases heq
      exact Frank.alive (π := Script) h hret
    | routine actions =>
      obtain ⟨⟨_, _⟩, hret, heq⟩ := bind_eq_ok_iff.1 hret
      cases heq
      exact (Action.narrows_performAll h.sound h.free hret).alive rfl

end Rule

/-- Actions that count in no cell fit everywhere. -/
theorem Action.Fit.of_no_counts {actions : List Action} {s : Store} (h : s.Sound)
    (hcounts : ∀ c, ¬ Counts actions c) (seen : Frame → Prop) : Fit actions s seen :=
  ⟨h, fun c hc => absurd hc (hcounts c), fun c hc => absurd hc (hcounts c),
    fun _ _ _ c hc => absurd hc (hcounts c)⟩

/-- A model of tame propagators admits a script that counts in no cell. -/
theorem Model.Orderly.admits_script {m : Model Rule} (h : m.Orderly) {p : Script}
    (hcounts : ∀ c, ¬ Action.Counts p.actions c) : m.Admits (.script p) :=
  .of_no_cells (.of_no_counts h.store hcounts) fun c hc => hc.elim (hcounts c) id

end FiniteDomain
