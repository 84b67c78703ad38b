import FiniteDomain.Proofs.Store.Calls
import FiniteDomain.Proofs.Store.Weights

/-!
# The events tell exactly what changed

A client compares the domain of each primitive variable with what it was when the variable was made,
when the events were last cleared or when a level was last restored, whichever came last.

* `Store.Watched s F` says that calls lead to the store `s`, and that the domains to compare with
  are those in `F`.  Every store that is reached is watched: `Reached.watched`.
* The events stand in the order in which their variables were made (`Ordered`), also when slots are
  used again after a level was restored.
* `Store.Tells s F` says that the events tell how the domains of `s` differ from those in `F`, and
  that exactly the variables whose domains differ are reported: `Watched.tells`.
-/

namespace FiniteDomain.Store

variable {s s' : Store} {F : Var → Finset Int}

/-! ## What to compare with -/

/-- The domains to compare with after a call that led from `s` to `s'`. -/
def Call.since (s s' : Store) (F : Var → Finset Int) : Call → Var → Finset Int
  | .declare _ => fun p => if p.index < s.definitions.size then F p else s'.domain p
  | .clearEvents | .restore => s'.domain
  | _ => F

/-- Calls lead to the store, and the domain of each primitive variable was the one in `F` when it
was made, when the events were last cleared or when a level was last restored, whichever came
last. -/
inductive Watched : Store → (Var → Finset Int) → Prop
  | start (values : List Int) :
    Watched (ofTrail (values.foldl (fun t v => (t.newCell v).2) Trail.empty)) fun _ => ∅
  | step {s s' : Store} {F : Var → Finset Int} (call : Call) (h : Watched s F)
      (hallowed : call.Allowed s) (hret : call.perform s = .ok s') :
      Watched s' (call.since s s' F)

/-- A store that is watched is reached. -/
theorem Watched.reached (h : Watched s F) : s.Reached := by
  induction h with
  | start values => exact .start values
  | step call _ hallowed hret ih => exact ih.perform hallowed hret

/-- Every store that is reached is watched. -/
theorem Reached.watched (h : s.Reached) : ∃ F, Watched s F := by
  induction h with
  | start values => exact ⟨_, .start values⟩
  | newCell v _ ih =>
    obtain ⟨F, hF⟩ := ih
    exact ⟨_, hF.step (.newCell v) trivial rfl⟩
  | @write _ _ c v hhas hfree hret _ ih =>
    obtain ⟨F, hF⟩ := ih
    exact ⟨_, hF.step (.write c v) ⟨hhas, hfree⟩ hret⟩
  | @increment _ _ c _ hhas hfree hret _ ih =>
    obtain ⟨F, hF⟩ := ih
    exact ⟨_, hF.step (.increment c) ⟨hhas, hfree⟩ (bind_eq_ok_iff.2 ⟨_, hret, rfl⟩)⟩
  | @decrement _ _ c _ hhas hfree hret _ ih =>
    obtain ⟨F, hF⟩ := ih
    exact ⟨_, hF.step (.decrement c) ⟨hhas, hfree⟩ (bind_eq_ok_iff.2 ⟨_, hret, rfl⟩)⟩
  | @newPrimitive _ _ min max _ hmin hmax hret _ ih =>
    obtain ⟨F, hF⟩ := ih
    exact ⟨_, hF.step (.declare (.primitive min max)) ⟨hmin, hmax⟩
      (bind_eq_ok_iff.2 ⟨_, hret, rfl⟩)⟩
  | @plus _ _ x _ k hx hret _ ih =>
    obtain ⟨F, hF⟩ := ih
    exact ⟨_, hF.step (.declare (.plus x k)) hx (bind_eq_ok_iff.2 ⟨_, hret, rfl⟩)⟩
  | @minus _ _ x _ k hx hret _ ih =>
    obtain ⟨F, hF⟩ := ih
    exact ⟨_, hF.step (.declare (.minus x k)) hx (bind_eq_ok_iff.2 ⟨_, hret, rfl⟩)⟩
  | @negate _ _ x _ hx hret _ ih =>
    obtain ⟨F, hF⟩ := ih
    exact ⟨_, hF.step (.declare (.negate x)) hx (bind_eq_ok_iff.2 ⟨_, hret, rfl⟩)⟩
  | @times _ _ x _ c hx hret _ ih =>
    obtain ⟨F, hF⟩ := ih
    exact ⟨_, hF.step (.declare (.times x c)) hx (bind_eq_ok_iff.2 ⟨_, hret, rfl⟩)⟩
  | @attempt _ _ a _ hret _ ih =>
    obtain ⟨F, hF⟩ := ih
    exact ⟨_, hF.step (.attempt a) trivial (bind_eq_ok_iff.2 ⟨_, hret, rfl⟩)⟩
  | clearEvents _ ih =>
    obtain ⟨F, hF⟩ := ih
    exact ⟨_, hF.step .clearEvents trivial rfl⟩
  | save _ ih =>
    obtain ⟨F, hF⟩ := ih
    exact ⟨_, hF.step .save trivial rfl⟩
  | restore hret _ ih =>
    obtain ⟨F, hF⟩ := ih
    exact ⟨_, hF.step .restore trivial hret⟩

instance (s : Store) (c : Cell) : Decidable (s.Free c) :=
  decidable_of_iff ((¬ ∃ set ∈ s.trail.sets, c ∈ set.cells) ∧ c ≠ s.varCount ∧ c ≠ s.eventCount)
    ⟨fun ⟨h₁, h₂, h₃⟩ => ⟨h₁, h₂, h₃⟩, fun ⟨h₁, h₂, h₃⟩ => ⟨h₁, h₂, h₃⟩⟩

instance (s : Store) (call : Call) : Decidable (call.Allowed s) := by
  cases call with
  | declare d => cases d <;> unfold Call.Allowed Declaration.Valid <;> infer_instance
  | write | increment | decrement => unfold Call.Allowed Frame.Has; infer_instance
  | newCell | attempt | clearEvents | save | restore => unfold Call.Allowed; infer_instance

/-- Several calls, if they are allowed and all of them return. -/
def watch : Store × (Var → Finset Int) → List Call → Option (Store × (Var → Finset Int))
  | watched, [] => some watched
  | (s, F), call :: calls =>
    if call.Allowed s then
      match call.perform s with
      | .ok s' => watch (s', call.since s s' F) calls
      | .error _ => none
    else
      none

theorem Watched.watch (h : Watched s F) {calls : List Call} {watched : Store × (Var → Finset Int)}
    (hcalls : Store.watch (s, F) calls = some watched) : Watched watched.1 watched.2 := by
  induction calls generalizing s F with
  | nil =>
    cases hcalls
    exact h
  | cons call calls ih =>
    rw [Store.watch] at hcalls
    split at hcalls
    · split at hcalls
      · exact ih (h.step _ ‹_› ‹_›) hcalls
      · cases hcalls
    · cases hcalls

/-! ## The slots of the events -/

/-- The events stand in the order in which their variables were made. -/
def Ordered (s : Store) : Prop :=
  s.events.toList.Pairwise fun e e' => e.var.index < e'.var.index

/-- A new view leaves the events alone. -/
theorem events_of_newVar {d : Definition} {x : Var} (hret : s.newVar d = .ok (x, s')) :
    s'.events = s.events := by
  obtain ⟨_, _, _, _, rfl⟩ := exists_increment_of_newVar hret
  rfl

/-- A new primitive variable has the last slot. -/
theorem events_of_newPrimitive {min max : Int} {x : Var}
    (hret : s.newPrimitive min max = .ok (x, s')) : s'.events = s.events.push (.quiet x) := by
  obtain ⟨_, _, _, _, _, _, _, hvar, rfl⟩ := exists_newVar_of_newPrimitive hret
  rw [events_of_newVar hvar]

/-- What a declaration does to the events. -/
theorem events_of_declare {d : Declaration} (h : s.Sound) (hd : d.Valid s) {x : Var}
    (hret : s.declare d = .ok (x, s')) :
    s'.events = s.events ∨ s'.events = s.events.push (.quiet ⟨s.definitions.size⟩) := by
  cases d with
  | primitive min max =>
    obtain ⟨rfl, _⟩ := newPrimitive_grown h hd.1 hd.2 hret
    exact Or.inr (events_of_newPrimitive hret)
  | plus x k => exact Or.inl (events_of_newVar hret)
  | minus x k =>
    obtain ⟨k', _, hret⟩ := bind_eq_ok_iff.1 hret
    exact Or.inl (events_of_newVar hret)
  | negate x => exact Or.inl (events_of_newVar hret)
  | times x c =>
    rw [declare, times] at hret
    split at hret
    · cases hret
    split at hret
    · cases hret
      exact Or.inl rfl
    split at hret
    · obtain ⟨⟨y, s₁⟩, hflip, hret⟩ := bind_eq_ok_iff.1 hret
      obtain ⟨c', _, hret⟩ := bind_eq_ok_iff.1 hret
      refine Or.inl ?_
      split at hret
      · cases hret
        exact events_of_newVar hflip
      · rw [events_of_newVar hret, events_of_newVar hflip]
    · exact Or.inl (events_of_newVar hret)

/-- What restoring a level does to the events: some are dropped, and the others cleared. -/
theorem events_of_restore (hret : s.restore = .ok s') :
    ∃ count, s'.events = (s.events.shrink count).map fun e => .quiet e.var := by
  obtain ⟨s₁, htrail, hret⟩ := bind_eq_ok_iff.1 hret
  rw [updateTrail_eq] at htrail
  obtain ⟨t, _, htrail⟩ := bind_eq_ok_iff.1 htrail
  cases htrail
  obtain ⟨vars, _, hret⟩ := bind_eq_ok_iff.1 hret
  obtain ⟨count, _, hret⟩ := bind_eq_ok_iff.1 hret
  cases hret
  exact ⟨count, rfl⟩

/-- The events of a sound store are those of variables that exist. -/
theorem Sound.event_lt (h : s.Sound) {e : Event} (he : e ∈ s.events) :
    e.var.index < s.definitions.size := by
  obtain ⟨slot, hslot⟩ := Array.mem_iff_getElem?.1 he
  obtain ⟨d, hd⟩ := h.base_of_event slot e hslot
  exact (Array.getElem?_eq_some_iff.1 hd).1

/-- Clearing keeps the order. -/
theorem ordered_cleared {events : Array Event}
    (h : events.toList.Pairwise fun e e' => e.var.index < e'.var.index) :
    (events.map fun e => Event.quiet e.var).toList.Pairwise fun e e' =>
      e.var.index < e'.var.index := by
  rw [Array.toList_map, List.pairwise_map]
  exact h

/-- A narrowing keeps the order. -/
theorem Shrinks.ordered {b : Base} {D : Finset Int} (h : Shrinks s s' b D) (ho : s.Ordered) :
    s'.Ordered := by
  obtain ⟨hevents, _⟩ | ⟨_, change, hfollows, hevents⟩ := h.told
  · rw [Ordered, hevents]
    exact ho
  · rw [Ordered, List.pairwise_iff_getElem] at ho ⊢
    simp only [Array.getElem_toList, Array.length_toList] at ho ⊢
    have hvar : ∀ (i : Nat) (hi : i < s.events.size) (hi' : i < s'.events.size),
        (s'.events[i]).var = (s.events[i]).var := by
      intro i hi hi'
      simp only [hevents, Array.getElem_modify]
      split
      · exact (hfollows _).var_eq
      · rfl
    have hsize : s'.events.size = s.events.size := by rw [hevents, Array.size_modify]
    intro i j hi hj hij
    rw [hvar i (hsize ▸ hi), hvar j (hsize ▸ hj)]
    exact ho i j _ _ hij

/-- The slots stay in order, also when some are dropped and used again. -/
theorem Call.ordered (h : s.Sound) (ho : s.Ordered) {call : Call} (hallowed : call.Allowed s)
    (hret : call.perform s = .ok s') : s'.Ordered := by
  cases call with
  | newCell v | save =>
    cases hret
    exact ho
  | write c v =>
    rw [Ordered, (Call.wrote h (.inl ⟨v, rfl⟩) hallowed hret).1]
    exact ho
  | increment c =>
    rw [Ordered, (Call.wrote h (.inr (.inl rfl)) hallowed hret).1]
    exact ho
  | decrement c =>
    rw [Ordered, (Call.wrote h (.inr (.inr rfl)) hallowed hret).1]
    exact ho
  | declare d =>
    obtain ⟨⟨x, s₁⟩, hdeclare, hret⟩ := bind_eq_ok_iff.1 hret
    cases hret
    obtain hevents | hevents := events_of_declare h hallowed hdeclare
    · rw [Ordered, hevents]
      exact ho
    · rw [Ordered, hevents, Array.toList_push, List.pairwise_append]
      refine ⟨ho, List.pairwise_singleton _ _, fun e he e' he' => ?_⟩
      rw [List.mem_singleton.1 he']
      exact h.event_lt (Array.mem_toList_iff.1 he)
  | attempt a =>
    obtain ⟨⟨verdict, s₁⟩, hattempt, hret⟩ := bind_eq_ok_iff.1 hret
    cases hret
    obtain ⟨b, D, _, _, hshrinks, _⟩ := attempt_spec h hattempt
    exact hshrinks.ordered ho
  | clearEvents =>
    cases hret
    exact ordered_cleared ho
  | restore =>
    obtain ⟨count, hevents⟩ := events_of_restore hret
    rw [Ordered, hevents]
    refine ordered_cleared (ho.sublist ?_)
    rw [Array.toList_shrink]
    exact List.take_sublist _ _

/-! ## What the events tell -/

/-- A call that changes neither the events nor the domains. -/
theorem Told.of_same (h : s.Told F) (hevents : s'.events = s.events)
    (hdomain : ∀ p, s'.domain p = s.domain p) : s'.Told F where
  subset p := by
    rw [hdomain]
    exact h.subset p
  describes e he := by
    rw [hdomain]
    exact h.describes e (hevents ▸ he)

/-- Cleared events tell that nothing changed since. -/
theorem told_of_cleared {events : Array Event}
    (hevents : s.events = events.map fun e => .quiet e.var) : s.Told s.domain := by
  refine ⟨fun _ => Finset.Subset.refl _, fun e he => ?_⟩
  rw [hevents] at he
  obtain ⟨e', _, rfl⟩ := Array.mem_map.1 he
  exact Event.describes_of_not_isSet rfl _

/-- The events go on telling what happened when a variable is made. -/
theorem Told.declare (h : s.Sound) (htold : s.Told F) {d : Declaration} (hd : d.Valid s) {x : Var}
    (hret : s.declare d = .ok (x, s')) :
    s'.Told fun p => if p.index < s.definitions.size then F p else s'.domain p := by
  have hgrown := Declaration.declare_grown h hd hret
  refine ⟨fun p => ?_, fun e he => ?_⟩
  · split
    · rename_i hp
      rw [hgrown.domain_eq p hp]
      exact htold.subset p
    · exact Finset.Subset.refl _
  · have hold : ∀ e ∈ s.events,
        e.Describes (if e.var.index < s.definitions.size then F e.var else s'.domain e.var)
          (s'.domain e.var) := by
      intro e he
      have hlt := h.event_lt he
      rw [if_pos hlt, hgrown.domain_eq _ hlt]
      exact htold.describes e he
    obtain hevents | hevents := events_of_declare h hd hret
    · exact hold e (hevents ▸ he)
    · rw [hevents] at he
      obtain he | rfl := Array.mem_push.1 he
      · exact hold e he
      · have hnew : ¬ (Event.quiet ⟨s.definitions.size⟩).var.index < s.definitions.size :=
          Nat.lt_irrefl _
        rw [if_neg hnew]
        exact Event.describes_of_not_isSet rfl _

/-- The events go on telling what happened through every call. -/
theorem Call.told (h : s.Sound) (htold : s.Told F) {call : Call} (hallowed : call.Allowed s)
    (hret : call.perform s = .ok s') : s'.Told (call.since s s' F) := by
  cases call with
  | newCell v =>
    cases hret
    obtain ⟨hgrown, _, _, _, _, hdefs⟩ := newCell_grown h v
    refine htold.of_same rfl fun p => ?_
    obtain hp | hp := Nat.lt_or_ge p.index s.definitions.size
    · exact hgrown.domain_eq p hp
    · rw [domain_eq_empty hp, domain_eq_empty (hdefs ▸ hp)]
  | write c v =>
    obtain ⟨hevents, _, hwrote⟩ := Call.wrote h (.inl ⟨v, rfl⟩) hallowed hret
    exact htold.of_same hevents hwrote.domain_eq
  | increment c =>
    obtain ⟨hevents, _, hwrote⟩ := Call.wrote h (.inr (.inl rfl)) hallowed hret
    exact htold.of_same hevents hwrote.domain_eq
  | decrement c =>
    obtain ⟨hevents, _, hwrote⟩ := Call.wrote h (.inr (.inr rfl)) hallowed hret
    exact htold.of_same hevents hwrote.domain_eq
  | declare d =>
    obtain ⟨⟨x, s₁⟩, hdeclare, hret⟩ := bind_eq_ok_iff.1 hret
    cases hret
    exact htold.declare h hallowed hdeclare
  | attempt a =>
    obtain ⟨⟨verdict, s₁⟩, hattempt, hret⟩ := bind_eq_ok_iff.1 hret
    cases hret
    obtain ⟨b, D, _, hb, hshrinks, _⟩ := attempt_spec h hattempt
    exact hshrinks.keeps_told h hb htold
  | clearEvents =>
    cases hret
    exact told_of_cleared rfl
  | save =>
    cases hret
    refine htold.of_same rfl fun p => ?_
    obtain ⟨hnow, _, _⟩ := Trail.save_eq h.trail.tracked
    show s.save.domainIn s.trail.save.now p = s.domainIn s.trail.now p
    rw [hnow]
    rfl
  | restore =>
    obtain ⟨count, hevents⟩ := events_of_restore hret
    exact told_of_cleared hevents

/-- In a store that is watched the events tell what happened, and stand in order. -/
theorem Watched.told (h : Watched s F) : s.Told F ∧ s.Ordered := by
  induction h with
  | start values =>
    refine ⟨⟨fun p => ?_, fun e he => ?_⟩, List.Pairwise.nil⟩
    · rw [domain_eq_empty (Nat.zero_le _)]
    · exact absurd he (Array.not_mem_empty e)
  | step call hprev hallowed hret ih =>
    have hs := hprev.reached.sound
    exact ⟨Call.told hs ih.1 hallowed hret, Call.ordered hs ih.2 hallowed hret⟩

/-- The events tell how the domains differ from those in `F`. -/
structure Tells (s : Store) (F : Var → Finset Int) : Prop where
  /-- Every primitive variable has an event of its own. -/
  exists_event : ∀ b, s.IsBase b → ∃ e ∈ s.events, e.var = b.var
  /-- The flags of an event tell how the domain of its variable differs. -/
  describes : ∀ e ∈ s.events, e.Describes (F e.var) (s.domain e.var)
  /-- The reports come in the order in which the variables were made, one for each. -/
  ordered : s.news.Pairwise fun e e' => e.var.index < e'.var.index
  /-- The variables that are reported are the primitive ones whose domains differ. -/
  reported : ∀ p, (∃ e ∈ s.news, e.var = p) ↔ (∃ b, s.IsBase b ∧ b.var = p) ∧ s.domain p ≠ F p

/-- In every store that calls lead to, the events tell exactly how the domains differ from what they
were when the variables were made, when the events were last cleared or when a level was last
restored. -/
theorem Watched.tells (h : Watched s F) : s.Tells F := by
  have hs := h.reached.sound
  obtain ⟨htold, hordered⟩ := h.told
  have hevent : ∀ b, s.IsBase b → ∃ e ∈ s.events, e.var = b.var := fun b hb => by
    obtain ⟨e, he, hvar⟩ := hs.event_of_base _ _ _ hb
    exact ⟨e, Array.mem_of_getElem? he, hvar⟩
  refine ⟨hevent, htold.describes, hordered.sublist List.filter_sublist, fun p => ⟨?_, ?_⟩⟩
  · rintro ⟨e, he, rfl⟩
    obtain ⟨hmem, hchanged⟩ := hs.mem_news.1 he
    obtain ⟨slot, hslot⟩ := Array.mem_iff_getElem?.1 hmem
    obtain ⟨d, hd⟩ := hs.base_of_event slot e hslot
    exact ⟨⟨⟨e.var, slot, d⟩, hd, rfl⟩, (htold.describes e hmem).domainChanged.1 hchanged⟩
  · rintro ⟨⟨b, hb, rfl⟩, hne⟩
    obtain ⟨e, he, hvar⟩ := hevent b hb
    refine ⟨e, hs.mem_news.2 ⟨he, (htold.describes e he).domainChanged.2 ?_⟩, hvar⟩
    rw [hvar]
    exact hne

/-- The second variable is dropped with its level, and its identifier and its slot are given to
other variables.  The first and the new one are narrowed through views. -/
theorem tells_reused :
    ∃ watched, watch (empty, fun _ => ∅) [.declare (.primitive 0 5), .attempt (.remove ⟨0⟩ 3),
        .save, .declare (.primitive 1 3), .attempt (.removeAbove ⟨1⟩ 2), .restore,
        .declare (.negate ⟨0⟩), .declare (.primitive 7 9), .declare (.times ⟨2⟩ (-2)),
        .attempt (.fix ⟨4⟩ (-16)), .attempt (.removeBelow ⟨1⟩ (-2))] = some watched ∧
      watched.1.news =
        [⟨⟨0⟩, false, false, false, true, true⟩, ⟨⟨2⟩, true, false, true, true, true⟩] ∧
      watched.2 ⟨0⟩ = {0, 1, 2, 4, 5} ∧ watched.1.domain ⟨0⟩ = {0, 1, 2} ∧
      watched.2 ⟨2⟩ = {7, 8, 9} ∧ watched.1.domain ⟨2⟩ = {8} ∧ watched.1.Tells watched.2 := by
  have hsome := Option.some_get (x := watch (empty, fun _ => ∅) [.declare (.primitive 0 5),
    .attempt (.remove ⟨0⟩ 3), .save, .declare (.primitive 1 3), .attempt (.removeAbove ⟨1⟩ 2),
    .restore, .declare (.negate ⟨0⟩), .declare (.primitive 7 9), .declare (.times ⟨2⟩ (-2)),
    .attempt (.fix ⟨4⟩ (-16)), .attempt (.removeBelow ⟨1⟩ (-2))]) (by decide +kernel)
  exact ⟨_, hsome.symm, by decide +kernel, by decide +kernel, by decide +kernel,
    by decide +kernel, by decide +kernel, Watched.tells ((Watched.start []).watch hsome.symm)⟩

end FiniteDomain.Store
