import FiniteDomain.Proofs.Store.Domains
import FiniteDomain.Proofs.Trail.Levels
import Mathlib.Data.Finset.Max

/-!
# Writing cells and narrowing domains

* `write_eq` describes a write into a cell of a propagator: the domains stay as they are.
* `fixBase_eq`, `removeBase_eq` and `removeBeyondBase_eq` narrow the domain of a primitive variable.
  `Shrinks` says what they leave.  The one way to fail is that the distance of a value to the offset
  of its domain leaves the range.
-/

namespace FiniteDomain.Store

variable {s : Store} {b : Base}

/-! ## Changes to the trail -/

theorem updateTrail_eq (s : Store) (f : Trail → Except Fault Trail) :
    s.updateTrail f = (f s.trail >>= fun t => .ok { s with trail := t }) := rfl

theorem onTrail_eq {α : Type} (s : Store) (f : Trail → Except Fault (α × Trail)) :
    s.onTrail f = (f s.trail >>= fun p => .ok (p.1, { s with trail := p.2 })) := rfl

/-- A trail with the same sets and the same past can take the place of the trail. -/
theorem Sound.of_trail (h : s.Sound) {t : Trail} (ht : t.Sound) (hpast : t.past = s.trail.past)
    (hsets : t.sets = s.trail.sets) (hhas : ∀ c, s.trail.now.Has c → t.now.Has c)
    (hvars : t.now.get s.varCount = s.trail.now.get s.varCount)
    (hevents : t.now.get s.eventCount = s.trail.now.get s.eventCount) :
    ({ s with trail := t } : Store).Sound := by
  have hnow := h.counts_now
  have hvarsIn : ({ s with trail := t } : Store).varsIn t.now = s.varsIn s.trail.now :=
    congrArg Int.toNat hvars
  have heventsIn : ({ s with trail := t } : Store).eventsIn t.now = s.eventsIn s.trail.now :=
    congrArg Int.toNat hevents
  have hcell : ∀ c, t.IsSetCell c ↔ s.trail.IsSetCell c := fun c => by
    rw [Trail.IsSetCell, Trail.IsSetCell, hsets]
  have hcountsNow : ({ s with trail := t } : Store).Counts t.now := by
    refine ⟨hhas _ hnow.has_vars, hhas _ hnow.has_events, hvars.trans (hnow.vars_eq.trans ?_),
      hevents.trans (hnow.events_eq.trans ?_), hvarsIn.trans_le hnow.vars_le,
      heventsIn.trans_le hnow.events_le, ?_, ?_⟩
    · rw [hvarsIn]
    · rw [heventsIn]
    · rw [hvarsIn, heventsIn, show t.now.sets = s.trail.now.sets from congrArg Array.size hsets]
      exact hnow.base_lt
    · rw [hvarsIn, heventsIn]
      exact hnow.var_lt
  refine ⟨ht, fun set hset => h.values_fit set (hsets ▸ hset),
    fun hc => h.varCount_free ((hcell _).1 hc), fun hc => h.eventCount_free ((hcell _).1 hc),
    h.counters_ne, fun w hw => ?_, hvarsIn.trans h.vars_now, heventsIn.trans h.events_now, h.vars_le,
    h.events_le, ?_, h.grounded, h.apart, h.event_of_base, h.base_of_event, h.changed_of_isSet⟩
  · rcases List.mem_cons.1 hw with rfl | hw
    · exact hcountsNow
    · have hold := h.counts w (List.mem_cons_of_mem _ (hpast ▸ hw))
      exact hold.congr rfl rfl hold.vars_le hold.events_le (fun _ _ _ hd => hd)
        fun _ _ e he => ⟨e, he, rfl⟩
  · obtain ⟨hafter, hrest⟩ := List.pairwise_cons.1 h.after
    rw [Trail.frames, hpast]
    refine List.pairwise_cons.2 ⟨fun w hw => ?_, hrest⟩
    rw [hvarsIn, heventsIn]
    exact hafter w hw

/-! ## Cells -/

/-- What a write comes to. -/
structure Wrote (s s' : Store) (c : Cell) (v : Int) : Prop extends Evolves (· = c) s s' where
  now_eq : s'.trail.now = s.trail.now.put c v
  domain_eq : ∀ p, s'.domain p = s.domain p

/-- A write into a free cell. -/
theorem write_eq (h : s.Sound) {c : Cell} (hhas : s.trail.now.Has c) (hfree : s.Free c) (v : Int) :
    ∃ s', s.write c v = .ok s' ∧ Wrote s s' c v := by
  obtain ⟨t, hwrite, hwrote, hgrown⟩ := Trail.write_grown h.trail hhas hfree.not_isSetCell v
  have hvalues : t.now.values.size = s.trail.now.values.size := by
    rw [hwrote.now_eq, Frame.size_put]
  have hsame : ∀ p, ({ s with trail := t } : Store).domain p = s.domain p := by
    intro p
    rw [Store.domain, Store.domain, domainIn, domainIn]
    dsimp only
    split
    · rename_i slot d hd
      exact hgrown.domain_now d (h.lt_of_base hd).2
    · rfl
  refine ⟨{ s with trail := t }, by rw [write, updateTrail_eq, hwrite, ok_bind], ⟨?_,
    hwrote.past_eq, hwrote.sets_eq, congrArg Array.size hwrote.dense_eq, hvalues, rfl, rfl, rfl,
    fun d _ hd => ?_, fun p => ?_, hgrown.domain_past, fun p => ?_⟩, hwrote.now_eq, hsame⟩
  · exact h.of_trail hgrown.sound hwrote.past_eq hwrote.sets_eq hgrown.has
      (hgrown.get_eq _ h.counts_now.has_vars (Ne.symm hfree.ne_varCount))
      (hgrown.get_eq _ h.counts_now.has_events (Ne.symm hfree.ne_eventCount))
  · rw [hwrote.now_eq, Frame.get_put_of_ne _ _ hd]
  · rw [hsame]
  · rw [hsame]
    simp [Pending]

/-! ## Primitive variables -/

/-- What becomes of the event of a variable when its domain is narrowed from `D₀` to a smaller `D`.
The bounds of an empty domain are not told. -/
structure Follows (D₀ D : Finset Int) (e e' : Event) : Prop where
  var_eq : e'.var = e.var
  domainChanged : e'.domainChanged = true
  emptied : e'.emptied = true ↔ e.emptied = true ∨ D = ∅
  fixed : D ≠ ∅ → (e'.fixed = true ↔ e.fixed = true ∨ D.card = 1)
  minChanged : D ≠ ∅ → (e'.minChanged = true ↔ e.minChanged = true ∨ D.min ≠ D₀.min)
  maxChanged : D ≠ ∅ → (e'.maxChanged = true ↔ e.maxChanged = true ∨ D.max ≠ D₀.max)

/-- What narrowing the domain of a primitive variable to `D` comes to. -/
structure Shrinks (s s' : Store) (b : Base) (D : Finset Int) : Prop
    extends Evolves (fun _ => False) s s' where
  self : s'.domain b.var = D
  other : ∀ p, p ≠ b.var → s'.domain p = s.domain p
  told : s'.events = s.events ∧ D = s.domain b.var ∨
    D ≠ s.domain b.var ∧ ∃ change : Event → Event,
      (∀ e, Follows (s.domain b.var) D e (change e)) ∧
        s'.events = s.events.modify b.slot change

/-- Nothing has to be done. -/
theorem Shrinks.refl (h : s.Sound) {D : Finset Int} (hD : s.domain b.var = D) :
    Shrinks s s b D :=
  ⟨.refl _ h, hD, fun _ _ => rfl, Or.inl ⟨rfl, hD.symm⟩⟩

section

variable {change : Event → Event}

/-- Where an event after a note comes from. -/
theorem getElem?_modify_cases {events : Array Event} {k slot : Nat} {e' : Event}
    (h : (events.modify k change)[slot]? = some e') :
    ∃ e, events[slot]? = some e ∧ (slot = k ∧ e' = change e ∨ slot ≠ k ∧ e' = e) := by
  rw [Array.getElem?_modify] at h
  split_ifs at h with hslot
  · obtain ⟨e, he, rfl⟩ := Option.map_eq_some_iff.1 h
    exact ⟨e, he, Or.inl ⟨hslot.symm, rfl⟩⟩
  · exact ⟨e', h, Or.inr ⟨Ne.symm hslot, rfl⟩⟩

/-- Where an event goes when one is noted. -/
theorem exists_getElem?_modify {events : Array Event} {slot : Nat} {e : Event}
    (hvar : ∀ e, (change e).var = e.var) (hchanged : ∀ e, (change e).domainChanged = true)
    (k : Nat) (he : events[slot]? = some e) :
    ∃ e', (events.modify k change)[slot]? = some e' ∧ e'.var = e.var ∧
      (e.domainChanged = true → e'.domainChanged = true) := by
  rw [Array.getElem?_modify, he]
  split_ifs
  · exact ⟨change e, rfl, hvar e, fun _ => hchanged e⟩
  · exact ⟨e, rfl, rfl, id⟩

/-- A change is noted in the event of its variable. -/
theorem note_eq (h : s.Sound) (hb : s.IsBase b) (change : Event → Event)
    (hvar : ∀ e, (change e).var = e.var) (hchanged : ∀ e, (change e).domainChanged = true) :
    s.note b.slot change = .ok { s with events := s.events.modify b.slot change } ∧
      ({ s with events := s.events.modify b.slot change } : Store).Sound ∧
      ∀ p, ({ s with events := s.events.modify b.slot change } : Store).Pending p ↔
        s.Pending p ∨ p = b.var := by
  obtain ⟨e₀, he₀, hvar₀⟩ := h.event_of_base _ _ _ hb
  have hget : ∀ {slot : Nat} {e' : Event}, (s.events.modify b.slot change)[slot]? = some e' →
      ∃ e, s.events[slot]? = some e ∧ e'.var = e.var := by
    intro slot e' he'
    obtain ⟨e, he, ⟨_, rfl⟩ | ⟨_, rfl⟩⟩ := getElem?_modify_cases he'
    · exact ⟨e, he, hvar e⟩
    · exact ⟨_, he, rfl⟩
  have hsize : (s.events.modify b.slot change).size = s.events.size := Array.size_modify
  refine ⟨by rw [note, if_pos (h.lt_of_base hb).1], ⟨h.trail, h.values_fit, h.varCount_free,
    h.eventCount_free, h.counters_ne, fun w hw => ?_, h.vars_now, h.events_now.trans hsize.symm,
    h.vars_le, by rw [hsize]; exact h.events_le, h.after, h.grounded, h.apart,
    fun i slot d hd => ?_, fun slot e' he' => ?_, fun e' hmem hset => ?_⟩,
    fun p => ⟨?_, ?_⟩⟩
  · have hold := h.counts w hw
    exact hold.congr rfl rfl hold.vars_le (hsize ▸ hold.events_le) (fun _ _ _ hd => hd)
      fun _ _ _ => hget
  · obtain ⟨e, he, hv⟩ := h.event_of_base i slot d hd
    obtain ⟨e', he', hv', _⟩ := exists_getElem?_modify hvar hchanged b.slot he
    exact ⟨e', he', hv'.trans hv⟩
  · obtain ⟨e, he, hv⟩ := hget he'
    exact hv ▸ h.base_of_event slot e he
  · obtain ⟨slot, hslot⟩ := Array.mem_iff_getElem?.1 hmem
    obtain ⟨e, he, ⟨_, rfl⟩ | ⟨_, rfl⟩⟩ := getElem?_modify_cases hslot
    · exact hchanged e
    · exact h.changed_of_isSet _ (Array.mem_of_getElem? he) hset
  · rintro ⟨e', hmem, hp, hc⟩
    obtain ⟨slot, hslot⟩ := Array.mem_iff_getElem?.1 hmem
    obtain ⟨e, he, ⟨rfl, rfl⟩ | ⟨_, rfl⟩⟩ := getElem?_modify_cases hslot
    · cases he₀.symm.trans he
      exact Or.inr (by rw [← hp, hvar, hvar₀])
    · exact Or.inl ⟨_, Array.mem_of_getElem? he, hp, hc⟩
  · rintro (⟨e, hmem, hp, hc⟩ | rfl)
    · obtain ⟨slot, hslot⟩ := Array.mem_iff_getElem?.1 hmem
      obtain ⟨e', he', hv, hc'⟩ := exists_getElem?_modify hvar hchanged b.slot hslot
      exact ⟨e', Array.mem_of_getElem? he', hv.trans hp, hc' hc⟩
    · refine ⟨change e₀, Array.mem_of_getElem? (i := b.slot) ?_, (hvar e₀).trans hvar₀,
        hchanged e₀⟩
      rw [Array.getElem?_modify, if_pos rfl, he₀, Option.map_some]

end

/-- A domain that is narrowed on the trail, and the note of it. -/
theorem shrinks_of_narrowed (h : s.Sound) (hb : s.IsBase b) {t : Trail} {D : Finset Int}
    (hnarrow : Trail.Narrowed s.trail t b.domain D) (hsub : D ⊂ s.domain b.var)
    (change : Event → Event) (hfollows : ∀ e, Follows (s.domain b.var) D e (change e)) :
    ∃ s', ({ s with trail := t } : Store).note b.slot change = .ok s' ∧ s'.trail = t ∧
      Shrinks s s' b D := by
  have hfree : ∀ c, ¬ s.trail.IsSetCell c → t.now.get c = s.trail.now.get c := hnarrow.get_eq
  have hmid : ({ s with trail := t } : Store).Sound := h.of_trail hnarrow.sound hnarrow.past_eq
    hnarrow.sets_eq (fun c hc => by rw [Frame.Has, hnarrow.values_size]; exact hc)
    (hfree _ h.varCount_free) (hfree _ h.eventCount_free)
  have hb' : ({ s with trail := t } : Store).IsBase b := hb
  obtain ⟨hnote, hsound, hpending⟩ := note_eq hmid hb' change (fun e => (hfollows e).var_eq)
    fun e => (hfollows e).domainChanged
  dsimp only at hnote hsound hpending
  generalize hevents : s.events.modify b.slot change = events at hnote hsound hpending
  have hself : ({ s with trail := t, events := events } : Store).domain b.var = D :=
    (domain_eq (s := { s with trail := t, events := events }) hb).trans hnarrow.domain_self
  have hother : ∀ p, p ≠ b.var →
      ({ s with trail := t, events := events } : Store).domain p = s.domain p := by
    intro p hp
    rw [Store.domain, Store.domain, domainIn, domainIn]
    dsimp only
    split
    · rename_i slot d hd
      refine hnarrow.domain_other d ?_
      rintro rfl
      exact hp (congrArg Var.mk (h.apart _ _ _ _ _ hd hb))
    · rfl
  refine ⟨_, hnote, rfl, ⟨hsound, hnarrow.past_eq, hnarrow.sets_eq, hnarrow.dense_size,
    hnarrow.values_size, rfl, rfl, rfl, fun c hc _ => hfree c hc, fun p => ?_, hnarrow.domain_past,
    fun p => ?_⟩, hself, hother, Or.inr ⟨hsub.ne, change, hfollows, hevents.symm⟩⟩
  · by_cases hp : p = b.var
    · subst hp
      rw [hself]
      exact hsub.1
    · rw [hother p hp]
  · rw [hpending]
    refine or_congr_right ⟨?_, fun hne => ?_⟩
    · rintro rfl
      rw [hself]
      exact hsub.ne
    · by_contra hp
      exact hne (hother p hp)

/-- A value that can be looked up is looked up in the domain. -/
theorem member_eq (h : s.Sound) (hb : s.IsBase b) {v : Int} {answer : Bool}
    (hv : s.trail.member b.domain v = .ok answer) :
    s.trail.member b.domain v = .ok (decide (v ∈ s.domain b.var)) := by
  obtain ⟨set, hs⟩ := h.exists_set hb
  rw [domain_eq hb, Trail.member_of_inRange h.trail hs
    (Trail.inRange_sub_of_member h.trail hs hv)]

/-- A member can be looked up. -/
theorem member_of_mem (h : s.Sound) (hb : s.IsBase b) {v : Int} (hv : v ∈ s.domain b.var) :
    s.trail.member b.domain v = .ok true := by
  obtain ⟨set, hs⟩ := h.exists_set hb
  rw [domain_eq hb] at hv
  rw [Trail.member_of_inRange h.trail hs
    (Trail.inRange_sub_of_mem h.trail hs (Trail.domain_eq hs _ ▸ hv)), decide_eq_true hv]

theorem card_eq (h : s.Sound) (hb : s.IsBase b) :
    s.trail.card b.domain = .ok (s.domain b.var).card := by
  obtain ⟨set, hs⟩ := h.exists_set hb
  rw [domain_eq hb, Trail.card_eq h.trail hs]

/-- The extreme member on one side. -/
theorem bound?_cases (h : s.Sound) (hb : s.IsBase b) (side : Side) :
    s.domain b.var = ∅ ∧ s.trail.bound? side b.domain = .ok none ∨
      ∃ u ∈ s.domain b.var, s.trail.bound? side b.domain = .ok (some u) ∧
        ∀ a ∈ s.domain b.var, liesBeyond side a u = false := by
  obtain ⟨set, hs⟩ := h.exists_set hb
  rw [domain_eq hb]
  cases side with
  | lower =>
    obtain hnone | ⟨u, hu, hleast⟩ := Trail.least?_cases h.trail h.values_fit hs
    · exact Or.inl hnone
    · refine Or.inr ⟨u, Finset.mem_coe.1 hleast.1, hu, fun a ha => decide_eq_false ?_⟩
      exact Int.not_lt.2 (hleast.2 (Finset.mem_coe.2 ha))
  | upper =>
    obtain hnone | ⟨u, hu, hgreatest⟩ := Trail.greatest?_cases h.trail h.values_fit hs
    · exact Or.inl hnone
    · refine Or.inr ⟨u, Finset.mem_coe.1 hgreatest.1, hu, fun a ha => decide_eq_false ?_⟩
      exact Int.not_lt.2 (hgreatest.2 (Finset.mem_coe.2 ha))

theorem min_eq_of_isLeast {D : Finset Int} {u : Int} (h : IsLeast (D : Set Int) u) :
    D.min = (u : WithTop Int) :=
  le_antisymm (Finset.min_le (Finset.mem_coe.1 h.1))
    (Finset.le_min fun _ hb => WithTop.coe_le_coe.2 (h.2 (Finset.mem_coe.2 hb)))

theorem max_eq_of_isGreatest {D : Finset Int} {u : Int} (h : IsGreatest (D : Set Int) u) :
    D.max = (u : WithBot Int) :=
  le_antisymm (Finset.max_le fun _ hb => WithBot.coe_le_coe.2 (h.2 (Finset.mem_coe.2 hb)))
    (Finset.le_max (Finset.mem_coe.1 h.1))

/-- The bounds of a domain that is not empty. -/
theorem bounds_of_mem (h : s.Sound) (hb : s.IsBase b) {v : Int} (hv : v ∈ s.domain b.var) :
    ∃ lo hi, s.trail.least? b.domain = .ok (some lo) ∧ s.trail.greatest? b.domain = .ok (some hi) ∧
      IsLeast (s.domain b.var : Set Int) lo ∧ IsGreatest (s.domain b.var : Set Int) hi := by
  obtain ⟨set, hs⟩ := h.exists_set hb
  rw [domain_eq hb] at hv ⊢
  obtain ⟨hempty, _⟩ | ⟨lo, hlo, hleast⟩ := Trail.least?_cases h.trail h.values_fit hs
  · rw [hempty] at hv
    cases hv
  obtain ⟨hempty, _⟩ | ⟨hi, hhi, hgreatest⟩ := Trail.greatest?_cases h.trail h.values_fit hs
  · rw [hempty] at hv
    cases hv
  exact ⟨lo, hi, hlo, hhi, hleast, hgreatest⟩

/-- The least member changes when it is removed. -/
theorem min_erase_ne_iff {D : Finset Int} {u v : Int} (h : IsLeast (D : Set Int) u) :
    (D.erase v).min ≠ D.min ↔ u = v := by
  rw [min_eq_of_isLeast h]
  constructor
  · intro hne
    by_contra hv
    refine hne (min_eq_of_isLeast ⟨?_, fun a ha => ?_⟩)
    · exact Finset.mem_coe.2 (Finset.mem_erase.2 ⟨hv, Finset.mem_coe.1 h.1⟩)
    · exact h.2 (Finset.mem_coe.2 (Finset.mem_of_mem_erase (Finset.mem_coe.1 ha)))
  · rintro rfl heq
    exact absurd (Finset.mem_of_min heq) (Finset.notMem_erase u D)

/-- The greatest member changes when it is removed. -/
theorem max_erase_ne_iff {D : Finset Int} {u v : Int} (h : IsGreatest (D : Set Int) u) :
    (D.erase v).max ≠ D.max ↔ u = v := by
  rw [max_eq_of_isGreatest h]
  constructor
  · intro hne
    by_contra hv
    refine hne (max_eq_of_isGreatest ⟨?_, fun a ha => ?_⟩)
    · exact Finset.mem_coe.2 (Finset.mem_erase.2 ⟨hv, Finset.mem_coe.1 h.1⟩)
    · exact h.2 (Finset.mem_coe.2 (Finset.mem_of_mem_erase (Finset.mem_coe.1 ha)))
  · rintro rfl heq
    exact absurd (Finset.mem_of_max heq) (Finset.notMem_erase u D)

theorem min_singleton_ne_iff {D : Finset Int} {u v : Int} (h : IsLeast (D : Set Int) u) :
    (v : WithTop Int) ≠ D.min ↔ u ≠ v := by
  rw [min_eq_of_isLeast h, Ne, WithTop.coe_inj, eq_comm]

theorem max_singleton_ne_iff {D : Finset Int} {u v : Int} (h : IsGreatest (D : Set Int) u) :
    (v : WithBot Int) ≠ D.max ↔ u ≠ v := by
  rw [max_eq_of_isGreatest h, Ne, WithBot.coe_inj, eq_comm]

/-- Cutting a domain on one side moves the bound on this side, and not the other one. -/
theorem bounds_filter_beyond {D : Finset Int} {side : Side} {u v : Int} (hu : u ∈ D)
    (hbeyond : liesBeyond side u v = true) (hextreme : ∀ a ∈ D, liesBeyond side a u = false)
    (hne : D.filter (fun a => liesBeyond side a v = false) ≠ ∅) :
    ((D.filter fun a => liesBeyond side a v = false).min ≠ D.min ↔ side = .lower) ∧
      ((D.filter fun a => liesBeyond side a v = false).max ≠ D.max ↔ side = .upper) := by
  obtain ⟨a, ha⟩ := Finset.nonempty_iff_ne_empty.2 hne
  obtain ⟨haD, hav⟩ := Finset.mem_filter.1 ha
  have hlost : u ∉ D.filter fun a => liesBeyond side a v = false := by
    rw [Finset.mem_filter, hbeyond]
    simp
  obtain ⟨lo, hlo⟩ := Finset.min_of_mem haD
  obtain ⟨hi, hhi⟩ := Finset.max_of_mem haD
  cases side with
  | lower =>
    simp only [liesBeyond, decide_eq_true_eq, decide_eq_false_iff_not, Int.not_lt] at *
    refine ⟨iff_of_true (fun heq => hlost ?_) trivial, iff_of_false (fun hmax => hmax ?_) (by simp)⟩
    · have hleast : D.min = (u : WithTop Int) :=
        min_eq_of_isLeast ⟨Finset.mem_coe.2 hu, fun b hb => hextreme b (Finset.mem_coe.1 hb)⟩
      exact Finset.mem_of_min (heq.trans hleast)
    · rw [hhi]
      have hmem := Finset.mem_of_max hhi
      have hge : ∀ b ∈ D, b ≤ hi := fun b hb => Finset.le_max_of_eq hb hhi
      refine max_eq_of_isGreatest ⟨?_, fun b hb => hge b ?_⟩
      · exact Finset.mem_coe.2 (Finset.mem_filter.2 ⟨hmem, le_trans hav (hge a haD)⟩)
      · exact (Finset.mem_filter.1 (Finset.mem_coe.1 hb)).1
  | upper =>
    simp only [liesBeyond, decide_eq_true_eq, decide_eq_false_iff_not, Int.not_lt] at *
    refine ⟨iff_of_false (fun hmin => hmin ?_) (by simp), iff_of_true (fun heq => hlost ?_) trivial⟩
    · rw [hlo]
      have hmem := Finset.mem_of_min hlo
      have hle : ∀ b ∈ D, lo ≤ b := fun b hb => Finset.min_le_of_eq hb hlo
      refine min_eq_of_isLeast ⟨?_, fun b hb => hle b ?_⟩
      · exact Finset.mem_coe.2 (Finset.mem_filter.2 ⟨hmem, le_trans (hle a haD) hav⟩)
      · exact (Finset.mem_filter.1 (Finset.mem_coe.1 hb)).1
    · have hgreatest : D.max = (u : WithBot Int) :=
        max_eq_of_isGreatest ⟨Finset.mem_coe.2 hu, fun b hb => hextreme b (Finset.mem_coe.1 hb)⟩
      exact Finset.mem_of_max (heq.trans hgreatest)

/-- A member is made the only one. -/
theorem fixBase_of_mem (h : s.Sound) (hb : s.IsBase b) {v : Int} (hv : v ∈ s.domain b.var) :
    ∃ s', s.fixBase b v = .ok (.consistent, s') ∧ Shrinks s s' b {v} := by
  obtain ⟨set, hs⟩ := h.exists_set hb
  rw [fixBase, member_of_mem h hb hv, ok_bind, Bool.not_true, if_neg Bool.false_ne_true,
    card_eq h hb, ok_bind]
  by_cases hone : (s.domain b.var).card = 1
  · rw [if_pos hone]
    refine ⟨s, rfl, .refl h ?_⟩
    obtain ⟨u, hu⟩ := Finset.card_eq_one.1 hone
    rw [hu, Finset.mem_singleton] at hv
    rw [hu, hv]
  · rw [if_neg hone]
    obtain ⟨lo, hi, hlo, hhi, hleast, hgreatest⟩ := bounds_of_mem h hb hv
    have hsub : {v} ⊂ s.domain b.var := by
      refine Finset.ssubset_iff_subset_ne.2 ⟨Finset.singleton_subset_iff.2 hv, ?_⟩
      rintro heq
      exact hone (by rw [← heq, Finset.card_singleton])
    obtain ⟨t, hkeep, hnarrow⟩ := Trail.keepOnly_eq h.trail hs (domain_eq hb ▸ hv)
    obtain ⟨s', hnote, _, hshrinks⟩ := shrinks_of_narrowed h hb hnarrow hsub
      (fun e => { e with
        minChanged := e.minChanged || some lo != some v
        maxChanged := e.maxChanged || some hi != some v
        domainChanged := true
        fixed := true }) fun e => ⟨rfl, rfl, by simp, by simp,
          fun _ => by simp [min_singleton_ne_iff hleast],
          fun _ => by simp [max_singleton_ne_iff hgreatest]⟩
    refine ⟨s', ?_, hshrinks⟩
    rw [hlo, ok_bind, hhi, ok_bind, updateTrail_eq, hkeep, ok_bind, ok_bind]
    rw [hnote]
    rfl

/-- A value that is no member cannot be made the only one. -/
theorem fixBase_of_not_mem (h : s.Sound) (hb : s.IsBase b) {v : Int} {answer : Bool}
    (hm : s.trail.member b.domain v = .ok answer) (hv : v ∉ s.domain b.var) :
    s.fixBase b v = .ok (.failed .domainWipeout, s) := by
  rw [fixBase, member_eq h hb hm, ok_bind, decide_eq_false hv]
  rfl

/-- Whether the verdict on a domain fits what is left of it. -/
def Judges (verdict : Verdict) (before after : Finset Int) : Prop :=
  if after = ∅ ∧ before ≠ ∅ then verdict = .failed .domainWipeout else verdict = .consistent

/-- Nothing was taken from the domain. -/
theorem Judges.refl (D : Finset Int) : Judges .consistent D D := by
  rw [Judges, if_neg]
  rintro ⟨hempty, hne⟩
  exact hne hempty

/-- The verdict that goes by the number of values that are left. -/
theorem Judges.of_card {before after : Finset Int} {n : Nat} (hne : before ≠ ∅)
    (hn : after.card = n) :
    Judges (if n = 0 then .failed .domainWipeout else .consistent) before after := by
  rw [Judges]
  by_cases hzero : n = 0
  · rw [if_pos hzero, if_pos ⟨Finset.card_eq_zero.1 (hn.trans hzero), hne⟩]
  · rw [if_neg hzero, if_neg]
    rintro ⟨hempty, _⟩
    exact hzero (by rw [← hn, hempty, Finset.card_empty])

/-- One value is removed. -/
theorem removeBase_eq (h : s.Sound) (hb : s.IsBase b) {v : Int} {answer : Bool}
    (hm : s.trail.member b.domain v = .ok answer) :
    ∃ verdict s', s.removeBase b v = .ok (verdict, s') ∧
      Shrinks s s' b ((s.domain b.var).erase v) ∧
      Judges verdict (s.domain b.var) ((s.domain b.var).erase v) := by
  obtain ⟨set, hs⟩ := h.exists_set hb
  rw [removeBase, member_eq h hb hm, ok_bind]
  by_cases hv : v ∈ s.domain b.var
  · rw [decide_eq_true hv, Bool.not_true, if_neg Bool.false_ne_true]
    obtain ⟨lo, hi, hlo, hhi, hleast, hgreatest⟩ := bounds_of_mem h hb hv
    have hdomain := domain_eq hb
    obtain ⟨t, herase, hnarrow⟩ := Trail.erase_eq h.trail hs (hdomain ▸ hv)
    have hsize := Trail.card_eq hnarrow.sound (hnarrow.sets_eq ▸ hs)
    rw [hnarrow.domain_self] at hsize
    generalize hn : ((s.trail.domain s.trail.now b.domain).erase v).card = n at hsize
    rw [← hdomain] at hnarrow hn
    obtain ⟨s', hnote, _, hshrinks⟩ := shrinks_of_narrowed h hb hnarrow (Finset.erase_ssubset hv)
      (fun e => { e with
        minChanged := e.minChanged || some lo == some v
        maxChanged := e.maxChanged || some hi == some v
        domainChanged := true
        fixed := e.fixed || n == 1
        emptied := e.emptied || n == 0 }) fun e => ⟨rfl, rfl, by simp [← hn], by simp [← hn],
          fun _ => by simp [min_erase_ne_iff hleast],
          fun _ => by simp [max_erase_ne_iff hgreatest]⟩
    refine ⟨if n = 0 then .failed .domainWipeout else .consistent, s', ?_, hshrinks,
      .of_card (Finset.ne_empty_of_mem hv) hn⟩
    rw [hlo, ok_bind, hhi, ok_bind, onTrail_eq, herase, ok_bind, ok_bind]
    dsimp only
    rw [hsize, ok_bind, hnote]
    rfl
  · rw [decide_eq_false hv, Bool.not_false, if_pos rfl, Finset.erase_eq_of_notMem hv]
    exact ⟨.consistent, s, rfl, .refl h rfl, .refl _⟩

/-- The trail is asked for the side that the bound is on. -/
theorem eraseBeyond_eq (h : s.Sound) (hb : s.IsBase b) {side : Side} {u v : Int}
    (hu : u ∈ s.domain b.var) (hbeyond : liesBeyond side u v = true) :
    ∃ t, s.trail.eraseBeyond side b.domain v = .ok t ∧
      Trail.Narrowed s.trail t b.domain
        ((s.domain b.var).filter fun a => liesBeyond side a v = false) := by
  obtain ⟨set, hs⟩ := h.exists_set hb
  rw [domain_eq hb] at hu ⊢
  cases side with
  | lower =>
    obtain ⟨t, herase, hnarrow⟩ := Trail.eraseBelow_eq h.trail h.values_fit hs hu
    exact ⟨t, herase, by simpa [liesBeyond] using hnarrow⟩
  | upper =>
    obtain ⟨t, herase, hnarrow⟩ := Trail.eraseAbove_eq h.trail h.values_fit hs hu
      (of_decide_eq_true hbeyond)
    exact ⟨t, herase, by simpa [liesBeyond] using hnarrow⟩

/-- When the extreme value `u` does not lie beyond `v`, no value does. -/
theorem liesBeyond_of_extreme {side : Side} {a u v : Int} (ha : liesBeyond side a u = false)
    (hu : ¬ liesBeyond side u v = true) : liesBeyond side a v = false := by
  cases side with
  | lower =>
    simp only [liesBeyond, decide_eq_true_eq, decide_eq_false_iff_not] at ha hu ⊢
    omega
  | upper =>
    simp only [liesBeyond, decide_eq_true_eq, decide_eq_false_iff_not] at ha hu ⊢
    omega

/-- The values beyond a bound are removed. -/
theorem removeBeyondBase_eq (h : s.Sound) (hb : s.IsBase b) (side : Side) (v : Int) :
    ∃ verdict s', s.removeBeyondBase b side v = .ok (verdict, s') ∧
      Shrinks s s' b ((s.domain b.var).filter fun a => liesBeyond side a v = false) ∧
      Judges verdict (s.domain b.var)
        ((s.domain b.var).filter fun a => liesBeyond side a v = false) := by
  obtain ⟨set, hs⟩ := h.exists_set hb
  have hall : (∀ a ∈ s.domain b.var, liesBeyond side a v = false) →
      Shrinks s s b ((s.domain b.var).filter fun a => liesBeyond side a v = false) ∧
        Judges .consistent (s.domain b.var)
          ((s.domain b.var).filter fun a => liesBeyond side a v = false) := by
    intro hkeep
    rw [Finset.filter_true_of_mem hkeep]
    exact ⟨.refl h rfl, .refl _⟩
  rw [removeBeyondBase]
  obtain ⟨hempty, hnone⟩ | ⟨u, hu, hbound, hextreme⟩ := bound?_cases h hb side
  · rw [hnone, ok_bind]
    refine ⟨.consistent, s, rfl, hall ?_⟩
    rw [hempty]
    exact fun a ha => absurd ha (Finset.notMem_empty a)
  rw [hbound, ok_bind]
  dsimp only
  by_cases hbeyond : liesBeyond side u v = true
  · obtain ⟨t, herase, hnarrow⟩ := eraseBeyond_eq h hb hu hbeyond
    have hsub : (s.domain b.var).filter (fun a => liesBeyond side a v = false) ⊂
        s.domain b.var := by
      refine Finset.filter_ssubset.2 ⟨u, hu, ?_⟩
      rw [hbeyond]
      exact Bool.noConfusion
    have hsize := Trail.card_eq hnarrow.sound (hnarrow.sets_eq ▸ hs)
    rw [hnarrow.domain_self] at hsize
    generalize hn :
      ((s.domain b.var).filter fun a => liesBeyond side a v = false).card = n at hsize
    obtain ⟨s', hnote, _, hshrinks⟩ := shrinks_of_narrowed h hb hnarrow hsub
      (fun e => { e with
        minChanged := e.minChanged || side == .lower
        maxChanged := e.maxChanged || side == .upper
        domainChanged := true
        fixed := e.fixed || n == 1
        emptied := e.emptied || n == 0 }) fun e => ⟨rfl, rfl, by simp [← hn], by simp [← hn],
          fun hne => by simp [(bounds_filter_beyond hu hbeyond hextreme hne).1],
          fun hne => by simp [(bounds_filter_beyond hu hbeyond hextreme hne).2]⟩
    refine ⟨if n = 0 then .failed .domainWipeout else .consistent, s', ?_, hshrinks,
      .of_card (Finset.ne_empty_of_mem hu) hn⟩
    rw [if_pos hbeyond, updateTrail_eq, herase, ok_bind, ok_bind]
    dsimp only
    rw [hsize, ok_bind, hnote]
    rfl
  · rw [if_neg hbeyond]
    exact ⟨.consistent, s, rfl, hall fun a ha => liesBeyond_of_extreme (hextreme a ha) hbeyond⟩

end FiniteDomain.Store
