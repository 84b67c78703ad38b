import FiniteDomain.Proofs.Store.Views

/-!
# New variables, and the levels of a sound store

* `Grown` says that a store has more cells or variables than before, and that nothing else changed.
  `newCell_grown`, `newCells_grown`, `newVar_grown` and `newPrimitive_grown` are its cases.
* `Sound.save` and `Sound.restore` carry the invariant over to the next and to the last level, and
  `Sound.clearEvents` to the next round.
-/

namespace FiniteDomain.Store

variable {s : Store}

/-! ## What is added -/

/-- Cells and variables were added. -/
structure Grown (s s' : Store) : Prop where
  sound : s'.Sound
  past_eq : s'.trail.past = s.trail.past
  has : ∀ c, s.trail.now.Has c → s'.trail.now.Has c
  get_eq : ∀ c, s.trail.now.Has c → s.Free c → s'.trail.now.get c = s.trail.now.get c
  free : ∀ c, s.trail.now.Has c → s.Free c → s'.Free c
  sets_eq : ∀ i < s.trail.sets.size, s'.trail.sets[i]? = s.trail.sets[i]?
  definitions_le : s.definitions.size ≤ s'.definitions.size
  definitions_eq : ∀ i < s.definitions.size, s'.definitions[i]? = s.definitions[i]?
  varCount_eq : s'.varCount = s.varCount
  domain_eq : ∀ p, p.index < s.definitions.size → s'.domain p = s.domain p
  past_domain : ∀ w ∈ s.trail.past, ∀ p, p.index < s.varsIn w → s'.domainIn w p = s.domainIn w p
  pending_iff : ∀ p, s'.Pending p ↔ s.Pending p

namespace Grown

variable {s' s'' : Store}

theorem refl (h : s.Sound) : Grown s s :=
  ⟨h, rfl, fun _ hc => hc, fun _ _ _ => rfl, fun _ _ hc => hc, fun _ _ => rfl, Nat.le_refl _,
    fun _ _ => rfl, rfl, fun _ _ => rfl, fun _ _ _ _ => rfl, fun _ => Iff.rfl⟩

theorem varsIn_eq (h : Grown s s') (w : Frame) : s'.varsIn w = s.varsIn w := by
  rw [varsIn, varsIn, h.varCount_eq]

theorem sets_le (h : Grown s s') : s.trail.sets.size ≤ s'.trail.sets.size := by
  by_contra hlt
  have := h.sets_eq s'.trail.sets.size (by omega)
  rw [Array.getElem?_eq_none (Nat.le_refl _), Array.getElem?_eq_getElem (by omega)] at this
  cases this

theorem trans (h : Grown s s') (h' : Grown s' s'') : Grown s s'' where
  sound := h'.sound
  past_eq := h'.past_eq.trans h.past_eq
  has c hc := h'.has c (h.has c hc)
  get_eq c hc hf := (h'.get_eq c (h.has c hc) (h.free c hc hf)).trans (h.get_eq c hc hf)
  free c hc hf := h'.free c (h.has c hc) (h.free c hc hf)
  sets_eq i hi := (h'.sets_eq i (Nat.lt_of_lt_of_le hi h.sets_le)).trans (h.sets_eq i hi)
  definitions_le := Nat.le_trans h.definitions_le h'.definitions_le
  definitions_eq i hi :=
    (h'.definitions_eq i (Nat.lt_of_lt_of_le hi h.definitions_le)).trans (h.definitions_eq i hi)
  varCount_eq := h'.varCount_eq.trans h.varCount_eq
  domain_eq p hp :=
    (h'.domain_eq p (Nat.lt_of_lt_of_le hp h.definitions_le)).trans (h.domain_eq p hp)
  past_domain w hw p hp := by
    rw [h'.past_domain w (h.past_eq ▸ hw) p (by rw [h.varsIn_eq]; exact hp),
      h.past_domain w hw p hp]
  pending_iff p := (h'.pending_iff p).trans (h.pending_iff p)

/-- The path of a variable stays the same. -/
theorem path_eq (hs : s.Sound) (h : Grown s s') {x : Var} (hx : x.index < s.definitions.size) :
    s'.path x = s.path x :=
  Path.follow_congr hs.grounded (fun i hi => h.definitions_eq i (by omega)) (by omega)
    (by have := h.definitions_le; omega)

/-- Its values stay the same. -/
theorem view_eq (hs : s.Sound) (h : Grown s s') {x : Var} (hx : x.index < s.definitions.size) :
    s'.view x = s.view x := by
  obtain ⟨b, _, hsource, hb⟩ := hs.exists_base hx
  have hb' : b.var.index < s.definitions.size := (Array.getElem?_eq_some_iff.1 hb).1
  rw [view, view, viewIn_eq hsource, viewIn_eq ((h.path_eq hs hx).symm ▸ hsource), h.path_eq hs hx,
    ← domain, ← domain, h.domain_eq _ hb']

/-- Values stay readable. -/
theorem reads (hs : s.Sound) (h : Grown s s') {x : Var} (hx : x.index < s.definitions.size) {v : Int}
    (hv : s.Reads x v) : s'.Reads x v := by
  obtain ⟨b, r, hsource, hpush, hr, hset⟩ := hv
  obtain ⟨b', _, hb', hbase⟩ := hs.exists_base hx
  cases hsource.symm.trans hb'
  obtain ⟨set, hset'⟩ := hs.exists_set hbase
  refine ⟨b, r, by rw [h.path_eq hs hx, hsource], by rw [h.path_eq hs hx, hpush], hr, fun set' h' => ?_⟩
  rw [h.sets_eq _ (Array.getElem?_eq_some_iff.1 hset').1] at h'
  exact hset set' h'

end Grown

/-! ## New cells -/

/-- The domains of the variables that there were, after sets were added. -/
theorem domainIn_of_grown {K : Cell → Prop} {s' : Store} (h : s.Sound)
    (hg : s.trail.Grown K s'.trail)
    (hdef : ∀ i < s.definitions.size, s'.definitions[i]? = s.definitions[i]?) :
    (∀ p, p.index < s.definitions.size → s'.domain p = s.domain p) ∧
      ∀ w ∈ s.trail.past, ∀ p, p.index < s.varsIn w → s'.domainIn w p = s.domainIn w p := by
  refine ⟨fun p hp => ?_, fun w hw p hp => ?_⟩
  · rw [domain, domain, domainIn, domainIn, hdef _ hp]
    split
    · rename_i slot d hd
      exact hg.domain_now d (h.lt_of_base hd).2
    · rfl
  · have hcounts := h.counts w (List.mem_cons_of_mem _ hw)
    rw [domainIn, domainIn, hdef _ (Nat.lt_of_lt_of_le hp hcounts.vars_le)]
    split
    · rename_i slot d hd
      exact hg.domain_past w hw d (hcounts.base_lt _ slot d hp hd).2
    · rfl

theorem newCell_eq (s : Store) (v : Int) :
    s.newCell v = ((s.trail.newCell v).1, { s with trail := (s.trail.newCell v).2 }) := rfl

/-- A new cell is free, and holds its value. -/
theorem newCell_grown (h : s.Sound) (v : Int) :
    Grown s (s.newCell v).2 ∧ (s.newCell v).2.trail.now.Has (s.newCell v).1 ∧
      (s.newCell v).2.trail.now.get (s.newCell v).1 = v ∧ (s.newCell v).2.Free (s.newCell v).1 ∧
      ¬ s.trail.now.Has (s.newCell v).1 ∧ (s.newCell v).2.definitions = s.definitions := by
  obtain ⟨hg, hhas, hget, hnew⟩ := Trail.newCell_grown h.trail v
  have hsets : (s.trail.newCell v).2.sets = s.trail.sets := rfl
  rw [newCell_eq]
  dsimp only
  generalize (s.trail.newCell v).1 = c at *
  generalize (s.trail.newCell v).2 = t at *
  have hcounts := h.counts _ (List.mem_cons_self ..)
  obtain ⟨hdomain, hpast⟩ := @domainIn_of_grown s _ { s with trail := t } h hg fun _ _ => rfl
  have hiff : ∀ d, t.IsSetCell d ↔ s.trail.IsSetCell d := by
    intro d
    rw [Trail.IsSetCell, Trail.IsSetCell, hsets]
  have hsound := h.of_trail hg.sound hg.past_eq hsets hg.has (hg.get_eq _ hcounts.has_vars id)
    (hg.get_eq _ hcounts.has_events id)
  refine ⟨⟨hsound, hg.past_eq, hg.has, fun d hd _ => hg.get_eq d hd id, fun d hd hf => ⟨?_,
    hf.ne_varCount, hf.ne_eventCount⟩, hg.sets_eq, Nat.le_refl _, fun _ _ => rfl, rfl, hdomain,
    hpast, fun _ => Iff.rfl⟩, hhas, hget, ⟨?_, ?_, ?_⟩, hnew, rfl⟩
  · rw [hiff]
    exact hf.not_isSetCell
  · rw [hiff]
    exact fun hc => hnew (h.trail.has_of_isSetCell hc)
  · rintro rfl
    exact hnew hcounts.has_vars
  · rintro rfl
    exact hnew hcounts.has_events

/-- What making several cells comes to. -/
structure Made (s s' : Store) (cells : Array Cell) (values : List Int) : Prop where
  grown : Grown s s'
  definitions_eq : s'.definitions = s.definitions
  size_eq : cells.size = values.length
  nodup : cells.toList.Nodup
  has : ∀ c ∈ cells, s'.trail.now.Has c
  free : ∀ c ∈ cells, s'.Free c
  new : ∀ c ∈ cells, ¬ s.trail.now.Has c
  get_eq : ∀ (i : Nat) (c : Cell), cells[i]? = some c → values[i]? = some (s'.trail.now.get c)

/-- New cells are free and distinct, and hold their values. -/
theorem newCells_made (h : s.Sound) (values : List Int) :
    Made s (s.newCells values).2 (s.newCells values).1 values := by
  -- The induction is on what is still to be made, on top of what is there already.
  have main : ∀ (add : Array Cell × Store → Int → Array Cell × Store),
      (∀ cells s v, add (cells, s) v = (cells.push (s.newCell v).1, (s.newCell v).2)) →
      ∀ (rest : List Int) (cells : Array Cell) (s' : Store) (done : List Int), Made s s' cells done →
        Made s (rest.foldl add (cells, s')).2 (rest.foldl add (cells, s')).1 (done ++ rest) := by
    intro add hadd rest
    induction rest with
    | nil =>
      intro cells s' done hm
      rw [List.append_nil]
      exact hm
    | cons v rest ih =>
      intro cells s' done hm
      have hcell := newCell_grown hm.grown.sound v
      rw [List.foldl_cons, List.append_cons, hadd]
      generalize s'.newCell v = made at hcell ⊢
      obtain ⟨c₀, s₀⟩ := made
      obtain ⟨hg, hhas, hget, hfree, hnew, hdef⟩ := hcell
      refine ih _ _ _ ⟨hm.grown.trans hg, hdef.trans hm.definitions_eq, ?_, ?_, ?_, ?_, ?_, ?_⟩
      · rw [Array.size_push, hm.size_eq, List.length_append]
        rfl
      · rw [Array.toList_push, List.nodup_append]
        refine ⟨hm.nodup, List.nodup_singleton _, fun a ha b hb heq => ?_⟩
        rw [← List.mem_singleton.1 hb, ← heq] at hnew
        exact hnew (hm.has a (Array.mem_toList_iff.1 ha))
      · intro c hc
        rcases Array.mem_push.1 hc with hc | rfl
        · exact hg.has c (hm.has c hc)
        · exact hhas
      · intro c hc
        rcases Array.mem_push.1 hc with hc | rfl
        · exact hg.free c (hm.has c hc) (hm.free c hc)
        · exact hfree
      · intro c hc
        rcases Array.mem_push.1 hc with hc | rfl
        · exact hm.new c hc
        · exact fun hc => hnew (hm.grown.has _ hc)
      · intro i c hc
        obtain ⟨hi, hc⟩ | ⟨rfl, rfl⟩ := Trail.getElem?_push_cases hc
        · have hmem := Array.mem_of_getElem? hc
          rw [List.getElem?_append_left (hm.size_eq ▸ hi),
            hg.get_eq c (hm.has c hmem) (hm.free c hmem)]
          exact hm.get_eq i c hc
        · rw [hget, hm.size_eq, List.getElem?_append_right (Nat.le_refl _), Nat.sub_self]
          rfl
  have hnil : Made s s #[] [] := ⟨.refl h, rfl, rfl, List.nodup_nil, by simp, by simp, by simp,
    by simp⟩
  exact main _ (fun _ _ _ => rfl) values #[] s [] hnil

/-- One cell is made like several. -/
theorem made_newCell {s : Store} (h : s.Sound) (v : Int) :
    Made s (s.newCell v).2 #[(s.newCell v).1] [v] := by
  obtain ⟨hgrown, hhas, hget, hfree, hnew, hdefs⟩ := newCell_grown h v
  refine ⟨hgrown, hdefs, rfl, List.nodup_singleton _, ?_, ?_, ?_, fun i c hc => ?_⟩
  · simpa using hhas
  · simpa using hfree
  · simpa using hnew
  · obtain ⟨hi, rfl⟩ := Array.getElem?_eq_some_iff.1 hc
    obtain rfl : i = 0 := Nat.lt_one_iff.1 hi
    exact congrArg some hget.symm

/-- More cells are made. -/
theorem Made.append {s s₁ s₂ : Store} {cells cells' : Array Cell} {values values' : List Int}
    (h : Made s s₁ cells values) (h' : Made s₁ s₂ cells' values') :
    Made s s₂ (cells ++ cells') (values ++ values') where
  grown := h.grown.trans h'.grown
  definitions_eq := h'.definitions_eq.trans h.definitions_eq
  size_eq := by rw [Array.size_append, List.length_append, h.size_eq, h'.size_eq]
  nodup := by
    rw [Array.toList_append]
    refine List.nodup_append.2 ⟨h.nodup, h'.nodup, fun a ha b hb heq => ?_⟩
    rw [Array.mem_toList_iff] at ha hb
    exact h'.new b hb (heq ▸ h.has a ha)
  has c hc := by
    obtain hc | hc := Array.mem_append.1 hc
    · exact h'.grown.has c (h.has c hc)
    · exact h'.has c hc
  free c hc := by
    obtain hc | hc := Array.mem_append.1 hc
    · exact h'.grown.free c (h.has c hc) (h.free c hc)
    · exact h'.free c hc
  new c hc := by
    obtain hc | hc := Array.mem_append.1 hc
    · exact h.new c hc
    · exact fun hhas => h'.new c hc (h.grown.has c hhas)
  get_eq i c hc := by
    by_cases hi : i < cells.size
    · rw [Array.getElem?_append_left hi] at hc
      have hmem := Array.mem_of_getElem? hc
      rw [List.getElem?_append_left (h.size_eq ▸ hi), h.get_eq i c hc,
        h'.grown.get_eq c (h.has c hmem) (h.free c hmem)]
    · rw [Array.getElem?_append_right (Nat.not_lt.1 hi)] at hc
      rw [List.getElem?_append_right (h.size_eq ▸ Nat.not_lt.1 hi), ← h.size_eq]
      exact h'.get_eq _ c hc

/-! ## New variables -/

/-- A counter is raised. -/
theorem increment_grown {t : Trail} (h : t.Sound) {c : Cell} (hhas : t.now.Has c)
    (hfree : ¬ t.IsSetCell c) {n : Nat} (hn : t.now.get c = n) {v : Int} {t' : Trail}
    (hret : t.increment c = .ok (v, t')) :
    v = (n : Int) + 1 ∧ (n : Int) + 1 ≤ Word.greatest ∧ t'.sets = t.sets ∧ t'.dense = t.dense ∧
      t'.now.get c = (n : Int) + 1 ∧ Trail.Grown (· = c) t t' := by
  rw [Trail.increment, Trail.read_eq hhas, hn, ok_bind] at hret
  obtain ⟨u, hu, hret⟩ := bind_eq_ok_iff.1 hret
  obtain ⟨hin, rfl⟩ := Word.check_eq_ok_iff.1 hu
  obtain ⟨t'', hwrite, hret⟩ := bind_eq_ok_iff.1 hret
  cases hret
  obtain ⟨t₁, hwrite', hwrote, hgrown⟩ := Trail.write_grown h hhas hfree ((n : Int) + 1)
  rw [hwrite] at hwrite'
  obtain rfl := Except.ok.inj hwrite'
  refine ⟨rfl, hin.2, hwrote.sets_eq, hwrote.dense_eq, ?_, hgrown⟩
  rw [hwrote.now_eq, Frame.get_put_self hhas]

/-- A count can be raised while it fits. -/
theorem exists_increment {t : Trail} (h : t.Sound) {c : Cell} (hhas : t.now.Has c)
    (hfree : ¬ t.IsSetCell c) {n : Nat} (hn : t.now.get c = n)
    (hlt : (n : Int) < Word.greatest) :
    ∃ t', t.increment c = .ok ((n : Int) + 1, t') := by
  obtain ⟨t', hwrite, _⟩ := Trail.write_grown h hhas hfree ((n : Int) + 1)
  have hadd : Word.add n 1 = .ok ((n : Int) + 1) := by
    refine Word.check_of_inRange ⟨?_, by omega⟩
    unfold Word.least
    omega
  refine ⟨t', ?_⟩
  rw [Trail.increment, Trail.read_eq hhas, hn, ok_bind, hadd, ok_bind, hwrite]
  rfl

/-- What the new variable needs: a view needs nothing, and a primitive variable an event and a
set. -/
inductive Equipped (s : Store) (t : Trail) : Definition → Array Event → Prop
  | view {d : Definition} (hview : ∀ slot set, d ≠ .primitive slot set)
      (hcount : t.now.get s.eventCount = s.events.size) : Equipped s t d s.events
  | primitive (hcount : t.now.get s.eventCount = (s.events.size : Int) + 1)
      (hle : (s.events.size : Int) + 1 ≤ Word.greatest) (hset : s.trail.sets.size < t.sets.size) :
      Equipped s t (.primitive s.events.size ⟨s.trail.sets.size⟩)
        (s.events.push (.quiet ⟨s.definitions.size⟩))

namespace Equipped

variable {t : Trail} {d : Definition} {events : Array Event}

theorem count_eq (h : Equipped s t d events) : t.now.get s.eventCount = events.size := by
  cases h with
  | view _ hcount => exact hcount
  | primitive hcount => rw [hcount, Array.size_push, Int.natCast_succ]

theorem size_le (h : Equipped s t d events) : s.events.size ≤ events.size := by
  cases h with
  | view => exact Nat.le_refl _
  | primitive => exact Array.size_push _ ▸ Nat.le_succ _

theorem le_greatest (hs : s.Sound) (h : Equipped s t d events) :
    (events.size : Int) ≤ Word.greatest := by
  cases h with
  | view => exact hs.events_le
  | primitive _ hle => rwa [Array.size_push, Int.natCast_succ]

/-- The events that there were stay where they are. -/
theorem getElem?_of_lt (h : Equipped s t d events) {slot : Nat} (hslot : slot < s.events.size) :
    events[slot]? = s.events[slot]? := by
  cases h with
  | view => rfl
  | primitive => rw [Array.getElem?_push_lt hslot, Array.getElem?_eq_getElem hslot]

/-- An event was there before, or is that of the new variable. -/
theorem getElem?_cases (h : Equipped s t d events) {slot : Nat} {e : Event}
    (he : events[slot]? = some e) : slot < s.events.size ∧ s.events[slot]? = some e ∨
      e = .quiet ⟨s.definitions.size⟩ ∧ ∃ set, d = .primitive slot set := by
  cases h with
  | view => exact Or.inl ⟨(Array.getElem?_eq_some_iff.1 he).1, he⟩
  | primitive =>
    obtain hold | ⟨rfl, rfl⟩ := Trail.getElem?_push_cases he
    · exact Or.inl hold
    · exact Or.inr ⟨rfl, _, rfl⟩

/-- A new primitive variable has an event. -/
theorem event_of_primitive {slot : Nat} {set : SetId}
    (h : Equipped s t (.primitive slot set) events) :
    events[slot]? = some (.quiet ⟨s.definitions.size⟩) := by
  cases h with
  | view hview => exact absurd rfl (hview slot set)
  | primitive => exact Array.getElem?_push_size

/-- A new primitive variable has a set of its own. -/
theorem set_of_primitive {slot : Nat} {set : SetId}
    (h : Equipped s t (.primitive slot set) events) :
    s.trail.sets.size ≤ set.index ∧ set.index < t.sets.size := by
  cases h with
  | view hview => exact absurd rfl (hview slot set)
  | primitive _ _ hset => exact ⟨Nat.le_refl _, hset⟩

/-- An event that tells of something was there before. -/
theorem mem_of_changed (h : Equipped s t d events) {e : Event} (he : e ∈ events)
    (hchanged : e.isSet = true ∨ e.domainChanged = true) : e ∈ s.events := by
  obtain ⟨slot, hslot⟩ := Array.mem_iff_getElem?.1 he
  obtain ⟨_, hold⟩ | ⟨rfl, _⟩ := h.getElem?_cases hslot
  · exact Array.mem_of_getElem? hold
  · simp [Event.quiet, Event.isSet] at hchanged

/-- The events that there were are still there. -/
theorem mem_of_mem (h : Equipped s t d events) {e : Event} (he : e ∈ s.events) : e ∈ events := by
  obtain ⟨slot, hslot⟩ := Array.mem_iff_getElem?.1 he
  refine Array.mem_of_getElem? (i := slot) ?_
  rw [h.getElem?_of_lt (Array.getElem?_eq_some_iff.1 hslot).1, hslot]

end Equipped

/-- A variable can be added: the trail counts it, and it has what it needs. -/
structure Joins (s : Store) (t : Trail) (d : Definition) (events : Array Event) : Prop where
  grown : s.trail.Grown (fun c => c = s.varCount ∨ c = s.eventCount) t
  values_fit : t.ValuesFit
  count_eq : t.now.get s.varCount = (s.definitions.size : Int) + 1
  le_greatest : (s.definitions.size : Int) + 1 ≤ Word.greatest
  grounded : d.Grounded s.definitions.size
  equipped : Equipped s t d events

/-- The store to which the variable was added. -/
def joined (s : Store) (t : Trail) (d : Definition) (events : Array Event) : Store :=
  { s with trail := t, definitions := s.definitions.push d, events := events }

namespace Joins

variable {t : Trail} {d : Definition} {events : Array Event}

theorem varsIn_now (h : Joins s t d events) :
    (s.joined t d events).varsIn t.now = s.definitions.size + 1 := by
  rw [varsIn, joined, h.count_eq]
  omega

theorem eventsIn_now (h : Joins s t d events) :
    (s.joined t d events).eventsIn t.now = events.size := by
  rw [eventsIn, joined, h.equipped.count_eq, Int.toNat_natCast]

/-- The variables that there were stay where they are. -/
theorem getElem?_of_lt (s : Store) (t : Trail) (d : Definition) (events : Array Event) {i : Nat}
    (hi : i < s.definitions.size) :
    (s.joined t d events).definitions[i]? = s.definitions[i]? := by
  rw [joined, Array.getElem?_push_lt hi, Array.getElem?_eq_getElem hi]

theorem not_isSetCell (h : Joins s t d events) {c : Cell} (hhas : s.trail.now.Has c)
    (hc : ¬ s.trail.IsSetCell c) : ¬ t.IsSetCell c :=
  fun hc' => hc (h.grown.isSetCell c hc' hhas)

/-- The new variable is counted. -/
theorem counts_now (hs : s.Sound) (h : Joins s t d events) : (s.joined t d events).Counts t.now := by
  constructor
  case has_vars => exact h.grown.has _ hs.counts_now.has_vars
  case has_events => exact h.grown.has _ hs.counts_now.has_events
  case vars_eq => rw [h.varsIn_now]; exact h.count_eq
  case events_eq => rw [h.eventsIn_now]; exact h.equipped.count_eq
  case vars_le => rw [h.varsIn_now, joined, Array.size_push]
  case events_le => exact h.eventsIn_now.le
  case base_lt =>
    intro i slot set _ hd
    rw [h.eventsIn_now]
    obtain ⟨_, hold⟩ | ⟨rfl, rfl⟩ := Trail.getElem?_push_cases hd
    · obtain ⟨hslot, hset⟩ := hs.lt_of_base hold
      exact ⟨Nat.lt_of_lt_of_le hslot h.equipped.size_le,
        Nat.lt_of_lt_of_le hset h.grown.sets_le⟩
    · exact ⟨(Array.getElem?_eq_some_iff.1 h.equipped.event_of_primitive).1,
        h.equipped.set_of_primitive.2⟩
  case var_lt =>
    intro slot e _ he
    rw [h.varsIn_now]
    obtain ⟨_, hold⟩ | ⟨rfl, _⟩ := h.equipped.getElem?_cases he
    · exact Nat.lt_succ_of_lt (hs.var_lt_of_event hold)
    · exact Nat.lt_succ_self _

/-- The earlier frames count what they counted. -/
theorem counts_past (hs : s.Sound) (h : Joins s t d events) {w : Frame} (hw : w ∈ s.trail.past) :
    (s.joined t d events).Counts w := by
  have hold := hs.counts w (List.mem_cons_of_mem _ hw)
  refine hold.congr rfl rfl ?_ (Nat.le_trans hold.events_le h.equipped.size_le)
    (fun i hi d' hd' => ?_) fun slot hslot e he => ?_
  · rw [joined, Array.size_push]
    exact Nat.le_succ_of_le hold.vars_le
  · rw [← getElem?_of_lt s t d events (Nat.lt_of_lt_of_le hi hold.vars_le)]
    exact hd'
  · rw [← h.equipped.getElem?_of_lt (Nat.lt_of_lt_of_le hslot hold.events_le)]
    exact ⟨e, he, rfl⟩

/-- No two primitive variables share a set. -/
theorem apart (hs : s.Sound) (h : Joins s t d events) {i j slot slot' : Nat} {set : SetId}
    (hi : (s.joined t d events).definitions[i]? = some (.primitive slot set))
    (hj : (s.joined t d events).definitions[j]? = some (.primitive slot' set)) : i = j := by
  obtain ⟨_, hold⟩ | ⟨rfl, rfl⟩ := Trail.getElem?_push_cases hi <;>
    obtain ⟨_, hold'⟩ | ⟨rfl, hd⟩ := Trail.getElem?_push_cases hj
  · exact hs.apart i j slot slot' set hold hold'
  · subst hd
    exact absurd (hs.lt_of_base hold).2 (Nat.not_lt.2 h.equipped.set_of_primitive.1)
  · exact absurd (hs.lt_of_base hold').2 (Nat.not_lt.2 h.equipped.set_of_primitive.1)
  · rfl

/-- The invariant holds with the new variable. -/
theorem sound (hs : s.Sound) (h : Joins s t d events) : (s.joined t d events).Sound := by
  have hsize : (s.joined t d events).definitions.size = s.definitions.size + 1 := Array.size_push ..
  constructor
  case trail => exact h.grown.sound
  case values_fit => exact h.values_fit
  case varCount_free => exact h.not_isSetCell hs.counts_now.has_vars hs.varCount_free
  case eventCount_free => exact h.not_isSetCell hs.counts_now.has_events hs.eventCount_free
  case counters_ne => exact hs.counters_ne
  case counts =>
    intro w hw
    rcases List.mem_cons.1 hw with rfl | hw
    · exact h.counts_now hs
    · exact h.counts_past hs (h.grown.past_eq ▸ hw)
  case vars_now => exact h.varsIn_now.trans hsize.symm
  case events_now => exact h.eventsIn_now
  case vars_le => rw [hsize, Int.natCast_succ]; exact h.le_greatest
  case events_le => exact h.equipped.le_greatest hs
  case after =>
    obtain ⟨hafter, hrest⟩ := List.pairwise_cons.1 hs.after
    refine List.pairwise_cons.2 ⟨fun w hw => ?_, h.grown.past_eq ▸ hrest⟩
    obtain ⟨hvars, hevents⟩ := hafter w (h.grown.past_eq ▸ hw)
    rw [hs.vars_now] at hvars
    rw [hs.events_now] at hevents
    exact ⟨h.varsIn_now ▸ Nat.le_succ_of_le hvars,
      h.eventsIn_now ▸ Nat.le_trans hevents h.equipped.size_le⟩
  case grounded =>
    intro i d' hi
    obtain ⟨_, hold⟩ | ⟨rfl, rfl⟩ := Trail.getElem?_push_cases hi
    · exact hs.grounded i d' hold
    · exact h.grounded
  case apart => exact fun i j slot slot' set => h.apart hs
  case event_of_base =>
    intro i slot set hi
    obtain ⟨_, hold⟩ | ⟨rfl, rfl⟩ := Trail.getElem?_push_cases hi
    · obtain ⟨e, he, hvar⟩ := hs.event_of_base i slot set hold
      exact ⟨e, (h.equipped.getElem?_of_lt (hs.lt_of_base hold).1).trans he, hvar⟩
    · exact ⟨_, h.equipped.event_of_primitive, rfl⟩
  case base_of_event =>
    intro slot e he
    obtain ⟨_, hold⟩ | ⟨rfl, set, rfl⟩ := h.equipped.getElem?_cases he
    · obtain ⟨set, hset⟩ := hs.base_of_event slot e hold
      exact ⟨set, (getElem?_of_lt s t d events (hs.var_lt_of_event hold)).trans hset⟩
    · exact ⟨set, Array.getElem?_push_size⟩
  case changed_of_isSet =>
    exact fun e he hset => hs.changed_of_isSet e (h.equipped.mem_of_changed he (Or.inl hset)) hset

/-- A variable is added, with what it needs. -/
theorem store_grown (hs : s.Sound) (h : Joins s t d events) : Grown s (s.joined t d events) := by
  have hdef : ∀ i < s.definitions.size,
      (s.joined t d events).definitions[i]? = s.definitions[i]? :=
    fun i hi => getElem?_of_lt s t d events hi
  obtain ⟨hdomain, hpast⟩ := @domainIn_of_grown s _ (s.joined t d events) hs h.grown hdef
  constructor
  case sound => exact h.sound hs
  case past_eq => exact h.grown.past_eq
  case has => exact h.grown.has
  case get_eq =>
    intro c hc hfree
    refine h.grown.get_eq c hc ?_
    rintro (rfl | rfl)
    · exact hfree.ne_varCount rfl
    · exact hfree.ne_eventCount rfl
  case free =>
    exact fun c hc hfree =>
      ⟨h.not_isSetCell hc hfree.not_isSetCell, hfree.ne_varCount, hfree.ne_eventCount⟩
  case sets_eq => exact h.grown.sets_eq
  case definitions_le => exact Array.size_push _ ▸ Nat.le_succ _
  case definitions_eq => exact hdef
  case varCount_eq => rfl
  case domain_eq => exact hdomain
  case past_domain => exact hpast
  case pending_iff =>
    intro p
    constructor
    · rintro ⟨e, he, hvar, hchanged⟩
      exact ⟨e, h.equipped.mem_of_changed he (Or.inr hchanged), hvar, hchanged⟩
    · rintro ⟨e, he, hvar, hchanged⟩
      exact ⟨e, h.equipped.mem_of_mem he, hvar, hchanged⟩

end Joins

/-- The identifier of the new variable. -/
theorem unsigned_count {n : Nat} (h : (n : Int) + 1 ≤ Word.greatest) :
    Word.unsigned ((n : Int) + 1 - 1) = n := by
  rw [Int.add_sub_cancel, Word.unsigned_of_lt_greatest h]

/-- A variable was counted before its definition was added. -/
theorem exists_increment_of_newVar {d : Definition} {x : Var} {s' : Store}
    (hret : s.newVar d = .ok (x, s')) :
    ∃ count t, s.trail.increment s.varCount = .ok (count, t) ∧ x = ⟨Word.unsigned (count - 1)⟩ ∧
      s' = s.joined t d s.events := by
  rw [newVar, increment, onTrail_eq] at hret
  obtain ⟨⟨count, s₁⟩, hcounted, hret⟩ := bind_eq_ok_iff.1 hret
  obtain ⟨⟨v, t⟩, hinc, hs₁⟩ := bind_eq_ok_iff.1 hcounted
  cases hs₁
  obtain ⟨u, hu, hret⟩ := bind_eq_ok_iff.1 hret
  obtain ⟨_, rfl⟩ := Word.check_eq_ok_iff.1 hu
  cases hret
  exact ⟨v, t, hinc, rfl, rfl⟩

/-- A primitive variable was added after its event was counted and its set was made. -/
theorem exists_newVar_of_newPrimitive {min max : Int} {x : Var} {s' : Store}
    (hret : s.newPrimitive min max = .ok (x, s')) :
    Word.InRange (max - min) ∧ Word.InRange (max - min + 1) ∧
      s.trail.dense.size + (max - min + 1).toNat < Word.countBound ∧
      ∃ count t s₁, s.trail.increment s.eventCount = .ok (count, t) ∧
        newVar { s with trail := (t.newSet (max - min + 1).toNat min).2 }
          (.primitive (Word.unsigned (count - 1)) (t.newSet (max - min + 1).toNat min).1) =
            .ok (x, s₁) ∧
        s' = { s₁ with events := s₁.events.push (.quiet x) } := by
  rw [newPrimitive] at hret
  obtain ⟨span, hsub, hret⟩ := bind_eq_ok_iff.1 hret
  obtain ⟨hspan, rfl⟩ := Word.check_eq_ok_iff.1 hsub
  obtain ⟨width, hadd, hret⟩ := bind_eq_ok_iff.1 hret
  obtain ⟨hwidth, rfl⟩ := Word.check_eq_ok_iff.1 hadd
  obtain ⟨total, htotal, hret⟩ := bind_eq_ok_iff.1 hret
  rw [Word.addCount] at htotal
  split at htotal
  swap
  · cases htotal
  rename_i hlt
  rw [increment, onTrail_eq] at hret
  obtain ⟨⟨count, s₁⟩, hcounted, hret⟩ := bind_eq_ok_iff.1 hret
  obtain ⟨⟨v, t⟩, hinc, hs₁⟩ := bind_eq_ok_iff.1 hcounted
  cases hs₁
  obtain ⟨u, hu, hret⟩ := bind_eq_ok_iff.1 hret
  obtain ⟨_, rfl⟩ := Word.check_eq_ok_iff.1 hu
  rw [onTrail_eq, ok_bind, ok_bind] at hret
  obtain ⟨⟨y, s₂⟩, hvar, hret⟩ := bind_eq_ok_iff.1 hret
  cases hret
  exact ⟨hspan, hwidth, hlt, v, t, s₂, hinc, hvar, rfl⟩

/-- A definition is added and counted, on any sound trail. -/
theorem newVar_counted (ht : s.trail.Sound) (hhas : s.trail.now.Has s.varCount)
    (hfree : ¬ s.trail.IsSetCell s.varCount)
    (hn : s.trail.now.get s.varCount = s.definitions.size) {d : Definition} {x : Var} {s' : Store}
    (hret : s.newVar d = .ok (x, s')) :
    ∃ t, x = ⟨s.definitions.size⟩ ∧ s' = s.joined t d s.events ∧
      (s.definitions.size : Int) + 1 ≤ Word.greatest ∧ t.sets = s.trail.sets ∧
      t.now.get s.varCount = (s.definitions.size : Int) + 1 ∧
      s.trail.Grown (· = s.varCount) t := by
  obtain ⟨count, t, hinc, rfl, rfl⟩ := exists_increment_of_newVar hret
  obtain ⟨rfl, hle, hsets, _, hget, hgrown⟩ := increment_grown ht hhas hfree hn hinc
  exact ⟨t, by rw [unsigned_count hle], rfl, hle, hsets, hget, hgrown⟩

/-- A view is added. -/
theorem newVar_grown (h : s.Sound) {d : Definition} (hground : d.Grounded s.definitions.size)
    (hview : ∀ slot set, d ≠ .primitive slot set) {x : Var} {s' : Store}
    (hret : s.newVar d = .ok (x, s')) :
    x = ⟨s.definitions.size⟩ ∧ Grown s s' ∧ s'.definitions = s.definitions.push d := by
  have hcounts := h.counts_now
  obtain ⟨t, rfl, rfl, hle, hsets, hget, hgrown⟩ :=
    newVar_counted h.trail hcounts.has_vars h.varCount_free h.get_varCount hret
  have hevents : t.now.get s.eventCount = s.events.size := by
    rw [hgrown.get_eq _ hcounts.has_events (Ne.symm h.counters_ne), h.get_eventCount]
  have hjoins : Joins s t d s.events :=
    ⟨hgrown.mono fun _ => Or.inl, fun set hset => h.values_fit set (hsets ▸ hset), hget, hle,
      hground, .view hview hevents⟩
  exact ⟨rfl, hjoins.store_grown h, rfl⟩

/-- The event and the set of a primitive variable are made, and then the variable itself. -/
theorem newPrimitive_counted (h : s.Sound) {min max : Int} (hmin : Word.InRange min)
    (hmax : Word.InRange max) {x : Var} {s' : Store}
    (hret : s.newPrimitive min max = .ok (x, s')) :
    ∃ t, x = ⟨s.definitions.size⟩ ∧
      s' = s.joined t (.primitive s.events.size ⟨s.trail.sets.size⟩)
        (s.events.push (.quiet ⟨s.definitions.size⟩)) ∧
      Joins s t (.primitive s.events.size ⟨s.trail.sets.size⟩)
        (s.events.push (.quiet ⟨s.definitions.size⟩)) ∧
      ∀ v, v ∈ t.domain t.now ⟨s.trail.sets.size⟩ ↔ min ≤ v ∧ v ≤ max := by
  have hcounts := h.counts_now
  obtain ⟨hspan, hwidth, hlt, count, t₁, s₂, hinc, hvar, rfl⟩ := exists_newVar_of_newPrimitive hret
  -- The event is counted.
  obtain ⟨rfl, hle₁, hsets₁, hdense₁, hget₁, hgrown₁⟩ :=
    increment_grown h.trail hcounts.has_events h.eventCount_free h.get_eventCount hinc
  -- The set is made.
  have hwidthNat : ((max - min + 1).toNat : Int) ≤ Word.greatest := by
    have h1 := hwidth.2
    unfold Word.greatest at h1 ⊢
    omega
  obtain ⟨hid, hgrown₂, hsets₂, hmem⟩ := Trail.newSet_grown hgrown₁.sound
    (max - min + 1).toNat min (by rw [hdense₁]; exact hlt) hwidthNat
  have hfit₂ : (t₁.newSet (max - min + 1).toNat min).2.ValuesFit := by
    refine Trail.ValuesFit.newSet (fun set hset => h.values_fit set (hsets₁ ▸ hset)) fun r hr => ?_
    unfold Word.InRange at *
    omega
  rw [hsets₁] at hid hsets₂ hmem
  generalize (t₁.newSet (max - min + 1).toNat min).2 = t₂ at *
  generalize (t₁.newSet (max - min + 1).toNat min).1 = set at *
  subst hid
  have hgrown₁₂ : s.trail.Grown (· = s.eventCount) t₂ :=
    hgrown₁.trans (hgrown₂.mono fun _ hc => hc.elim)
  -- The variable is added.
  obtain ⟨t₃, rfl, rfl, hle₃, hsets₃, hget₃, hgrown₃⟩ :=
    newVar_counted (s := { s with trail := t₂ }) hgrown₂.sound (hgrown₁₂.has _ hcounts.has_vars)
      (fun hc => h.varCount_free (hgrown₁₂.isSetCell _ hc hcounts.has_vars))
      ((hgrown₁₂.get_eq _ hcounts.has_vars h.counters_ne).trans h.get_varCount) hvar
  have hset : s.trail.sets.size < t₂.sets.size := by
    rw [hsets₂]
    exact Nat.lt_succ_self _
  have hcount : t₃.now.get s.eventCount = (s.events.size : Int) + 1 := by
    rw [hgrown₃.get_eq _ (hgrown₁₂.has _ hcounts.has_events) (Ne.symm h.counters_ne),
      hgrown₂.get_eq _ (hgrown₁.has _ hcounts.has_events) id, hget₁]
  refine ⟨t₃, rfl, by rw [unsigned_count hle₁]; rfl, ⟨?_, fun set hset => ?_, hget₃, hle₃, trivial,
    .primitive hcount hle₁ (by rw [hsets₃]; exact hset)⟩, fun v => ?_⟩
  · exact (hgrown₁₂.mono fun _ => Or.inr).trans (hgrown₃.mono fun _ => Or.inl)
  · exact hfit₂ set (hsets₃ ▸ hset)
  · rw [hgrown₃.domain_now ⟨s.trail.sets.size⟩ hset]
    refine (hmem v).trans ?_
    have := hwidth.1
    unfold Word.InRange at *
    omega

/-- A primitive variable is added, with the values it is made with. -/
theorem newPrimitive_grown (h : s.Sound) {min max : Int} (hmin : Word.InRange min)
    (hmax : Word.InRange max) {x : Var} {s' : Store}
    (hret : s.newPrimitive min max = .ok (x, s')) :
    x = ⟨s.definitions.size⟩ ∧ Grown s s' ∧ s'.definitions.size = s.definitions.size + 1 ∧
      (∃ b, b.var = x ∧ s'.IsBase b) ∧ ∀ v, v ∈ s'.domain x ↔ min ≤ v ∧ v ≤ max := by
  obtain ⟨t, rfl, rfl, hjoins, hmem⟩ := newPrimitive_counted h hmin hmax hret
  have hbase : (s.joined t (.primitive s.events.size ⟨s.trail.sets.size⟩)
      (s.events.push (.quiet ⟨s.definitions.size⟩))).IsBase
      ⟨⟨s.definitions.size⟩, s.events.size, ⟨s.trail.sets.size⟩⟩ := Array.getElem?_push_size
  refine ⟨rfl, hjoins.store_grown h, Array.size_push .., ⟨_, rfl, hbase⟩, fun v => ?_⟩
  rw [domain_eq hbase]
  exact hmem v

/-! ## Events and levels -/

/-- The events after they were cleared. -/
theorem getElem?_clearEvents (s : Store) (slot : Nat) :
    s.clearEvents.events[slot]? = (s.events[slot]?).map fun e => .quiet e.var := by
  rw [clearEvents, Array.getElem?_map]

/-- Nothing is told after the events were cleared. -/
theorem not_pending_clearEvents (s : Store) (p : Var) : ¬ s.clearEvents.Pending p := by
  rintro ⟨e, he, _, hc⟩
  obtain ⟨e', _, rfl⟩ := Array.mem_map.1 he
  exact absurd hc (by simp [Event.quiet])

/-- The events are cleared. -/
theorem Sound.clearEvents (h : s.Sound) : s.clearEvents.Sound := by
  have hget : ∀ {slot : Nat} {e : Event}, s.clearEvents.events[slot]? = some e →
      ∃ e', s.events[slot]? = some e' ∧ e = .quiet e'.var := by
    intro slot e he
    rw [getElem?_clearEvents] at he
    obtain ⟨e', he', rfl⟩ := Option.map_eq_some_iff.1 he
    exact ⟨e', he', rfl⟩
  have hsize : s.clearEvents.events.size = s.events.size := Array.size_map
  refine ⟨h.trail, h.values_fit, h.varCount_free, h.eventCount_free, h.counters_ne,
    fun w hw => ?_, h.vars_now, h.events_now.trans hsize.symm, h.vars_le,
    by rw [hsize]; exact h.events_le, h.after, h.grounded, h.apart, fun i slot d hd => ?_,
    fun slot e he => ?_, fun e he hset => ?_⟩
  · have hold := h.counts w hw
    refine hold.congr rfl rfl hold.vars_le (hsize ▸ hold.events_le) (fun _ _ _ hd => hd)
      fun slot _ e he => ?_
    obtain ⟨e', he', rfl⟩ := hget he
    exact ⟨e', he', rfl⟩
  · obtain ⟨e, he, hv⟩ := h.event_of_base i slot d hd
    exact ⟨.quiet e.var, by rw [getElem?_clearEvents, he]; rfl, hv⟩
  · obtain ⟨e', he', rfl⟩ := hget he
    exact h.base_of_event slot e' he'
  · obtain ⟨e', _, rfl⟩ := Array.mem_map.1 he
    exact absurd hset (by simp [Event.quiet, Event.isSet])

/-- A level is saved. -/
theorem Sound.save (h : s.Sound) : s.save.Sound := by
  obtain ⟨hnow, hpast, _⟩ := Trail.save_eq h.trail.tracked
  have hframes : s.save.trail.frames = s.trail.now :: s.trail.frames := by
    rw [Store.save, Trail.frames, hnow, hpast, Trail.frames]
  have hmem : ∀ w ∈ s.save.trail.frames, w ∈ s.trail.frames := by
    intro w hw
    rw [hframes] at hw
    rcases List.mem_cons.1 hw with rfl | hw
    · exact List.mem_cons_self ..
    · exact hw
  refine ⟨h.trail.save, h.values_fit, h.varCount_free, h.eventCount_free, h.counters_ne, fun w hw => ?_,
    h.vars_now, h.events_now, h.vars_le, h.events_le, ?_, h.grounded, h.apart, h.event_of_base,
    h.base_of_event, h.changed_of_isSet⟩
  · have hold := h.counts w (hmem w hw)
    exact hold.congr rfl rfl hold.vars_le hold.events_le (fun _ _ _ hd => hd)
      fun _ _ e he => ⟨e, he, rfl⟩
  · rw [hframes]
    refine List.pairwise_cons.2 ⟨fun w hw => ?_, h.after⟩
    rcases List.mem_cons.1 hw with rfl | hw
    · exact ⟨Nat.le_refl _, Nat.le_refl _⟩
    · exact (List.pairwise_cons.1 h.after).1 w hw

/-- What restoring the last level comes to. -/
structure Restored (s s' : Store) (w : Frame) (rest : List Frame) : Prop where
  sound : s'.Sound
  now_eq : s'.trail.now = w
  past_eq : s'.trail.past = rest
  varCount_eq : s'.varCount = s.varCount
  eventCount_eq : s'.eventCount = s.eventCount
  sets_eq : s'.trail.sets = s.trail.sets.shrink w.sets
  definitions_eq : s'.definitions = s.definitions.shrink (s.varsIn w)
  domainIn_eq : ∀ w' ∈ w :: rest, ∀ p, p.index < s.varsIn w' →
    s'.domainIn w' p = s.domainIn w' p
  not_pending : ∀ p, ¬ s'.Pending p

section

variable {w : Frame} {rest : List Frame} {t : Trail}

theorem mem_frames_of_past (hpast : s.trail.past = w :: rest) {w' : Frame} (hw' : w' ∈ w :: rest) :
    w' ∈ s.trail.frames := by
  rw [Trail.frames, hpast]
  exact List.mem_cons_of_mem _ hw'

/-- The last frame counts all that the frames before it count. -/
theorem Sound.counts_le_last (h : s.Sound) (hpast : s.trail.past = w :: rest) {w' : Frame}
    (hw' : w' ∈ w :: rest) : s.varsIn w' ≤ s.varsIn w ∧ s.eventsIn w' ≤ s.eventsIn w := by
  have hafter := h.after
  rw [Trail.frames, hpast] at hafter
  rcases List.mem_cons.1 hw' with rfl | hw'
  · exact ⟨Nat.le_refl _, Nat.le_refl _⟩
  · exact (List.pairwise_cons.1 (List.pairwise_cons.1 hafter).2).1 w' hw'

/-- The store that is left by going back to a frame, before the events are cleared. -/
def cutTo (s : Store) (t : Trail) (w : Frame) : Store :=
  { s with
    trail := t
    definitions := s.definitions.shrink (s.varsIn w)
    events := s.events.shrink (s.eventsIn w) }

/-- What is left is sound. -/
theorem Sound.cutTo (h : s.Sound) (hpast : s.trail.past = w :: rest)
    (hres : Trail.Restored s.trail t w rest) : (s.cutTo t w).Sound := by
  have hcounts := h.counts w (mem_frames_of_past hpast (List.mem_cons_self ..))
  have hvars : (s.cutTo t w).definitions.size = s.varsIn w := Trail.size_shrink hcounts.vars_le
  have hevents : (s.cutTo t w).events.size = s.eventsIn w := Trail.size_shrink hcounts.events_le
  have hframes : t.frames = w :: rest := by rw [Trail.frames, hres.now_eq, hres.past_eq]
  have hsetCell : ∀ c, t.IsSetCell c → s.trail.IsSetCell c := by
    rintro c ⟨set, hset, hc⟩
    exact ⟨set, Trail.mem_of_mem_shrink (hres.sets_eq ▸ hset), hc⟩
  constructor
  case trail => exact hres.sound
  case values_fit => exact hres.valuesFit h.values_fit
  case varCount_free => exact fun hc => h.varCount_free (hsetCell _ hc)
  case eventCount_free => exact fun hc => h.eventCount_free (hsetCell _ hc)
  case counters_ne => exact h.counters_ne
  case counts =>
    intro w' hw'
    change w' ∈ t.frames at hw'
    rw [hframes] at hw'
    obtain ⟨hvarsLe, heventsLe⟩ := h.counts_le_last hpast hw'
    exact (h.counts w' (mem_frames_of_past hpast hw')).congr rfl rfl (hvars ▸ hvarsLe)
      (hevents ▸ heventsLe) (fun _ _ _ hd => (Trail.getElem?_shrink_eq_some.1 hd).2)
      fun _ _ e he => ⟨e, (Trail.getElem?_shrink_eq_some.1 he).2, rfl⟩
  case vars_now => rw [hvars, Store.cutTo, hres.now_eq]; rfl
  case events_now => rw [hevents, Store.cutTo, hres.now_eq]; rfl
  case vars_le =>
    rw [hvars]
    exact Int.le_trans (Int.ofNat_le.2 hcounts.vars_le) h.vars_le
  case events_le =>
    rw [hevents]
    exact Int.le_trans (Int.ofNat_le.2 hcounts.events_le) h.events_le
  case after =>
    have hafter := h.after
    rw [Trail.frames, hpast] at hafter
    change t.frames.Pairwise _
    rw [hframes]
    exact (List.pairwise_cons.1 hafter).2
  case grounded => exact fun i d hd => h.grounded i d (Trail.getElem?_shrink_eq_some.1 hd).2
  case apart =>
    exact fun i j slot slot' d hi hj => h.apart i j slot slot' d
      (Trail.getElem?_shrink_eq_some.1 hi).2 (Trail.getElem?_shrink_eq_some.1 hj).2
  case event_of_base =>
    intro i slot d hd
    obtain ⟨hi, hold⟩ := Trail.getElem?_shrink_eq_some.1 hd
    obtain ⟨e, he, hvar⟩ := h.event_of_base i slot d hold
    exact ⟨e, Trail.getElem?_shrink_eq_some.2 ⟨(hcounts.base_lt i slot d hi hold).1, he⟩, hvar⟩
  case base_of_event =>
    intro slot e he
    obtain ⟨hslot, hold⟩ := Trail.getElem?_shrink_eq_some.1 he
    obtain ⟨d, hd⟩ := h.base_of_event slot e hold
    exact ⟨d, Trail.getElem?_shrink_eq_some.2 ⟨hcounts.var_lt slot e hslot hold, hd⟩⟩
  case changed_of_isSet => exact fun e he => h.changed_of_isSet e (Trail.mem_of_mem_shrink he)

/-- The numbers of variables and events are read on the trail that was restored. -/
theorem restore_eq_cutTo (h : s.Sound) (hpast : s.trail.past = w :: rest)
    (hrestore : s.trail.restore = .ok t) (hnow : t.now = w) :
    s.restore = .ok (s.cutTo t w).clearEvents := by
  have hcounts := h.counts w (mem_frames_of_past hpast (List.mem_cons_self ..))
  have hread : ∀ {c : Cell} {n : Nat}, w.Has c → w.get c = n → (n : Int) ≤ Word.greatest →
      t.readCount c = .ok n := by
    intro c n hhas hn hle
    refine Trail.readCount_eq (hnow ▸ hhas) (hnow ▸ hn) ?_
    unfold Word.greatest at hle
    unfold Word.countBound
    omega
  have hvars := hread hcounts.has_vars hcounts.vars_eq
    (Int.le_trans (Int.ofNat_le.2 hcounts.vars_le) h.vars_le)
  have hevents := hread hcounts.has_events hcounts.events_eq
    (Int.le_trans (Int.ofNat_le.2 hcounts.events_le) h.events_le)
  rw [Store.restore, updateTrail_eq, hrestore, ok_bind, ok_bind]
  dsimp only
  rw [readCount, hvars, ok_bind, readCount, hevents, ok_bind]
  rfl

/-- The last level is restored. -/
theorem Sound.restore (h : s.Sound) (hpast : s.trail.past = w :: rest) :
    ∃ s', s.restore = .ok s' ∧ Restored s s' w rest := by
  obtain ⟨t, hrestore, hres⟩ := h.trail.restore hpast
  refine ⟨(s.cutTo t w).clearEvents, restore_eq_cutTo h hpast hrestore hres.now_eq,
    (h.cutTo hpast hres).clearEvents, hres.now_eq, hres.past_eq, rfl, rfl, hres.sets_eq, rfl,
    fun w' hw' p hp => ?_, not_pending_clearEvents _⟩
  have hle := (h.counts_le_last hpast hw').1
  have hcounts := h.counts w' (mem_frames_of_past hpast hw')
  rw [domainIn, domainIn, Store.clearEvents, Store.cutTo]
  dsimp only
  rw [Trail.getElem?_shrink, if_pos (Nat.lt_of_lt_of_le hp hle)]
  split
  · rename_i slot d hd
    exact hres.domain_eq w' hw' d (hcounts.base_lt _ slot d hp hd).2
  · rfl

end

/-- What a level that was restored comes to. -/
theorem Sound.restored_of_ok (h : s.Sound) {s' : Store} (hret : s.restore = .ok s') :
    ∃ w rest, s.trail.past = w :: rest ∧ Restored s s' w rest := by
  obtain ⟨s₁, htrail, _⟩ := bind_eq_ok_iff.1 hret
  rw [updateTrail_eq] at htrail
  obtain ⟨t, ht, _⟩ := bind_eq_ok_iff.1 htrail
  obtain ⟨w, rest, hpast⟩ := Trail.exists_past_of_restore ht
  obtain ⟨s₂, hrestore, hrestored⟩ := h.restore hpast
  rw [hrestore] at hret
  cases hret
  exact ⟨w, rest, hpast, hrestored⟩

/-- The path of a variable that is left stays the same. -/
theorem Restored.path_eq (h : s.Sound) {s' : Store} {w : Frame} {rest : List Frame}
    (hr : Restored s s' w rest) {x : Var} (hx : x.index < s.varsIn w)
    (hle : s.varsIn w ≤ s.definitions.size) : s'.path x = s.path x := by
  refine Path.follow_congr h.grounded (fun i hi => ?_) (by omega) ?_
  · rw [hr.definitions_eq, Trail.getElem?_shrink, if_pos (by omega)]
  · rw [hr.definitions_eq, Trail.size_shrink hle]
    omega

/-- The sets that are left are those that there were. -/
theorem Restored.getElem?_sets {s' : Store} {w : Frame} {rest : List Frame}
    (hr : Restored s s' w rest) {i : Nat} {set : SparseSet} (hset : s'.trail.sets[i]? = some set) :
    s.trail.sets[i]? = some set := by
  rw [hr.sets_eq] at hset
  exact (Trail.getElem?_shrink_eq_some.1 hset).2

/-- A free cell stays free. -/
theorem Restored.free {s' : Store} {w : Frame} {rest : List Frame} (hr : Restored s s' w rest)
    {c : Cell} (hc : s.Free c) : s'.Free c := by
  refine ⟨?_, by rw [hr.varCount_eq]; exact hc.ne_varCount,
    by rw [hr.eventCount_eq]; exact hc.ne_eventCount⟩
  rintro ⟨set, hset, hmem⟩
  obtain ⟨i, hi⟩ := Array.mem_iff_getElem?.1 hset
  exact hc.not_isSetCell ⟨set, Array.mem_of_getElem? (hr.getElem?_sets hi), hmem⟩

/-- Values stay readable. -/
theorem Restored.reads {s' : Store} {w : Frame} {rest : List Frame} (hr : Restored s s' w rest)
    {x : Var} (hpath : s'.path x = s.path x) {v : Int} (hv : s.Reads x v) : s'.Reads x v := by
  obtain ⟨b, r, hsource, hpush, hin, hset⟩ := hv
  exact ⟨b, r, hpath ▸ hsource, hpath ▸ hpush, hin, fun set h => hset set (hr.getElem?_sets h)⟩

/-- A store without variables, on a trail without sets. -/
theorem sound_ofTrail {t : Trail} (h : t.Sound) (hpast : t.past = []) (hsets : t.sets = #[]) :
    (ofTrail t).Sound ∧ (ofTrail t).trail.past = [] ∧
      (∀ c, t.now.Has c → (ofTrail t).trail.now.Has c ∧ (ofTrail t).Free c ∧
        (ofTrail t).trail.now.get c = t.now.get c) ∧ (ofTrail t).definitions = #[] := by
  obtain ⟨g₁, has₁, get₁, new₁⟩ := Trail.newCell_grown h 0
  obtain ⟨g₂, has₂, get₂, new₂⟩ := Trail.newCell_grown g₁.sound 0
  have hofTrail : ofTrail t = ⟨((t.newCell 0).2.newCell 0).2, (t.newCell 0).1, #[],
      ((t.newCell 0).2.newCell 0).1, #[]⟩ := rfl
  have hsets₂ : ((t.newCell 0).2.newCell 0).2.sets = #[] := hsets
  rw [hofTrail]
  generalize (t.newCell 0).1 = c₁ at *
  generalize (t.newCell 0).2 = t₁ at *
  generalize (t₁.newCell 0).1 = c₂ at *
  generalize (t₁.newCell 0).2 = t₂ at *
  have hfit : t₂.ValuesFit := by
    intro s hs
    rw [hsets₂] at hs
    exact absurd hs (by simp)
  have hnone : ∀ c, ¬ t₂.IsSetCell c := by
    rintro c ⟨set, hs, _⟩
    rw [hsets₂] at hs
    exact absurd hs (by simp)
  have hpast₂ : t₂.past = [] := g₂.past_eq.trans (g₁.past_eq.trans hpast)
  have hget₁ : t₂.now.get c₁ = 0 := (g₂.get_eq _ has₁ id).trans get₁
  have hne : c₁ ≠ c₂ := fun heq => new₂ (heq ▸ has₁)
  have hframes : t₂.frames = [t₂.now] := by rw [Trail.frames, hpast₂]
  refine ⟨⟨g₂.sound, hfit, hnone _, hnone _, hne, fun w hw => ?_, ?_, ?_,
    (by decide : (0 : Int) ≤ Word.greatest), (by decide : (0 : Int) ≤ Word.greatest), ?_,
    fun i d hd => by simp at hd, fun i j slot slot' d hd => by simp at hd,
    fun i slot d hd => by simp at hd, fun slot e he => by simp at he, fun e he => by simp at he⟩,
    hpast₂, fun c hc => ⟨g₂.has c (g₁.has c hc), ⟨hnone c, ?_, ?_⟩, ?_⟩, rfl⟩
  · rw [hframes, List.mem_singleton] at hw
    subst hw
    refine ⟨g₂.has _ has₁, has₂, ?_, ?_, ?_, ?_, fun i slot d hi hd => by simp at hd,
      fun slot e hslot he => by simp at he⟩ <;> simp [varsIn, eventsIn, hget₁, get₂]
  · simp [varsIn, hget₁]
  · simp [eventsIn, get₂]
  · rw [hframes]
    exact List.pairwise_singleton _ _
  · rintro rfl
    exact new₁ hc
  · rintro rfl
    exact new₂ (g₁.has _ hc)
  · exact (g₂.get_eq c (g₁.has c hc) id).trans (g₁.get_eq c hc id)

end FiniteDomain.Store
