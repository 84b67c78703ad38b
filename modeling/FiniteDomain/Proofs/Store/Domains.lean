import FiniteDomain.Proofs.Store.Paths
import FiniteDomain.Proofs.Trail.Narrowing

/-!
# The domains of a store

`Store.domainIn s w p` is the domain of the primitive variable `p` in the frame `w`, and `Store.domain`
is the present one.  What a view can take is the image of the domain below it: `Store.viewIn` and
`Store.view`.

* `Store.Sound` collects what holds of every store that is changed through its operations only.
* `Store.Evolves` says what may happen between two moments at which no level begins or ends: domains
  lose values, each loss is told by an event, and nothing else changes except the cells in `C`.
* `Store.Pending` are the variables that such an event tells of.
* `Store.Narrowed` is what is left of `Store.Evolves` when the events may be cleared and all cells
  written.

The operations that narrow domains are treated in `FiniteDomain.Proofs.Store.Narrowing`.
-/

namespace FiniteDomain.Store

/-! ## Domains -/

/-- What a frame sees in the domain of a primitive variable. -/
def domainIn (s : Store) (w : Frame) (p : Var) : Finset Int :=
  match s.definitions[p.index]? with
  | some (.primitive _ d) => s.trail.domain w d
  | _ => ∅

/-- The domain of a primitive variable. -/
def domain (s : Store) (p : Var) : Finset Int := s.domainIn s.trail.now p

/-- A primitive variable of the store. -/
def IsBase (s : Store) (b : Base) : Prop :=
  s.definitions[b.var.index]? = some (.primitive b.slot b.domain)

/-- The values that a variable can take when the primitive variables can take those in `F`. -/
def viewFrom (s : Store) (F : Var → Finset Int) (x : Var) : Finset Int :=
  match (s.path x).source with
  | .ok b => (F b.var).image (s.path x).eval
  | .error _ => ∅

/-- The values that a variable can take in a frame. -/
def viewIn (s : Store) (w : Frame) (x : Var) : Finset Int := s.viewFrom (s.domainIn w) x

/-- The values that a variable can take. -/
def view (s : Store) (x : Var) : Finset Int := s.viewIn s.trail.now x

/-- Something happened to the domain of a primitive variable. -/
def Pending (s : Store) (p : Var) : Prop := ∃ e ∈ s.events, e.var = p ∧ e.domainChanged = true

/-! ## The invariant -/

/-- The number of variables in a frame. -/
def varsIn (s : Store) (w : Frame) : Nat := (w.get s.varCount).toNat

/-- The number of events in a frame. -/
def eventsIn (s : Store) (w : Frame) : Nat := (w.get s.eventCount).toNat

/-- A frame tells how many variables and events there are, and has what they need. -/
structure Counts (s : Store) (w : Frame) : Prop where
  has_vars : w.Has s.varCount
  has_events : w.Has s.eventCount
  vars_eq : w.get s.varCount = s.varsIn w
  events_eq : w.get s.eventCount = s.eventsIn w
  vars_le : s.varsIn w ≤ s.definitions.size
  events_le : s.eventsIn w ≤ s.events.size
  base_lt : ∀ (i slot : Nat) (d : SetId), i < s.varsIn w →
    s.definitions[i]? = some (.primitive slot d) → slot < s.eventsIn w ∧ d.index < w.sets
  var_lt : ∀ (slot : Nat) (e : Event), slot < s.eventsIn w → s.events[slot]? = some e →
    e.var.index < s.varsIn w

/-- What holds of a store that is changed through its operations only. -/
structure Sound (s : Store) : Prop where
  trail : s.trail.Sound
  values_fit : s.trail.ValuesFit
  varCount_free : ¬ s.trail.IsSetCell s.varCount
  eventCount_free : ¬ s.trail.IsSetCell s.eventCount
  counters_ne : s.varCount ≠ s.eventCount
  counts : ∀ w ∈ s.trail.frames, s.Counts w
  vars_now : s.varsIn s.trail.now = s.definitions.size
  events_now : s.eventsIn s.trail.now = s.events.size
  vars_le : (s.definitions.size : Int) ≤ Word.greatest
  events_le : (s.events.size : Int) ≤ Word.greatest
  after : s.trail.frames.Pairwise fun newer older =>
    s.varsIn older ≤ s.varsIn newer ∧ s.eventsIn older ≤ s.eventsIn newer
  grounded : AllGrounded s.definitions
  apart : ∀ (i j slot slot' : Nat) (d : SetId), s.definitions[i]? = some (.primitive slot d) →
    s.definitions[j]? = some (.primitive slot' d) → i = j
  event_of_base : ∀ (i slot : Nat) (d : SetId), s.definitions[i]? = some (.primitive slot d) →
    ∃ e, s.events[slot]? = some e ∧ e.var = ⟨i⟩
  base_of_event : ∀ (slot : Nat) (e : Event), s.events[slot]? = some e →
    ∃ d, s.definitions[e.var.index]? = some (.primitive slot d)
  changed_of_isSet : ∀ e ∈ s.events, e.isSet → e.domainChanged = true

/-- A cell that keeps neither a set nor the numbers of variables and events. -/
structure Free (s : Store) (c : Cell) : Prop where
  not_isSetCell : ¬ s.trail.IsSetCell c
  ne_varCount : c ≠ s.varCount
  ne_eventCount : c ≠ s.eventCount

/-! ## Consequences of the invariant -/

/-- The counts of a frame depend on the variables and events that it counts. -/
theorem Counts.congr {s s' : Store} {w : Frame} (h : s.Counts w) (hvars : s'.varCount = s.varCount)
    (hevents : s'.eventCount = s.eventCount) (hvarsLe : s.varsIn w ≤ s'.definitions.size)
    (heventsLe : s.eventsIn w ≤ s'.events.size)
    (hdef : ∀ i < s.varsIn w, ∀ d, s'.definitions[i]? = some d → s.definitions[i]? = some d)
    (hevent : ∀ slot < s.eventsIn w, ∀ e', s'.events[slot]? = some e' →
      ∃ e, s.events[slot]? = some e ∧ e'.var = e.var) : s'.Counts w := by
  have hvarsIn : s'.varsIn w = s.varsIn w := by rw [varsIn, varsIn, hvars]
  have heventsIn : s'.eventsIn w = s.eventsIn w := by rw [eventsIn, eventsIn, hevents]
  constructor
  case has_vars => exact hvars ▸ h.has_vars
  case has_events => exact hevents ▸ h.has_events
  case vars_eq => rw [hvarsIn, hvars, h.vars_eq]
  case events_eq => rw [heventsIn, hevents, h.events_eq]
  case vars_le => rwa [hvarsIn]
  case events_le => rwa [heventsIn]
  case base_lt =>
    intro i slot d hi hd
    rw [hvarsIn] at hi
    rw [heventsIn]
    exact h.base_lt i slot d hi (hdef i hi _ hd)
  case var_lt =>
    intro slot e' hslot he'
    rw [heventsIn] at hslot
    obtain ⟨e, he, hvar⟩ := hevent slot hslot e' he'
    rw [hvarsIn, hvar]
    exact h.var_lt slot e hslot he

namespace Sound

variable {s : Store}

/-- The present frame tells how many variables and events there are. -/
theorem counts_now (h : s.Sound) : s.Counts s.trail.now := h.counts _ (List.mem_cons_self ..)

theorem get_varCount (h : s.Sound) : s.trail.now.get s.varCount = s.definitions.size := by
  rw [h.counts_now.vars_eq, h.vars_now]

theorem get_eventCount (h : s.Sound) : s.trail.now.get s.eventCount = s.events.size := by
  rw [h.counts_now.events_eq, h.events_now]

/-- A primitive variable has an event and a set. -/
theorem lt_of_base (h : s.Sound) {i slot : Nat} {d : SetId}
    (hd : s.definitions[i]? = some (.primitive slot d)) :
    slot < s.events.size ∧ d.index < s.trail.sets.size := by
  rw [← h.events_now]
  refine h.counts_now.base_lt i slot d ?_ hd
  rw [h.vars_now]
  exact (Array.getElem?_eq_some_iff.1 hd).1

/-- An event tells of a variable. -/
theorem var_lt_of_event (h : s.Sound) {slot : Nat} {e : Event} (he : s.events[slot]? = some e) :
    e.var.index < s.definitions.size := by
  obtain ⟨d, hd⟩ := h.base_of_event slot e he
  exact (Array.getElem?_eq_some_iff.1 hd).1

end Sound

/-! ## Domains of a sound store -/

section

variable {s : Store} {b : Base}

theorem domainIn_eq (hb : s.IsBase b) (w : Frame) :
    s.domainIn w b.var = s.trail.domain w b.domain := by
  rw [domainIn, hb]

theorem domain_eq (hb : s.IsBase b) : s.domain b.var = s.trail.domain s.trail.now b.domain :=
  domainIn_eq hb _

/-- The domain of a primitive variable has a description. -/
theorem Sound.exists_set (h : s.Sound) (hb : s.IsBase b) :
    ∃ set, s.trail.sets[b.domain.index]? = some set :=
  ⟨_, Array.getElem?_eq_getElem (h.lt_of_base hb).2⟩

/-- The path of a variable leads to a primitive variable. -/
theorem Sound.exists_base (h : s.Sound) {x : Var} (hx : x.index < s.definitions.size) :
    ∃ b, (s.path x).Proper ∧ (s.path x).source = .ok b ∧ s.IsBase b :=
  Path.follow_proper h.grounded (Nat.lt_succ_of_lt hx) hx

theorem viewFrom_eq {x : Var} (hsource : (s.path x).source = .ok b) (F : Var → Finset Int) :
    s.viewFrom F x = (F b.var).image (s.path x).eval := by
  rw [viewFrom, hsource]

theorem viewFrom_congr {s' : Store} {x : Var} (h : s'.path x = s.path x)
    (F : Var → Finset Int) : s'.viewFrom F x = s.viewFrom F x := by
  rw [viewFrom, viewFrom, h]

theorem viewFrom_mono {F F' : Var → Finset Int} (h : ∀ p, F p ⊆ F' p) (x : Var) :
    s.viewFrom F x ⊆ s.viewFrom F' x := by
  rw [viewFrom, viewFrom]
  split
  · exact Finset.image_subset_image (h _)
  · exact Finset.Subset.refl _

theorem viewIn_eq {x : Var} (hsource : (s.path x).source = .ok b) (w : Frame) :
    s.viewIn w x = (s.domainIn w b.var).image (s.path x).eval :=
  viewFrom_eq hsource _

theorem mem_view {x : Var} (hsource : (s.path x).source = .ok b) {v : Int} :
    v ∈ s.view x ↔ ∃ r ∈ s.domain b.var, (s.path x).eval r = v := by
  rw [view, viewIn_eq hsource, Finset.mem_image]
  rfl

theorem view_ne_empty_iff {x : Var} (hsource : (s.path x).source = .ok b) :
    s.view x ≠ ∅ ↔ s.domain b.var ≠ ∅ := by
  rw [view, viewIn_eq hsource, ← Finset.nonempty_iff_ne_empty, Finset.image_nonempty,
    ← Finset.nonempty_iff_ne_empty]
  rfl

/-- The events that tell of something are those of the variables whose domains changed. -/
theorem Sound.mem_news (h : s.Sound) {e : Event} :
    e ∈ s.news ↔ e ∈ s.events ∧ e.domainChanged = true := by
  rw [news, List.mem_filter, Array.mem_toList_iff]
  constructor
  · rintro ⟨hmem, hset⟩
    exact ⟨hmem, h.changed_of_isSet e hmem hset⟩
  · rintro ⟨hmem, hchanged⟩
    refine ⟨hmem, ?_⟩
    rw [Event.isSet, hchanged, Bool.or_true]

end

/-! ## What happens within a level -/

/-- Domains lost values, which events tell of, and the cells in `C` may have changed. -/
structure Evolves (C : Cell → Prop) (s s' : Store) : Prop where
  sound : s'.Sound
  past_eq : s'.trail.past = s.trail.past
  sets_eq : s'.trail.sets = s.trail.sets
  dense_size : s'.trail.dense.size = s.trail.dense.size
  values_size : s'.trail.now.values.size = s.trail.now.values.size
  definitions_eq : s'.definitions = s.definitions
  varCount_eq : s'.varCount = s.varCount
  eventCount_eq : s'.eventCount = s.eventCount
  get_eq : ∀ c, ¬ s.trail.IsSetCell c → ¬ C c → s'.trail.now.get c = s.trail.now.get c
  subset : ∀ p, s'.domain p ⊆ s.domain p
  past_domain : ∀ w ∈ s.trail.past, ∀ id : SetId, id.index < w.sets →
    s'.trail.domain w id = s.trail.domain w id
  pending_iff : ∀ p, s'.Pending p ↔ s.Pending p ∨ s'.domain p ≠ s.domain p

namespace Evolves

variable {C : Cell → Prop} {s s' s'' : Store}

theorem refl (C : Cell → Prop) (h : s.Sound) : Evolves C s s :=
  ⟨h, rfl, rfl, rfl, rfl, rfl, rfl, rfl, fun _ _ _ => rfl, fun _ => Finset.Subset.refl _,
    fun _ _ _ _ => rfl, fun _ => by simp⟩

theorem isSetCell_iff (h : Evolves C s s') {c : Cell} :
    s'.trail.IsSetCell c ↔ s.trail.IsSetCell c := by
  rw [Trail.IsSetCell, Trail.IsSetCell, h.sets_eq]

theorem trans (h : Evolves C s s') (h' : Evolves C s' s'') : Evolves C s s'' where
  sound := h'.sound
  past_eq := h'.past_eq.trans h.past_eq
  sets_eq := h'.sets_eq.trans h.sets_eq
  dense_size := h'.dense_size.trans h.dense_size
  values_size := h'.values_size.trans h.values_size
  definitions_eq := h'.definitions_eq.trans h.definitions_eq
  varCount_eq := h'.varCount_eq.trans h.varCount_eq
  eventCount_eq := h'.eventCount_eq.trans h.eventCount_eq
  get_eq c hc hC := by
    rw [h'.get_eq c (fun hc' => hc (h.isSetCell_iff.1 hc')) hC, h.get_eq c hc hC]
  subset p := Finset.Subset.trans (h'.subset p) (h.subset p)
  past_domain w hw id hi := by
    rw [h'.past_domain w (h.past_eq ▸ hw) id hi, h.past_domain w hw id hi]
  pending_iff p := by
    rw [h'.pending_iff, h.pending_iff, or_assoc]
    refine or_congr_right ⟨?_, fun hne => ?_⟩
    · -- A value that was lost does not come back.
      rintro (hne | hne) heq
      · exact hne (Finset.Subset.antisymm (h.subset p) (heq ▸ h'.subset p))
      · exact hne (Finset.Subset.antisymm (h'.subset p) (heq ▸ h.subset p))
    · by_contra hboth
      rw [not_or, not_not, not_not] at hboth
      exact hne (hboth.2.trans hboth.1)

theorem mono {C' : Cell → Prop} (h : Evolves C s s') (hC : ∀ c, C c → C' c) : Evolves C' s s' :=
  { h with get_eq := fun c hc hn => h.get_eq c hc fun hc' => hn (hC c hc') }

/-- A free cell stays free. -/
theorem free (h : Evolves C s s') {c : Cell} (hc : s.Free c) : s'.Free c := by
  refine ⟨fun hset => hc.not_isSetCell (h.isSetCell_iff.1 hset), ?_, ?_⟩
  · rw [h.varCount_eq]
    exact hc.ne_varCount
  · rw [h.eventCount_eq]
    exact hc.ne_eventCount

theorem has (h : Evolves C s s') {c : Cell} (hc : s.trail.now.Has c) : s'.trail.now.Has c := by
  rw [Frame.Has, h.values_size]
  exact hc

theorem path_eq (h : Evolves C s s') (x : Var) : s'.path x = s.path x := by
  rw [path, path, h.definitions_eq]

theorem isBase_iff (h : Evolves C s s') {b : Base} : s'.IsBase b ↔ s.IsBase b := by
  rw [IsBase, IsBase, h.definitions_eq]

/-- The number of variables in a frame of the past stays the same. -/
theorem varsIn_eq (h : Evolves C s s') (w : Frame) : s'.varsIn w = s.varsIn w := by
  rw [varsIn, varsIn, h.varCount_eq]

/-- The domains of the past stay the same. -/
theorem domainIn_past (h : Evolves C s s') (hs : s.Sound) {w : Frame} (hw : w ∈ s.trail.past)
    {p : Var} (hp : p.index < s.varsIn w) : s'.domainIn w p = s.domainIn w p := by
  rw [domainIn, domainIn, h.definitions_eq]
  split
  · rename_i slot d hd
    have hcounts := hs.counts w (List.mem_cons_of_mem _ hw)
    exact h.past_domain w hw d (hcounts.base_lt _ _ _ hp hd).2
  · rfl

end Evolves

/-- No domain was emptied. -/
def Alive (s s' : Store) : Prop := ∀ q, s.domain q ≠ ∅ → s'.domain q ≠ ∅

namespace Alive

variable {s s' s'' : Store}

theorem of_eq (h : ∀ q, s'.domain q = s.domain q) : Alive s s' := fun q hq => by
  rw [h q]
  exact hq

theorem refl (s : Store) : Alive s s := fun _ hq => hq

theorem trans (h : Alive s s') (h' : Alive s' s'') : Alive s s'' := fun q hq => h' q (h q hq)

/-- No variable lost all values. -/
theorem view {x : Var} (h : Alive s s') (hpath : s'.path x = s.path x) (hne : s.view x ≠ ∅) :
    s'.view x ≠ ∅ := by
  cases hsource : (s.path x).source with
  | ok b =>
    rw [view_ne_empty_iff (by rw [hpath]; exact hsource)]
    exact h _ ((view_ne_empty_iff hsource).1 hne)
  | error fault =>
    refine absurd ?_ hne
    rw [Store.view, viewIn, viewFrom, hsource]

end Alive

/-- Domains lost values, and nothing was added. -/
structure Narrowed (s s' : Store) : Prop where
  sound : s'.Sound
  past_eq : s'.trail.past = s.trail.past
  sets_eq : s'.trail.sets = s.trail.sets
  dense_size : s'.trail.dense.size = s.trail.dense.size
  definitions_eq : s'.definitions = s.definitions
  varCount_eq : s'.varCount = s.varCount
  eventCount_eq : s'.eventCount = s.eventCount
  subset : ∀ p, s'.domain p ⊆ s.domain p
  past_domain : ∀ w ∈ s.trail.past, ∀ p : Var, p.index < s.varsIn w →
    s'.domainIn w p = s.domainIn w p

namespace Narrowed

variable {C : Cell → Prop} {s s' s'' : Store}

theorem refl (h : s.Sound) : Narrowed s s :=
  ⟨h, rfl, rfl, rfl, rfl, rfl, rfl, fun _ => Finset.Subset.refl _, fun _ _ _ _ => rfl⟩

theorem of_evolves (h : s.Sound) (he : Evolves C s s') : Narrowed s s' :=
  ⟨he.sound, he.past_eq, he.sets_eq, he.dense_size, he.definitions_eq, he.varCount_eq,
    he.eventCount_eq, he.subset, fun _ hw _ hp => he.domainIn_past h hw hp⟩

theorem varsIn_eq (h : Narrowed s s') (w : Frame) : s'.varsIn w = s.varsIn w := by
  rw [varsIn, varsIn, h.varCount_eq]

theorem path_eq (h : Narrowed s s') (x : Var) : s'.path x = s.path x := by
  rw [path, path, h.definitions_eq]

theorem trans (h : Narrowed s s') (h' : Narrowed s' s'') : Narrowed s s'' where
  sound := h'.sound
  past_eq := h'.past_eq.trans h.past_eq
  sets_eq := h'.sets_eq.trans h.sets_eq
  dense_size := h'.dense_size.trans h.dense_size
  definitions_eq := h'.definitions_eq.trans h.definitions_eq
  varCount_eq := h'.varCount_eq.trans h.varCount_eq
  eventCount_eq := h'.eventCount_eq.trans h.eventCount_eq
  subset p := (h'.subset p).trans (h.subset p)
  past_domain w hw p hp := (h'.past_domain w (h.past_eq ▸ hw) p (by rw [h.varsIn_eq]; exact hp)).trans
    (h.past_domain w hw p hp)

end Narrowed

end FiniteDomain.Store
