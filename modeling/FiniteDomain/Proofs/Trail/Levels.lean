import FiniteDomain.Proofs.Trail.Members

/-!
# Cells outside of the sets, new sets, and the levels of a sound trail

* `Grown` says that a trail has more cells or sets than before, and that nothing else changed except
  the cells in `K`, which are no cells of a set.  `newCell_grown`, `newSet_grown` and `write_grown`
  are its three cases.  `Aside` is what the first and the last have in common, and `Addable` what a
  set needs to be added.
* `Sound.save` and `Sound.restore` carry the invariant over to the next and to the last level.
-/

namespace FiniteDomain

namespace Frame

/-- What the cells hold after one was added. -/
theorem get_push {w : Frame} {c : Cell} (h : w.Has c) (v : Int) (sets dense : Nat) :
    (⟨w.values.push v, sets, dense⟩ : Frame).get c = w.get c := by
  have hlt : c.index < w.values.size := h
  rw [get, get]
  dsimp only
  rw [Array.getElem?_push_lt hlt, Array.getElem?_eq_getElem hlt]

theorem has_push {w : Frame} {c : Cell} (h : w.Has c) (v : Int) (sets dense : Nat) :
    (⟨w.values.push v, sets, dense⟩ : Frame).Has c := by
  have hlt : c.index < w.values.size := h
  rw [Has]
  dsimp only
  rw [Array.size_push]
  omega

end Frame

namespace Trail

variable {t : Trail}

/-! ## New cells and sets -/

/-- Cells and sets were added, and the cells in `K` may have changed. -/
structure Grown (K : Cell → Prop) (t t' : Trail) : Prop where
  sound : t'.Sound
  past_eq : t'.past = t.past
  has : ∀ c, t.now.Has c → t'.now.Has c
  get_eq : ∀ c, t.now.Has c → ¬ K c → t'.now.get c = t.now.get c
  sets_le : t.sets.size ≤ t'.sets.size
  sets_eq : ∀ i < t.sets.size, t'.sets[i]? = t.sets[i]?
  domain_now : ∀ id : SetId, id.index < t.sets.size → t'.domain t'.now id = t.domain t.now id
  domain_past : ∀ w ∈ t.past, ∀ id : SetId, id.index < w.sets → t'.domain w id = t.domain w id
  isSetCell : ∀ c, t'.IsSetCell c → t.now.Has c → t.IsSetCell c

theorem Grown.mono {K K' : Cell → Prop} {t' : Trail} (h : Grown K t t') (hK : ∀ c, K c → K' c) :
    Grown K' t t' :=
  { h with get_eq := fun c hc hn => h.get_eq c hc fun hc' => hn (hK c hc') }

theorem Grown.trans {K : Cell → Prop} {t' t'' : Trail} (h : Grown K t t') (h' : Grown K t' t'') :
    Grown K t t'' where
  sound := h'.sound
  past_eq := h'.past_eq.trans h.past_eq
  has c hc := h'.has c (h.has c hc)
  get_eq c hc hK := (h'.get_eq c (h.has c hc) hK).trans (h.get_eq c hc hK)
  sets_le := Nat.le_trans h.sets_le h'.sets_le
  sets_eq i hi := (h'.sets_eq i (Nat.lt_of_lt_of_le hi h.sets_le)).trans (h.sets_eq i hi)
  domain_now id hi :=
    (h'.domain_now id (Nat.lt_of_lt_of_le hi h.sets_le)).trans (h.domain_now id hi)
  domain_past w hw id hi := by
    rw [h'.domain_past w (h.past_eq ▸ hw) id hi, h.domain_past w hw id hi]
  isSetCell c hc hhas := h.isSetCell c (h'.isSetCell c hc (h.has c hhas)) hhas

/-- The cells of a set exist. -/
theorem Sound.has_of_isSetCell (h : t.Sound) {c : Cell} (hc : t.IsSetCell c) : t.now.Has c := by
  obtain ⟨s, hs, hmem⟩ := hc
  obtain ⟨i, hi⟩ := Array.mem_iff_getElem?.1 hs
  exact (h.inSight_now hi).has c hmem

/-- Only cells outside of the sets were added or written. -/
structure Aside (t t' : Trail) : Prop where
  tracked : t'.Tracked
  past_eq : t'.past = t.past
  sets_eq : t'.sets = t.sets
  dense_eq : t'.dense = t.dense
  position_eq : t'.position = t.position
  values_le : t.now.values.size ≤ t'.now.values.size
  get_eq : ∀ c, t.IsSetCell c → t'.now.get c = t.now.get c

namespace Aside

variable {t' : Trail}

theorem has (ha : Aside t t') {c : Cell} (hc : t.now.Has c) : t'.now.Has c :=
  Nat.lt_of_lt_of_le hc ha.values_le

theorem place_eq (ha : Aside t t') (s : SparseSet) (r : Nat) : t'.place s r = t.place s r := by
  rw [place, place, ha.position_eq]

theorem get_cells (ha : Aside t t') {s : SparseSet} (hs : s ∈ t.sets) {c : Cell}
    (hc : c ∈ s.cells) : t'.now.get c = t.now.get c :=
  ha.get_eq c ⟨s, hs, hc⟩

theorem advances (ha : Aside t t') (h : t.Sound) : Advances t t' where
  tracked := ha.tracked
  past_eq := ha.past_eq
  values_le := ha.values_le
  dense_le := (congrArg Array.size ha.dense_eq).ge
  dense_lt := ha.dense_eq.symm ▸ h.dense_lt
  sets_le := (congrArg Array.size ha.sets_eq).ge
  sets_eq i _ := by rw [ha.sets_eq]
  segment s hs :=
    (Rearranged.of_eq (h.segment s (ha.sets_eq ▸ hs)) ha.dense_eq ha.position_eq 0).segment
  apart := ha.sets_eq.symm ▸ h.apart
  nodup := ha.sets_eq.symm ▸ h.nodup
  capacity_le := ha.sets_eq.symm ▸ h.capacity_le
  inSight_now s hs := by
    rw [ha.sets_eq] at hs
    obtain ⟨i, hi⟩ := Array.mem_iff_getElem?.1 hs
    exact (h.inSight_now hi).congr (fun _ => ha.has) (fun _ => ha.get_cells hs)
      (holds_congr (ha.get_cells hs s.size_mem_cells) fun r _ => ha.place_eq s r)
  size_le s hs := (ha.get_cells hs s.size_mem_cells).le
  holds_past _ _ _ s _ _ := holds_congr rfl fun r _ => ha.place_eq s r

/-- All sets are what they were. -/
theorem grown (ha : Aside t t') (h : t.Sound) {K : Cell → Prop}
    (hget : ∀ c, t.now.Has c → ¬ K c → t'.now.get c = t.now.get c) : Grown K t t' where
  sound := (ha.advances h).sound h
  past_eq := ha.past_eq
  has _ := ha.has
  get_eq := hget
  sets_le := (ha.advances h).sets_le
  sets_eq := (ha.advances h).sets_eq
  domain_now _ _ := domain_congr (by rw [ha.sets_eq])
    (fun s hs => ha.get_cells (Sound.mem_sets hs) s.size_mem_cells) fun s _ r _ => ha.place_eq s r
  domain_past _ hw _ hi := (ha.advances h).domain_past h hw hi
  isSetCell := by
    rintro c ⟨s, hs, hc⟩ _
    exact ⟨s, ha.sets_eq ▸ hs, hc⟩

end Aside

/-- A new cell is no cell of a set, and holds its value. -/
theorem newCell_grown (h : t.Sound) (v : Int) :
    Grown (fun _ => False) t (t.newCell v).2 ∧ (t.newCell v).2.now.Has (t.newCell v).1 ∧
      (t.newCell v).2.now.get (t.newCell v).1 = v ∧ ¬ t.now.Has (t.newCell v).1 := by
  obtain ⟨hid, hnow, hpast, htracked⟩ := newCell_eq h.tracked v
  have hget : ∀ c, t.now.Has c → (t.newCell v).2.now.get c = t.now.get c := by
    intro c hc
    rw [hnow]
    exact Frame.get_push hc v _ _
  have haside : Aside t (t.newCell v).2 := by
    refine ⟨htracked, hpast, rfl, rfl, rfl, ?_, fun c hc => hget c (h.has_of_isSetCell hc)⟩
    rw [hnow]
    exact (Nat.le_succ _).trans_eq (Array.size_push ..).symm
  refine ⟨haside.grown h fun c hc _ => hget c hc, ?_, ?_, ?_⟩
  · rw [hnow, hid, Frame.Has]
    dsimp only
    rw [Array.size_push, size_values_now]
    exact Nat.lt_succ_self _
  · rw [hnow, hid, Frame.get]
    dsimp only
    rw [← size_values_now, Array.getElem?_push_size]
    rfl
  · rw [hid, Frame.Has, size_values_now]
    exact Nat.lt_irrefl _

/-- The trail with one more set, whose cells are there already. -/
def addSegment (t : Trail) (n : Nat) (s : SparseSet) : Trail :=
  { t with
    dense := t.dense ++ (List.range n).toArray
    position := t.position ++ (List.range' t.dense.size n).toArray
    sets := t.sets.push s }

theorem newSet_eq (t : Trail) (n : Nat) (offset : Int) :
    t.newSet n offset = (⟨t.sets.size⟩,
      let first := t.newCell (n : Int)
      let second := first.2.newCell 0
      let third := second.2.newCell ((n : Int) - 1)
      third.2.addSegment n ⟨offset, t.dense.size, n, first.1, second.1, third.1⟩) := rfl

/-- What the arrays hold in the new segment. -/
theorem getElem?_addSegment (h : t.Tracked) {n : Nat} {s : SparseSet} {j : Nat} (hj : j < n) :
    (t.addSegment n s).dense[t.dense.size + j]? = some j ∧
      (t.addSegment n s).position[t.dense.size + j]? = some (t.dense.size + j) := by
  have hp := h.position_size
  constructor
  · rw [addSegment]
    dsimp only
    rw [Array.getElem?_append_right (by omega), Nat.add_sub_cancel_left]
    simp [hj]
  · rw [addSegment]
    dsimp only
    rw [Array.getElem?_append_right (by omega), hp, Nat.add_sub_cancel_left]
    simp [hj]

/-- What the arrays hold in front of it. -/
theorem getElem?_addSegment_of_lt (h : t.Tracked) (n : Nat) (s : SparseSet) {p : Nat}
    (hp : p < t.dense.size) :
    (t.addSegment n s).dense[p]? = t.dense[p]? ∧
      (t.addSegment n s).position[p]? = t.position[p]? := by
  rw [addSegment]
  exact ⟨Array.getElem?_append_left hp,
    Array.getElem?_append_left (by rw [h.position_size]; exact hp)⟩

theorem Tracked.addSegment (h : t.Tracked) (n : Nat) (s : SparseSet) :
    (t.addSegment n s).Tracked := by
  refine ⟨h.stamp_le, h.before_le, h.recorded, fun level hlevel => ?_, h.levels_sorted, ?_⟩
  · obtain ⟨hlog, hcells, hsets, hdense⟩ := h.level_below level hlevel
    exact ⟨hlog, hcells, Nat.le_trans hsets (by simp [Trail.addSegment]),
      Nat.le_trans hdense (by simp [Trail.addSegment])⟩
  · simp [Trail.addSegment, h.position_size]

section

variable {n : Nat} {s' : SparseSet}

theorem size_dense_addSegment (t : Trail) (n : Nat) (s : SparseSet) :
    (t.addSegment n s).dense.size = t.dense.size + n := by
  simp [addSegment]

theorem get_now_addSegment (t : Trail) (n : Nat) (s : SparseSet) (c : Cell) :
    (t.addSegment n s).now.get c = t.now.get c := rfl

theorem getElem?_sets_addSegment (t : Trail) (n : Nat) (s : SparseSet) {i : Nat}
    (hi : i < t.sets.size) : (t.addSegment n s).sets[i]? = t.sets[i]? := by
  rw [addSegment, Array.getElem?_push_lt hi, Array.getElem?_eq_getElem hi]

/-- A set that there was keeps its segment. -/
theorem Sound.segment_addSegment (h : t.Sound) (n : Nat) (s : SparseSet) (hs' : s' ∈ t.sets) :
    (t.addSegment n s).Segment s' := by
  have hseg := h.segment s' hs'
  have hfits := hseg.fits
  exact hseg.congr (by rw [size_dense_addSegment]; omega)
    (fun j hj => (getElem?_addSegment_of_lt h.tracked n s (by omega)).1)
    fun r hr => (getElem?_addSegment_of_lt h.tracked n s (by omega)).2

theorem Sound.place_addSegment (h : t.Sound) (n : Nat) (s : SparseSet) (hs' : s' ∈ t.sets) :
    ∀ r < s'.capacity, (t.addSegment n s).place s' r = t.place s' r := by
  intro r hr
  have hfits := (h.segment s' hs').fits
  rw [place, place, (getElem?_addSegment_of_lt h.tracked n s (by omega)).2]

theorem Sound.holds_addSegment (h : t.Sound) (n : Nat) (s : SparseSet) (hs' : s' ∈ t.sets)
    {w w' : Frame} (hsize : w'.get s'.size = w.get s'.size) (r : Nat) :
    (t.addSegment n s).Holds w' s' r ↔ t.Holds w s' r :=
  holds_congr hsize (h.place_addSegment n s hs') r

end

/-- The set `s` can be added behind the others: its cells are there, and hold the number of its values
and their bounds. -/
structure Addable (t : Trail) (n : Nat) (s : SparseSet) : Prop where
  start_eq : s.start = t.dense.size
  capacity_eq : s.capacity = n
  lt : t.dense.size + n < Word.countBound
  le : (n : Int) ≤ Word.greatest
  nodup : s.cells.Nodup
  has : ∀ c ∈ s.cells, t.now.Has c
  new : ∀ c ∈ s.cells, ¬ t.IsSetCell c
  size_eq : t.now.get s.size = n
  least_eq : t.now.get s.least = 0
  greatest_eq : t.now.get s.greatest = (n : Int) - 1

namespace Addable

variable {n : Nat} {s : SparseSet}

/-- Each value of the new set stands where it belongs. -/
theorem segment_new (ha : Addable t n s) (h : t.Sound) : (t.addSegment n s).Segment s where
  fits := by rw [size_dense_addSegment, ha.start_eq, ha.capacity_eq]
  dense_of r hr := by
    rw [ha.capacity_eq] at hr ⊢
    rw [ha.start_eq]
    obtain ⟨hd, hp⟩ := getElem?_addSegment h.tracked (s := s) hr
    exact ⟨r, hr, hp, hd⟩
  position_of j hj := by
    rw [ha.capacity_eq] at hj ⊢
    rw [ha.start_eq]
    obtain ⟨hd, hp⟩ := getElem?_addSegment h.tracked (s := s) hj
    exact ⟨j, hj, hd, hp⟩

/-- The present sees all values in it. -/
theorem holds_new (ha : Addable t n s) (h : t.Sound) (r : Nat) :
    (t.addSegment n s).Holds (t.addSegment n s).now s r ↔ r < n := by
  rw [Holds, get_now_addSegment, ha.size_eq, ha.capacity_eq]
  refine ⟨And.left, fun hr => ⟨hr, ?_⟩⟩
  have hplace : (t.addSegment n s).place s r = s.start + r := by
    rw [place, ha.start_eq, (getElem?_addSegment h.tracked hr).2]
    rfl
  omega

theorem inSight_new (ha : Addable t n s) (h : t.Sound) :
    (t.addSegment n s).InSight (t.addSegment n s).now s := by
  refine ⟨ha.has, by rw [get_now_addSegment, ha.size_eq]; omega,
    by rw [get_now_addSegment, ha.size_eq, ha.capacity_eq], fun hpos => ?_⟩
  rw [get_now_addSegment, ha.size_eq] at hpos
  refine ⟨0, n - 1, ha.least_eq, by rw [get_now_addSegment, ha.greatest_eq]; omega,
    (ha.holds_new h 0).2 (by omega), (ha.holds_new h _).2 (by omega), fun r hr => ?_⟩
  have := (ha.holds_new h r).1 hr
  omega

theorem mem_domain_new (ha : Addable t n s) (h : t.Sound) (v : Int) :
    v ∈ (t.addSegment n s).domain (t.addSegment n s).now ⟨t.sets.size⟩ ↔
      s.offset ≤ v ∧ v < s.offset + n := by
  have hself : (t.addSegment n s).sets[(⟨t.sets.size⟩ : SetId).index]? = some s :=
    Array.getElem?_push_size
  rw [domain_eq hself, mem_domainOf]
  constructor
  · rintro ⟨r, hr, rfl⟩
    have := (ha.holds_new h r).1 hr
    omega
  · rintro ⟨h1, h2⟩
    exact ⟨(v - s.offset).toNat, (ha.holds_new h _).2 (by omega), by omega⟩

theorem advances (ha : Addable t n s) (h : t.Sound) : Advances t (t.addSegment n s) where
  tracked := h.tracked.addSegment n s
  past_eq := rfl
  values_le := Nat.le_refl _
  dense_le := by rw [size_dense_addSegment]; exact Nat.le_add_right _ _
  dense_lt := by rw [size_dense_addSegment]; exact ha.lt
  sets_le := by simp [addSegment]
  sets_eq _ := getElem?_sets_addSegment t n s
  segment s' hmem := by
    rcases Array.mem_push.1 hmem with hmem | rfl
    · exact h.segment_addSegment n s hmem
    · exact ha.segment_new h
  apart := by
    rw [addSegment, Array.toList_push, List.pairwise_append]
    refine ⟨h.apart, List.pairwise_singleton _ _, fun a hmem b hb => ?_⟩
    rw [List.mem_singleton.1 hb, ha.start_eq]
    exact (h.segment a (Array.mem_toList_iff.1 hmem)).fits
  nodup := by
    rw [addSegment, Array.toList_push, List.flatMap_append, List.flatMap_singleton,
      List.nodup_append]
    refine ⟨h.nodup, ha.nodup, fun a hmem b hb heq => ?_⟩
    obtain ⟨s', hs', hc⟩ := List.mem_flatMap.1 hmem
    exact ha.new b hb ⟨s', Array.mem_toList_iff.1 hs', heq ▸ hc⟩
  capacity_le s' hmem := by
    rcases Array.mem_push.1 hmem with hmem | rfl
    · exact h.capacity_le s' hmem
    · rw [ha.capacity_eq]
      exact ha.le
  inSight_now s' hmem := by
    rcases Array.mem_push.1 hmem with hmem | rfl
    · obtain ⟨i, hi⟩ := Array.mem_iff_getElem?.1 hmem
      exact (h.inSight_now hi).congr (fun _ hc => hc) (fun c _ => get_now_addSegment t n s c)
        (h.holds_addSegment n s hmem (get_now_addSegment t n s _))
    · exact ha.inSight_new h
  size_le _ _ := Int.le_refl _
  holds_past _ _ _ _ hs' _ := h.holds_addSegment n s (Sound.mem_sets hs') rfl

/-- A set is added whose cells were made for it. -/
theorem grown {t₀ : Trail} (ha : Addable t n s) (hg : Grown (fun _ => False) t₀ t)
    (hnew : ∀ c ∈ s.cells, ¬ t₀.now.Has c) : Grown (fun _ => False) t₀ (t.addSegment n s) where
  sound := (ha.advances hg.sound).sound hg.sound
  past_eq := hg.past_eq
  has := hg.has
  get_eq := hg.get_eq
  sets_le := hg.sets_le.trans (ha.advances hg.sound).sets_le
  sets_eq i hi :=
    (getElem?_sets_addSegment t n s (Nat.lt_of_lt_of_le hi hg.sets_le)).trans (hg.sets_eq i hi)
  domain_now id hi := by
    rw [← hg.domain_now id hi]
    exact domain_congr (getElem?_sets_addSegment t n s (Nat.lt_of_lt_of_le hi hg.sets_le))
      (fun _ _ => rfl) fun s' hs' => hg.sound.place_addSegment n s (Sound.mem_sets hs')
  domain_past w hw id hi := by
    rw [← hg.domain_past w hw id hi]
    exact (ha.advances hg.sound).domain_past hg.sound (hg.past_eq ▸ hw) hi
  isSetCell := by
    rintro c ⟨s', hs', hc⟩ hhas
    rcases Array.mem_push.1 hs' with hs' | rfl
    · exact hg.isSetCell c ⟨s', hs', hc⟩ hhas
    · exact absurd hhas (hnew c hc)

end Addable

/-- The values of all sets are in range if those of the new one are. -/
theorem ValuesFit.newSet (hfit : t.ValuesFit) {n : Nat} {offset : Int}
    (hrange : ∀ r < n, Word.InRange (offset + (r : Int))) : (t.newSet n offset).2.ValuesFit := by
  intro s hs
  rcases Array.mem_push.1 hs with hs | rfl
  · exact hfit s hs
  · exact hrange

/-- A new set has the values that it is made with. -/
theorem newSet_grown (h : t.Sound) (n : Nat) (offset : Int)
    (hlt : t.dense.size + n < Word.countBound) (hn : (n : Int) ≤ Word.greatest) :
    (t.newSet n offset).1 = ⟨t.sets.size⟩ ∧
      Grown (fun _ => False) t (t.newSet n offset).2 ∧
      (t.newSet n offset).2.sets.size = t.sets.size + 1 ∧
      ∀ v, v ∈ (t.newSet n offset).2.domain (t.newSet n offset).2.now ⟨t.sets.size⟩ ↔
        offset ≤ v ∧ v < offset + n := by
  obtain ⟨g₁, has₁, get₁, new₁⟩ := newCell_grown h (n : Int)
  obtain ⟨g₂, has₂, get₂, new₂⟩ := newCell_grown g₁.sound 0
  obtain ⟨g₃, has₃, get₃, new₃⟩ := newCell_grown g₂.sound ((n : Int) - 1)
  rw [newSet_eq]
  dsimp only
  have hsets₃ : (((t.newCell (n : Int)).2.newCell 0).2.newCell ((n : Int) - 1)).2.sets = t.sets :=
    rfl
  have hdense₃ : (((t.newCell (n : Int)).2.newCell 0).2.newCell ((n : Int) - 1)).2.dense =
      t.dense := rfl
  generalize (t.newCell (n : Int)).1 = c₁ at *
  generalize (t.newCell (n : Int)).2 = t₁ at *
  generalize (t₁.newCell 0).1 = c₂ at *
  generalize (t₁.newCell 0).2 = t₂ at *
  generalize (t₂.newCell ((n : Int) - 1)).1 = c₃ at *
  generalize (t₂.newCell ((n : Int) - 1)).2 = t₃ at *
  have hcells : ∀ {P : Cell → Prop}, P c₁ → P c₂ → P c₃ →
      ∀ c ∈ (⟨offset, t.dense.size, n, c₁, c₂, c₃⟩ : SparseSet).cells, P c := by
    intro P h₁ h₂ h₃ c hc
    simp only [SparseSet.cells, List.mem_cons, List.not_mem_nil, or_false] at hc
    rcases hc with rfl | rfl | rfl
    · exact h₁
    · exact h₂
    · exact h₃
  have hnew := hcells (P := fun c => ¬ t.now.Has c) new₁ (fun hhas => new₂ (g₁.has _ hhas))
    fun hhas => new₃ (g₂.has _ (g₁.has _ hhas))
  have ha : Addable t₃ n ⟨offset, t.dense.size, n, c₁, c₂, c₃⟩ := by
    refine ⟨by rw [hdense₃], rfl, by rw [hdense₃]; exact hlt, hn, ?_,
      hcells (g₃.has _ (g₂.has _ has₁)) (g₃.has _ has₂) has₃, ?_, ?_, ?_, get₃⟩
    · have h12 : c₁ ≠ c₂ := fun heq => new₂ (heq ▸ has₁)
      have h13 : c₁ ≠ c₃ := fun heq => new₃ (heq ▸ g₂.has c₁ has₁)
      have h23 : c₂ ≠ c₃ := fun heq => new₃ (heq ▸ has₂)
      simp [SparseSet.cells, h12, h13, h23]
    · rintro c hc ⟨s, hs, hmem⟩
      exact hnew c hc (h.has_of_isSetCell ⟨s, hsets₃ ▸ hs, hmem⟩)
    · rw [g₃.get_eq _ (g₂.has _ has₁) id, g₂.get_eq _ has₁ id, get₁]
    · rw [g₃.get_eq _ has₂ id, get₂]
  refine ⟨rfl, ha.grown ((g₁.trans g₂).trans g₃) hnew, ?_, ?_⟩
  · rw [addSegment, hsets₃, Array.size_push]
  · rw [← hsets₃]
    exact ha.mem_domain_new g₃.sound

/-- A write into a cell of no set leaves the sets as they are. -/
theorem write_grown (h : t.Sound) {c : Cell} (hhas : t.now.Has c) (hfree : ¬ t.IsSetCell c)
    (v : Int) :
    ∃ t', t.write c v = .ok t' ∧ Wrote t t' c v ∧ Grown (· = c) t t' := by
  obtain ⟨t', hwrite, hwrote⟩ := write_eq h.tracked hhas v
  have hne : ∀ d, d ≠ c → t'.now.get d = t.now.get d := by
    intro d hd
    rw [hwrote.now_eq, Frame.get_put_of_ne _ _ hd]
  have haside : Aside t t' := by
    refine ⟨hwrote.tracked, hwrote.past_eq, hwrote.sets_eq, hwrote.dense_eq, hwrote.position_eq, ?_,
      fun d hd => hne d fun heq => hfree (heq ▸ hd)⟩
    rw [hwrote.now_eq, Frame.size_put]
  exact ⟨t', hwrite, hwrote, haside.grown h fun d _ hd => hne d hd⟩

/-! ## Levels -/

/-- A trail without anything in it. -/
theorem sound_empty : empty.Sound where
  tracked := ⟨by simp [empty], by simp [empty], by simp [empty], by simp [empty],
    List.Pairwise.nil, rfl⟩
  dense_lt := by decide
  segment := by simp [empty]
  apart := List.Pairwise.nil
  nodup := List.nodup_nil
  capacity_le := by simp [empty]
  inSight := by simp [empty]
  after := List.pairwise_singleton _ _

/-- A level is saved. -/
theorem Sound.save (h : t.Sound) : t.save.Sound := by
  obtain ⟨hnow, hpast, htracked⟩ := save_eq h.tracked
  have hframes : t.save.frames = t.now :: t.frames := by rw [frames, hnow, hpast, frames]
  refine ⟨htracked, h.dense_lt, fun s hs => ?_, h.apart, h.nodup, h.capacity_le, ?_, ?_⟩
  · have hseg := h.segment s hs
    exact hseg.congr hseg.fits (fun _ _ => rfl) fun _ _ => rfl
  · intro w hw i s hs hi
    have hw' : w ∈ t.frames := by
      rw [hframes] at hw
      rcases List.mem_cons.1 hw with rfl | hw
      · exact List.mem_cons_self ..
      · exact hw
    obtain ⟨h1, h2⟩ := h.inSight w hw' i s hs hi
    exact ⟨h1.congr (fun _ hc => hc) (fun _ _ => rfl) fun _ => Iff.rfl, h2⟩
  · rw [hframes]
    refine List.pairwise_cons.2 ⟨fun w hw => ?_, h.after.imp fun hp => hp.congr fun _ _ hs _ => hs⟩
    rcases List.mem_cons.1 hw with rfl | hw
    · exact ⟨Nat.le_refl _, Nat.le_refl _, Nat.le_refl _, fun _ _ _ _ => Int.le_refl _⟩
    · exact ((List.pairwise_cons.1 h.after).1 w hw).congr fun _ _ hs _ => hs

/-- What restoring the last level comes to. -/
structure Restored (t t' : Trail) (w : Frame) (rest : List Frame) : Prop where
  sound : t'.Sound
  now_eq : t'.now = w
  past_eq : t'.past = rest
  sets_eq : t'.sets = t.sets.shrink w.sets
  domain_eq : ∀ w' ∈ w :: rest, ∀ id : SetId, id.index < w'.sets →
    t'.domain w' id = t.domain w' id

/-- The sets that are left have values in range. -/
theorem Restored.valuesFit {t' : Trail} {w : Frame} {rest : List Frame}
    (hr : Restored t t' w rest) (hfit : t.ValuesFit) : t'.ValuesFit := by
  intro s hs
  obtain ⟨i, hi⟩ := Array.mem_iff_getElem?.1 hs
  rw [hr.sets_eq, getElem?_shrink_eq_some] at hi
  exact hfit s (Array.mem_of_getElem? hi.2)

/-- The last level is restored. -/
theorem Sound.restore (h : t.Sound) {w : Frame} {rest : List Frame} (hpast : t.past = w :: rest) :
    ∃ t', t.restore = .ok t' ∧ Restored t t' w rest := by
  obtain ⟨t', hrestore, hnow, hpast', hsets, hdense, hposition, hsetsLe, hdenseLe, htracked⟩ :=
    restore_eq h.tracked hpast
  have hafter := h.after
  rw [frames, hpast] at hafter
  have hafter' := (List.pairwise_cons.1 hafter).2
  have hget : ∀ {i : Nat} {s : SparseSet}, t'.sets[i]? = some s →
      i < w.sets ∧ t.sets[i]? = some s := by
    intro i s hs
    rwa [hsets, getElem?_shrink_eq_some] at hs
  -- A set of the last level has its segment within the arrays of that level.
  have hwithin : ∀ {i : Nat} {s : SparseSet}, t.sets[i]? = some s → i < w.sets →
      s.start + s.capacity ≤ w.dense ∧ (∀ j < s.capacity,
        t'.dense[s.start + j]? = t.dense[s.start + j]?) ∧ ∀ r < s.capacity,
          t'.position[s.start + r]? = t.position[s.start + r]? := by
    intro i s hs hi
    have hfits := (h.inSight w (by rw [frames, hpast]; simp) i s hs hi).2
    exact ⟨hfits, fun j hj => by rw [hdense, getElem?_shrink, if_pos (by omega)],
      fun r hr => by rw [hposition, getElem?_shrink, if_pos (by omega)]⟩
  have hplace : ∀ {i : Nat} {s : SparseSet}, t.sets[i]? = some s → i < w.sets →
      ∀ r < s.capacity, t'.place s r = t.place s r := by
    intro i s hs hi r hr
    rw [place, place, (hwithin hs hi).2.2 r hr]
  have hsetsLe' : ∀ w' ∈ w :: rest, w'.sets ≤ w.sets := by
    intro w' hw'
    rcases List.mem_cons.1 hw' with rfl | hw'
    · exact Nat.le_refl _
    · exact ((List.pairwise_cons.1 hafter').1 w' hw').sets_le
  have hlist : t'.sets.toList = t.sets.toList.take w.sets := by
    rw [hsets, Array.shrink_eq_take, Array.take_eq_extract, Array.toList_extract]
    simp
  have hframes : t'.frames = w :: rest := by rw [frames, hnow, hpast']
  refine ⟨t', hrestore, ⟨htracked, ?_, fun s hs => ?_, ?_, ?_, fun s hs => ?_, ?_, ?_⟩, hnow, hpast',
    hsets, ?_⟩
  · rw [hdense, size_shrink hdenseLe]
    exact Nat.lt_of_le_of_lt hdenseLe h.dense_lt
  · obtain ⟨i, hi⟩ := Array.mem_iff_getElem?.1 hs
    obtain ⟨hlt, hi⟩ := hget hi
    obtain ⟨hfits, hdense', hposition'⟩ := hwithin hi hlt
    exact (h.segment s (Sound.mem_sets hi)).congr (by rw [hdense, size_shrink hdenseLe]; exact hfits)
      hdense' hposition'
  · rw [hlist]
    exact h.apart.sublist (List.take_sublist _ _)
  · have hnodup := h.nodup
    rw [← List.take_append_drop w.sets t.sets.toList, List.flatMap_append] at hnodup
    rw [hlist]
    exact hnodup.of_append_left
  · obtain ⟨i, hi⟩ := Array.mem_iff_getElem?.1 hs
    exact h.capacity_le s (Sound.mem_sets (hget hi).2)
  · intro w' hw' i s hs hi
    rw [hframes] at hw'
    obtain ⟨hlt, hs'⟩ := hget hs
    obtain ⟨h1, h2⟩ := h.inSight w' (by rw [frames, hpast]; exact List.mem_cons_of_mem _ hw')
      i s hs' hi
    exact ⟨h1.congr (fun _ hc => hc) (fun _ _ => rfl) (holds_congr rfl (hplace hs' hlt)), h2⟩
  · rw [hframes]
    exact hafter'.imp fun hp => hp.congr fun _ _ hs _ => (hget hs).2
  · intro w' hw' id hi
    have hlt := Nat.lt_of_lt_of_le hi (hsetsLe' w' hw')
    refine domain_congr ?_ (fun _ _ => rfl) fun s hs => hplace hs hlt
    rw [hsets, getElem?_shrink, if_pos hlt]

end Trail

end FiniteDomain
