import FiniteDomain.Trail.SparseSet
import FiniteDomain.Proofs.Trail.Frames
import Mathlib.Data.Finset.Card
import Mathlib.Data.Finset.Image
import Mathlib.Order.Bounds.Defs

/-!
# The members of a reversible set

`Trail.domain t w id` is the set of integers that the frame `w` sees in the set `id`.  The size comes
from the frame, and the order of the values from the trail: it is the order of the present, since
the exchanges are not taken back.

* `Segment` says that the two arrays list the values of a set and where each of them stands.
  `InSight` says that a frame has a size and bounds that fit.
* `Sound` collects what holds of every trail that is only changed through its operations.  Along the
  frames the sizes only grow towards the past.
* `Rearranged` is what an exchange among the members does: whoever sees at least those members sees
  the same set as before.
* `Advances` is a change of the present, and `Advances.sound` the one place where such a change is
  carried over to all frames.
* `Sifted` is a rearrangement that takes members away from the present, and `Narrowed` what the
  operations on a set come to: `Sifted.narrowed`.

The operations on sets are treated in `FiniteDomain.Proofs.Trail.Narrowing`.
-/

namespace FiniteDomain

/-- The cells of a set. -/
def SparseSet.cells (s : SparseSet) : List Cell := [s.size, s.least, s.greatest]

namespace SparseSet

theorem size_mem_cells (s : SparseSet) : s.size ∈ s.cells := by simp [cells]

theorem least_mem_cells (s : SparseSet) : s.least ∈ s.cells := by simp [cells]

theorem greatest_mem_cells (s : SparseSet) : s.greatest ∈ s.cells := by simp [cells]

end SparseSet

namespace Trail

/-! ## Members -/

/-- Where a relative value of a set stands. -/
def place (t : Trail) (s : SparseSet) (r : Nat) : Nat := (t.position[s.start + r]?).getD 0

/-- The frame `w` sees the relative value `r` in a set. -/
def Holds (t : Trail) (w : Frame) (s : SparseSet) (r : Nat) : Prop :=
  r < s.capacity ∧ t.place s r < s.start + (w.get s.size).toNat

instance (t : Trail) (w : Frame) (s : SparseSet) : DecidablePred (t.Holds w s) :=
  fun _ => inferInstanceAs (Decidable (_ ∧ _))

/-- What the frame `w` sees in a set with a given description. -/
def domainOf (t : Trail) (w : Frame) (s : SparseSet) : Finset Int :=
  ((Finset.range s.capacity).filter (t.Holds w s)).image fun r : Nat => s.offset + (r : Int)

/-- What the frame `w` sees in a set. -/
def domain (t : Trail) (w : Frame) (id : SetId) : Finset Int :=
  match t.sets[id.index]? with
  | none => ∅
  | some s => t.domainOf w s

theorem domain_eq {t : Trail} {id : SetId} {s : SparseSet} (h : t.sets[id.index]? = some s)
    (w : Frame) : t.domain w id = t.domainOf w s := by
  rw [domain, h]

theorem mem_domainOf {t : Trail} {w : Frame} {s : SparseSet} {v : Int} :
    v ∈ t.domainOf w s ↔ ∃ r, t.Holds w s r ∧ s.offset + (r : Int) = v := by
  rw [domainOf, Finset.mem_image]
  constructor
  · rintro ⟨r, hr, rfl⟩
    exact ⟨r, (Finset.mem_filter.1 hr).2, rfl⟩
  · rintro ⟨r, hr, rfl⟩
    exact ⟨r, Finset.mem_filter.2 ⟨Finset.mem_range.2 hr.1, hr⟩, rfl⟩

/-- What a frame sees in a set depends on the size in the frame and on where the values stand. -/
theorem holds_congr {t t' : Trail} {w w' : Frame} {s : SparseSet}
    (hsize : w'.get s.size = w.get s.size)
    (hplace : ∀ r < s.capacity, t'.place s r = t.place s r) (r : Nat) :
    t'.Holds w' s r ↔ t.Holds w s r := by
  rw [Holds, Holds, hsize]
  exact and_congr_right fun hr => by rw [hplace r hr]

theorem add_mem_domainOf {t : Trail} {w : Frame} {s : SparseSet} {r : Nat} :
    s.offset + (r : Int) ∈ t.domainOf w s ↔ t.Holds w s r := by
  rw [mem_domainOf]
  constructor
  · rintro ⟨r', hr', h⟩
    have : r' = r := by omega
    exact this ▸ hr'
  · exact fun h => ⟨r, h, rfl⟩

/-! ## The invariant -/

/-- The arrays list the values of a set and the places where they stand. -/
structure Segment (t : Trail) (s : SparseSet) : Prop where
  fits : s.start + s.capacity ≤ t.dense.size
  dense_of : ∀ r < s.capacity, ∃ j < s.capacity,
    t.position[s.start + r]? = some (s.start + j) ∧ t.dense[s.start + j]? = some r
  position_of : ∀ j < s.capacity, ∃ r < s.capacity,
    t.dense[s.start + j]? = some r ∧ t.position[s.start + r]? = some (s.start + j)

/-- A frame has the cells of a set, with a size that fits and the bounds of what it sees. -/
structure InSight (t : Trail) (w : Frame) (s : SparseSet) : Prop where
  has : ∀ c ∈ s.cells, w.Has c
  size_nonneg : 0 ≤ w.get s.size
  size_le : w.get s.size ≤ s.capacity
  bounds : 0 < w.get s.size → ∃ least greatest : Nat,
    w.get s.least = least ∧ w.get s.greatest = greatest ∧
      t.Holds w s least ∧ t.Holds w s greatest ∧
      ∀ r, t.Holds w s r → least ≤ r ∧ r ≤ greatest

/-- What is between a frame and an earlier one: sets were added, and have lost members. -/
structure Frame.After (t : Trail) (newer older : Frame) : Prop where
  sets_le : older.sets ≤ newer.sets
  dense_le : older.dense ≤ newer.dense
  values_le : older.values.size ≤ newer.values.size
  size_le : ∀ i s, t.sets[i]? = some s → i < older.sets → newer.get s.size ≤ older.get s.size

/-- Neither an added set nor a change of other sets matters to it. -/
theorem Frame.After.congr {t t' : Trail} {newer older : Frame} (h : Frame.After t newer older)
    (hsets : ∀ i s, t'.sets[i]? = some s → i < older.sets → t.sets[i]? = some s) :
    Frame.After t' newer older where
  sets_le := h.sets_le
  dense_le := h.dense_le
  values_le := h.values_le
  size_le i s hs hi := h.size_le i s (hsets i s hs hi) hi

/-- What holds of a trail that is changed through its operations only. -/
structure Sound (t : Trail) : Prop where
  tracked : t.Tracked
  dense_lt : t.dense.size < Word.countBound
  segment : ∀ s ∈ t.sets, t.Segment s
  apart : t.sets.toList.Pairwise fun a b => a.start + a.capacity ≤ b.start
  nodup : (t.sets.toList.flatMap SparseSet.cells).Nodup
  capacity_le : ∀ s ∈ t.sets, (s.capacity : Int) ≤ Word.greatest
  inSight : ∀ w ∈ t.frames, ∀ i s, t.sets[i]? = some s → i < w.sets →
    t.InSight w s ∧ s.start + s.capacity ≤ w.dense
  after : t.frames.Pairwise (Frame.After t)

/-- The values of all sets are in range.  A set can be made without this, and then it cannot be asked
for the values that are not. -/
def ValuesFit (t : Trail) : Prop :=
  ∀ s ∈ t.sets, ∀ r < s.capacity, Word.InRange (s.offset + (r : Int))

/-- A cell of some set. -/
def IsSetCell (t : Trail) (c : Cell) : Prop := ∃ s ∈ t.sets, c ∈ s.cells

/-! ## Places -/

namespace Segment

variable {t : Trail} {s : SparseSet}

theorem position_eq (h : t.Segment s) {r : Nat} (hr : r < s.capacity) :
    t.position[s.start + r]? = some (t.place s r) := by
  obtain ⟨j, _, hj, _⟩ := h.dense_of r hr
  rw [place, hj]
  rfl

theorem le_place (h : t.Segment s) {r : Nat} (hr : r < s.capacity) : s.start ≤ t.place s r := by
  obtain ⟨j, _, hj, _⟩ := h.dense_of r hr
  rw [place, hj]
  exact Nat.le_add_right _ _

theorem place_lt (h : t.Segment s) {r : Nat} (hr : r < s.capacity) :
    t.place s r < s.start + s.capacity := by
  obtain ⟨j, hjlt, hj, _⟩ := h.dense_of r hr
  rw [place, hj]
  exact Nat.add_lt_add_left hjlt _

theorem dense_place (h : t.Segment s) {r : Nat} (hr : r < s.capacity) :
    t.dense[t.place s r]? = some r := by
  obtain ⟨j, _, hj, hd⟩ := h.dense_of r hr
  rw [place, hj]
  exact hd

theorem place_injective (h : t.Segment s) {r r' : Nat} (hr : r < s.capacity)
    (hr' : r' < s.capacity) (heq : t.place s r = t.place s r') : r = r' := by
  have := h.dense_place hr
  rw [heq, h.dense_place hr'] at this
  exact (Option.some.inj this).symm

theorem exists_place (h : t.Segment s) {j : Nat} (hj : j < s.capacity) :
    ∃ r < s.capacity, t.dense[s.start + j]? = some r ∧ t.place s r = s.start + j := by
  obtain ⟨r, hr, hd, hp⟩ := h.position_of j hj
  refine ⟨r, hr, hd, ?_⟩
  rw [place, hp]
  rfl

/-- The segment of a set depends on what the arrays hold within it. -/
theorem congr {t' : Trail} (h : t.Segment s) (hfits : s.start + s.capacity ≤ t'.dense.size)
    (hdense : ∀ j < s.capacity, t'.dense[s.start + j]? = t.dense[s.start + j]?)
    (hposition : ∀ r < s.capacity, t'.position[s.start + r]? = t.position[s.start + r]?) :
    t'.Segment s where
  fits := hfits
  dense_of r hr := by
    obtain ⟨j, hj, hp, hd⟩ := h.dense_of r hr
    exact ⟨j, hj, (hposition r hr).trans hp, (hdense j hj).trans hd⟩
  position_of j hj := by
    obtain ⟨r, hr, hd, hp⟩ := h.position_of j hj
    exact ⟨r, hr, (hdense j hj).trans hd, (hposition r hr).trans hp⟩

/-- A frame sees as many values as the size says. -/
theorem card_domainOf (h : t.Segment s) {w : Frame} (hle : w.get s.size ≤ s.capacity) :
    (t.domainOf w s).card = (w.get s.size).toNat := by
  have hinj : Function.Injective fun r : Nat => s.offset + (r : Int) := by
    intro a b hab
    dsimp only at hab
    omega
  rw [domainOf, Finset.card_image_of_injective _ hinj, ← Finset.card_range (w.get s.size).toNat]
  refine Finset.card_bij (fun r _ => t.place s r - s.start) ?_ ?_ ?_
  · intro r hr
    obtain ⟨hlt, hplace⟩ := (Finset.mem_filter.1 hr).2
    have := h.le_place hlt
    rw [Finset.mem_range]
    omega
  · intro r hr r' hr' heq
    have hlt := (Finset.mem_filter.1 hr).2.1
    have hlt' := (Finset.mem_filter.1 hr').2.1
    have h1 := h.le_place hlt
    have h2 := h.le_place hlt'
    exact h.place_injective hlt hlt' (by omega)
  · intro j hj
    rw [Finset.mem_range] at hj
    obtain ⟨r, hr, _, hplace⟩ := h.exists_place (j := j) (by omega)
    refine ⟨r, Finset.mem_filter.2 ⟨Finset.mem_range.2 hr, hr, ?_⟩, by omega⟩
    omega

end Segment

/-! ## Sound trails -/

namespace Sound

variable {t : Trail}

theorem mem_sets {i : Nat} {s : SparseSet} (h : t.sets[i]? = some s) : s ∈ t.sets :=
  Array.mem_of_getElem? h

/-- The present sees all sets. -/
theorem inSight_now (h : t.Sound) {i : Nat} {s : SparseSet} (hs : t.sets[i]? = some s) :
    t.InSight t.now s :=
  (h.inSight t.now (List.mem_cons_self ..) i s hs (Array.getElem?_eq_some_iff.1 hs).1).1

/-- Two sets with a common cell are the same. -/
theorem eq_of_mem_cells (h : t.Sound) {i j : Nat} {s s' : SparseSet} (hs : t.sets[i]? = some s)
    (hs' : t.sets[j]? = some s') {c : Cell} (hc : c ∈ s.cells) (hc' : c ∈ s'.cells) : i = j := by
  have hd := (List.nodup_flatMap.1 h.nodup).2
  rw [← Array.getElem?_toList] at hs hs'
  obtain ⟨hi, hsi⟩ := List.getElem?_eq_some_iff.1 hs
  obtain ⟨hj, hsj⟩ := List.getElem?_eq_some_iff.1 hs'
  rcases Nat.lt_trichotomy i j with hlt | heq | hgt
  · have := List.pairwise_iff_getElem.1 hd i j hi hj hlt
    rw [hsi, hsj] at this
    exact absurd hc' (this hc)
  · exact heq
  · have := List.pairwise_iff_getElem.1 hd j i hj hi hgt
    rw [hsi, hsj] at this
    exact absurd hc (this hc')

/-- The segments of two sets do not overlap. -/
theorem apart_of_ne (h : t.Sound) {i j : Nat} {s s' : SparseSet} (hs : t.sets[i]? = some s)
    (hs' : t.sets[j]? = some s') (hne : i ≠ j) :
    s.start + s.capacity ≤ s'.start ∨ s'.start + s'.capacity ≤ s.start := by
  rw [← Array.getElem?_toList] at hs hs'
  obtain ⟨hi, hsi⟩ := List.getElem?_eq_some_iff.1 hs
  obtain ⟨hj, hsj⟩ := List.getElem?_eq_some_iff.1 hs'
  rcases Nat.lt_or_gt_of_ne hne with hlt | hgt
  · have := List.pairwise_iff_getElem.1 h.apart i j hi hj hlt
    rw [hsi, hsj] at this
    exact Or.inl this
  · have := List.pairwise_iff_getElem.1 h.apart j i hj hi hgt
    rw [hsi, hsj] at this
    exact Or.inr this

/-- The sets that a frame of the past sees are there. -/
theorem sets_le (h : t.Sound) {w : Frame} (hw : w ∈ t.past) : w.sets ≤ t.sets.size :=
  ((List.pairwise_cons.1 h.after).1 w hw).sets_le

/-- A frame of the past sees at least as many members as the present. -/
theorem size_now_le (h : t.Sound) {w : Frame} (hw : w ∈ t.past) {i : Nat} {s : SparseSet}
    (hs : t.sets[i]? = some s) (hi : i < w.sets) : t.now.get s.size ≤ w.get s.size :=
  ((List.pairwise_cons.1 h.after).1 w hw).size_le i s hs hi

/-- The number of members is the size. -/
theorem card_domain (h : t.Sound) {i : Nat} {s : SparseSet} (hs : t.sets[i]? = some s)
    {w : Frame} (hw : w ∈ t.frames) (hi : i < w.sets) :
    (t.domainOf w s).card = (w.get s.size).toNat :=
  (h.segment s (mem_sets hs)).card_domainOf (h.inSight w hw i s hs hi).1.size_le

end Sound

/-! ## Rearranging the members of a set -/

/-- The arrays of `t'` are those of `t`, except for the order of the first `k` values of one set. -/
structure Rearranged (t t' : Trail) (s : SparseSet) (k : Nat) : Prop where
  dense_size : t'.dense.size = t.dense.size
  dense_eq : ∀ p, p < s.start ∨ s.start + s.capacity ≤ p → t'.dense[p]? = t.dense[p]?
  position_eq : ∀ p, p < s.start ∨ s.start + s.capacity ≤ p → t'.position[p]? = t.position[p]?
  segment : t'.Segment s
  place_lt : ∀ r < s.capacity, ∀ k', k ≤ k' →
    (t'.place s r < s.start + k' ↔ t.place s r < s.start + k')

/-- Nothing has to move. -/
theorem Rearranged.of_eq {t t' : Trail} {s : SparseSet} (h : t.Segment s)
    (hd : t'.dense = t.dense) (hp : t'.position = t.position) (k : Nat) :
    Rearranged t t' s k where
  dense_size := by rw [hd]
  dense_eq p _ := by rw [hd]
  position_eq p _ := by rw [hp]
  segment := ⟨by rw [hd]; exact h.fits, by rw [hd, hp]; exact h.dense_of,
    by rw [hd, hp]; exact h.position_of⟩
  place_lt r _ k' _ := by rw [place, place, hp]

/-- A set elsewhere stands where it stood. -/
theorem Rearranged.segment_of_apart {t t' : Trail} {s s' : SparseSet} {k : Nat}
    (h : Rearranged t t' s k) (hs' : t.Segment s')
    (hapart : s.start + s.capacity ≤ s'.start ∨ s'.start + s'.capacity ≤ s.start) :
    t'.Segment s' ∧ ∀ r < s'.capacity, t'.place s' r = t.place s' r := by
  have hout : ∀ j < s'.capacity, s'.start + j < s.start ∨ s.start + s.capacity ≤ s'.start + j := by
    intro j hj
    omega
  refine ⟨hs'.congr (h.dense_size ▸ hs'.fits) (fun j hj => h.dense_eq _ (hout j hj))
    fun r hr => h.position_eq _ (hout r hr), fun r hr => ?_⟩
  rw [place, place, h.position_eq _ (hout r hr)]

/-- Whoever sees the members that were moved sees the set that there was. -/
theorem Rearranged.holds_iff {t t' : Trail} {s : SparseSet} {k : Nat} (h : Rearranged t t' s k)
    {w : Frame} (hk : k ≤ (w.get s.size).toNat) (r : Nat) :
    t'.Holds w s r ↔ t.Holds w s r := by
  rw [Holds, Holds]
  exact and_congr_right fun hr => h.place_lt r hr _ hk

theorem domainOf_congr {t t' : Trail} {w w' : Frame} {s : SparseSet}
    (h : ∀ r, t'.Holds w' s r ↔ t.Holds w s r) : t'.domainOf w' s = t.domainOf w s := by
  rw [domainOf, domainOf, Finset.filter_congr fun r _ => h r]

/-- What a frame sees in a set depends on the cells of the set and on its segment only. -/
theorem domain_congr {t t' : Trail} {w w' : Frame} {id : SetId}
    (hsets : t'.sets[id.index]? = t.sets[id.index]?)
    (hsize : ∀ s, t.sets[id.index]? = some s → w'.get s.size = w.get s.size)
    (hplace : ∀ s, t.sets[id.index]? = some s → ∀ r < s.capacity, t'.place s r = t.place s r) :
    t'.domain w' id = t.domain w id := by
  rw [domain, domain, hsets]
  cases hs : t.sets[id.index]? with
  | none => rfl
  | some s => exact domainOf_congr (holds_congr (hsize s hs) (hplace s hs))

theorem InSight.congr {t t' : Trail} {w w' : Frame} {s : SparseSet} (h : t.InSight w s)
    (hhas : ∀ c, w.Has c → w'.Has c) (hget : ∀ c ∈ s.cells, w'.get c = w.get c)
    (hholds : ∀ r, t'.Holds w' s r ↔ t.Holds w s r) : t'.InSight w' s := by
  have hsize : w'.get s.size = w.get s.size := hget _ s.size_mem_cells
  have hleast : w'.get s.least = w.get s.least := hget _ s.least_mem_cells
  have hgreatest : w'.get s.greatest = w.get s.greatest := hget _ s.greatest_mem_cells
  refine ⟨fun c hc => hhas c (h.has c hc), by rw [hsize]; exact h.size_nonneg,
    by rw [hsize]; exact h.size_le, fun hpos => ?_⟩
  rw [hsize] at hpos
  obtain ⟨least, greatest, h1, h2, h3, h4, h5⟩ := h.bounds hpos
  exact ⟨least, greatest, by rw [hleast, h1], by rw [hgreatest, h2], (hholds _).2 h3,
    (hholds _).2 h4, fun r hr => h5 r ((hholds r).1 hr)⟩

/-! ## Changes of the present -/

/-- Only the present is different in `t'`: no set is taken away or gets new members, and the frames of
the past see what they saw. -/
structure Advances (t t' : Trail) : Prop where
  tracked : t'.Tracked
  past_eq : t'.past = t.past
  values_le : t.now.values.size ≤ t'.now.values.size
  dense_le : t.dense.size ≤ t'.dense.size
  dense_lt : t'.dense.size < Word.countBound
  sets_le : t.sets.size ≤ t'.sets.size
  sets_eq : ∀ i < t.sets.size, t'.sets[i]? = t.sets[i]?
  segment : ∀ s ∈ t'.sets, t'.Segment s
  apart : t'.sets.toList.Pairwise fun a b => a.start + a.capacity ≤ b.start
  nodup : (t'.sets.toList.flatMap SparseSet.cells).Nodup
  capacity_le : ∀ s ∈ t'.sets, (s.capacity : Int) ≤ Word.greatest
  inSight_now : ∀ s ∈ t'.sets, t'.InSight t'.now s
  size_le : ∀ s ∈ t.sets, t'.now.get s.size ≤ t.now.get s.size
  holds_past : ∀ w ∈ t.past, ∀ i s, t.sets[i]? = some s → i < w.sets →
    ∀ r, t'.Holds w s r ↔ t.Holds w s r

namespace Advances

variable {t t' : Trail}

/-- A set that a frame of the past sees is the one that was there. -/
theorem sets_past (ha : Advances t t') (h : t.Sound) {w : Frame} (hw : w ∈ t.past) {i : Nat}
    (hi : i < w.sets) : t'.sets[i]? = t.sets[i]? :=
  ha.sets_eq i (Nat.lt_of_lt_of_le hi (h.sets_le hw))

theorem sound (ha : Advances t t') (h : t.Sound) : t'.Sound where
  tracked := ha.tracked
  dense_lt := ha.dense_lt
  segment := ha.segment
  apart := ha.apart
  nodup := ha.nodup
  capacity_le := ha.capacity_le
  inSight w hw i s hs hi := by
    rcases List.mem_cons.1 hw with rfl | hw
    · have hmem := Sound.mem_sets hs
      exact ⟨ha.inSight_now s hmem, (ha.segment s hmem).fits⟩
    · rw [ha.past_eq] at hw
      rw [ha.sets_past h hw hi] at hs
      obtain ⟨hsight, hfits⟩ := h.inSight w (List.mem_cons_of_mem _ hw) i s hs hi
      exact ⟨hsight.congr (fun _ hc => hc) (fun _ _ => rfl) (ha.holds_past w hw i s hs hi), hfits⟩
  after := by
    obtain ⟨hnow, hpast⟩ := List.pairwise_cons.1 h.after
    have hold : ∀ w ∈ t.past, ∀ i s, t'.sets[i]? = some s → i < w.sets → t.sets[i]? = some s :=
      fun w hw i s hs hi => (ha.sets_past h hw hi).symm.trans hs
    rw [frames, ha.past_eq]
    refine List.pairwise_cons.2 ⟨fun w hw => ?_,
      hpast.imp_of_mem fun _ hw hp => hp.congr (hold _ hw)⟩
    have hp := hnow w hw
    refine ⟨hp.sets_le.trans ha.sets_le, hp.dense_le.trans ha.dense_le,
      hp.values_le.trans ha.values_le, fun i s hs hi => ?_⟩
    have hs := hold w hw i s hs hi
    exact (ha.size_le s (Sound.mem_sets hs)).trans (hp.size_le i s hs hi)

theorem domain_past (ha : Advances t t') (h : t.Sound) {w : Frame} (hw : w ∈ t.past) {id : SetId}
    (hi : id.index < w.sets) : t'.domain w id = t.domain w id := by
  rw [domain, domain, ha.sets_past h hw hi]
  cases hs : t.sets[id.index]? with
  | none => rfl
  | some s => exact domainOf_congr (ha.holds_past w hw _ s hs hi)

end Advances

/-- What an operation on the set `id` comes to: its members are those in `D`, and nothing else
changes, in the present or in the past. -/
structure Narrowed (t t' : Trail) (id : SetId) (D : Finset Int) : Prop where
  sound : t'.Sound
  past_eq : t'.past = t.past
  sets_eq : t'.sets = t.sets
  dense_size : t'.dense.size = t.dense.size
  values_size : t'.now.values.size = t.now.values.size
  get_eq : ∀ c, ¬ t.IsSetCell c → t'.now.get c = t.now.get c
  domain_self : t'.domain t'.now id = D
  domain_other : ∀ id', id' ≠ id → t'.domain t'.now id' = t.domain t.now id'
  domain_past : ∀ w ∈ t.past, ∀ id' : SetId, id'.index < w.sets → t'.domain w id' = t.domain w id'

/-- The members of the set `id` were rearranged, after which the present sees fewer of them, and other
cells than those of the set hold what they held. -/
structure Sifted (t t' : Trail) (id : SetId) (s : SparseSet) : Prop where
  here : t.sets[id.index]? = some s
  tracked : t'.Tracked
  past_eq : t'.past = t.past
  sets_eq : t'.sets = t.sets
  values_size : t'.now.values.size = t.now.values.size
  get_eq : ∀ c, c ∉ s.cells → t'.now.get c = t.now.get c
  moved : Rearranged t t' s (t.now.get s.size).toNat
  size_le : t'.now.get s.size ≤ t.now.get s.size
  inSight : t'.InSight t'.now s

namespace Sifted

variable {t t' : Trail} {id : SetId} {s s' : SparseSet} {i : Nat}

/-- A set is the one that was rearranged, or its segment is elsewhere and its cells hold what they
held. -/
theorem cases_on_set (hr : Sifted t t' id s) (h : t.Sound) (hs' : t.sets[i]? = some s') :
    i = id.index ∧ s' = s ∨ i ≠ id.index ∧
      (t'.Segment s' ∧ ∀ r < s'.capacity, t'.place s' r = t.place s' r) ∧
        ∀ c ∈ s'.cells, t'.now.get c = t.now.get c := by
  by_cases hne : i = id.index
  · subst hne
    exact Or.inl ⟨rfl, Option.some.inj (hs'.symm.trans hr.here)⟩
  · exact Or.inr ⟨hne, hr.moved.segment_of_apart (h.segment s' (Sound.mem_sets hs'))
      (h.apart_of_ne hr.here hs' (Ne.symm hne)),
      fun c hc => hr.get_eq c fun hc' => hne (h.eq_of_mem_cells hs' hr.here hc hc')⟩

/-- All sets have their segments. -/
theorem segment (hr : Sifted t t' id s) (h : t.Sound) (hs' : t.sets[i]? = some s') :
    t'.Segment s' := by
  obtain ⟨_, rfl⟩ | ⟨_, ⟨hsegment, _⟩, _⟩ := hr.cases_on_set h hs'
  · exact hr.moved.segment
  · exact hsegment

/-- The present sees all sets. -/
theorem inSight_now (hr : Sifted t t' id s) (h : t.Sound) (hs' : t.sets[i]? = some s') :
    t'.InSight t'.now s' := by
  obtain ⟨_, rfl⟩ | ⟨_, ⟨_, hplace⟩, hget⟩ := hr.cases_on_set h hs'
  · exact hr.inSight
  · refine (h.inSight_now hs').congr (fun c hc => ?_) hget
      (holds_congr (hget _ s'.size_mem_cells) hplace)
    rw [Frame.Has, hr.values_size]
    exact hc

/-- The present sees at most as many members as before. -/
theorem size_now_le (hr : Sifted t t' id s) (h : t.Sound) (hs' : t.sets[i]? = some s') :
    t'.now.get s'.size ≤ t.now.get s'.size := by
  obtain ⟨_, rfl⟩ | ⟨_, _, hget⟩ := hr.cases_on_set h hs'
  · exact hr.size_le
  · exact (hget _ s'.size_mem_cells).le

/-- A frame of the past sees what it saw: all members that were rearranged. -/
theorem holds_past (hr : Sifted t t' id s) (h : t.Sound) {w : Frame} (hw : w ∈ t.past)
    (hs' : t.sets[i]? = some s') (hi : i < w.sets) (r : Nat) :
    t'.Holds w s' r ↔ t.Holds w s' r := by
  obtain ⟨rfl, rfl⟩ | ⟨_, ⟨_, hplace⟩, _⟩ := hr.cases_on_set h hs'
  · exact hr.moved.holds_iff (Int.toNat_le_toNat (h.size_now_le hw hs' hi)) r
  · exact holds_congr rfl hplace r

theorem advances (hr : Sifted t t' id s) (h : t.Sound) : Advances t t' where
  tracked := hr.tracked
  past_eq := hr.past_eq
  values_le := hr.values_size.ge
  dense_le := hr.moved.dense_size.ge
  dense_lt := hr.moved.dense_size.symm ▸ h.dense_lt
  sets_le := (congrArg Array.size hr.sets_eq).ge
  sets_eq i _ := by rw [hr.sets_eq]
  segment s' hmem := by
    obtain ⟨i, hi⟩ := Array.mem_iff_getElem?.1 (hr.sets_eq ▸ hmem)
    exact hr.segment h hi
  apart := hr.sets_eq.symm ▸ h.apart
  nodup := hr.sets_eq.symm ▸ h.nodup
  capacity_le := hr.sets_eq.symm ▸ h.capacity_le
  inSight_now s' hmem := by
    obtain ⟨i, hi⟩ := Array.mem_iff_getElem?.1 (hr.sets_eq ▸ hmem)
    exact hr.inSight_now h hi
  size_le s' hmem := by
    obtain ⟨i, hi⟩ := Array.mem_iff_getElem?.1 hmem
    exact hr.size_now_le h hi
  holds_past _ hw _ _ hs' hi := hr.holds_past h hw hs' hi

/-- The trail stays sound, and the other sets and the past are left alone. -/
theorem narrowed (hr : Sifted t t' id s) (h : t.Sound) :
    Narrowed t t' id (t'.domainOf t'.now s) where
  sound := (hr.advances h).sound h
  past_eq := hr.past_eq
  sets_eq := hr.sets_eq
  dense_size := hr.moved.dense_size
  values_size := hr.values_size
  get_eq c hc := hr.get_eq c fun hmem => hc ⟨s, Sound.mem_sets hr.here, hmem⟩
  domain_self := domain_eq (hr.sets_eq.symm ▸ hr.here) _
  domain_other id' hne := by
    have hat : ∀ s', t.sets[id'.index]? = some s' →
        (∀ r < s'.capacity, t'.place s' r = t.place s' r) ∧
          t'.now.get s'.size = t.now.get s'.size := fun s' hs' => by
      obtain ⟨heq, _⟩ | ⟨_, ⟨_, hplace⟩, hget⟩ := hr.cases_on_set h hs'
      · exact absurd (congrArg SetId.mk heq) hne
      · exact ⟨hplace, hget _ s'.size_mem_cells⟩
    exact domain_congr (by rw [hr.sets_eq]) (fun s' hs' => (hat s' hs').2)
      fun s' hs' => (hat s' hs').1
  domain_past _ hw _ hi := (hr.advances h).domain_past h hw hi

end Sifted

end Trail

end FiniteDomain
