import FiniteDomain.Proofs.Loops
import FiniteDomain.Proofs.Trail.Members
import Mathlib.Data.List.MinMax

/-!
# Questions to a reversible set

On a sound trail each question about a set is answered from its members of the present.

* `card_eq`, `member_eq`, `least?_cases`, `greatest?_cases` and `elements_eq` answer the questions,
  the last three if all values are in range.  What is true without this is `least?_eq`,
  `greatest?_eq` and `elements_eq_mapM`.
  `member_eq` is an equation: the only way to fail is that the distance of the value to the offset
  leaves the range.
* `segmentEnd_eq`, `mem_segment` and `nodup_segment` read the first places of a segment.

The updates are treated in `FiniteDomain.Proofs.Trail.Narrowing`.
-/

namespace FiniteDomain.Trail

variable {t : Trail} {id : SetId} {s : SparseSet}

/-! ## Questions -/

theorem describe_eq (hs : t.sets[id.index]? = some s) : t.describe id = .ok s :=
  fetch_eq_ok_iff.2 hs

theorem InSight.has_size {w : Frame} (h : t.InSight w s) : w.Has s.size :=
  h.has _ s.size_mem_cells

theorem InSight.has_least {w : Frame} (h : t.InSight w s) : w.Has s.least :=
  h.has _ s.least_mem_cells

theorem InSight.has_greatest {w : Frame} (h : t.InSight w s) : w.Has s.greatest :=
  h.has _ s.greatest_mem_cells

/-- The arrays are shorter than a count can tell. -/
theorem Sound.capacity_lt (h : t.Sound) (hs : t.sets[id.index]? = some s) :
    s.start + s.capacity < Word.countBound :=
  Nat.lt_of_le_of_lt (h.segment s (Sound.mem_sets hs)).fits h.dense_lt

/-- The size is read as a count. -/
theorem Sound.readCount_size (h : t.Sound) (hs : t.sets[id.index]? = some s) :
    t.readCount s.size = .ok (t.now.get s.size).toNat := by
  have hsight := h.inSight_now hs
  have h1 := hsight.size_nonneg
  have h2 := hsight.size_le
  have h3 := h.capacity_lt hs
  exact readCount_eq hsight.has_size (by omega) (by omega)

/-- The cell of the size holds a count. -/
theorem Sound.read_size (h : t.Sound) {s : SparseSet} (hs : s ∈ t.sets) :
    ∃ n : Nat, t.read s.size = .ok n := by
  obtain ⟨i, hi, rfl⟩ := Array.mem_iff_getElem.1 hs
  have hsight := h.inSight_now (Array.getElem?_eq_getElem hi)
  exact ⟨_, (read_eq hsight.has_size).trans
    (congrArg Except.ok (Int.toNat_of_nonneg hsight.size_nonneg).symm)⟩

/-- The number of members. -/
theorem card_eq (h : t.Sound) (hs : t.sets[id.index]? = some s) :
    t.card id = .ok (t.domain t.now id).card := by
  rw [card, describe_eq hs, ok_bind, h.readCount_size hs, domain_eq hs,
    h.card_domain hs (List.mem_cons_self ..) (Array.getElem?_eq_some_iff.1 hs).1]

/-- A value is looked up by its distance to the offset, which has to be in range. -/
theorem member_eq (h : t.Sound) (hs : t.sets[id.index]? = some s) (v : Int) :
    t.member id v = Word.sub v s.offset >>= fun _ => .ok (decide (v ∈ t.domain t.now id)) := by
  have hseg := h.segment s (Sound.mem_sets hs)
  have hsight := h.inSight_now hs
  have h1 := hsight.size_nonneg
  have h2 := hsight.size_le
  have h3 := h.capacity_lt hs
  rw [member, describe_eq hs, ok_bind]
  cases hsub : Word.sub v s.offset with
  | error f => rfl
  | ok r =>
    obtain ⟨_, rfl⟩ := Word.check_eq_ok_iff.1 hsub
    rw [ok_bind, ok_bind, domain_eq hs]
    by_cases hr : v - s.offset < 0 ∨ (s.capacity : Int) ≤ v - s.offset
    · rw [if_pos hr]
      have hnot : v ∉ t.domainOf t.now s := by
        rw [mem_domainOf]
        rintro ⟨r, hholds, rfl⟩
        have := hholds.1
        omega
      rw [decide_eq_false hnot]
      rfl
    · rw [if_neg hr, h.readCount_size hs, ok_bind]
      have hlt : (v - s.offset).toNat < s.capacity := by omega
      have hv : v = s.offset + ((v - s.offset).toNat : Int) := by omega
      rw [fetch_eq_ok_iff.2 (hseg.position_eq hlt), ok_bind, Word.addCount, if_pos (by omega),
        ok_bind, pure_eq_ok]
      congr 1
      rw [decide_eq_decide]
      conv_rhs => rw [hv, add_mem_domainOf]
      rw [Holds]
      exact ⟨fun hp => ⟨hlt, hp⟩, fun hp => hp.2⟩

/-- A value whose distance to the offset is in range is looked up. -/
theorem member_of_inRange (h : t.Sound) (hs : t.sets[id.index]? = some s) {v : Int}
    (hv : Word.InRange (v - s.offset)) :
    t.member id v = .ok (decide (v ∈ t.domain t.now id)) := by
  rw [member_eq h hs, Word.sub, Word.check_of_inRange hv, ok_bind]

/-- A value that can be looked up has a distance to the offset in range. -/
theorem inRange_sub_of_member {v : Int} {answer : Bool} (h : t.Sound)
    (hs : t.sets[id.index]? = some s) (hv : t.member id v = .ok answer) :
    Word.InRange (v - s.offset) := by
  rw [member_eq h hs] at hv
  obtain ⟨r, hr, _⟩ := bind_eq_ok_iff.1 hv
  exact (Word.check_eq_ok_iff.1 hr).1

/-- The distance of a member to the offset is in range. -/
theorem inRange_sub_of_mem (h : t.Sound) (hs : t.sets[id.index]? = some s) {w : Frame} {v : Int}
    (hv : v ∈ t.domainOf w s) : Word.InRange (v - s.offset) := by
  obtain ⟨r, hr, rfl⟩ := mem_domainOf.1 hv
  have h1 := h.capacity_le s (Sound.mem_sets hs)
  have h2 := hr.1
  unfold Word.InRange Word.least Word.greatest at *
  omega

/-- The members are in range, if all values are. -/
theorem ValuesFit.inRange_of_mem (hfit : t.ValuesFit) {w : Frame} {v : Int}
    (hv : v ∈ t.domain w id) : Word.InRange v := by
  rw [domain] at hv
  split at hv
  · cases hv
  · rename_i s hs
    obtain ⟨r, hr, rfl⟩ := mem_domainOf.1 hv
    exact hfit s (Sound.mem_sets hs) r hr.1

/-- The least member is given, if there is one and it is in range. -/
theorem least?_eq (h : t.Sound) (hs : t.sets[id.index]? = some s) :
    t.domain t.now id = ∅ ∧ t.least? id = .ok none ∨
      ∃ v, t.least? id = Word.check v >>= (fun v => .ok (some v)) ∧
        IsLeast (t.domain t.now id : Set Int) v := by
  have hsight := h.inSight_now hs
  have hcard := h.card_domain hs (List.mem_cons_self ..) (Array.getElem?_eq_some_iff.1 hs).1
  rw [least?, describe_eq hs, ok_bind, read_eq hsight.has_size, ok_bind, domain_eq hs]
  by_cases hzero : t.now.get s.size ≤ 0
  · rw [if_pos hzero]
    refine Or.inl ⟨Finset.card_eq_zero.1 (by rw [hcard]; omega), rfl⟩
  · rw [if_neg hzero]
    obtain ⟨least, greatest, h1, _, h3, _, h5⟩ := hsight.bounds (by omega)
    refine Or.inr ⟨s.offset + least, ?_, ?_⟩
    · rw [read_eq hsight.has_least, ok_bind, h1, Word.add, Int.add_comm]
      rfl
    · refine ⟨Finset.mem_coe.2 (add_mem_domainOf.2 h3), fun u hu => ?_⟩
      obtain ⟨r, hr, rfl⟩ := mem_domainOf.1 (Finset.mem_coe.1 hu)
      have := (h5 r hr).1
      omega

/-- The same for the greatest member. -/
theorem greatest?_eq (h : t.Sound) (hs : t.sets[id.index]? = some s) :
    t.domain t.now id = ∅ ∧ t.greatest? id = .ok none ∨
      ∃ v, t.greatest? id = Word.check v >>= (fun v => .ok (some v)) ∧
        IsGreatest (t.domain t.now id : Set Int) v := by
  have hsight := h.inSight_now hs
  have hcard := h.card_domain hs (List.mem_cons_self ..) (Array.getElem?_eq_some_iff.1 hs).1
  rw [greatest?, describe_eq hs, ok_bind, read_eq hsight.has_size, ok_bind, domain_eq hs]
  by_cases hzero : t.now.get s.size ≤ 0
  · rw [if_pos hzero]
    refine Or.inl ⟨Finset.card_eq_zero.1 (by rw [hcard]; omega), rfl⟩
  · rw [if_neg hzero]
    obtain ⟨least, greatest, _, h2, _, h4, h5⟩ := hsight.bounds (by omega)
    refine Or.inr ⟨s.offset + greatest, ?_, ?_⟩
    · rw [read_eq hsight.has_greatest, ok_bind, h2, Word.add, Int.add_comm]
      rfl
    · refine ⟨Finset.mem_coe.2 (add_mem_domainOf.2 h4), fun u hu => ?_⟩
      obtain ⟨r, hr, rfl⟩ := mem_domainOf.1 (Finset.mem_coe.1 hu)
      have := (h5 r hr).2
      omega

/-- The end of the domain of a variable on one side is its extreme member. -/
theorem least?_cases (h : t.Sound) (hfit : t.ValuesFit) (hs : t.sets[id.index]? = some s) :
    t.domain t.now id = ∅ ∧ t.least? id = .ok none ∨
      ∃ v, t.least? id = .ok (some v) ∧ IsLeast (t.domain t.now id : Set Int) v := by
  refine (least?_eq h hs).imp_right fun ⟨v, hret, hv⟩ => ⟨v, ?_, hv⟩
  rw [hret, Word.check_of_inRange (hfit.inRange_of_mem (Finset.mem_coe.1 hv.1)), ok_bind]

/-- The same for the other end. -/
theorem greatest?_cases (h : t.Sound) (hfit : t.ValuesFit) (hs : t.sets[id.index]? = some s) :
    t.domain t.now id = ∅ ∧ t.greatest? id = .ok none ∨
      ∃ v, t.greatest? id = .ok (some v) ∧ IsGreatest (t.domain t.now id : Set Int) v := by
  refine (greatest?_eq h hs).imp_right fun ⟨v, hret, hv⟩ => ⟨v, ?_, hv⟩
  rw [hret, Word.check_of_inRange (hfit.inRange_of_mem (Finset.mem_coe.1 hv.1)), ok_bind]

/-! ## The first places of a segment -/

/-- The end of the first places of a set. -/
theorem segmentEnd_eq {k : Nat} (h : t.Segment s) (hlt : t.dense.size < Word.countBound)
    (hk : k ≤ s.capacity) : t.segmentEnd s k = .ok (s.start + k) := by
  have hfits := h.fits
  rw [segmentEnd, Word.addCount, if_pos (by omega), ok_bind, if_neg (by omega)]
  rfl

/-- The relative values that stand in the first places of a set. -/
theorem mem_segment {k r : Nat} (h : t.Segment s) (hk : k ≤ s.capacity) :
    r ∈ t.segment s (s.start + k) ↔ r < s.capacity ∧ t.place s r < s.start + k := by
  have hfits := h.fits
  rw [segment, Array.mem_toList_iff, Array.mem_extract_iff_getElem]
  constructor
  · rintro ⟨j, hj, rfl⟩
    obtain ⟨r, hr, hd, hp⟩ := h.exists_place (j := j) (by omega)
    rw [Array.getElem?_eq_getElem (by omega)] at hd
    rw [Option.some.inj hd, hp]
    exact ⟨hr, by omega⟩
  · rintro ⟨hr, hp⟩
    have hge := h.le_place hr
    refine ⟨t.place s r - s.start, by omega, ?_⟩
    obtain ⟨_, hd⟩ := Array.getElem?_eq_some_iff.1 (h.dense_place hr)
    refine Eq.trans ?_ hd
    congr 1
    omega

/-- Each relative value stands in one place. -/
theorem nodup_segment {k : Nat} (h : t.Segment s) (hk : k ≤ s.capacity) :
    (t.segment s (s.start + k)).Nodup := by
  have hfits := h.fits
  rw [segment, List.Nodup, List.pairwise_iff_getElem]
  intro i j hi hj hij
  simp only [Array.length_toList, Array.size_extract] at hi hj
  simp only [Array.getElem_toList, Array.getElem_extract, ne_eq]
  obtain ⟨r, hr, hd, hp⟩ := h.exists_place (j := i) (by omega)
  obtain ⟨r', hr', hd', hp'⟩ := h.exists_place (j := j) (by omega)
  rw [Array.getElem?_eq_getElem (by omega)] at hd hd'
  rw [Option.some.inj hd, Option.some.inj hd']
  rintro rfl
  omega

/-- The members are listed in the order in which they stand, if they are in range. -/
theorem elements_eq_mapM (h : t.Sound) (hs : t.sets[id.index]? = some s) :
    ∃ rs : List Nat, t.elements id = rs.mapM (fun r : Nat => Word.add (r : Int) s.offset) ∧
      rs.Nodup ∧ ∀ r, r ∈ rs ↔ t.Holds t.now s r := by
  have hseg := h.segment s (Sound.mem_sets hs)
  have hsight := h.inSight_now hs
  have h1 := hsight.size_nonneg
  have h2 := hsight.size_le
  have hk : (t.now.get s.size).toNat ≤ s.capacity := by omega
  refine ⟨t.segment s (s.start + (t.now.get s.size).toNat), ?_, nodup_segment hseg hk,
    fun r => mem_segment hseg hk⟩
  rw [elements, describe_eq hs, ok_bind, h.readCount_size hs, ok_bind,
    segmentEnd_eq hseg h.dense_lt hk, ok_bind]

/-- The members are listed, each once. -/
theorem elements_eq (h : t.Sound) (hfit : t.ValuesFit) (hs : t.sets[id.index]? = some s) :
    ∃ vs, t.elements id = .ok vs ∧ vs.Nodup ∧ ∀ v, v ∈ vs ↔ v ∈ t.domain t.now id := by
  obtain ⟨rs, hret, hnodup, hmem⟩ := elements_eq_mapM h hs
  refine ⟨rs.map fun r : Nat => s.offset + (r : Int), ?_, ?_, ?_⟩
  · rw [hret]
    refine mapM_eq_ok fun r hr => ?_
    rw [Word.add, Int.add_comm, Word.check_of_inRange
      (hfit s (Sound.mem_sets hs) r ((hmem r).1 hr).1)]
  · refine hnodup.map fun a b hab => ?_
    omega
  · intro v
    rw [domain_eq hs, mem_domainOf, List.mem_map]
    constructor
    · rintro ⟨r, hr, rfl⟩
      exact ⟨r, (hmem r).1 hr, rfl⟩
    · rintro ⟨r, hr, rfl⟩
      exact ⟨r, (hmem r).2 hr, rfl⟩

end FiniteDomain.Trail
