import FiniteDomain.Proofs.Trail.Questions

/-!
# Narrowing a reversible set

On a sound trail each update of a set leaves the members that its name says, and touches neither the
other sets nor the past.

* `exchange_eq` is the one rearrangement of the arrays, `Segment.rearranged_exchanged` says that it is
  one, and `refreshBounds_eq` that the bounds are right again after a member left.
* `Held` is what is known of a member, and `Held.bring` brings it to the place of another one.
* `erase_eq`, `keepOnly_eq` and `clear_eq` are made of these and of writes into the cells of the set,
  which `Kept` keeps track of.
* `eraseBelow_eq` and `eraseAbove_eq` repeat `erase`.
-/

namespace FiniteDomain.Trail

variable {t : Trail} {id : SetId} {s : SparseSet}

/-! ## Exchanging two members -/

/-- A change of the two arrays alone keeps the present and the past. -/
theorem Tracked.of_arrays (h : t.Tracked) (dense position : Array Nat)
    (hd : dense.size = t.dense.size) (hp : position.size = t.position.size) :
    ({ t with dense, position } : Trail).now = t.now ∧
      ({ t with dense, position } : Trail).past = t.past ∧
      ({ t with dense, position } : Trail).Tracked := by
  refine ⟨?_, rfl, h.stamp_le, h.before_le, h.recorded, ?_, h.levels_sorted, ?_⟩
  · rw [now, now]
    dsimp only
    rw [hd]
  · dsimp only
    rw [hd]
    exact h.level_below
  · dsimp only
    rw [hd, hp]
    exact h.position_size

/-- What the entries are after two of them were exchanged. -/
theorem getElem?_swapIfInBounds {xs : Array Nat} {i j : Nat} (hi : i < xs.size) (hj : j < xs.size)
    (p : Nat) : (xs.swapIfInBounds i j)[p]? = xs[Equiv.swap i j p]? := by
  rw [Array.swapIfInBounds_def, dif_pos hi, dif_pos hj, Array.getElem?_swap]
  by_cases hpi : p = i
  · subst hpi
    rw [Equiv.swap_apply_left, if_pos rfl, Array.getElem?_eq_getElem hj]
    split_ifs with hjp
    · subst hjp
      rfl
    · rfl
  · by_cases hpj : p = j
    · rw [if_pos hpj.symm, hpj, Equiv.swap_apply_right, Array.getElem?_eq_getElem hi]
    · rw [if_neg (Ne.symm hpj), if_neg (Ne.symm hpi), Equiv.swap_apply_of_ne_of_ne hpi hpj]

/-- The trail in which two values of a set have changed places. -/
def exchanged (t : Trail) (s : SparseSet) (a b : Nat) : Trail :=
  { t with
    dense := t.dense.swapIfInBounds (t.place s a) (t.place s b)
    position := t.position.swapIfInBounds (s.start + a) (s.start + b) }

section

variable {a b r : Nat}

theorem swap_lt {n : Nat} (ha : a < n) (hb : b < n) (hr : r < n) : Equiv.swap a b r < n := by
  rw [Equiv.swap_apply_def]
  split_ifs
  · exact hb
  · exact ha
  · exact hr

namespace Segment

/-- Each of the two values is recorded where the other one was. -/
theorem position_exchanged (h : t.Segment s) (hsize : t.position.size = t.dense.size)
    (ha : a < s.capacity) (hb : b < s.capacity) (r : Nat) :
    (t.exchanged s a b).position[s.start + r]? = t.position[s.start + Equiv.swap a b r]? := by
  have hfits := h.fits
  have hswap : Equiv.swap (s.start + a) (s.start + b) (s.start + r) = s.start + Equiv.swap a b r :=
    Function.Injective.swap_apply (f := (s.start + ·)) (fun _ _ => Nat.add_left_cancel) a b r
  rw [exchanged]
  dsimp only
  rw [getElem?_swapIfInBounds (by omega) (by omega), hswap]

theorem place_exchanged (h : t.Segment s) (hsize : t.position.size = t.dense.size)
    (ha : a < s.capacity) (hb : b < s.capacity) (r : Nat) :
    (t.exchanged s a b).place s r = t.place s (Equiv.swap a b r) := by
  rw [place, h.position_exchanged hsize ha hb, place]

/-- At the place of each value stands the one that was exchanged for it. -/
theorem dense_exchanged (h : t.Segment s) (ha : a < s.capacity) (hb : b < s.capacity)
    (hr : r < s.capacity) :
    (t.exchanged s a b).dense[t.place s r]? = some (Equiv.swap a b r) := by
  have hfits := h.fits
  have hla := h.place_lt ha
  have hlb := h.place_lt hb
  have hplace : Equiv.swap (t.place s a) (t.place s b) (t.place s r) =
      t.place s (Equiv.swap a b r) := by
    by_cases hra : r = a
    · rw [hra, Equiv.swap_apply_left, Equiv.swap_apply_left]
    · by_cases hrb : r = b
      · rw [hrb, Equiv.swap_apply_right, Equiv.swap_apply_right]
      · rw [Equiv.swap_apply_of_ne_of_ne hra hrb, Equiv.swap_apply_of_ne_of_ne
          (fun heq => hra (h.place_injective hr ha heq))
          fun heq => hrb (h.place_injective hr hb heq)]
  rw [exchanged]
  dsimp only
  rw [getElem?_swapIfInBounds (by omega) (by omega), hplace]
  exact h.dense_place (swap_lt ha hb hr)

/-- The arrays list the values and their places after the exchange. -/
theorem exchanged (h : t.Segment s) (hsize : t.position.size = t.dense.size)
    (ha : a < s.capacity) (hb : b < s.capacity) : (t.exchanged s a b).Segment s where
  fits := h.fits.trans_eq Array.size_swapIfInBounds.symm
  dense_of r hr := by
    have hlt := swap_lt ha hb hr
    have hge := h.le_place hlt
    have hplace := h.place_lt hlt
    refine ⟨t.place s (Equiv.swap a b r) - s.start, by omega, ?_, ?_⟩
    · rw [h.position_exchanged hsize ha hb, h.position_eq hlt, Nat.add_sub_cancel' hge]
    · rw [Nat.add_sub_cancel' hge, h.dense_exchanged ha hb hlt, Equiv.swap_apply_self]
  position_of j hj := by
    obtain ⟨r, hr, _, hplace⟩ := h.exists_place hj
    refine ⟨Equiv.swap a b r, swap_lt ha hb hr, ?_, ?_⟩
    · rw [← hplace, h.dense_exchanged ha hb hr]
    · rw [h.position_exchanged hsize ha hb, Equiv.swap_apply_self, h.position_eq hr, hplace]

/-- Only the order of the first `k` values changes, if the two are among them. -/
theorem rearranged_exchanged (h : t.Segment s) (hsize : t.position.size = t.dense.size)
    (ha : a < s.capacity) (hb : b < s.capacity) {k : Nat} (hak : t.place s a < s.start + k)
    (hbk : t.place s b < s.start + k) : Rearranged t (t.exchanged s a b) s k where
  dense_size := Array.size_swapIfInBounds
  dense_eq p hout := by
    have hfits := h.fits
    have hla := h.place_lt ha
    have hlb := h.place_lt hb
    have hga := h.le_place ha
    have hgb := h.le_place hb
    rw [Trail.exchanged]
    dsimp only
    rw [getElem?_swapIfInBounds (by omega) (by omega),
      Equiv.swap_apply_of_ne_of_ne (by omega) (by omega)]
  position_eq p hout := by
    have hfits := h.fits
    rw [Trail.exchanged]
    dsimp only
    rw [getElem?_swapIfInBounds (by omega) (by omega),
      Equiv.swap_apply_of_ne_of_ne (by omega) (by omega)]
  segment := h.exchanged hsize ha hb
  place_lt r hr k' hk' := by
    rw [h.place_exchanged hsize ha hb, Equiv.swap_apply_def]
    split_ifs with hra hrb
    · subst hra
      omega
    · subst hrb
      omega
    · exact Iff.rfl

end Segment

/-- Two values of a set change places. -/
theorem exchange_eq (hseg : t.Segment s) (ha : a < s.capacity) (hb : b < s.capacity) :
    t.exchange (s.start + a) (s.start + b) = .ok (t.exchanged s a b) := by
  have hfits := hseg.fits
  have hla := hseg.place_lt ha
  have hlb := hseg.place_lt hb
  rw [exchange, fetch_eq_ok_iff.2 (hseg.position_eq ha), ok_bind,
    fetch_eq_ok_iff.2 (hseg.position_eq hb), ok_bind, if_neg (by omega)]
  rfl

end

theorem Rearranged.congr {t' t'' : Trail} {k : Nat} (h : Rearranged t t' s k)
    (hd : t''.dense = t'.dense) (hp : t''.position = t'.position) : Rearranged t t'' s k where
  dense_size := by rw [hd]; exact h.dense_size
  dense_eq p hout := by rw [hd]; exact h.dense_eq p hout
  position_eq p hout := by rw [hp]; exact h.position_eq p hout
  segment := h.segment.congr (hd ▸ h.segment.fits) (fun _ _ => by rw [hd]) fun _ _ => by rw [hp]
  place_lt r hr k' hk' := by
    rw [place, hp, ← place]
    exact h.place_lt r hr k' hk'

/-! ## The bounds -/

/-- What several writes into the cells of one set leave alone. -/
structure Kept (t t' : Trail) (s : SparseSet) : Prop where
  tracked : t'.Tracked
  past_eq : t'.past = t.past
  sets_eq : t'.sets = t.sets
  dense_eq : t'.dense = t.dense
  position_eq : t'.position = t.position
  values_size : t'.now.values.size = t.now.values.size
  get_eq : ∀ c, c ∉ s.cells → t'.now.get c = t.now.get c

theorem Kept.refl (h : t.Tracked) (s : SparseSet) : Kept t t s :=
  ⟨h, rfl, rfl, rfl, rfl, rfl, fun _ _ => rfl⟩

theorem Kept.trans {t' t'' : Trail} (h : Kept t t' s) (h' : Kept t' t'' s) : Kept t t'' s where
  tracked := h'.tracked
  past_eq := h'.past_eq.trans h.past_eq
  sets_eq := h'.sets_eq.trans h.sets_eq
  dense_eq := h'.dense_eq.trans h.dense_eq
  position_eq := h'.position_eq.trans h.position_eq
  values_size := h'.values_size.trans h.values_size
  get_eq c hc := (h'.get_eq c hc).trans (h.get_eq c hc)

/-- The cells that there were are there. -/
theorem Kept.has {t' : Trail} (h : Kept t t' s) {c : Cell} (hc : t.now.Has c) : t'.now.Has c := by
  rw [Frame.Has, h.values_size]
  exact hc

theorem Kept.place_eq {t' : Trail} (h : Kept t t' s) (r : Nat) : t'.place s r = t.place s r := by
  rw [place, place, h.position_eq]

/-- One more write into a cell of the set. -/
theorem Kept.write {t' : Trail} (h : Kept t t' s) {c : Cell} (hc : c ∈ s.cells)
    (hhas : ∀ c ∈ s.cells, t.now.Has c) (v : Int) :
    ∃ t'', t'.write c v = .ok t'' ∧ Kept t t'' s ∧ t''.now.get c = v ∧
      ∀ d, d ≠ c → t''.now.get d = t'.now.get d := by
  have hhas' : t'.now.Has c := h.has (hhas c hc)
  obtain ⟨t'', hw, hwrote⟩ := write_eq h.tracked hhas' v
  have hne : ∀ d, d ≠ c → t''.now.get d = t'.now.get d := by
    intro d hd
    rw [hwrote.now_eq, Frame.get_put_of_ne _ _ hd]
  refine ⟨t'', hw, ⟨hwrote.tracked, hwrote.past_eq.trans h.past_eq, hwrote.sets_eq.trans h.sets_eq,
    hwrote.dense_eq.trans h.dense_eq, hwrote.position_eq.trans h.position_eq, ?_, ?_⟩, ?_, hne⟩
  · rw [hwrote.now_eq, Frame.size_put, h.values_size]
  · intro d hd
    rw [hne d fun heq => hd (heq ▸ hc), h.get_eq d hd]
  · rw [hwrote.now_eq, Frame.get_put_self hhas']

theorem Kept.holds_iff {t' : Trail} (h : Kept t t' s)
    (hsize : t'.now.get s.size = t.now.get s.size) (r : Nat) :
    t'.Holds t'.now s r ↔ t.Holds t.now s r :=
  holds_congr hsize (fun r _ => h.place_eq r) r

/-- The cells of a set are distinct. -/
theorem Sound.nodup_cells (h : t.Sound) (hs : t.sets[id.index]? = some s) :
    s.size ≠ s.least ∧ s.size ≠ s.greatest ∧ s.least ≠ s.greatest := by
  have hmem : s ∈ t.sets.toList := Array.mem_toList_iff.2 (Sound.mem_sets hs)
  have := (List.nodup_flatMap.1 h.nodup).1 s hmem
  simp only [SparseSet.cells, List.nodup_cons, List.mem_cons, not_or] at this
  exact ⟨this.1.1, this.1.2.1, this.2.1.1⟩

/-- A bound of the members that are left is `m`, but its cell may still hold the value `r` that
left.  Then it is written anew. -/
theorem Kept.refresh {t' : Trail} (h : Kept t t' s) {c : Cell} (hc : c ∈ s.cells)
    (hhas : ∀ c ∈ s.cells, t.now.Has c) {bound r m : Nat} (hlt : bound < Word.countBound)
    (hget : t'.now.get c = bound) (hsame : bound ≠ r → bound = m) :
    ∃ t'', (if Word.unsigned (t'.now.get c) = r then t'.write c (m : Nat) else pure t') = .ok t'' ∧
      Kept t t'' s ∧ t''.now.get c = m ∧ ∀ d, d ≠ c → t''.now.get d = t'.now.get d := by
  rw [hget, Word.unsigned_natCast hlt]
  by_cases heq : bound = r
  · rw [if_pos heq]
    exact h.write hc hhas (m : Int)
  · rw [if_neg heq]
    exact ⟨t', rfl, h, by rw [hget, hsame heq], fun _ _ => rfl⟩

/-- The first places of a segment have a least and a greatest value. -/
theorem Segment.exists_bounds (h : t.Segment s) {k : Nat} (hpos : 0 < k) (hle : k ≤ s.capacity) :
    ∃ m M, (t.segment s (s.start + k)).min? = some m ∧ (t.segment s (s.start + k)).max? = some M := by
  have hnil : t.segment s (s.start + k) ≠ [] := by
    obtain ⟨r, hr, _, hp⟩ := h.exists_place (j := 0) (by omega)
    exact List.ne_nil_of_mem ((mem_segment h hle (r := r)).2 ⟨hr, by omega⟩)
  obtain ⟨m, hm⟩ := Option.isSome_iff_exists.1 (List.isSome_min?_iff.2 hnil)
  obtain ⟨M, hM⟩ := Option.isSome_iff_exists.1 (List.isSome_max?_iff.2 hnil)
  exact ⟨m, M, hm, hM⟩

/-- The bounds are right after the relative value `r` left the set, if they were right for the
members and `r` together. -/
theorem refreshBounds_eq (ht : t.Tracked) (hseg : t.Segment s)
    (hlt : t.dense.size < Word.countBound) (hhas : ∀ c ∈ s.cells, t.now.Has c)
    (hne : s.size ≠ s.least ∧ s.size ≠ s.greatest ∧ s.least ≠ s.greatest) {k r : Nat}
    (hk : t.now.get s.size = k) (hle : k ≤ s.capacity)
    (hleast : ∃ least < Word.countBound, t.now.get s.least = (least : Nat) ∧
      (least = r ∨ t.Holds t.now s least) ∧ ∀ r', t.Holds t.now s r' → least ≤ r')
    (hgreatest : ∃ greatest < Word.countBound, t.now.get s.greatest = (greatest : Nat) ∧
      (greatest = r ∨ t.Holds t.now s greatest) ∧ ∀ r', t.Holds t.now s r' → r' ≤ greatest) :
    ∃ t', t.refreshBounds s k r = .ok t' ∧ Kept t t' s ∧
      t'.now.get s.size = k ∧ t'.InSight t'.now s := by
  by_cases hzero : k = 0
  · refine ⟨t, by rw [refreshBounds, if_pos hzero]; rfl, .refl ht s, hk, hhas, ?_, ?_, ?_⟩ <;> omega
  obtain ⟨least, hleastLt, hleastGet, hleastMem, hleastLe⟩ := hleast
  obtain ⟨greatest, hgreatestLt, hgreatestGet, hgreatestMem, hgreatestLe⟩ := hgreatest
  have hholds : ∀ r', r' ∈ t.segment s (s.start + k) ↔ t.Holds t.now s r' := by
    intro r'
    rw [mem_segment hseg hle, Holds, hk]
    rfl
  obtain ⟨m, M, hm, hM⟩ := hseg.exists_bounds (Nat.pos_of_ne_zero hzero) hle
  obtain ⟨hmMem, hmLe⟩ := List.min?_eq_some_iff.1 hm
  obtain ⟨hMMem, hMLe⟩ := List.max?_eq_some_iff.1 hM
  -- The new least value, whether it has to be written or not, and then the new greatest one.
  obtain ⟨t₁, h₁, kept₁, hget₁, hother₁⟩ := (Kept.refl ht s).refresh s.least_mem_cells hhas (r := r)
    (m := m) hleastLt hleastGet fun heq => Nat.le_antisymm (hleastLe m ((hholds m).1 hmMem))
      (hmLe least ((hholds least).2 (hleastMem.resolve_left heq)))
  obtain ⟨t₂, h₂, kept₂, hget₂, hother₂⟩ := kept₁.refresh s.greatest_mem_cells hhas (r := r)
    (m := M) hgreatestLt (by rw [hother₁ _ (Ne.symm hne.2.2), hgreatestGet]) fun heq =>
      Nat.le_antisymm (hMLe greatest ((hholds greatest).2 (hgreatestMem.resolve_left heq)))
        (hgreatestLe M ((hholds M).1 hMMem))
  have hsize : t₂.now.get s.size = k := by rw [hother₂ _ hne.2.1, hother₁ _ hne.1, hk]
  have hiff := kept₂.holds_iff (hsize.trans hk.symm)
  have hsegment : t₁.segment s (s.start + k) = t.segment s (s.start + k) := by
    rw [segment, segment, kept₁.dense_eq]
  refine ⟨t₂, ?_, kept₂, hsize, fun c hc => kept₂.has (hhas c hc), by omega, by omega,
    fun _ => ⟨m, M, by rw [hother₂ _ hne.2.2, hget₁], hget₂, (hiff m).2 ((hholds m).1 hmMem),
      (hiff M).2 ((hholds M).1 hMMem), fun r' hr' => ?_⟩⟩
  · rw [refreshBounds, if_neg hzero, segmentEnd_eq hseg hlt hle, ok_bind,
      read_eq (hhas _ s.least_mem_cells), ok_bind]
    dsimp only
    rw [ite_bind, hm, Option.getD_some, h₁, ok_bind,
      read_eq (kept₁.has (hhas _ s.greatest_mem_cells)), ok_bind, hsegment, hM,
      Option.getD_some]
    exact h₂
  · have hmem := (hholds r').2 ((hiff r').1 hr')
    exact ⟨hmLe r' hmem, hMLe r' hmem⟩

/-! ## Removing members -/

/-- Nothing happens. -/
theorem Narrowed.refl (h : t.Sound) (id : SetId) : Narrowed t t id (t.domain t.now id) :=
  ⟨h, rfl, rfl, rfl, rfl, fun _ _ => rfl, rfl, fun _ _ => rfl, fun _ _ _ _ => rfl⟩

/-- One operation after the other. -/
theorem Narrowed.trans {t' t'' : Trail} {D D' : Finset Int} (h : Narrowed t t' id D)
    (h' : Narrowed t' t'' id D') : Narrowed t t'' id D' where
  sound := h'.sound
  past_eq := h'.past_eq.trans h.past_eq
  sets_eq := h'.sets_eq.trans h.sets_eq
  dense_size := h'.dense_size.trans h.dense_size
  values_size := h'.values_size.trans h.values_size
  get_eq c hc := by
    rw [h'.get_eq c, h.get_eq c hc]
    rintro ⟨s, hs, hmem⟩
    exact hc ⟨s, h.sets_eq ▸ hs, hmem⟩
  domain_self := h'.domain_self
  domain_other id' hne := (h'.domain_other id' hne).trans (h.domain_other id' hne)
  domain_past w hw id' hi := by
    rw [h'.domain_past w (h.past_eq ▸ hw) id' hi, h.domain_past w hw id' hi]

/-- The value `r` stands at the place `j` now, in exchange for another one of the first `k` values of
its set. -/
structure Brought (t t' : Trail) (s : SparseSet) (k r j : Nat) : Prop where
  now_eq : t'.now = t.now
  past_eq : t'.past = t.past
  sets_eq : t'.sets = t.sets
  tracked : t'.Tracked
  moved : Rearranged t t' s k
  place_eq : t'.place s r = s.start + j

/-- A value that was brought to another place, followed by writes into the cells of the set. -/
theorem Brought.narrowed {t' t'' : Trail} {k r j : Nat} (hb : Brought t t' s k r j) (h : t.Sound)
    (hs : t.sets[id.index]? = some s) (hk : t.now.get s.size = k) (hkept : Kept t' t'' s)
    (hsize : t''.now.get s.size ≤ k) (hsight : t''.InSight t''.now s) :
    Narrowed t t'' id (t''.domainOf t''.now s) := by
  have hmoved := hb.moved.congr hkept.dense_eq hkept.position_eq
  refine Sifted.narrowed ⟨hs, hkept.tracked, hkept.past_eq.trans hb.past_eq,
    hkept.sets_eq.trans hb.sets_eq, by rw [hkept.values_size, hb.now_eq],
    fun c hc => by rw [hkept.get_eq c hc, hb.now_eq], ?_, hk ▸ hsize, hsight⟩ h
  rw [hk]
  exact hmoved

/-- `v` is a member of a set with `k` members, and `r` its distance to the offset. -/
structure Held (t : Trail) (id : SetId) (s : SparseSet) (v : Int) (r k : Nat) : Prop where
  value_eq : v = s.offset + (r : Int)
  holds : t.Holds t.now s r
  size_eq : t.now.get s.size = k
  size_le : k ≤ s.capacity
  member : t.member id v = .ok true
  distance : ∃ u, Word.sub v s.offset = .ok u ∧ Word.unsigned u = r

/-- The distance of a member to the offset can be computed. -/
theorem exists_held (h : t.Sound) (hs : t.sets[id.index]? = some s) {v : Int}
    (hv : v ∈ t.domain t.now id) : ∃ r k, Held t id s v r k := by
  have hsight := h.inSight_now hs
  have hlt := h.capacity_lt hs
  have hcapacity := h.capacity_le s (Sound.mem_sets hs)
  rw [domain_eq hs] at hv
  have hin := inRange_sub_of_mem h hs hv
  have hmember := member_of_inRange h hs hin
  rw [domain_eq hs, decide_eq_true hv] at hmember
  obtain ⟨r, hr, rfl⟩ := mem_domainOf.1 hv
  have hsub : s.offset + (r : Int) - s.offset = r := by omega
  have hrlt := hr.1
  refine ⟨r, (t.now.get s.size).toNat, rfl, hr, (Int.toNat_of_nonneg hsight.size_nonneg).symm,
    by have := hsight.size_le; omega, hmember, r, ?_, Word.unsigned_natCast (by omega)⟩
  rw [hsub] at hin
  rw [Word.sub, hsub, Word.check_of_inRange hin]

namespace Held

variable {v : Int} {r k j : Nat}

theorem place_lt (hh : Held t id s v r k) : t.place s r < s.start + k := by
  have := hh.holds.2
  rwa [hh.size_eq] at this

theorem pos (hh : Held t id s v r k) (hseg : t.Segment s) : 0 < k := by
  have := hh.place_lt
  have := hseg.le_place hh.holds.1
  omega

/-- A member is brought to the place of another one. -/
theorem bring (hh : Held t id s v r k) (h : t.Sound) (hs : t.sets[id.index]? = some s) (hj : j < k) :
    ∃ other t', t.dense[s.start + j]? = some other ∧
      t.exchange (s.start + r) (s.start + other) = .ok t' ∧ Brought t t' s k r j := by
  have hseg := h.segment s (Sound.mem_sets hs)
  have hp := h.tracked.position_size
  obtain ⟨other, hother, hdense, hplace⟩ := hseg.exists_place (Nat.lt_of_lt_of_le hj hh.size_le)
  obtain ⟨hnow, hpast, htracked⟩ := h.tracked.of_arrays
    (t.dense.swapIfInBounds (t.place s r) (t.place s other))
    (t.position.swapIfInBounds (s.start + r) (s.start + other))
    Array.size_swapIfInBounds Array.size_swapIfInBounds
  refine ⟨other, t.exchanged s r other, hdense, exchange_eq hseg hh.holds.1 hother, hnow, hpast,
    rfl, htracked, hseg.rearranged_exchanged hp hh.holds.1 hother hh.place_lt (by omega), ?_⟩
  rw [hseg.place_exchanged hp hh.holds.1 hother, Equiv.swap_apply_left, hplace]

end Held

/-- When the value that stands last is cut off, the members are the others. -/
theorem Brought.holds_iff {t₁ t' : Trail} {r k : Nat} (hb : Brought t t₁ s k r (k - 1))
    (hkept : Kept t₁ t' s) (hk : t.now.get s.size = k) (hpos : 0 < k)
    (hsize : t'.now.get s.size = (k : Int) - 1) (hr : r < s.capacity) (r' : Nat) :
    t'.Holds t'.now s r' ↔ t.Holds t.now s r' ∧ r' ≠ r := by
  have hplace := hb.place_eq
  rw [Holds, Holds, hsize, hk, hkept.place_eq]
  constructor
  · rintro ⟨hr', hp⟩
    refine ⟨⟨hr', (hb.moved.place_lt r' hr' k (Nat.le_refl k)).1 (by omega)⟩, ?_⟩
    rintro rfl
    omega
  · rintro ⟨⟨hr', hp⟩, hne⟩
    have h1 := (hb.moved.place_lt r' hr' k (Nat.le_refl k)).2 (by omega)
    have h2 : t₁.place s r' ≠ t₁.place s r := fun heq =>
      hne (hb.moved.segment.place_injective hr' hr heq)
    exact ⟨hr', by omega⟩

/-- A value is missing if its relative value is. -/
theorem domainOf_erase {t' : Trail} {w w' : Frame} {r : Nat}
    (h : ∀ r', t'.Holds w' s r' ↔ t.Holds w s r' ∧ r' ≠ r) :
    t'.domainOf w' s = (t.domainOf w s).erase (s.offset + (r : Int)) := by
  ext u
  rw [Finset.mem_erase, mem_domainOf, mem_domainOf]
  constructor
  · rintro ⟨r', hr', rfl⟩
    obtain ⟨hold, hne⟩ := (h r').1 hr'
    exact ⟨by omega, r', hold, rfl⟩
  · rintro ⟨hne, r', hr', rfl⟩
    exact ⟨r', (h r').2 ⟨hr', by omega⟩, rfl⟩

/-- A value that is no member is not removed. -/
theorem erase_of_not_mem {v : Int} (h : t.Sound) (hs : t.sets[id.index]? = some s)
    (hin : Word.InRange (v - s.offset)) (hv : v ∉ t.domain t.now id) :
    t.erase id v = .ok (false, t) := by
  rw [erase, member_of_inRange h hs hin, ok_bind, decide_eq_false hv]
  rfl

/-- The size is lowered and the bounds are brought up to date after a member was brought to the last
place. -/
theorem Brought.cut_off {t₁ : Trail} {v : Int} {r k : Nat} (hb : Brought t t₁ s k r (k - 1))
    (h : t.Sound) (hs : t.sets[id.index]? = some s) (hh : Held t id s v r k) :
    ∃ t₂ t₃, t₁.write s.size ((k : Int) - 1) = .ok t₂ ∧ t₂.refreshBounds s (k - 1) r = .ok t₃ ∧
      Kept t₁ t₃ s ∧ t₃.now.get s.size = (k : Int) - 1 ∧ t₃.InSight t₃.now s := by
  have hsight := h.inSight_now hs
  have hcells := h.nodup_cells hs
  have hcapLt := h.capacity_lt hs
  have hpos := hh.pos (h.segment s (Sound.mem_sets hs))
  have hle := hh.size_le
  have hhas : ∀ c ∈ s.cells, t₁.now.Has c := hb.now_eq.symm ▸ hsight.has
  obtain ⟨t₂, hwrite, hkept₂, hsize₂, hget₂⟩ :=
    (Kept.refl hb.tracked s).write s.size_mem_cells hhas ((k : Int) - 1)
  have hholds := hb.holds_iff hkept₂ hh.size_eq hpos hsize₂ hh.holds.1
  obtain ⟨least, greatest, hl, hg, hlHolds, hgHolds, hbounds⟩ :=
    hsight.bounds (by rw [hh.size_eq]; omega)
  obtain ⟨t₃, hrefresh, hkept₃, hsize₃, hsight₃⟩ := refreshBounds_eq (s := s) (r := r)
    (k := k - 1) hkept₂.tracked (hb.moved.congr hkept₂.dense_eq hkept₂.position_eq).segment
    (by rw [hkept₂.dense_eq, hb.moved.dense_size]; exact h.dense_lt)
    (fun c hc => hkept₂.has (hhas c hc)) hcells (by rw [hsize₂]; omega) (by omega)
    ⟨least, by have := hlHolds.1; omega, by rw [hget₂ _ (Ne.symm hcells.1), hb.now_eq, hl], by
        rw [hholds]
        exact Classical.or_iff_not_imp_left.2 fun hne => ⟨hlHolds, hne⟩,
      fun r' hr' => (hbounds r' ((hholds r').1 hr').1).1⟩
    ⟨greatest, by have := hgHolds.1; omega, by rw [hget₂ _ (Ne.symm hcells.2.1), hb.now_eq, hg], by
        rw [hholds]
        exact Classical.or_iff_not_imp_left.2 fun hne => ⟨hgHolds, hne⟩,
      fun r' hr' => (hbounds r' ((hholds r').1 hr').1).2⟩
  exact ⟨t₂, t₃, hwrite, hrefresh, hkept₂.trans hkept₃, by rw [hsize₃]; omega, hsight₃⟩

/-- A member is removed. -/
theorem erase_eq {v : Int} (h : t.Sound) (hs : t.sets[id.index]? = some s)
    (hv : v ∈ t.domain t.now id) :
    ∃ t', t.erase id v = .ok (true, t') ∧ Narrowed t t' id ((t.domain t.now id).erase v) := by
  obtain ⟨r, k, hh⟩ := exists_held h hs hv
  obtain ⟨u, hu, hu'⟩ := hh.distance
  have hcapLt := h.capacity_lt hs
  have hcapacity := h.capacity_le s (Sound.mem_sets hs)
  have hpos := hh.pos (h.segment s (Sound.mem_sets hs))
  have hle := hh.size_le
  -- The last member takes the place of the value.
  obtain ⟨last, t₁, hdense, hexchange, hb⟩ := hh.bring h hs (j := k - 1) (by omega)
  obtain ⟨t₂, t₃, hwrite, hrefresh, hkept, hsize, hsight⟩ := hb.cut_off h hs hh
  refine ⟨t₃, ?_, ?_⟩
  · have hfetch : fetch t.dense (s.start + k - 1) = .ok last := by
      rw [Nat.add_sub_assoc hpos]
      exact fetch_eq_ok_iff.2 hdense
    have hlower : t₁.decrement s.size = .ok ((k : Int) - 1, t₂) := by
      have hread : t₁.now.get s.size = k := by rw [hb.now_eq, hh.size_eq]
      rw [decrement, read_eq (hb.now_eq.symm ▸ (h.inSight_now hs).has_size), ok_bind, hread, Word.sub,
        Word.check_of_inRange (by unfold Word.InRange Word.least Word.greatest at *; omega), ok_bind,
        hwrite]
      rfl
    have hcast : (k : Int) - 1 = ((k - 1 : Nat) : Int) := by omega
    rw [erase, hh.member, ok_bind, if_pos rfl, describe_eq hs, ok_bind, hu, ok_bind, hu']
    dsimp only
    rw [h.readCount_size hs, ok_bind, hh.size_eq, Int.toNat_natCast, Word.addCount,
      if_pos (by omega), ok_bind, Word.subCount, if_pos (by omega), ok_bind, hfetch, ok_bind,
      hexchange, ok_bind, hlower, ok_bind]
    dsimp only
    rw [hcast, Word.unsigned_natCast (by omega), hrefresh]
    rfl
  · rw [domain_eq hs, hh.value_eq,
      ← domainOf_erase (hb.holds_iff hkept hh.size_eq hpos hsize hh.holds.1)]
    exact hb.narrowed h hs hh.size_eq hkept (by omega) hsight

/-- All members are removed. -/
theorem clear_eq (h : t.Sound) (hs : t.sets[id.index]? = some s) :
    ∃ t', t.clear id = .ok t' ∧ Narrowed t t' id ∅ := by
  have hsight := h.inSight_now hs
  have hseg := h.segment s (Sound.mem_sets hs)
  obtain ⟨t', hw, hkept, hzero, _⟩ :=
    (Kept.refl h.tracked s).write s.size_mem_cells hsight.has 0
  have hmoved : ∀ k, Rearranged t t' s k := .of_eq hseg hkept.dense_eq hkept.position_eq
  have hnone : t'.domainOf t'.now s = ∅ := by
    rw [← Finset.card_eq_zero, (hmoved 0).segment.card_domainOf, hzero]
    · rfl
    · rw [hzero]
      omega
  refine ⟨t', by rw [clear, describe_eq hs, ok_bind, hw], ?_⟩
  rw [← hnone]
  exact Sifted.narrowed ⟨hs, hkept.tracked, hkept.past_eq, hkept.sets_eq, hkept.values_size,
    hkept.get_eq, hmoved _, by rw [hzero]; exact hsight.size_nonneg,
    fun c hc => hkept.has (hsight.has c hc), by omega, by omega, by omega⟩ h

/-- A single member stays, which stands in the first place. -/
theorem Brought.single {t₁ t' : Trail} {r k : Nat} (hb : Brought t t₁ s k r 0) (hkept : Kept t₁ t' s)
    (hr : r < s.capacity) (hsize : t'.now.get s.size = 1) (r' : Nat) :
    t'.Holds t'.now s r' ↔ r' = r := by
  have hseg := (hb.moved.congr hkept.dense_eq hkept.position_eq).segment
  have hself : t'.place s r = s.start := (hkept.place_eq r).trans hb.place_eq
  rw [Holds, hsize]
  constructor
  · rintro ⟨hr', hp⟩
    have := hseg.le_place hr'
    exact hseg.place_injective hr' hr (by omega)
  · rintro rfl
    exact ⟨hr, by omega⟩

/-- One member stays. -/
theorem keepOnly_eq {v : Int} (h : t.Sound) (hs : t.sets[id.index]? = some s)
    (hv : v ∈ t.domain t.now id) :
    ∃ t', t.keepOnly id v = .ok t' ∧ Narrowed t t' id {v} := by
  obtain ⟨r, k, hh⟩ := exists_held h hs hv
  obtain ⟨u, hu, hu'⟩ := hh.distance
  have hsight := h.inSight_now hs
  have hcells := h.nodup_cells hs
  have hpos := hh.pos (h.segment s (Sound.mem_sets hs))
  have hle := hh.size_le
  -- The value takes the first place.
  obtain ⟨first, t₁, hdense, hexchange, hb⟩ := hh.bring h hs hpos
  have hhas : ∀ c ∈ s.cells, t₁.now.Has c := hb.now_eq.symm ▸ hsight.has
  obtain ⟨t₂, hw₂, hkept₂, hsize₂, _⟩ :=
    (Kept.refl hb.tracked s).write s.size_mem_cells hhas 1
  obtain ⟨t₃, hw₃, hkept₃, hleast₃, hget₃⟩ := hkept₂.write s.least_mem_cells hhas (r : Int)
  obtain ⟨t₄, hw₄, hkept₄, hgreatest₄, hget₄⟩ := hkept₃.write s.greatest_mem_cells hhas (r : Int)
  have hsize : t₄.now.get s.size = 1 := by rw [hget₄ _ hcells.2.1, hget₃ _ hcells.1, hsize₂]
  have hleast : t₄.now.get s.least = (r : Int) := by rw [hget₄ _ hcells.2.2, hleast₃]
  have hholds := hb.single hkept₄ hh.holds.1 hsize
  have hdomain : t₄.domainOf t₄.now s = {v} := by
    ext u
    rw [mem_domainOf, Finset.mem_singleton, hh.value_eq]
    constructor
    · rintro ⟨r', hr', rfl⟩
      rw [(hholds r').1 hr']
    · rintro rfl
      exact ⟨r, (hholds r).2 rfl, rfl⟩
  refine ⟨t₄, ?_, ?_⟩
  · rw [Nat.add_zero] at hdense
    rw [keepOnly, hh.member, ok_bind, if_pos rfl, describe_eq hs, ok_bind, hu, ok_bind, hu']
    dsimp only
    rw [fetch_eq_ok_iff.2 hdense, ok_bind, hexchange, ok_bind, hw₂, ok_bind, hw₃, ok_bind, hw₄]
  · rw [← hdomain]
    refine hb.narrowed h hs hh.size_eq hkept₄ (by omega) ⟨fun c hc => hkept₄.has (hhas c hc),
      by omega, by omega, fun _ => ⟨r, r, hleast, hgreatest₄, (hholds r).2 rfl, (hholds r).2 rfl,
        fun r' hr' => ?_⟩⟩
    rw [(hholds r').1 hr']
    exact ⟨Nat.le_refl r, Nat.le_refl r⟩

/-! ## Removing the members beyond a bound -/

/-- The distance of a value between two members to the offset is in range. -/
theorem inRange_sub_of_between {v a b : Int} (h : t.Sound) (hs : t.sets[id.index]? = some s)
    (ha : a ∈ t.domain t.now id) (hb : b ∈ t.domain t.now id) (hav : a ≤ v) (hvb : v ≤ b) :
    Word.InRange (v - s.offset) := by
  rw [domain_eq hs] at ha hb
  have h1 := inRange_sub_of_mem h hs ha
  have h2 := inRange_sub_of_mem h hs hb
  unfold Word.InRange at *
  omega

/-- Several values that lie between two numbers whose distance to the offset is in range are
removed. -/
theorem eraseRun_eq (count : Nat) {v : Int} (h : t.Sound) (hs : t.sets[id.index]? = some s)
    (hin : ∀ u, v ≤ u → u < v + count → Word.InRange (u - s.offset)) :
    ∃ t', eraseRun id count v t = .ok t' ∧
      Narrowed t t' id ((t.domain t.now id).filter fun u => u < v ∨ v + count ≤ u) := by
  induction count generalizing t v with
  | zero =>
    refine ⟨t, rfl, ?_⟩
    have hall : (t.domain t.now id).filter (fun u => u < v ∨ v + (0 : Nat) ≤ u) =
        t.domain t.now id := by
      refine Finset.filter_true_of_mem fun u _ => ?_
      omega
    rw [hall]
    exact .refl h id
  | succ count ih =>
    obtain ⟨found, t₁, herase, hnarrow⟩ : ∃ found t₁, t.erase id v = .ok (found, t₁) ∧
        Narrowed t t₁ id ((t.domain t.now id).erase v) := by
      by_cases hv : v ∈ t.domain t.now id
      · obtain ⟨t₁, h1, h2⟩ := erase_eq h hs hv
        exact ⟨true, t₁, h1, h2⟩
      · refine ⟨false, t, erase_of_not_mem h hs (hin v (by omega) (by omega)) hv, ?_⟩
        rw [Finset.erase_eq_of_notMem hv]
        exact .refl h id
    obtain ⟨t₂, hrun, hnarrow'⟩ := ih (v := v + 1) hnarrow.sound (hnarrow.sets_eq ▸ hs)
      fun u h1 h2 => hin u (by omega) (by omega)
    refine ⟨t₂, by rw [eraseRun, herase, ok_bind]; exact hrun, ?_⟩
    have hset : (t.domain t.now id).filter (fun u => u < v ∨ v + (count + 1 : Nat) ≤ u) =
        (t₁.domain t₁.now id).filter fun u => u < v + 1 ∨ v + 1 + count ≤ u := by
      rw [hnarrow.domain_self]
      ext u
      rw [Finset.mem_filter, Finset.mem_filter, Finset.mem_erase]
      constructor
      · rintro ⟨hu, hout⟩
        exact ⟨⟨by omega, hu⟩, by omega⟩
      · rintro ⟨⟨hne, hu⟩, hout⟩
        exact ⟨hu, by omega⟩
    rw [hset]
    exact hnarrow.trans hnarrow'

/-- The members below a bound are removed from a set whose bounds are known. -/
theorem eraseBelow_of_bounds {v least greatest : Int} (h : t.Sound)
    (hs : t.sets[id.index]? = some s) (hl : t.least? id = .ok (some least))
    (hleast : IsLeast (t.domain t.now id : Set Int) least)
    (hg : t.greatest? id = .ok (some greatest))
    (hgreatest : IsGreatest (t.domain t.now id : Set Int) greatest) :
    ∃ t', t.eraseBelow id v = .ok t' ∧
      Narrowed t t' id ((t.domain t.now id).filter fun a => ¬ a < v) := by
  rw [eraseBelow, hl, ok_bind, hg, ok_bind]
  dsimp only
  by_cases hlt : greatest < v
  · rw [if_pos hlt]
    have hnone : (t.domain t.now id).filter (fun a => ¬ a < v) = ∅ := by
      refine Finset.filter_false_of_mem fun a ha => ?_
      have := hgreatest.2 (Finset.mem_coe.2 ha)
      omega
    rw [hnone]
    exact clear_eq h hs
  · rw [if_neg hlt]
    obtain ⟨t', hrun, hnarrow⟩ := eraseRun_eq (v - least).toNat (v := least) h hs
      fun a h1 h2 => inRange_sub_of_between h hs (Finset.mem_coe.1 hleast.1)
        (Finset.mem_coe.1 hgreatest.1) h1 (by omega)
    refine ⟨t', hrun, ?_⟩
    have hset : (t.domain t.now id).filter (fun a => ¬ a < v) =
        (t.domain t.now id).filter fun a => a < least ∨ least + (v - least).toNat ≤ a := by
      refine Finset.filter_congr fun a ha => ?_
      have := hleast.2 (Finset.mem_coe.2 ha)
      omega
    rw [hset]
    exact hnarrow

/-- The members above a bound are removed from a set whose bounds are known. -/
theorem eraseAbove_of_bounds {v least greatest : Int} (h : t.Sound)
    (hs : t.sets[id.index]? = some s) (hl : t.least? id = .ok (some least))
    (hleast : IsLeast (t.domain t.now id : Set Int) least)
    (hg : t.greatest? id = .ok (some greatest))
    (hgreatest : IsGreatest (t.domain t.now id : Set Int) greatest)
    (hin : v < least ∨ Word.InRange (v + 1)) :
    ∃ t', t.eraseAbove id v = .ok t' ∧
      Narrowed t t' id ((t.domain t.now id).filter fun a => ¬ v < a) := by
  rw [eraseAbove, hl, ok_bind, hg, ok_bind]
  dsimp only
  by_cases hlt : v < least
  · rw [if_pos hlt]
    have hnone : (t.domain t.now id).filter (fun a => ¬ v < a) = ∅ := by
      refine Finset.filter_false_of_mem fun a ha => ?_
      have := hleast.2 (Finset.mem_coe.2 ha)
      omega
    rw [hnone]
    exact clear_eq h hs
  · rw [if_neg hlt]
    obtain ⟨t', hrun, hnarrow⟩ := eraseRun_eq (greatest - v).toNat (v := v + 1) h hs
      fun a h1 h2 => inRange_sub_of_between h hs (Finset.mem_coe.1 hleast.1)
        (Finset.mem_coe.1 hgreatest.1) (by omega) (by omega)
    refine ⟨t', by
      rw [Word.add, Word.check_of_inRange (hin.resolve_left hlt), ok_bind, hrun], ?_⟩
    have hset : (t.domain t.now id).filter (fun a => ¬ v < a) =
        (t.domain t.now id).filter fun a => a < v + 1 ∨ v + 1 + (greatest - v).toNat ≤ a := by
      refine Finset.filter_congr fun a ha => ?_
      have := hgreatest.2 (Finset.mem_coe.2 ha)
      omega
    rw [hset]
    exact hnarrow

/-- The members below a bound are removed, if there is one. -/
theorem eraseBelow_eq {v u : Int} (h : t.Sound) (hfit : t.ValuesFit)
    (hs : t.sets[id.index]? = some s) (hu : u ∈ t.domain t.now id) :
    ∃ t', t.eraseBelow id v = .ok t' ∧
      Narrowed t t' id ((t.domain t.now id).filter fun a => ¬ a < v) := by
  obtain ⟨hempty, _⟩ | ⟨least, hl, hleast⟩ := least?_cases h hfit hs
  · rw [hempty] at hu
    cases hu
  obtain ⟨hempty, _⟩ | ⟨greatest, hg, hgreatest⟩ := greatest?_cases h hfit hs
  · rw [hempty] at hu
    cases hu
  exact eraseBelow_of_bounds h hs hl hleast hg hgreatest

/-- The members above a bound are removed, if there is one. -/
theorem eraseAbove_eq {v u : Int} (h : t.Sound) (hfit : t.ValuesFit)
    (hs : t.sets[id.index]? = some s) (hu : u ∈ t.domain t.now id) (huv : v < u) :
    ∃ t', t.eraseAbove id v = .ok t' ∧
      Narrowed t t' id ((t.domain t.now id).filter fun a => ¬ v < a) := by
  obtain ⟨hempty, _⟩ | ⟨least, hl, hleast⟩ := least?_cases h hfit hs
  · rw [hempty] at hu
    cases hu
  obtain ⟨hempty, _⟩ | ⟨greatest, hg, hgreatest⟩ := greatest?_cases h hfit hs
  · rw [hempty] at hu
    cases hu
  refine eraseAbove_of_bounds h hs hl hleast hg hgreatest ?_
  have h1 := hfit.inRange_of_mem (Finset.mem_coe.1 hleast.1)
  have h2 := hfit.inRange_of_mem hu
  unfold Word.InRange at *
  omega

end FiniteDomain.Trail
