import FiniteDomain.Proofs.AllDifferent.Choices

/-!
# How snapshots change

* `assign`, `release`, `unlink` and `ground` are the four single changes.
* `drop` takes an edge out together with a matching along it, and `take` matches a variable to a
  value that is taken away from its owner.  Both keep the matching sound.
* `Keeps` says that what grounded variables keep stays kept.  It is what a bound on the number of
  reached variables and the faith in the grounded ones need: `Keeps.bounded`, `Keeps.faithful`.
  Grounding a variable is treated on its own: `Bounded.ground`, `Faithful.ground`.
-/

namespace FiniteDomain.AllDifferent.Snapshot

variable {p q : Snapshot} {val : Nat → Int} {D : Nat → Finset Int} {n m k : Nat}

/-! ## Changes -/

/-- Matches a variable with a value.  Their partners so far keep what they have. -/
def assign (p : Snapshot) (x v : Nat) : Snapshot :=
  { p with
    mate := Function.update p.mate x (some v)
    owner := Function.update p.owner v (some x) }

/-- Takes the mate of a variable away. -/
def release (p : Snapshot) (x : Nat) : Snapshot :=
  match p.mate x with
  | none => p
  | some v =>
    { p with
      mate := Function.update p.mate x none
      owner := if p.owner v = some x then Function.update p.owner v none else p.owner }

/-- Takes a value from a variable. -/
def unlink (p : Snapshot) (x v : Nat) : Snapshot :=
  { p with live := Function.update p.live x ((p.live x).erase v) }

/-- Takes a variable out of the active ones. -/
def ground (p : Snapshot) (x : Nat) : Snapshot :=
  { p with active := p.active.erase x }

/-- Takes a value from a variable, together with a matching of the two. -/
def drop (p : Snapshot) (x v : Nat) : Snapshot :=
  if p.mate x = some v then (p.unlink x v).release x else p.unlink x v

/-- Matches a variable with a value, which is taken away from its owner. -/
def take (p : Snapshot) (x a : Nat) : Snapshot :=
  if p.mate x = some a then p
  else
    match p.owner a with
    | none => (p.release x).assign x a
    | some o => ((p.release o).release x).assign x a

/-! ## The matching -/

@[simp]
theorem release_active (p : Snapshot) (x : Nat) : (p.release x).active = p.active := by
  rw [release]
  split <;> rfl

@[simp]
theorem release_live (p : Snapshot) (x : Nat) : (p.release x).live = p.live := by
  rw [release]
  split <;> rfl

theorem release_mate (p : Snapshot) (x y : Nat) :
    (p.release x).mate y = if y = x then none else p.mate y := by
  rw [release]
  split
  · rename_i h
    by_cases hy : y = x
    · rw [if_pos hy, hy, h]
    · rw [if_neg hy]
  · exact Function.update_apply ..

theorem Matched.release_owner (h : p.Matched) (x v : Nat) :
    (p.release x).owner v = if p.owner v = some x then none else p.owner v := by
  rw [release]
  split
  · rename_i hnone
    rw [if_neg]
    intro hv
    rw [h.mate_of_owner v x hv] at hnone
    cases hnone
  · rename_i w hw
    have how := h.owner_of_mate x w hw
    dsimp only
    rw [if_pos how, Function.update_apply]
    by_cases hv : v = w
    · subst hv
      rw [if_pos rfl, if_pos how]
    · rw [if_neg hv, if_neg]
      intro hx
      exact hv (Option.some.inj ((h.mate_of_owner v x hx).symm.trans hw))

theorem Matched.release (h : p.Matched) (x : Nat) : (p.release x).Matched := by
  refine ⟨fun y v hy => ?_, fun v y hv => ?_, fun y v hy => ?_⟩
  · rw [release_mate] at hy
    rw [h.release_owner]
    split at hy
    · cases hy
    · rename_i hne
      have ho := h.owner_of_mate y v hy
      rw [ho, if_neg fun heq => hne (Option.some.inj heq)]
  · rw [h.release_owner] at hv
    rw [release_mate]
    split at hv
    · cases hv
    · rename_i hne
      rw [if_neg fun heq : y = x => hne (heq ▸ hv)]
      exact h.mate_of_owner v y hv
  · rw [release_mate] at hy
    split at hy
    · cases hy
    · rw [release_live]
      exact h.live_of_mate y v hy

/-- Two that have no partners are matched. -/
theorem Matched.assign (h : p.Matched) {x a : Nat} (hx : p.mate x = none)
    (ha : p.owner a = none) (hlive : a ∈ p.live x) : (p.assign x a).Matched := by
  refine ⟨fun y v hy => ?_, fun v y hv => ?_, fun y v hy => ?_⟩
  · rw [Snapshot.assign] at hy ⊢
    dsimp only at hy ⊢
    rw [Function.update_apply] at hy ⊢
    split at hy
    · rename_i hyx
      cases hy
      rw [if_pos rfl, hyx]
    · have ho := h.owner_of_mate y v hy
      rw [if_neg]
      · exact ho
      · rintro rfl
        rw [ha] at ho
        cases ho
  · rw [Snapshot.assign] at hv ⊢
    dsimp only at hv ⊢
    rw [Function.update_apply] at hv ⊢
    split at hv
    · rename_i hva
      cases hv
      rw [if_pos rfl, hva]
    · have hm := h.mate_of_owner v y hv
      rw [if_neg]
      · exact hm
      · rintro rfl
        rw [hx] at hm
        cases hm
  · rw [Snapshot.assign] at hy
    dsimp only at hy
    rw [Function.update_apply] at hy
    split at hy
    · rename_i hyx
      cases hy
      rw [hyx]
      exact hlive
    · exact h.live_of_mate y v hy

/-- An edge without a matching is taken out. -/
theorem Matched.unlink (h : p.Matched) {x v : Nat} (hv : p.mate x ≠ some v) :
    (p.unlink x v).Matched := by
  refine ⟨h.owner_of_mate, h.mate_of_owner, fun y u hy => ?_⟩
  show u ∈ Function.update p.live x ((p.live x).erase v) y
  by_cases hyx : y = x
  · subst hyx
    rw [Function.update_self, Finset.mem_erase]
    exact ⟨fun heq => hv (heq ▸ hy), h.live_of_mate y u hy⟩
  · rw [Function.update_of_ne hyx]
    exact h.live_of_mate y u hy

theorem release_unlink (p : Snapshot) (x v : Nat) :
    (p.unlink x v).release x = (p.release x).unlink x v := by
  rw [Snapshot.release, Snapshot.release]
  show (match p.mate x with | none => _ | some _ => _) = _
  cases p.mate x <;> rfl

/-! ## Taking an edge out -/

@[simp]
theorem drop_active (p : Snapshot) (x v : Nat) : (p.drop x v).active = p.active := by
  rw [drop]
  split
  · rw [release_active]
    rfl
  · rfl

theorem drop_live (p : Snapshot) (x v : Nat) :
    (p.drop x v).live = Function.update p.live x ((p.live x).erase v) := by
  rw [drop]
  split
  · rw [release_live]
    rfl
  · rfl

theorem Matched.drop (h : p.Matched) (x v : Nat) : (p.drop x v).Matched := by
  rw [Snapshot.drop]
  split
  · rw [release_unlink]
    refine (h.release x).unlink ?_
    rw [release_mate, if_pos rfl]
    exact fun heq => by cases heq
  · rename_i hv
    exact h.unlink hv

/-- Only the variable of the edge can lose its mate. -/
theorem drop_mate_of_ne (p : Snapshot) {x y : Nat} (v : Nat) (hy : y ≠ x) :
    (p.drop x v).mate y = p.mate y := by
  rw [drop]
  split
  · rw [release_mate, if_neg hy]
    rfl
  · rfl

/-! ## Taking a value -/

/-- Both partners are without a partner before they are matched. -/
theorem Matched.take_cases (h : p.Matched) {x a : Nat} (hx : p.mate x ≠ some a) :
    ∃ q : Snapshot, p.take x a = q.assign x a ∧ q.Matched ∧ q.mate x = none ∧ q.owner a = none ∧
      q.active = p.active ∧ q.live = p.live ∧
      (∀ z, z ≠ x → p.owner a ≠ some z → q.mate z = p.mate z) := by
  rw [take, if_neg hx]
  cases ho : p.owner a with
  | none =>
    refine ⟨p.release x, rfl, h.release x, ?_, ?_, release_active .., release_live .., ?_⟩
    · rw [release_mate, if_pos rfl]
    · rw [h.release_owner, ho]
      split <;> rfl
    · intro z hz _
      rw [release_mate, if_neg hz]
  | some o =>
    have h' := h.release o
    refine ⟨(p.release o).release x, rfl, h'.release x, ?_, ?_, ?_, ?_, ?_⟩
    · rw [release_mate, if_pos rfl]
    · rw [h'.release_owner, h.release_owner, ho, if_pos rfl]
      split <;> rfl
    · rw [release_active, release_active]
    · rw [release_live, release_live]
    · intro z hz hzo
      rw [release_mate, if_neg hz, release_mate, if_neg fun heq => hzo (by rw [heq])]

@[simp]
theorem Matched.take_active (h : p.Matched) (x a : Nat) : (p.take x a).active = p.active := by
  by_cases hx : p.mate x = some a
  · rw [take, if_pos hx]
  · obtain ⟨q, hq, _, _, _, hactive, _⟩ := h.take_cases hx
    rw [hq]
    exact hactive

@[simp]
theorem Matched.take_live (h : p.Matched) (x a : Nat) : (p.take x a).live = p.live := by
  by_cases hx : p.mate x = some a
  · rw [take, if_pos hx]
  · obtain ⟨q, hq, _, _, _, _, hlive, _⟩ := h.take_cases hx
    rw [hq]
    exact hlive

theorem Matched.take (h : p.Matched) {x a : Nat} (hlive : a ∈ p.live x) :
    (p.take x a).Matched ∧ (p.take x a).mate x = some a := by
  by_cases hx : p.mate x = some a
  · rw [Snapshot.take, if_pos hx]
    exact ⟨h, hx⟩
  · obtain ⟨q, hq, hm, hmate, howner, _, hl, _⟩ := h.take_cases hx
    rw [hq]
    exact ⟨hm.assign hmate howner (by rw [hl]; exact hlive), Function.update_self ..⟩

/-- Only the variable and the owner of the value can have other mates afterwards. -/
theorem Matched.take_mate_of_ne (h : p.Matched) {x a z : Nat} (hz : z ≠ x)
    (hza : p.owner a ≠ some z) : (p.take x a).mate z = p.mate z := by
  by_cases hx : p.mate x = some a
  · rw [Snapshot.take, if_pos hx]
  · obtain ⟨q, hq, _, _, _, _, _, hmate⟩ := h.take_cases hx
    rw [hq, ← hmate z hz hza]
    exact Function.update_of_ne hz ..

/-! ## What grounded variables keep -/

/-- The same variables are active, none has more values, and the grounded ones keep theirs. -/
structure Keeps (p q : Snapshot) : Prop where
  active_eq : q.active = p.active
  live_subset : ∀ x, q.live x ⊆ p.live x
  mate_eq : ∀ x v, x ∉ p.active → p.mate x = some v → q.mate x = some v

theorem Keeps.refl (p : Snapshot) : Keeps p p :=
  ⟨rfl, fun _ => Finset.Subset.refl _, fun _ _ _ h => h⟩

theorem Keeps.trans {r : Snapshot} (h : Keeps p q) (h' : Keeps q r) : Keeps p r :=
  ⟨h'.active_eq.trans h.active_eq, fun x => (h'.live_subset x).trans (h.live_subset x),
    fun x v hx hv => h'.mate_eq x v (by rw [h.active_eq]; exact hx) (h.mate_eq x v hx hv)⟩

/-- No variable has more options. -/
theorem Keeps.options_subset (h : Keeps p q) (hp : p.Matched) (hq : q.Matched) (x : Nat) :
    q.options x ⊆ p.options x := by
  intro v hv
  obtain ⟨hlive, hown⟩ := mem_options.1 hv
  refine mem_options.2 ⟨h.live_subset x hlive, fun z hz => ?_⟩
  by_contra hza
  have hmate := h.mate_eq z v hza (hp.mate_of_owner v z hz)
  have hmem := hown z (hq.owner_of_mate z v hmate)
  rw [h.active_eq] at hmem
  exact hza hmem

theorem Keeps.bounded (h : Keeps p q) (hp : p.Matched) (hq : q.Matched) (hb : p.Bounded k) :
    q.Bounded k := by
  obtain ⟨U, ⟨hU, hcard⟩, hk⟩ := hb
  rw [← h.active_eq] at hU hk
  refine ⟨U, ⟨hU, Nat.le_trans (Finset.card_le_card ?_) hcard⟩, hk⟩
  exact Finset.biUnion_mono fun x _ => h.options_subset hp hq x

theorem Keeps.faithful (h : Keeps p q) (hf : p.Faithful val D n) : q.Faithful val D n := by
  intro φ hφ x hx hxa
  rw [h.active_eq] at hxa
  obtain ⟨a, ha, hval⟩ := hf φ hφ x hx hxa
  exact ⟨a, h.mate_eq x a hxa ha, hval⟩

theorem keeps_drop {x : Nat} (hx : x ∈ p.active) (v : Nat) : Keeps p (p.drop x v) := by
  refine ⟨drop_active .., fun y => ?_, fun y u hy hu => ?_⟩
  · rw [drop_live]
    by_cases hyx : y = x
    · subst hyx
      rw [Function.update_self]
      exact Finset.erase_subset ..
    · rw [Function.update_of_ne hyx]
  · rw [drop_mate_of_ne p v fun heq : y = x => hy (heq ▸ hx)]
    exact hu

theorem Matched.keeps_take (h : p.Matched) {x a : Nat} (hx : x ∈ p.active)
    (ha : ∀ z, p.owner a = some z → z ∈ p.active) : Keeps p (p.take x a) := by
  refine ⟨h.take_active .., fun y => ?_, fun y u hy hu => ?_⟩
  · rw [h.take_live]
  · rw [h.take_mate_of_ne (fun heq : y = x => hy (heq ▸ hx)) fun ho => hy (ha y ho)]
    exact hu

/-! ## Grounding a variable -/

theorem Matched.ground (h : p.Matched) (x : Nat) : (p.ground x).Matched :=
  ⟨h.owner_of_mate, h.mate_of_owner, h.live_of_mate⟩

/-- The variable leaves with its mate. -/
theorem Bounded.ground (hb : p.Bounded k) (h : p.Matched) {x a : Nat} (hx : x ∈ p.active)
    (ha : p.mate x = some a) : (p.ground x).Bounded k := by
  obtain ⟨U, ⟨hU, hcard⟩, hk⟩ := hb
  have hopt : ∀ y, (p.ground x).options y ⊆ (p.options y).erase a := by
    intro y v hv
    obtain ⟨hlive, hown⟩ := mem_options.1 hv
    refine Finset.mem_erase.2 ⟨?_, mem_options.2 ⟨hlive, fun z hz => ?_⟩⟩
    · rintro rfl
      exact Finset.notMem_erase x p.active (hown x (h.owner_of_mate x v ha))
    · exact Finset.mem_of_mem_erase (hown z hz)
  refine ⟨U.erase x, ⟨Finset.erase_subset_erase x hU, ?_⟩, ?_⟩
  · have hsub : (U.erase x).biUnion (p.ground x).options ⊆ (U.biUnion p.options).erase a := by
      intro v hv
      obtain ⟨y, hy, hv⟩ := Finset.mem_biUnion.1 hv
      obtain ⟨hva, hv⟩ := Finset.mem_erase.1 (hopt y hv)
      exact Finset.mem_erase.2 ⟨hva, Finset.mem_biUnion.2 ⟨y, Finset.mem_of_mem_erase hy, hv⟩⟩
    have hle := Finset.card_le_card hsub
    by_cases hxU : x ∈ U
    · have hmem : a ∈ U.biUnion p.options :=
        Finset.mem_biUnion.2 ⟨x, hxU, h.mate_mem_options hx ha⟩
      rw [Finset.card_erase_of_mem hmem] at hle
      rw [Finset.card_erase_of_mem hxU]
      omega
    · rw [Finset.erase_eq_of_notMem hxU] at hle ⊢
      exact Nat.le_trans hle (Nat.le_trans (Finset.card_le_card (Finset.erase_subset ..)) hcard)
  · refine Nat.le_trans (Finset.card_le_card fun z hz => ?_) hk
    obtain ⟨hz, hzU⟩ := Finset.mem_sdiff.1 hz
    obtain ⟨hzx, hz⟩ := Finset.mem_erase.1 hz
    exact Finset.mem_sdiff.2 ⟨hz, fun hU' => hzU (Finset.mem_erase.2 ⟨hzx, hU'⟩)⟩

/-- A variable whose domain has one value keeps it. -/
theorem Faithful.ground (hf : p.Faithful val D n) {x a : Nat} (ha : p.mate x = some a)
    (hD : D x ⊆ {val a}) : (p.ground x).Faithful val D n := by
  intro φ hφ y hy hya
  by_cases hyx : y = x
  · subst hyx
    exact ⟨a, ha, (Finset.mem_singleton.1 (hD (hφ.mem y hy))).symm⟩
  · exact hf φ hφ y hy fun hmem => hya (Finset.mem_erase.2 ⟨hyx, hmem⟩)

end FiniteDomain.AllDifferent.Snapshot
