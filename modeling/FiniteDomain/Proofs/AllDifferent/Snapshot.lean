import Mathlib.Combinatorics.Hall.Finite
import Mathlib.Logic.Relation
import Mathlib.Data.Finset.Card

/-!
# Matchings, alternating paths and the edges that may stay

A `Snapshot` is what a value graph shows at one moment: its active variables, the values of the live
edges of each variable, and a matching that is kept from both ends.  Everything that the propagator
concludes from such a picture is justified here, apart from how the picture is stored.

* A covering gives distinct values to the active variables, each along a live edge and none that a
  grounded variable keeps (`Covering`).
* If no variable without a mate is reached from a free value, there is no covering
  (`not_covering_of_stuck`).
* In every covering the mate of a variable that is not reached is used within its component
  (`reflTransGen_of_covering`), and a value that one variable alone can take, while no value is
  free, is used by that variable (`covering_eq_of_forced`).
* All other edges belong to a covering (`exists_covering`).  This is Hall's theorem: a set of
  variables is `Tight` if it has no more values than members, and the two kinds of alternating paths
  are what keeps a value out of all tight sets.
* The variables outside of a tight set bound the number of variables that are ever reached
  (`Bounded`).
-/

namespace FiniteDomain.AllDifferent

/-- The active variables, the values of their live edges, and a matching. -/
@[ext]
structure Snapshot where
  active : Finset Nat
  live : Nat → Finset Nat
  mate : Nat → Option Nat
  owner : Nat → Option Nat

namespace Snapshot

variable {p : Snapshot}

/-! ## Definitions -/

/-- The mates and the owners are two sides of one matching along live edges. -/
structure Matched (p : Snapshot) : Prop where
  owner_of_mate : ∀ x v, p.mate x = some v → p.owner v = some x
  mate_of_owner : ∀ v x, p.owner v = some x → p.mate x = some v
  live_of_mate : ∀ x v, p.mate x = some v → v ∈ p.live x

/-- Every active variable has a mate. -/
def Covered (p : Snapshot) : Prop := ∀ x ∈ p.active, ∃ v, p.mate x = some v

/-- The values that a variable can take without one that a grounded variable keeps. -/
def options (p : Snapshot) (x : Nat) : Finset Nat :=
  (p.live x).filter fun v => ∀ z ∈ p.owner v, z ∈ p.active

/-- Distinct values for the active variables. -/
structure Covering (p : Snapshot) (f : Nat → Nat) : Prop where
  injOn : Set.InjOn f p.active
  mem : ∀ x ∈ p.active, f x ∈ p.options x

/-- The variable `y` can take over the mate of `x`. -/
def Arc (p : Snapshot) (x y : Nat) : Prop :=
  x ∈ p.active ∧ y ∈ p.active ∧ ∃ v, p.mate x = some v ∧ v ∈ p.live y

/-- An alternating path leads to the variable from a value without an owner. -/
inductive Reached (p : Snapshot) : Nat → Prop
  | free {y v : Nat} : y ∈ p.active → v ∈ p.live y → p.owner v = none → Reached p y
  | arc {x y : Nat} : Reached p x → p.Arc x y → Reached p y

/-- Each of the two variables can take over the other's mate by way of exchanges. -/
def Together (p : Snapshot) (x y : Nat) : Prop :=
  Relation.ReflTransGen p.Arc x y ∧ Relation.ReflTransGen p.Arc y x

/-- All the variables in `U` together have no more values than there are variables in it. -/
def Tight (p : Snapshot) (U : Finset Nat) : Prop :=
  U ⊆ p.active ∧ (U.biUnion p.options).card ≤ U.card

/-- At most `k` active variables lie outside of some tight set. -/
def Bounded (p : Snapshot) (k : Nat) : Prop :=
  ∃ U, p.Tight U ∧ (p.active \ U).card ≤ k

/-! ## First facts -/

theorem mem_options {x v : Nat} :
    v ∈ p.options x ↔ v ∈ p.live x ∧ ∀ z, p.owner v = some z → z ∈ p.active := by
  rw [options, Finset.mem_filter]
  rfl

theorem Matched.mate_injective (h : p.Matched) {x y v : Nat} (hx : p.mate x = some v)
    (hy : p.mate y = some v) : x = y :=
  Option.some.inj ((h.owner_of_mate x v hx).symm.trans (h.owner_of_mate y v hy))

/-- The mate of an active variable is a value it can take. -/
theorem Matched.mate_mem_options (h : p.Matched) {x v : Nat} (hx : x ∈ p.active)
    (hv : p.mate x = some v) : v ∈ p.options x := by
  refine mem_options.2 ⟨h.live_of_mate x v hv, fun z hz => ?_⟩
  rw [h.owner_of_mate x v hv] at hz
  exact Option.some.inj hz ▸ hx

/-- A variable that can take over the mate of an active one. -/
theorem Matched.arc_of_mem_options (h : p.Matched) {w z v : Nat} (hz : z ∈ p.active)
    (hv : v ∈ p.options z) (hw : p.owner v = some w) : p.Arc w z :=
  ⟨(mem_options.1 hv).2 w hw, hz, v, h.mate_of_owner v w hw, (mem_options.1 hv).1⟩

theorem Reached.mem_active {y : Nat} (h : p.Reached y) : y ∈ p.active := by
  cases h with
  | free hy _ _ => exact hy
  | arc _ ha => exact ha.2.1

/-- In a covering, a variable that is not reached uses the mate of another such variable. -/
theorem Matched.exists_owner (h : p.Matched) {f : Nat → Nat} (hf : p.Covering f) {z : Nat}
    (hz : z ∈ p.active) (hr : ¬ p.Reached z) :
    ∃ w, p.owner (f z) = some w ∧ p.mate w = some (f z) ∧ p.Arc w z ∧ ¬ p.Reached w := by
  have hv := hf.mem z hz
  cases hw : p.owner (f z) with
  | none => exact absurd (.free hz (mem_options.1 hv).1 hw) hr
  | some w =>
    have harc := h.arc_of_mem_options hz hv hw
    exact ⟨w, rfl, h.mate_of_owner _ w hw, harc, fun hw' => hr (.arc hw' harc)⟩

/-! ## What holds of every covering -/

open Classical in
/-- If a variable has no mate, and none of the variables that are reached lacks one, then there is
no covering: the variables that are not reached have too few values. -/
theorem not_covering_of_stuck (h : p.Matched) {u : Nat} (hu : u ∈ p.active)
    (hnone : p.mate u = none) (hstuck : ∀ y, p.Reached y → p.mate y ≠ none) (f : Nat → Nat) :
    ¬ p.Covering f := by
  intro hf
  let U := p.active.filter fun z => ¬ p.Reached z
  have hmem : ∀ {z}, z ∈ U ↔ z ∈ p.active ∧ ¬ p.Reached z := Finset.mem_filter
  have huU : u ∈ U := hmem.2 ⟨hu, fun hr => hstuck u hr hnone⟩
  have hmaps : Set.MapsTo (fun z => (p.owner (f z)).getD 0) U (U.erase u) := by
    intro z hz
    obtain ⟨hz, hr⟩ := hmem.1 (Finset.mem_coe.1 hz)
    obtain ⟨w, hw, hmate, harc, hwr⟩ := h.exists_owner hf hz hr
    dsimp only
    rw [hw, Option.getD_some, Finset.mem_coe, Finset.mem_erase]
    refine ⟨?_, hmem.2 ⟨harc.1, hwr⟩⟩
    rintro rfl
    rw [hnone] at hmate
    cases hmate
  have hinj : Set.InjOn (fun z => (p.owner (f z)).getD 0) U := by
    intro z hz z' hz' heq
    obtain ⟨hz, hr⟩ := hmem.1 (Finset.mem_coe.1 hz)
    obtain ⟨hz', hr'⟩ := hmem.1 (Finset.mem_coe.1 hz')
    obtain ⟨w, hw, hmate, _⟩ := h.exists_owner hf hz hr
    obtain ⟨w', hw', hmate', _⟩ := h.exists_owner hf hz' hr'
    dsimp only at heq
    rw [hw, hw', Option.getD_some, Option.getD_some] at heq
    subst heq
    exact hf.injOn (Finset.mem_coe.2 hz) (Finset.mem_coe.2 hz')
      (Option.some.inj (hmate.symm.trans hmate'))
  have hle := Finset.card_le_card_of_injOn _ hmaps hinj
  have hpos := Finset.card_pos.2 ⟨u, huU⟩
  rw [Finset.card_erase_of_mem huU] at hle
  omega

open Classical in
/-- A variable that uses the mate of one that is not reached leads to it. -/
theorem reflTransGen_of_covering (h : p.Matched) {f : Nat → Nat} (hf : p.Covering f) {x y a : Nat}
    (hx : x ∈ p.active) (hr : ¬ p.Reached x) (ha : p.mate x = some a) (hy : y ∈ p.active)
    (hfy : f y = a) : Relation.ReflTransGen p.Arc y x := by
  -- Going from a variable to the owner of the value it uses permutes the variables that are not
  -- reached and lead to `x`.
  let P := p.active.filter fun z => ¬ p.Reached z ∧ Relation.ReflTransGen p.Arc z x
  have hmem : ∀ {z}, z ∈ P ↔ z ∈ p.active ∧ ¬ p.Reached z ∧ Relation.ReflTransGen p.Arc z x :=
    Finset.mem_filter
  have hmaps : Set.MapsTo (fun z => (p.owner (f z)).getD 0) P P := by
    intro z hz
    obtain ⟨hz, hr, hto⟩ := hmem.1 (Finset.mem_coe.1 hz)
    obtain ⟨w, hw, _, harc, hwr⟩ := h.exists_owner hf hz hr
    dsimp only
    rw [hw, Option.getD_some, Finset.mem_coe]
    exact hmem.2 ⟨harc.1, hwr, hto.head harc⟩
  have hinj : Set.InjOn (fun z => (p.owner (f z)).getD 0) P := by
    intro z hz z' hz' heq
    obtain ⟨hz, hr, _⟩ := hmem.1 (Finset.mem_coe.1 hz)
    obtain ⟨hz', hr', _⟩ := hmem.1 (Finset.mem_coe.1 hz')
    obtain ⟨w, hw, hmate, _⟩ := h.exists_owner hf hz hr
    obtain ⟨w', hw', hmate', _⟩ := h.exists_owner hf hz' hr'
    dsimp only at heq
    rw [hw, hw', Option.getD_some, Option.getD_some] at heq
    subst heq
    exact hf.injOn (Finset.mem_coe.2 hz) (Finset.mem_coe.2 hz')
      (Option.some.inj (hmate.symm.trans hmate'))
  have hsurj := Finset.surjOn_of_injOn_of_card_le _ hmaps hinj (Nat.le_refl _)
  obtain ⟨z, hzP, hzx⟩ := hsurj (Finset.mem_coe.2 (hmem.2 ⟨hx, hr, .refl⟩))
  obtain ⟨hzA, hzr, hto⟩ := hmem.1 (Finset.mem_coe.1 hzP)
  obtain ⟨w, hw, hmate, _⟩ := h.exists_owner hf hzA hzr
  dsimp only at hzx
  rw [hw, Option.getD_some] at hzx
  subst hzx
  have heq : f z = f y := by rw [hfy, ← Option.some.inj (hmate.symm.trans ha)]
  rw [← hf.injOn (Finset.mem_coe.2 hzA) (Finset.mem_coe.2 hy) heq]
  exact hto

/-- While no value is free, a value that one variable alone can take is used by its owner. -/
theorem covering_eq_of_forced (h : p.Matched) {f : Nat → Nat} (hf : p.Covering f)
    (hfull : ∀ x ∈ p.active, ∀ v ∈ p.live x, p.owner v ≠ none) {x v : Nat} (hx : x ∈ p.active)
    (hv : p.owner v = some x) (honly : ∀ y ∈ p.active, v ∈ p.live y → y = x) : f x = v := by
  have hnot : ∀ {z}, ¬ p.Reached z := by
    intro z hz
    induction hz with
    | free hy hlive hnone => exact hfull _ hy _ hlive hnone
    | arc _ _ ih => exact ih
  have hmaps : Set.MapsTo (fun z => (p.owner (f z)).getD 0) p.active p.active := by
    intro z hz
    obtain ⟨w, hw, _, harc, _⟩ := h.exists_owner hf (Finset.mem_coe.1 hz) hnot
    dsimp only
    rw [hw, Option.getD_some, Finset.mem_coe]
    exact harc.1
  have hinj : Set.InjOn (fun z => (p.owner (f z)).getD 0) p.active := by
    intro z hz z' hz' heq
    obtain ⟨w, hw, hmate, _⟩ := h.exists_owner hf (Finset.mem_coe.1 hz) hnot
    obtain ⟨w', hw', hmate', _⟩ := h.exists_owner hf (Finset.mem_coe.1 hz') hnot
    dsimp only at heq
    rw [hw, hw', Option.getD_some, Option.getD_some] at heq
    subst heq
    exact hf.injOn hz hz' (Option.some.inj (hmate.symm.trans hmate'))
  have hsurj := Finset.surjOn_of_injOn_of_card_le _ hmaps hinj (Nat.le_refl _)
  obtain ⟨z, hz, hzx⟩ := hsurj (Finset.mem_coe.2 hx)
  obtain ⟨w, hw, hmate, _⟩ := h.exists_owner hf (Finset.mem_coe.1 hz) hnot
  dsimp only at hzx
  rw [hw, Option.getD_some] at hzx
  subst hzx
  have hfz : f z = v := Option.some.inj (hmate.symm.trans (h.mate_of_owner v w hv))
  have hlive := (mem_options.1 (hf.mem z (Finset.mem_coe.1 hz))).1
  rw [hfz] at hlive
  rw [← honly z (Finset.mem_coe.1 hz) hlive]
  exact hfz

/-! ## Tight sets -/

/-- Distinct mates are distinct values that the variables of a set can take. -/
theorem Matched.image_mates (h : p.Matched) (hc : p.Covered) {U : Finset Nat}
    (hU : U ⊆ p.active) :
    U.image (fun x => (p.mate x).getD 0) ⊆ U.biUnion p.options ∧
      (U.image fun x => (p.mate x).getD 0).card = U.card := by
  constructor
  · intro v hv
    obtain ⟨x, hx, rfl⟩ := Finset.mem_image.1 hv
    obtain ⟨v, hv⟩ := hc x (hU hx)
    rw [hv, Option.getD_some]
    exact Finset.mem_biUnion.2 ⟨x, hx, h.mate_mem_options (hU hx) hv⟩
  · refine Finset.card_image_of_injOn fun x hx y hy heq => ?_
    obtain ⟨v, hv⟩ := hc x (hU (Finset.mem_coe.1 hx))
    obtain ⟨v', hv'⟩ := hc y (hU (Finset.mem_coe.1 hy))
    rw [hv, hv', Option.getD_some, Option.getD_some] at heq
    subst heq
    exact h.mate_injective hv hv'

/-- The values of a tight set are the mates of its members. -/
theorem Tight.exists_mate {U : Finset Nat} (ht : p.Tight U) (h : p.Matched) (hc : p.Covered)
    {z v : Nat} (hz : z ∈ U) (hv : v ∈ p.options z) : ∃ w ∈ U, p.mate w = some v := by
  obtain ⟨hsub, hcard⟩ := h.image_mates hc ht.1
  have heq := Finset.eq_of_subset_of_card_le hsub (by rw [hcard]; exact ht.2)
  have hmem : v ∈ U.image fun x => (p.mate x).getD 0 := by
    rw [heq]
    exact Finset.mem_biUnion.2 ⟨z, hz, hv⟩
  obtain ⟨w, hw, hwv⟩ := Finset.mem_image.1 hmem
  obtain ⟨v', hv'⟩ := hc w (ht.1 hw)
  rw [hv', Option.getD_some] at hwv
  exact ⟨w, hw, hwv ▸ hv'⟩

/-- No arc enters a tight set. -/
theorem Tight.mem_of_arc {U : Finset Nat} (ht : p.Tight U) (h : p.Matched) (hc : p.Covered)
    {w z : Nat} (harc : p.Arc w z) (hz : z ∈ U) : w ∈ U := by
  obtain ⟨hw, _, v, hmate, hlive⟩ := harc
  have hv : v ∈ p.options z := by
    refine mem_options.2 ⟨hlive, fun w' hw' => ?_⟩
    rw [h.owner_of_mate w v hmate] at hw'
    exact Option.some.inj hw' ▸ hw
  obtain ⟨w', hw', hmate'⟩ := ht.exists_mate h hc hz hv
  rw [h.mate_injective hmate hmate']
  exact hw'

/-- No variable of a tight set is reached. -/
theorem Tight.not_mem_of_reached {U : Finset Nat} (ht : p.Tight U) (h : p.Matched)
    (hc : p.Covered) {z : Nat} (hz : p.Reached z) : z ∉ U := by
  induction hz with
  | free hy hlive hnone =>
    intro hU
    obtain ⟨w, _, hmate⟩ := ht.exists_mate h hc hU
      (mem_options.2 ⟨hlive, fun z hz => by rw [hnone] at hz; cases hz⟩)
    rw [h.owner_of_mate _ _ hmate] at hnone
    cases hnone
  | arc _ harc ih => exact fun hU => ih (ht.mem_of_arc h hc harc hU)

/-- What leads into a tight set lies in it. -/
theorem Tight.mem_of_reflTransGen {U : Finset Nat} (ht : p.Tight U) (h : p.Matched)
    (hc : p.Covered) {y x : Nat} (hto : Relation.ReflTransGen p.Arc y x) (hx : x ∈ U) : y ∈ U := by
  induction hto using Relation.ReflTransGen.head_induction_on with
  | refl => exact hx
  | head harc _ ih => exact ht.mem_of_arc h hc harc ih

open Classical in
/-- At most as many variables are reached as lie outside of a tight set. -/
theorem Bounded.card_reached_le {k : Nat} (hb : p.Bounded k) (h : p.Matched) (hc : p.Covered) :
    (p.active.filter p.Reached).card ≤ k := by
  obtain ⟨U, ht, hk⟩ := hb
  refine Nat.le_trans (Finset.card_le_card fun z hz => ?_) hk
  obtain ⟨hz, hr⟩ := Finset.mem_filter.1 hz
  exact Finset.mem_sdiff.2 ⟨hz, ht.not_mem_of_reached h hc hr⟩

open Classical in
/-- The variables that are not reached form a tight set. -/
theorem Matched.bounded_card_reached (h : p.Matched) :
    p.Bounded (p.active.filter p.Reached).card := by
  refine ⟨p.active.filter fun z => ¬ p.Reached z, ⟨Finset.filter_subset _ _, ?_⟩, ?_⟩
  · refine Nat.le_trans (Finset.card_le_card ?_)
      (Finset.card_image_le (f := fun x => (p.mate x).getD 0))
    intro v hv
    obtain ⟨z, hz, hv⟩ := Finset.mem_biUnion.1 hv
    obtain ⟨hz, hr⟩ := Finset.mem_filter.1 hz
    cases hw : p.owner v with
    | none => exact absurd (.free hz (mem_options.1 hv).1 hw) hr
    | some w =>
      have harc := h.arc_of_mem_options hz hv hw
      refine Finset.mem_image.2 ⟨w, Finset.mem_filter.2 ⟨harc.1, fun hw' => hr (.arc hw' harc)⟩, ?_⟩
      rw [h.mate_of_owner v w hw, Option.getD_some]
  · refine Finset.card_le_card fun z hz => ?_
    obtain ⟨hz, hn⟩ := Finset.mem_sdiff.1 hz
    refine Finset.mem_filter.2 ⟨hz, ?_⟩
    by_contra hr
    exact hn (Finset.mem_filter.2 ⟨hz, hr⟩)

/-! ## The edges that may stay -/

/-- Hall's theorem: if any active variables together have enough of the values that `t` leaves them,
there is a covering with these values. -/
theorem exists_covering_of_card_le {t : Nat → Finset Nat} (ht : ∀ x ∈ p.active, t x ⊆ p.options x)
    (hcard : ∀ S ⊆ p.active, S.card ≤ (S.biUnion t).card) :
    ∃ f, p.Covering f ∧ ∀ x ∈ p.active, f x ∈ t x := by
  obtain ⟨f, hinj, hf⟩ := (Finset.all_card_le_biUnion_card_iff_existsInjective'
    fun x : {x // x ∈ p.active} => t x.1).1 fun S => by
      have hsub : S.image Subtype.val ⊆ p.active := by
        intro x hx
        obtain ⟨x', _, rfl⟩ := Finset.mem_image.1 hx
        exact x'.2
      have hle := hcard _ hsub
      rw [Finset.card_image_of_injective _ Subtype.val_injective, Finset.image_biUnion] at hle
      exact hle
  have hmem : ∀ x (hx : x ∈ p.active),
      (if hx : x ∈ p.active then f ⟨x, hx⟩ else 0) ∈ t x := by
    intro x hx
    rw [dif_pos hx]
    exact hf ⟨x, hx⟩
  refine ⟨fun x => if hx : x ∈ p.active then f ⟨x, hx⟩ else 0,
    ⟨fun x hx y hy heq => ?_, fun x hx => ht x hx (hmem x hx)⟩, hmem⟩
  rw [dif_pos (Finset.mem_coe.1 hx), dif_pos (Finset.mem_coe.1 hy)] at heq
  exact congrArg Subtype.val (hinj heq)

/-- Active variables other than `y` have enough values other than `a`, if `a` is the mate of `y`, or
free, or the mate of a variable that is reached or that `y` leads to. -/
theorem Matched.card_le_card_erase (h : p.Matched) (hc : p.Covered) {y a : Nat}
    (hwhy : ∀ x, p.owner a = some x → x = y ∨ p.Reached x ∨ Relation.ReflTransGen p.Arc y x)
    {S : Finset Nat} (hS : S ⊆ p.active) (hyS : y ∉ S) :
    S.card ≤ ((S.biUnion p.options).erase a).card := by
  obtain ⟨hsub, hcard⟩ := h.image_mates hc hS
  have hle := Finset.card_le_card hsub
  rw [hcard] at hle
  by_cases haS : a ∈ S.biUnion p.options
  · rw [Finset.card_erase_of_mem haS]
    by_contra hlt
    have ht : p.Tight S := ⟨hS, by omega⟩
    obtain ⟨z, hz, haz⟩ := Finset.mem_biUnion.1 haS
    obtain ⟨x, hx, hmate⟩ := ht.exists_mate h hc hz haz
    rcases hwhy x (h.owner_of_mate x a hmate) with rfl | hr | hto
    · exact hyS hx
    · exact ht.not_mem_of_reached h hc hr hx
    · exact hyS (ht.mem_of_reflTransGen h hc hto hx)
  · rw [Finset.erase_eq_of_notMem haS]
    exact hle

/-- The values that are left when `y` takes `a`. -/
def optionsTaking (p : Snapshot) (y a x : Nat) : Finset Nat :=
  if x = y then {a} else (p.options x).erase a

theorem erase_biUnion_subset (p : Snapshot) (y a : Nat) (S : Finset Nat) :
    ((S.erase y).biUnion p.options).erase a ⊆ S.biUnion (p.optionsTaking y a) := by
  intro v hv
  obtain ⟨hva, hv⟩ := Finset.mem_erase.1 hv
  obtain ⟨x, hx, hv⟩ := Finset.mem_biUnion.1 hv
  obtain ⟨hxy, hx⟩ := Finset.mem_erase.1 hx
  refine Finset.mem_biUnion.2 ⟨x, hx, ?_⟩
  rw [optionsTaking, if_neg hxy]
  exact Finset.mem_erase.2 ⟨hva, hv⟩

/-- A covering exists that uses a given edge, if the value is a mate, or free, or the mate of a
variable that is reached or in the same component. -/
theorem exists_covering (h : p.Matched) (hc : p.Covered) {y a : Nat} (hy : y ∈ p.active)
    (ha : a ∈ p.options y)
    (hwhy : ∀ x, p.owner a = some x → x = y ∨ p.Reached x ∨ Relation.ReflTransGen p.Arc y x) :
    ∃ f, p.Covering f ∧ f y = a := by
  have hself : p.optionsTaking y a y = {a} := if_pos rfl
  obtain ⟨f, hf, hmem⟩ := exists_covering_of_card_le (t := p.optionsTaking y a)
    (fun x _ => by
      rw [optionsTaking]
      split
      · rename_i hxy
        rw [Finset.singleton_subset_iff, hxy]
        exact ha
      · exact Finset.erase_subset a _)
    (fun S hS => by
      have hrest := erase_biUnion_subset p y a S
      have hle := h.card_le_card_erase hc hwhy ((Finset.erase_subset y S).trans hS)
        (Finset.notMem_erase y S)
      by_cases hyS : y ∈ S
      · have hin : a ∈ S.biUnion (p.optionsTaking y a) :=
          Finset.mem_biUnion.2 ⟨y, hyS, hself ▸ Finset.mem_singleton_self a⟩
        have hcard := Finset.card_le_card (Finset.insert_subset hin hrest)
        rw [Finset.card_insert_of_notMem (Finset.notMem_erase a _)] at hcard
        rw [Finset.card_erase_of_mem hyS] at hle
        omega
      · rw [Finset.erase_eq_of_notMem hyS] at hle hrest
        exact hle.trans (Finset.card_le_card hrest))
  have hfy := hmem y hy
  rw [hself, Finset.mem_singleton] at hfy
  exact ⟨f, hf, hfy⟩

end Snapshot

end FiniteDomain.AllDifferent
