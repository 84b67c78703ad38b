import FiniteDomain.Proofs.Trail.Sessions
import Mathlib.Order.Bounds.Basic

/-!
# The laws of a reversible set

A reversible set is a finite set of integers: every question about it is answered from that set, and
every update is an operation on it.  A call fails only if its arithmetic leaves the range.

* `Checked` is a call that answers if its arithmetic stays in range, and is an overflow otherwise.
* `Answers` are the answers to the questions about one set, `Sound.answers` says that they are those
  about its members, and `Answers.eq_domain` that they leave no other choice of members.
* `Confined` is a change that writes into the cells of one set only.  Each update is one.
* `Leaves` is what an update comes to, and `Lawful` are all questions and updates together:
  `Session.Runs.set_lawful`.
-/

namespace FiniteDomain.Trail

variable {t t' t'' : Trail} {id : SetId} {s : SparseSet} {v : Int}

/-! ## Calls that are checked -/

/-- A call with an answer of the property `P` as long as its arithmetic fits, and an overflow
otherwise. -/
structure Checked {α : Type} (fits : Prop) (call : Except Fault α) (P : α → Prop) : Prop where
  returns : fits → ∃ a, call = .ok a ∧ P a
  overflows : ¬ fits → call = .error .overflow

/-- A call that returned has an answer of the property. -/
theorem Checked.of_ok {α : Type} {fits : Prop} {call : Except Fault α} {P : α → Prop}
    (h : Checked fits call P) {a : α} (hret : call = .ok a) : fits ∧ P a := by
  by_cases hfits : fits
  · obtain ⟨b, hb, hP⟩ := h.returns hfits
    rw [hret] at hb
    cases hb
    exact ⟨hfits, hP⟩
  · rw [h.overflows hfits] at hret
    cases hret

/-! ## The questions -/

/-- The questions about the set `id`, whose values are counted from `offset` on, are answered from
the members `D`. -/
structure Answers (t : Trail) (id : SetId) (offset : Int) (D : Finset Int) : Prop where
  elements : Checked (∀ v ∈ D, Word.InRange v) (t.elements id) fun vs =>
    vs.Nodup ∧ ∀ v, v ∈ vs ↔ v ∈ D
  member : ∀ v, Checked (Word.InRange (v - offset)) (t.member id v) fun found =>
    found = true ↔ v ∈ D
  card : t.card id = .ok D.card
  least : Checked (∀ v, IsLeast (D : Set Int) v → Word.InRange v) (t.least? id) fun least =>
    (least = none ↔ D = ∅) ∧ ∀ v, least = some v ↔ IsLeast (D : Set Int) v
  greatest : Checked (∀ v, IsGreatest (D : Set Int) v → Word.InRange v) (t.greatest? id)
    fun greatest =>
      (greatest = none ↔ D = ∅) ∧ ∀ v, greatest = some v ↔ IsGreatest (D : Set Int) v

/-- The members are listed if all of them are in range. -/
theorem checked_elements (h : t.Sound) (hs : t.sets[id.index]? = some s) :
    Checked (∀ v ∈ t.domain t.now id, Word.InRange v) (t.elements id) fun vs =>
      vs.Nodup ∧ ∀ v, v ∈ vs ↔ v ∈ t.domain t.now id := by
  obtain ⟨rs, hret, hnodup, hmem⟩ := elements_eq_mapM h hs
  have hholds : ∀ r ∈ rs, s.offset + (r : Int) ∈ t.domain t.now id := fun r hr => by
    rw [domain_eq hs, add_mem_domainOf]
    exact (hmem r).1 hr
  refine ⟨fun hfits => ⟨rs.map fun r : Nat => s.offset + (r : Int), ?_, ?_, fun v => ?_⟩,
    fun hout => ?_⟩
  · rw [hret]
    refine mapM_eq_ok fun r hr => ?_
    rw [Word.add, Int.add_comm, Word.check_of_inRange (hfits _ (hholds r hr))]
  · exact hnodup.map fun a b hab => by omega
  · rw [domain_eq hs, mem_domainOf, List.mem_map]
    exact exists_congr fun r => and_congr_left fun _ => hmem r
  · obtain ⟨v, hv, hvout⟩ : ∃ v ∈ t.domain t.now id, ¬ Word.InRange v := by
      simpa using hout
    rw [domain_eq hs] at hv
    obtain ⟨r, hr, rfl⟩ := mem_domainOf.1 hv
    rw [hret]
    refine mapM_eq_error (fun a _ => ?_) ⟨r, (hmem r).2 hr, ?_⟩
    · by_cases ha : Word.InRange ((a : Int) + s.offset)
      · exact Or.inl ⟨_, Word.check_of_inRange ha⟩
      · exact Or.inr (if_neg ha)
    · rw [Int.add_comm] at hvout
      exact if_neg hvout

/-- A value is looked up if its distance to the offset is in range. -/
theorem checked_member (h : t.Sound) (hs : t.sets[id.index]? = some s) (v : Int) :
    Checked (Word.InRange (v - s.offset)) (t.member id v) fun found =>
      found = true ↔ v ∈ t.domain t.now id := by
  refine ⟨fun hin => ⟨_, member_of_inRange h hs hin, decide_eq_true_iff⟩, fun hout => ?_⟩
  rw [member_eq h hs, Word.sub, Word.check, if_neg hout]
  rfl

/-- What is read as the extreme member `v`, of a set that has one, is checked. -/
theorem checked_extreme {E : Int → Prop} {D : Finset Int} {call : Except Fault (Option Int)}
    (hne : ∀ v, E v → v ∈ D) (hunique : ∀ v w, E v → E w → v = w)
    (h : D = ∅ ∧ call = .ok none ∨
      ∃ v, call = (Word.check v >>= fun v => .ok (some v)) ∧ E v) :
    Checked (∀ v, E v → Word.InRange v) call fun answer =>
      (answer = none ↔ D = ∅) ∧ ∀ v, answer = some v ↔ E v := by
  obtain ⟨rfl, hret⟩ | ⟨v, hret, hv⟩ := h
  · have hnone : ∀ v, ¬ E v := fun v hv => absurd (hne v hv) (Finset.notMem_empty v)
    refine ⟨fun _ => ⟨none, hret, iff_of_true rfl rfl, fun v => iff_of_false (by simp) (hnone v)⟩,
      fun hout => absurd (fun v hv => absurd hv (hnone v)) hout⟩
  · refine ⟨fun hfits => ⟨some v, ?_, iff_of_false (by simp) ?_, fun w => ⟨?_, fun hw => ?_⟩⟩,
      fun hout => ?_⟩
    · rw [hret, Word.check_of_inRange (hfits v hv), ok_bind]
    · exact Finset.ne_empty_of_mem (hne v hv)
    · intro hw
      cases hw
      exact hv
    · rw [hunique v w hv hw]
    · have hvout : ¬ Word.InRange v := fun hin => hout fun w hw => (hunique v w hv hw) ▸ hin
      rw [hret, Word.check, if_neg hvout]
      rfl

/-- On a sound trail the questions are answered from the members of the present. -/
theorem Sound.answers (h : t.Sound) (hs : t.sets[id.index]? = some s) :
    Answers t id s.offset (t.domain t.now id) where
  elements := checked_elements h hs
  member := checked_member h hs
  card := card_eq h hs
  least := checked_extreme (fun _ hv => Finset.mem_coe.1 hv.1) (fun _ _ hv hw => hv.unique hw)
    (least?_eq h hs)
  greatest := checked_extreme (fun _ hv => Finset.mem_coe.1 hv.1) (fun _ _ hv hw => hv.unique hw)
    (greatest?_eq h hs)

/-- The answers say what the members are. -/
theorem Answers.eq_domain {D : Finset Int} (h : Answers t id s.offset D) (ht : t.Sound)
    (hs : t.sets[id.index]? = some s) : D = t.domain t.now id := by
  refine (Finset.eq_of_subset_of_card_le (fun v hv => ?_) (Nat.le_of_eq ?_)).symm
  · rw [domain_eq hs] at hv
    have hin := inRange_sub_of_mem ht hs hv
    rw [← domain_eq hs] at hv
    exact ((h.member v).of_ok (member_of_inRange ht hs hin)).2.1 (decide_eq_true hv)
  · have hcard := h.card
    rw [card_eq ht hs] at hcard
    exact (Except.ok.inj hcard).symm

/-! ## What an update does not touch -/

/-- A change that writes into the cells of one set only. -/
structure Confined (t t' : Trail) (s : SparseSet) : Prop where
  sets_eq : t'.sets = t.sets
  read_eq : ∀ c, c ∉ s.cells → t'.read c = t.read c

theorem Confined.refl (t : Trail) (s : SparseSet) : Confined t t s := ⟨rfl, fun _ _ => rfl⟩

theorem Confined.trans (h : Confined t t' s) (h' : Confined t' t'' s) : Confined t t'' s :=
  ⟨h'.sets_eq.trans h.sets_eq, fun c hc => (h'.read_eq c hc).trans (h.read_eq c hc)⟩

/-- A write into a cell of the set. -/
theorem confined_write {c : Cell} (hc : c ∈ s.cells) (hret : t.write c v = .ok t') :
    Confined t t' s := by
  refine ⟨?_, fun d hd => ?_⟩
  · rw [write] at hret
    split at hret
    · cases hret
    · split_ifs at hret <;> cases hret <;> rfl
  · rw [read_write hret, if_neg fun heq => hd (by rwa [heq])]

/-- An exchange writes into no cell. -/
theorem confined_exchange {a b : Nat} (hret : t.exchange a b = .ok t') : Confined t t' s := by
  rw [exchange] at hret
  obtain ⟨i, _, hret⟩ := bind_eq_ok_iff.1 hret
  obtain ⟨j, _, hret⟩ := bind_eq_ok_iff.1 hret
  split_ifs at hret
  cases hret
  exact ⟨rfl, fun _ _ => rfl⟩

/-- The bounds that are brought up to date are cells of the set. -/
theorem confined_refreshBounds {k r : Nat} (hret : t.refreshBounds s k r = .ok t') :
    Confined t t' s := by
  rw [refreshBounds] at hret
  split_ifs at hret with hzero
  · cases hret
    exact .refl t s
  · obtain ⟨stop, _, hret⟩ := bind_eq_ok_iff.1 hret
    obtain ⟨least, _, hret⟩ := bind_eq_ok_iff.1 hret
    dsimp only at hret
    rw [ite_bind] at hret
    obtain ⟨t₁, h₁, hret⟩ := bind_eq_ok_iff.1 hret
    have hfirst : Confined t t₁ s := by
      split_ifs at h₁
      · exact confined_write s.least_mem_cells h₁
      · cases h₁
        exact .refl t s
    obtain ⟨greatest, _, hret⟩ := bind_eq_ok_iff.1 hret
    split_ifs at hret
    · exact hfirst.trans (confined_write s.greatest_mem_cells hret)
    · cases hret
      exact hfirst

/-- Removing a value. -/
theorem confined_erase (hs : t.sets[id.index]? = some s) {found : Bool}
    (hret : t.erase id v = .ok (found, t')) : Confined t t' s := by
  rw [erase] at hret
  obtain ⟨answer, _, hret⟩ := bind_eq_ok_iff.1 hret
  split_ifs at hret
  · rw [describe_eq hs, ok_bind] at hret
    obtain ⟨r, _, hret⟩ := bind_eq_ok_iff.1 hret
    obtain ⟨size, _, hret⟩ := bind_eq_ok_iff.1 hret
    obtain ⟨sum, _, hret⟩ := bind_eq_ok_iff.1 hret
    obtain ⟨place, _, hret⟩ := bind_eq_ok_iff.1 hret
    obtain ⟨last, _, hret⟩ := bind_eq_ok_iff.1 hret
    obtain ⟨t₁, hexchange, hret⟩ := bind_eq_ok_iff.1 hret
    obtain ⟨⟨rest, t₂⟩, hdecrement, hret⟩ := bind_eq_ok_iff.1 hret
    obtain ⟨t₃, hrefresh, hret⟩ := bind_eq_ok_iff.1 hret
    cases hret
    rw [decrement] at hdecrement
    obtain ⟨old, _, hdecrement⟩ := bind_eq_ok_iff.1 hdecrement
    obtain ⟨less, _, hdecrement⟩ := bind_eq_ok_iff.1 hdecrement
    obtain ⟨t₂', hwrite, hdecrement⟩ := bind_eq_ok_iff.1 hdecrement
    cases hdecrement
    exact (confined_exchange hexchange).trans
      ((confined_write s.size_mem_cells hwrite).trans (confined_refreshBounds hrefresh))
  · cases hret
    exact .refl t s

/-- Removing all members. -/
theorem confined_clear (hs : t.sets[id.index]? = some s) (hret : t.clear id = .ok t') :
    Confined t t' s := by
  rw [clear, describe_eq hs, ok_bind] at hret
  exact confined_write s.size_mem_cells hret

/-- Keeping one value. -/
theorem confined_keepOnly (hs : t.sets[id.index]? = some s) (hret : t.keepOnly id v = .ok t') :
    Confined t t' s := by
  rw [keepOnly] at hret
  obtain ⟨answer, _, hret⟩ := bind_eq_ok_iff.1 hret
  split_ifs at hret
  · rw [describe_eq hs, ok_bind] at hret
    obtain ⟨r, _, hret⟩ := bind_eq_ok_iff.1 hret
    obtain ⟨first, _, hret⟩ := bind_eq_ok_iff.1 hret
    obtain ⟨t₁, hexchange, hret⟩ := bind_eq_ok_iff.1 hret
    obtain ⟨t₂, hsize, hret⟩ := bind_eq_ok_iff.1 hret
    obtain ⟨t₃, hleast, hret⟩ := bind_eq_ok_iff.1 hret
    exact (confined_exchange hexchange).trans ((confined_write s.size_mem_cells hsize).trans
      ((confined_write s.least_mem_cells hleast).trans
        (confined_write s.greatest_mem_cells hret)))
  · exact confined_clear hs hret

/-- Removing several values, by induction on their number. -/
theorem confined_eraseRun {count : Nat} (hs : t.sets[id.index]? = some s)
    (hret : eraseRun id count v t = .ok t') : Confined t t' s := by
  induction count generalizing t v with
  | zero =>
    cases hret
    exact .refl _ s
  | succ count ih =>
    obtain ⟨⟨found, t₁⟩, herase, hret⟩ := bind_eq_ok_iff.1 hret
    have hfirst := confined_erase hs herase
    exact hfirst.trans (ih (hfirst.sets_eq ▸ hs) hret)

/-- Removing the values below a bound. -/
theorem confined_eraseBelow (hs : t.sets[id.index]? = some s)
    (hret : t.eraseBelow id v = .ok t') : Confined t t' s := by
  rw [eraseBelow] at hret
  obtain ⟨lo, _, hret⟩ := bind_eq_ok_iff.1 hret
  obtain ⟨hi, _, hret⟩ := bind_eq_ok_iff.1 hret
  split at hret
  · split_ifs at hret
    · exact confined_clear hs hret
    · exact confined_eraseRun hs hret
  · cases hret
    exact .refl t s

/-- Removing the values above a bound. -/
theorem confined_eraseAbove (hs : t.sets[id.index]? = some s)
    (hret : t.eraseAbove id v = .ok t') : Confined t t' s := by
  rw [eraseAbove] at hret
  obtain ⟨lo, _, hret⟩ := bind_eq_ok_iff.1 hret
  obtain ⟨hi, _, hret⟩ := bind_eq_ok_iff.1 hret
  split at hret
  · split_ifs at hret
    · exact confined_clear hs hret
    · obtain ⟨next, _, hret⟩ := bind_eq_ok_iff.1 hret
      exact confined_eraseRun hs hret
  · cases hret
    exact .refl t s

/-! ## The updates -/

/-- What an update comes to: the set has the members `D`, the other sets have the members they had,
and every cell that is not one of the set keeps its value. -/
structure Leaves (t t' : Trail) (id : SetId) (s : SparseSet) (D : Finset Int) : Prop where
  self : Answers t' id s.offset D
  other : ∀ id' s', id' ≠ id → t.sets[id'.index]? = some s' → ∀ D',
    Answers t id' s'.offset D' → Answers t' id' s'.offset D'
  cells : ∀ c, c ∉ s.cells → t'.read c = t.read c

/-- An update that narrows a set and is confined to it. -/
theorem Narrowed.leaves {D : Finset Int} (h : Narrowed t t' id D) (ht : t.Sound)
    (hs : t.sets[id.index]? = some s) (hconfined : Confined t t' s) : Leaves t t' id s D where
  self := by
    rw [← h.domain_self]
    exact h.sound.answers (h.sets_eq ▸ hs)
  other id' s' hne hs' D' hD' := by
    rw [hD'.eq_domain ht hs', ← h.domain_other id' hne]
    exact h.sound.answers (h.sets_eq ▸ hs')
  cells := hconfined.read_eq

/-- The questions about a set and its updates are those of the finite set `D`. -/
structure Lawful (t : Trail) (id : SetId) (s : SparseSet) (D : Finset Int) : Prop where
  answers : Answers t id s.offset D
  erase : ∀ v, Checked (Word.InRange (v - s.offset)) (t.erase id v) fun (found, t') =>
    (found = true ↔ v ∈ D) ∧ Leaves t t' id s (D.erase v)
  clear : ∃ t', t.clear id = .ok t' ∧ Leaves t t' id s ∅
  keepOnly : ∀ v, Checked (Word.InRange (v - s.offset)) (t.keepOnly id v) fun t' =>
    Leaves t t' id s (D.filter (· = v))
  eraseBelow : ∀ v, Checked
    (∀ u, IsLeast (D : Set Int) u ∨ IsGreatest (D : Set Int) u → Word.InRange u)
    (t.eraseBelow id v) fun t' => Leaves t t' id s (D.filter (v ≤ ·))
  eraseAbove : ∀ v, Checked
    ((∀ u, IsLeast (D : Set Int) u ∨ IsGreatest (D : Set Int) u → Word.InRange u) ∧
      ((∃ u ∈ D, u ≤ v) → Word.InRange (v + 1)))
    (t.eraseAbove id v) fun t' => Leaves t t' id s (D.filter (· ≤ v))

/-- Removing a value fails only if it cannot be looked up. -/
theorem checked_erase (h : t.Sound) (hs : t.sets[id.index]? = some s) (v : Int) :
    Checked (Word.InRange (v - s.offset)) (t.erase id v) fun (found, t') =>
      (found = true ↔ v ∈ t.domain t.now id) ∧
        Leaves t t' id s ((t.domain t.now id).erase v) := by
  refine ⟨fun hin => ?_, fun hout => ?_⟩
  · obtain ⟨found, t', hret⟩ : ∃ found t', t.erase id v = .ok (found, t') := by
      by_cases hv : v ∈ t.domain t.now id
      · obtain ⟨t', hret, _⟩ := erase_eq h hs hv
        exact ⟨true, t', hret⟩
      · exact ⟨false, t, erase_of_not_mem h hs hin hv⟩
    obtain ⟨hfound, hnarrow⟩ := erase_of_ok h hs hret
    refine ⟨(found, t'), hret, ?_, hnarrow.leaves h hs (confined_erase hs hret)⟩
    rw [hfound, decide_eq_true_iff]
  · rw [Trail.erase, (checked_member h hs v).overflows hout, error_bind]

/-- Removing all members does not fail. -/
theorem returns_clear (h : t.Sound) (hs : t.sets[id.index]? = some s) :
    ∃ t', t.clear id = .ok t' ∧ Leaves t t' id s ∅ := by
  obtain ⟨t', hret, hnarrow⟩ := clear_eq h hs
  exact ⟨t', hret, hnarrow.leaves h hs (confined_clear hs hret)⟩

/-- Keeping a value fails only if it cannot be looked up. -/
theorem checked_keepOnly (h : t.Sound) (hs : t.sets[id.index]? = some s) (v : Int) :
    Checked (Word.InRange (v - s.offset)) (t.keepOnly id v) fun t' =>
      Leaves t t' id s ((t.domain t.now id).filter (· = v)) := by
  refine ⟨fun hin => ?_, fun hout => ?_⟩
  · obtain ⟨t', hret⟩ : ∃ t', t.keepOnly id v = .ok t' := by
      by_cases hv : v ∈ t.domain t.now id
      · obtain ⟨t', hret, _⟩ := keepOnly_eq h hs hv
        exact ⟨t', hret⟩
      · obtain ⟨t', hret, _⟩ := clear_eq h hs
        exact ⟨t', by rwa [Trail.keepOnly, member_of_inRange h hs hin, decide_eq_false hv, ok_bind,
          if_neg Bool.false_ne_true]⟩
    exact ⟨t', hret, (keepOnly_of_ok h hs hret).leaves h hs (confined_keepOnly hs hret)⟩
  · rw [Trail.keepOnly, (checked_member h hs v).overflows hout, error_bind]

/-- Either both bounds of a set are told, or it is empty, or asking for one of them overflows. -/
theorem bounds_cases (h : t.Sound) (hs : t.sets[id.index]? = some s) :
    (t.domain t.now id = ∅ ∧ t.least? id = .ok none ∧ t.greatest? id = .ok none) ∨
      ∃ least greatest, IsLeast (t.domain t.now id : Set Int) least ∧
        IsGreatest (t.domain t.now id : Set Int) greatest ∧
        t.least? id = (Word.check least >>= fun v => .ok (some v)) ∧
        t.greatest? id = (Word.check greatest >>= fun v => .ok (some v)) := by
  obtain ⟨hempty, hl⟩ | ⟨least, hl, hleast⟩ := least?_eq h hs <;>
    obtain ⟨hempty', hg⟩ | ⟨greatest, hg, hgreatest⟩ := greatest?_eq h hs
  · exact Or.inl ⟨hempty, hl, hg⟩
  · exact absurd hgreatest.1 (by simp [hempty])
  · exact absurd hleast.1 (by simp [hempty'])
  · exact Or.inr ⟨least, greatest, hleast, hgreatest, hl, hg⟩

/-- A call that first asks for both bounds overflows if one of them is not in range. -/
theorem bounds_overflow {α : Type} {least greatest : Int}
    {call : Option Int → Option Int → Except Fault α}
    (hout : ¬ (Word.InRange least ∧ Word.InRange greatest)) :
    ((Word.check least >>= fun v => Except.ok (some v)) >>= fun lo =>
      (Word.check greatest >>= fun v => Except.ok (some v)) >>= fun hi => call lo hi) =
        .error .overflow := by
  by_cases hl : Word.InRange least
  · rw [Word.check_of_inRange hl, ok_bind, ok_bind, Word.check, if_neg fun hg => hout ⟨hl, hg⟩]
    rfl
  · rw [Word.check, if_neg hl]
    rfl

/-- The bounds of a set are in range, in terms of the two of them. -/
theorem forall_bound_iff {D : Finset Int} {least greatest : Int} (hl : IsLeast (D : Set Int) least)
    (hg : IsGreatest (D : Set Int) greatest) :
    (∀ u, IsLeast (D : Set Int) u ∨ IsGreatest (D : Set Int) u → Word.InRange u) ↔
      Word.InRange least ∧ Word.InRange greatest := by
  refine ⟨fun h => ⟨h _ (.inl hl), h _ (.inr hg)⟩, fun h u hu => ?_⟩
  obtain hu | hu := hu
  · exact hu.unique hl ▸ h.1
  · exact hu.unique hg ▸ h.2

/-- Removing the members below a bound fails only if a bound of the set is not in range. -/
theorem checked_eraseBelow (h : t.Sound) (hs : t.sets[id.index]? = some s) (v : Int) :
    Checked (∀ u, IsLeast (t.domain t.now id : Set Int) u ∨
        IsGreatest (t.domain t.now id : Set Int) u → Word.InRange u) (t.eraseBelow id v)
      fun t' => Leaves t t' id s ((t.domain t.now id).filter (v ≤ ·)) := by
  have hleaves : ∀ t', t.eraseBelow id v = .ok t' →
      Leaves t t' id s ((t.domain t.now id).filter (v ≤ ·)) := fun t' hret => by
    have hleft := (eraseBelow_of_ok h hs hret).leaves h hs (confined_eraseBelow hs hret)
    simpa only [not_lt] using hleft
  obtain ⟨hempty, hl, hg⟩ | ⟨least, greatest, hleast, hgreatest, hl, hg⟩ := bounds_cases h hs
  · have hret : t.eraseBelow id v = .ok t := by
      rw [Trail.eraseBelow, hl, ok_bind, hg, ok_bind]
      rfl
    refine ⟨fun _ => ⟨t, hret, hleaves t hret⟩, fun hout => absurd (fun u hu => ?_) hout⟩
    obtain hu | hu := hu <;> exact absurd hu.1 (by simp [hempty])
  · rw [forall_bound_iff hleast hgreatest]
    refine ⟨fun hin => ?_, fun hout => ?_⟩
    · obtain ⟨hinl, hing⟩ := hin
      rw [Word.check_of_inRange hinl, ok_bind] at hl
      rw [Word.check_of_inRange hing, ok_bind] at hg
      obtain ⟨t', hret, _⟩ := eraseBelow_of_bounds (v := v) h hs hl hleast hg hgreatest
      exact ⟨t', hret, hleaves t' hret⟩
    · rw [Trail.eraseBelow, hl, hg]
      exact bounds_overflow hout

/-- Removing the members above a bound fails only if a bound of the set is not in range, or there is
no next value to begin with. -/
theorem checked_eraseAbove (h : t.Sound) (hs : t.sets[id.index]? = some s) (v : Int) :
    Checked ((∀ u, IsLeast (t.domain t.now id : Set Int) u ∨
        IsGreatest (t.domain t.now id : Set Int) u → Word.InRange u) ∧
          ((∃ u ∈ t.domain t.now id, u ≤ v) → Word.InRange (v + 1))) (t.eraseAbove id v)
      fun t' => Leaves t t' id s ((t.domain t.now id).filter (· ≤ v)) := by
  have hleaves : ∀ t', t.eraseAbove id v = .ok t' →
      Leaves t t' id s ((t.domain t.now id).filter (· ≤ v)) := fun t' hret => by
    have hleft := (eraseAbove_of_ok h hs hret).leaves h hs (confined_eraseAbove hs hret)
    simpa only [not_lt] using hleft
  obtain ⟨hempty, hl, hg⟩ | ⟨least, greatest, hleast, hgreatest, hl, hg⟩ := bounds_cases h hs
  · have hret : t.eraseAbove id v = .ok t := by
      rw [Trail.eraseAbove, hl, ok_bind, hg, ok_bind]
      rfl
    refine ⟨fun _ => ⟨t, hret, hleaves t hret⟩, fun hout => absurd ⟨fun u hu => ?_, ?_⟩ hout⟩
    · obtain hu | hu := hu <;> exact absurd hu.1 (by simp [hempty])
    · rintro ⟨u, hu, _⟩
      exact absurd hu (by simp [hempty])
  · have hreach : (∃ u ∈ t.domain t.now id, u ≤ v) ↔ ¬ v < least := by
      constructor
      · rintro ⟨u, hu, huv⟩
        have hle := hleast.2 (Finset.mem_coe.2 hu)
        omega
      · exact fun hlt => ⟨least, Finset.mem_coe.1 hleast.1, by omega⟩
    rw [forall_bound_iff hleast hgreatest, hreach]
    refine ⟨fun hin => ?_, fun hout => ?_⟩
    · obtain ⟨⟨hinl, hing⟩, hnext⟩ := hin
      rw [Word.check_of_inRange hinl, ok_bind] at hl
      rw [Word.check_of_inRange hing, ok_bind] at hg
      obtain ⟨t', hret, _⟩ := eraseAbove_of_bounds (v := v) h hs hl hleast hg hgreatest
        (Classical.or_iff_not_imp_left.2 hnext)
      exact ⟨t', hret, hleaves t' hret⟩
    · rw [Trail.eraseAbove, hl, hg]
      by_cases hin : Word.InRange least ∧ Word.InRange greatest
      · have hnext : ¬ v < least ∧ ¬ Word.InRange (v + 1) := by
          rw [← Classical.not_imp]
          exact fun hnext => hout ⟨hin, hnext⟩
        rw [Word.check_of_inRange hin.1, Word.check_of_inRange hin.2, ok_bind, ok_bind, ok_bind,
          ok_bind]
        dsimp only
        rw [if_neg hnext.1, Word.add, Word.check, if_neg hnext.2, error_bind]
      · exact bounds_overflow hin

/-- On a sound trail every set is lawful. -/
theorem Sound.lawful (h : t.Sound) (hs : t.sets[id.index]? = some s) :
    Lawful t id s (t.domain t.now id) where
  answers := h.answers hs
  erase := checked_erase h hs
  clear := returns_clear h hs
  keepOnly := checked_keepOnly h hs
  eraseBelow := checked_eraseBelow h hs
  eraseAbove := checked_eraseAbove h hs

namespace Session

/-- After any calls, every set that may be used is a finite set of integers: each question is
answered from it, each update is an operation on it that touches nothing else, and a call fails only
if its arithmetic leaves the range. -/
theorem Runs.set_lawful {calls : List Call} {session : Session} (hruns : Runs start calls session)
    {id : SetId} (hid : id ∈ session.known.sets) :
    ∃ s D, session.trail.sets[id.index]? = some s ∧ Lawful session.trail id s D := by
  have hsound := hruns.sound sound_start
  obtain ⟨s, hs⟩ := hsound.exists_set hid
  exact ⟨s, _, hs, hsound.trail.lawful hs⟩

/-- Two sets, of which one was emptied and given back, and the other was narrowed at both levels. -/
theorem set_lawful_shared :
    ∃ session, start.follow [.newSet 4 10, .newSet 3 (-1), .newCell 7, .erase ⟨0⟩ 11, .save,
        .clear ⟨0⟩, .erase ⟨1⟩ 0, .newSet 2 5, .restore, .eraseAbove ⟨1⟩ 0] = some session ∧
      session.trail.elements ⟨0⟩ = .ok [10, 13, 12] ∧ session.trail.elements ⟨1⟩ = .ok [-1, 0] ∧
      ∃ s D, session.trail.sets[0]? = some s ∧ Lawful session.trail ⟨0⟩ s D := by
  have hsome := Option.some_get (x := start.follow [.newSet 4 10, .newSet 3 (-1), .newCell 7,
    .erase ⟨0⟩ 11, .save, .clear ⟨0⟩, .erase ⟨1⟩ 0, .newSet 2 5, .restore, .eraseAbove ⟨1⟩ 0])
      (by decide +kernel)
  exact ⟨_, hsome.symm, by decide +kernel, by decide +kernel,
    Runs.set_lawful (runs_iff_follow.2 hsome.symm) (by decide +kernel)⟩

end Session

end FiniteDomain.Trail
