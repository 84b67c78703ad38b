import FiniteDomain.Proofs.Trail.Levels
import FiniteDomain.Proofs.Trail.Narrowing

/-!
# Sequences of calls to a trail

A client of a trail gets identifiers from it and uses them until the level in which they were made is
restored.

* `Call` is a call, and `Call.perform` what it does to a trail.
* `Session` is a trail with the identifiers that may be used.  `Session.Runs` are the sequences of
  calls that use no others and in which nothing faults.
* `Session.Sound` holds in every session that was reached from the empty trail:
  `Session.Runs.sound`.
* The calls that narrow a set need no assumption on its values once they have returned:
  `erase_of_ok`, `keepOnly_of_ok`, `eraseBelow_of_ok` and `eraseAbove_of_ok`.
-/

namespace FiniteDomain.Trail

/-! ## Updates that returned -/

section

variable {t t' : Trail} {id : SetId} {s : SparseSet} {v : Int}

/-- One value was removed, and the answer tells whether it was a member. -/
theorem erase_of_ok (h : t.Sound) (hs : t.sets[id.index]? = some s) {found : Bool}
    (hret : t.erase id v = .ok (found, t')) :
    found = decide (v ∈ t.domain t.now id) ∧ Narrowed t t' id ((t.domain t.now id).erase v) := by
  by_cases hv : v ∈ t.domain t.now id
  · obtain ⟨t₁, herase, hnarrow⟩ := erase_eq h hs hv
    rw [herase] at hret
    cases hret
    exact ⟨(decide_eq_true hv).symm, hnarrow⟩
  · have hin : Word.InRange (v - s.offset) := by
      rw [erase] at hret
      obtain ⟨answer, hmember, _⟩ := bind_eq_ok_iff.1 hret
      exact inRange_sub_of_member h hs hmember
    rw [erase_of_not_mem h hs hin hv] at hret
    cases hret
    rw [Finset.erase_eq_of_notMem hv]
    exact ⟨(decide_eq_false hv).symm, .refl h id⟩

/-- All members were removed. -/
theorem clear_of_ok (h : t.Sound) (hs : t.sets[id.index]? = some s) (hret : t.clear id = .ok t') :
    Narrowed t t' id ∅ := by
  obtain ⟨t₁, hclear, hnarrow⟩ := clear_eq h hs
  rw [hclear] at hret
  cases hret
  exact hnarrow

/-- One value was kept, if it was a member. -/
theorem keepOnly_of_ok (h : t.Sound) (hs : t.sets[id.index]? = some s)
    (hret : t.keepOnly id v = .ok t') :
    Narrowed t t' id ((t.domain t.now id).filter (· = v)) := by
  by_cases hv : v ∈ t.domain t.now id
  · obtain ⟨t₁, hkeep, hnarrow⟩ := keepOnly_eq h hs hv
    rw [hkeep] at hret
    cases hret
    rwa [Finset.filter_eq', if_pos hv]
  · rw [Finset.filter_eq', if_neg hv]
    rw [keepOnly] at hret
    obtain ⟨answer, hmember, hret⟩ := bind_eq_ok_iff.1 hret
    rw [member_of_inRange h hs (inRange_sub_of_member h hs hmember), decide_eq_false hv] at hmember
    cases hmember
    exact clear_of_ok h hs hret

/-- Either a set is empty, or its bounds are known once they were asked for. -/
theorem bounds_of_ok (h : t.Sound) (hs : t.sets[id.index]? = some s) {lo hi : Option Int}
    (hl : t.least? id = .ok lo) (hg : t.greatest? id = .ok hi) :
    t.domain t.now id = ∅ ∧ lo = none ∧ hi = none ∨
      ∃ least greatest, lo = some least ∧ hi = some greatest ∧
        IsLeast (t.domain t.now id : Set Int) least ∧
        IsGreatest (t.domain t.now id : Set Int) greatest := by
  obtain ⟨hempty, hl'⟩ | ⟨least, hl', hleast⟩ := least?_eq h hs <;>
    obtain ⟨hempty', hg'⟩ | ⟨greatest, hg', hgreatest⟩ := greatest?_eq h hs
  · rw [hl] at hl'
    rw [hg] at hg'
    exact Or.inl ⟨hempty, Except.ok.inj hl', Except.ok.inj hg'⟩
  · rw [hempty] at hgreatest
    exact absurd hgreatest.1 (by simp)
  · rw [hempty'] at hleast
    exact absurd hleast.1 (by simp)
  · rw [hl] at hl'
    rw [hg] at hg'
    obtain ⟨a, ha, hlo⟩ := bind_eq_ok_iff.1 hl'.symm
    obtain ⟨b, hb, hhi⟩ := bind_eq_ok_iff.1 hg'.symm
    obtain ⟨_, rfl⟩ := Word.check_eq_ok_iff.1 ha
    obtain ⟨_, rfl⟩ := Word.check_eq_ok_iff.1 hb
    exact Or.inr ⟨_, _, (Except.ok.inj hlo).symm, (Except.ok.inj hhi).symm, hleast, hgreatest⟩

/-- The members below a bound were removed. -/
theorem eraseBelow_of_ok (h : t.Sound) (hs : t.sets[id.index]? = some s)
    (hret : t.eraseBelow id v = .ok t') :
    Narrowed t t' id ((t.domain t.now id).filter fun a => ¬ a < v) := by
  have hret' := hret
  rw [eraseBelow] at hret'
  obtain ⟨lo, hl, hret'⟩ := bind_eq_ok_iff.1 hret'
  obtain ⟨hi, hg, hret'⟩ := bind_eq_ok_iff.1 hret'
  obtain ⟨hempty, rfl, rfl⟩ | ⟨least, greatest, rfl, rfl, hleast, hgreatest⟩ :=
    bounds_of_ok h hs hl hg
  · cases hret'
    rw [hempty, Finset.filter_empty, ← hempty]
    exact .refl h id
  · obtain ⟨t₁, herase, hnarrow⟩ := eraseBelow_of_bounds h hs hl hleast hg hgreatest
    rw [hret] at herase
    cases herase
    exact hnarrow

/-- The members above a bound were removed. -/
theorem eraseAbove_of_ok (h : t.Sound) (hs : t.sets[id.index]? = some s)
    (hret : t.eraseAbove id v = .ok t') :
    Narrowed t t' id ((t.domain t.now id).filter fun a => ¬ v < a) := by
  have hret' := hret
  rw [eraseAbove] at hret'
  obtain ⟨lo, hl, hret'⟩ := bind_eq_ok_iff.1 hret'
  obtain ⟨hi, hg, hret'⟩ := bind_eq_ok_iff.1 hret'
  obtain ⟨hempty, rfl, rfl⟩ | ⟨least, greatest, rfl, rfl, hleast, hgreatest⟩ :=
    bounds_of_ok h hs hl hg
  · cases hret'
    rw [hempty, Finset.filter_empty, ← hempty]
    exact .refl h id
  · have hin : v < least ∨ Word.InRange (v + 1) := by
      by_cases hlt : v < least
      · exact Or.inl hlt
      · dsimp only at hret'
        rw [if_neg hlt] at hret'
        obtain ⟨next, hnext, _⟩ := bind_eq_ok_iff.1 hret'
        exact Or.inr (Word.check_eq_ok_iff.1 hnext).1
    obtain ⟨t₁, herase, hnarrow⟩ := eraseAbove_of_bounds h hs hl hleast hg hgreatest hin
    rw [hret] at herase
    cases herase
    exact hnarrow

end

/-! ## Calls -/

/-- A call that may change a trail. -/
inductive Call where
  | newCell (v : Int)
  | write (c : Cell) (v : Int)
  | increment (c : Cell)
  | decrement (c : Cell)
  | newSet (n : Nat) (offset : Int)
  | erase (id : SetId) (v : Int)
  | clear (id : SetId)
  | keepOnly (id : SetId) (v : Int)
  | eraseBelow (id : SetId) (v : Int)
  | eraseAbove (id : SetId) (v : Int)
  | save
  | restore
  deriving DecidableEq, Repr

/-- The trail after a call. -/
def Call.perform (t : Trail) : Call → Except Fault Trail
  | .newCell v => .ok (t.newCell v).2
  | .write c v => t.write c v
  | .increment c => return (← t.increment c).2
  | .decrement c => return (← t.decrement c).2
  | .newSet n offset => .ok (t.newSet n offset).2
  | .erase id v => return (← t.erase id v).2
  | .clear id => t.clear id
  | .keepOnly id v => t.keepOnly id v
  | .eraseBelow id v => t.eraseBelow id v
  | .eraseAbove id v => t.eraseAbove id v
  | .save => .ok t.save
  | .restore => t.restore

/-- Identifiers that were handed out. -/
structure Known where
  cells : List Cell
  sets : List SetId
  deriving DecidableEq, Repr

/-- A trail with the identifiers that its client may use. -/
structure Session where
  trail : Trail
  known : Known
  /-- The identifiers that could be used when the levels were saved, the last level first. -/
  kept : List Known
  deriving DecidableEq, Repr

namespace Session

/-- The empty trail, of which nothing is known. -/
def start : Session := ⟨.empty, ⟨[], []⟩, []⟩

/-- The client may make the call.  The identifiers are those that it got in a level that was not
restored, and the members of a new set fit into the arrays. -/
def Allows (s : Session) : Call → Prop
  | .write c _ | .increment c | .decrement c => c ∈ s.known.cells
  | .erase id _ | .clear id | .keepOnly id _ | .eraseBelow id _ | .eraseAbove id _ =>
    id ∈ s.known.sets
  | .newSet n _ => ((s.trail.dense.size + n : Nat) : Int) ≤ Word.greatest
  | .newCell _ | .save | .restore => True

instance (s : Session) (call : Call) : Decidable (s.Allows call) := by
  cases call <;> unfold Allows <;> infer_instance

/-- What is known after a call. -/
def learn (s : Session) (t : Trail) : Call → Session
  | .newCell v => ⟨t, { s.known with cells := (s.trail.newCell v).1 :: s.known.cells }, s.kept⟩
  | .newSet n offset =>
    ⟨t, { s.known with sets := (s.trail.newSet n offset).1 :: s.known.sets }, s.kept⟩
  | .save => ⟨t, s.known, s.known :: s.kept⟩
  | .restore => ⟨t, s.kept.headD s.known, s.kept.tail⟩
  | _ => ⟨t, s.known, s.kept⟩

/-- The session after a call. -/
def perform (s : Session) (call : Call) : Except Fault Session := do
  return s.learn (← call.perform s.trail) call

/-- The sequences of calls that the client may make and that all return. -/
inductive Runs : Session → List Call → Session → Prop
  | nil (s : Session) : Runs s [] s
  | cons {s s' s'' : Session} {call : Call} {calls : List Call} (hallows : s.Allows call)
      (hret : s.perform call = .ok s') (hruns : Runs s' calls s'') : Runs s (call :: calls) s''

/-- The session after several calls, if the client may make them and all of them return. -/
def follow : Session → List Call → Option Session
  | s, [] => some s
  | s, call :: calls =>
    if s.Allows call then
      match s.perform call with
      | .ok s' => follow s' calls
      | .error _ => none
    else
      none

theorem runs_iff_follow {s s' : Session} {calls : List Call} :
    Runs s calls s' ↔ s.follow calls = some s' := by
  constructor
  · intro h
    induction h with
    | nil => rfl
    | cons hallows hret _ ih =>
      rw [follow, if_pos hallows, hret]
      exact ih
  · intro h
    induction calls generalizing s with
    | nil =>
      cases h
      exact .nil _
    | cons call calls ih =>
      rw [follow] at h
      split at h
      · split at h
        · exact .cons ‹_› ‹_› (ih h)
        · cases h
      · cases h

end Session

/-! ## What holds of every session -/

/-- The identifiers exist in a frame, and the cells among them belong to no set that it sees. -/
structure Known.In (k : Known) (t : Trail) (w : Frame) : Prop where
  has : ∀ c ∈ k.cells, w.Has c
  free : ∀ c ∈ k.cells, ∀ i s, t.sets[i]? = some s → i < w.sets → c ∉ s.cells
  lt : ∀ id ∈ k.sets, id.index < w.sets

/-- The trail is sound, and the identifiers that may be used at a level exist there. -/
structure Session.Sound (s : Session) : Prop where
  trail : s.trail.Sound
  known : List.Forall₂ (fun w k => Known.In k s.trail w) s.trail.frames (s.known :: s.kept)

/-- What a change within a level leaves of the past. -/
structure Onward (t t' : Trail) : Prop where
  sound : t'.Sound
  past_eq : t'.past = t.past
  has : ∀ c, t.now.Has c → t'.now.Has c
  sets_le : t.sets.size ≤ t'.sets.size
  sets_eq : ∀ i < t.sets.size, t'.sets[i]? = t.sets[i]?
  domain_past : ∀ w ∈ t.past, ∀ id : SetId, id.index < w.sets → t'.domain w id = t.domain w id
  isSetCell : ∀ c, t'.IsSetCell c → t.now.Has c → t.IsSetCell c

theorem Grown.onward {K : Cell → Prop} {t t' : Trail} (h : Grown K t t') : Onward t t' :=
  ⟨h.sound, h.past_eq, h.has, h.sets_le, h.sets_eq, h.domain_past, h.isSetCell⟩

theorem Narrowed.onward {t t' : Trail} {id : SetId} {D : Finset Int} (h : Narrowed t t' id D) :
    Onward t t' where
  sound := h.sound
  past_eq := h.past_eq
  has c hc := by rwa [Frame.Has, h.values_size]
  sets_le := by rw [h.sets_eq]
  sets_eq i _ := by rw [h.sets_eq]
  domain_past := h.domain_past
  isSetCell c hc _ := by
    rw [IsSetCell, h.sets_eq] at hc
    exact hc

namespace Session

variable {s s' : Session} {call : Call}

/-- The present sees all sets. -/
theorem Sound.exists_set (h : s.Sound) {id : SetId} (hid : id ∈ s.known.sets) :
    ∃ set, s.trail.sets[id.index]? = some set := by
  have hlt := (List.forall₂_cons.1 h.known).1.lt id hid
  exact ⟨_, Array.getElem?_eq_getElem hlt⟩

/-- A cell that may be used exists, and is no cell of a set. -/
theorem Sound.cell (h : s.Sound) {c : Cell} (hc : c ∈ s.known.cells) :
    s.trail.now.Has c ∧ ¬ s.trail.IsSetCell c := by
  have hin := (List.forall₂_cons.1 h.known).1
  refine ⟨hin.has c hc, ?_⟩
  rintro ⟨set, hset, hcell⟩
  obtain ⟨i, hi⟩ := Array.mem_iff_getElem?.1 hset
  exact hin.free c hc i set hi (Array.getElem?_eq_some_iff.1 hi).1 hcell

/-- Adding or taking one is a write. -/
theorem exists_write_of_count {t t' : Trail} {c : Cell}
    (hcall : call = .increment c ∨ call = .decrement c) (hret : call.perform t = .ok t') :
    ∃ v, t.write c v = .ok t' := by
  rcases hcall with rfl | rfl <;> rw [Call.perform] at hret
  all_goals
    obtain ⟨p, hp, hret⟩ := bind_eq_ok_iff.1 hret
    obtain ⟨u, _, hp⟩ := bind_eq_ok_iff.1 hp
    obtain ⟨v, _, hp⟩ := bind_eq_ok_iff.1 hp
    obtain ⟨t₁, hwrite, hp⟩ := bind_eq_ok_iff.1 hp
    cases hp
    cases hret
    exact ⟨v, hwrite⟩

/-- A write into a cell that may be used. -/
theorem Sound.onward_write (h : s.Sound) {c : Cell} (hc : c ∈ s.known.cells) {v : Int} {t : Trail}
    (hret : s.trail.write c v = .ok t) : Onward s.trail t := by
  obtain ⟨hhas, hfree⟩ := h.cell hc
  obtain ⟨t', hwrite, _, hgrown⟩ := write_grown h.trail hhas hfree v
  rw [hwrite] at hret
  cases hret
  exact hgrown.onward

/-- There is room for a new set. -/
theorem room_of_allows {n : Nat} {offset : Int} (hallows : s.Allows (.newSet n offset)) :
    s.trail.dense.size + n < Word.countBound ∧ (n : Int) ≤ Word.greatest := by
  unfold Allows Word.greatest at hallows
  unfold Word.countBound Word.greatest
  omega

/-- Every call but those that begin or end a level leaves the past alone. -/
theorem Sound.onward (h : s.Sound) (hallows : s.Allows call) (hsave : call ≠ .save)
    (hrestore : call ≠ .restore) {t : Trail} (hret : call.perform s.trail = .ok t) :
    Onward s.trail t := by
  cases call with
  | newCell v =>
    cases hret
    exact (newCell_grown h.trail v).1.onward
  | write c v => exact h.onward_write hallows hret
  | increment c =>
    obtain ⟨v, hwrite⟩ := exists_write_of_count (.inl rfl) hret
    exact h.onward_write hallows hwrite
  | decrement c =>
    obtain ⟨v, hwrite⟩ := exists_write_of_count (.inr rfl) hret
    exact h.onward_write hallows hwrite
  | newSet n offset =>
    cases hret
    obtain ⟨hlt, hn⟩ := room_of_allows hallows
    exact (newSet_grown h.trail n offset hlt hn).2.1.onward
  | erase id v =>
    obtain ⟨set, hset⟩ := h.exists_set hallows
    obtain ⟨⟨found, t₁⟩, herase, hret⟩ := bind_eq_ok_iff.1 hret
    cases hret
    exact (erase_of_ok h.trail hset herase).2.onward
  | clear id =>
    obtain ⟨set, hset⟩ := h.exists_set hallows
    exact (clear_of_ok h.trail hset hret).onward
  | keepOnly id v =>
    obtain ⟨set, hset⟩ := h.exists_set hallows
    exact (keepOnly_of_ok h.trail hset hret).onward
  | eraseBelow id v =>
    obtain ⟨set, hset⟩ := h.exists_set hallows
    exact (eraseBelow_of_ok h.trail hset hret).onward
  | eraseAbove id v =>
    obtain ⟨set, hset⟩ := h.exists_set hallows
    exact (eraseAbove_of_ok h.trail hset hret).onward
  | save => exact absurd rfl hsave
  | restore => exact absurd rfl hrestore

end Session

/-- What was known stays known, within a level. -/
theorem Onward.known {t t' : Trail} (ht : t.Sound) (h : Onward t t') {k : Known} {ks : List Known}
    (hknown : List.Forall₂ (fun w k => Known.In k t w) t.frames (k :: ks)) :
    Known.In k t' t'.now ∧ List.Forall₂ (fun w k => Known.In k t' w) t'.past ks := by
  obtain ⟨hnow, hpast⟩ := List.forall₂_cons.1 hknown
  refine ⟨⟨fun c hc => h.has c (hnow.has c hc), fun c hc i set hset _ hcell => ?_,
    fun id hid => Nat.lt_of_lt_of_le (hnow.lt id hid) h.sets_le⟩, ?_⟩
  · obtain ⟨set', hset', hcell'⟩ :=
      h.isSetCell c ⟨set, Array.mem_of_getElem? hset, hcell⟩ (hnow.has c hc)
    obtain ⟨j, hj⟩ := Array.mem_iff_getElem?.1 hset'
    exact hnow.free c hc j set' hj (Array.getElem?_eq_some_iff.1 hj).1 hcell'
  · rw [h.past_eq]
    refine (List.forall₂_iff_get.2 ⟨hpast.length_eq, fun i h1 h2 => ?_⟩)
    have hold := hpast.get h1 h2
    refine ⟨hold.has, fun c hc j set hset hj => ?_, hold.lt⟩
    rw [h.sets_eq j (Nat.lt_of_lt_of_le hj (ht.sets_le (List.get_mem ..)))] at hset
    exact hold.free c hc j set hset hj

/-- The identifiers that were left are known after a level was restored. -/
theorem Restored.known {t t' : Trail} {w : Frame} {rest : List Frame} (h : Restored t t' w rest)
    {ks : List Known} (hknown : List.Forall₂ (fun w k => Known.In k t w) (w :: rest) ks) :
    List.Forall₂ (fun w k => Known.In k t' w) t'.frames ks := by
  rw [frames, h.now_eq, h.past_eq]
  refine hknown.imp fun w' k hin => ⟨hin.has, fun c hc i set hset hi => ?_, hin.lt⟩
  rw [h.sets_eq, getElem?_shrink] at hset
  split at hset
  · exact hin.free c hc i set hset hi
  · cases hset

namespace Session

variable {s s' : Session} {call : Call}

theorem sound_start : start.Sound :=
  ⟨sound_empty, .cons ⟨by simp [start], by simp [start], by simp [start]⟩ .nil⟩

/-- A level that can be restored has a frame and what was known there. -/
theorem Sound.exists_past (h : s.Sound) {t : Trail} (hret : s.trail.restore = .ok t) :
    ∃ w rest k ks, s.trail.past = w :: rest ∧ s.kept = k :: ks ∧ Restored s.trail t w rest := by
  obtain ⟨w, rest, hpast⟩ := exists_past_of_restore hret
  obtain ⟨t', hrestore, hrestored⟩ := h.trail.restore hpast
  rw [hrestore] at hret
  cases hret
  have hlen := (List.forall₂_cons.1 h.known).2.length_eq
  cases hkept : s.kept with
  | nil => simp [hpast, hkept] at hlen
  | cons k ks => exact ⟨w, rest, k, ks, hpast, rfl, hrestored⟩

/-- A call that the client may make leads from a sound session to a sound session. -/
theorem Sound.perform (h : s.Sound) (hallows : s.Allows call) (hret : s.perform call = .ok s') :
    s'.Sound := by
  obtain ⟨t, hcall, hret⟩ := bind_eq_ok_iff.1 hret
  cases hret
  have hwithin : call ≠ .save → call ≠ .restore → Known.In s.known t t.now ∧
      List.Forall₂ (fun w k => Known.In k t w) t.past s.kept := fun hsave hrestore =>
    (h.onward hallows hsave hrestore hcall).known h.trail h.known
  cases call with
  | save =>
    cases hcall
    obtain ⟨hnow, hpast, _⟩ := Trail.save_eq h.trail.tracked
    refine ⟨h.trail.save, ?_⟩
    show List.Forall₂ _ s.trail.save.frames (s.known :: s.known :: s.kept)
    rw [frames, hnow, hpast]
    have hknown : List.Forall₂ (fun w k => Known.In k s.trail.save w) s.trail.frames
        (s.known :: s.kept) := h.known.imp fun w k hin => ⟨hin.has, hin.free, hin.lt⟩
    exact .cons (List.forall₂_cons.1 hknown).1 hknown
  | restore =>
    obtain ⟨w, rest, k, ks, hpast, hkept, hrestored⟩ := h.exists_past hcall
    refine ⟨hrestored.sound, ?_⟩
    show List.Forall₂ _ t.frames (s.kept.headD s.known :: s.kept.tail)
    have hknown := (List.forall₂_cons.1 h.known).2
    rw [hpast, hkept] at hknown
    rw [hkept]
    exact hrestored.known hknown
  | newCell v =>
    have hgrown := newCell_grown h.trail v
    have hsound := (h.onward hallows (by simp) (by simp) hcall).sound
    obtain ⟨hnow, hpast⟩ := hwithin (by simp) (by simp)
    cases hcall
    refine ⟨hsound, .cons ⟨fun c hc => ?_, fun c hc i set hset hi hcell => ?_, hnow.lt⟩ hpast⟩
    · rcases List.mem_cons.1 hc with rfl | hc
      · exact hgrown.2.1
      · exact hnow.has c hc
    · rcases List.mem_cons.1 hc with rfl | hc
      · exact hgrown.2.2.2 (h.trail.has_of_isSetCell ⟨set, Array.mem_of_getElem? hset, hcell⟩)
      · exact hnow.free c hc i set hset hi hcell
  | newSet n offset =>
    have hsound := (h.onward hallows (by simp) (by simp) hcall).sound
    obtain ⟨hnow, hpast⟩ := hwithin (by simp) (by simp)
    obtain ⟨hlt, hn⟩ := room_of_allows hallows
    cases hcall
    refine ⟨hsound, .cons ⟨hnow.has, hnow.free, fun id hid => ?_⟩ hpast⟩
    rcases List.mem_cons.1 hid with rfl | hid
    · show s.trail.sets.size < (s.trail.newSet n offset).2.sets.size
      rw [(newSet_grown h.trail n offset hlt hn).2.2.1]
      exact Nat.lt_succ_self _
    · exact hnow.lt id hid
  | write | increment | decrement | erase | clear | keepOnly | eraseBelow | eraseAbove =>
    have hsound := (h.onward hallows (by simp) (by simp) hcall).sound
    obtain ⟨hnow, hpast⟩ := hwithin (by simp) (by simp)
    exact ⟨hsound, .cons hnow hpast⟩

/-- A sequence of calls leads from a sound session to a sound session. -/
theorem Runs.sound {calls : List Call} (h : Runs s calls s') (hs : s.Sound) : s'.Sound := by
  induction h with
  | nil => exact hs
  | cons hallows hret _ ih => exact ih (hs.perform hallows hret)

end Session

end FiniteDomain.Trail
