import FiniteDomain.Proofs.Lockstep
import FiniteDomain.Proofs.Trail.Levels
import FiniteDomain.Proofs.Trail.Narrowing

/-!
# Trails that differ in hidden cells

Two trails mirror each other when they were used in the same way, but for some hidden cells: these may
hold anything, now and in the past.  The sets are the same on both, with the members in the same order.

* `Frame.Mirrors hidden` compares two frames, and `Trail.Mirrors hidden` two trails with all that
  restoring brings back.
* A cell that is not hidden is read and written in step (`Mirrors.read`, `Mirrors.write`), and so are
  the sets, whose cells are not hidden.
* A hidden cell may be written on one side alone (`Mirrors.write_hidden`).
* Restoring a level leads back to two frames of the past.  Hidden cells that they do not have are
  hidden no longer, so that new cells can take their places (`Mirrors.restore`).
-/

namespace FiniteDomain

variable {hidden hidden' : Cell → Prop}

/-! ## Frames -/

/-- Two frames differ in the hidden cells only. -/
structure Frame.Mirrors (hidden : Cell → Prop) (w w' : Frame) : Prop where
  size_eq : w'.values.size = w.values.size
  get_eq : ∀ c, ¬ hidden c → w'.get c = w.get c
  sets_eq : w'.sets = w.sets
  dense_eq : w'.dense = w.dense

namespace Frame

variable {w w' : Frame} {c : Cell}

/-- A cell that a frame does not have holds nothing. -/
theorem get_of_not_has (h : ¬ w.Has c) : w.get c = 0 := by
  rw [get, Array.getElem?_eq_none (Nat.le_of_not_lt h), Option.getD_none]

namespace Mirrors

theorem refl (hidden : Cell → Prop) (w : Frame) : Mirrors hidden w w :=
  ⟨rfl, fun _ _ => rfl, rfl, rfl⟩

theorem symm (h : Mirrors hidden w w') : Mirrors hidden w' w :=
  ⟨h.size_eq.symm, fun c hc => (h.get_eq c hc).symm, h.sets_eq.symm, h.dense_eq.symm⟩

theorem mono (h : Mirrors hidden w w') (hmore : ∀ c, hidden c → hidden' c) :
    Mirrors hidden' w w' :=
  ⟨h.size_eq, fun c hc => h.get_eq c fun hc' => hc (hmore c hc'), h.sets_eq, h.dense_eq⟩

theorem has_iff (h : Mirrors hidden w w') : w'.Has c ↔ w.Has c := by
  rw [Has, Has, h.size_eq]

/-- Cells that the frames do not have need not be hidden. -/
theorem restrict (h : Mirrors hidden w w') (hless : ∀ c, hidden c → w.Has c → hidden' c) :
    Mirrors hidden' w w' := by
  refine ⟨h.size_eq, fun c hc => ?_, h.sets_eq, h.dense_eq⟩
  by_cases hhas : w.Has c
  · exact h.get_eq c fun hc' => hc (hless c hc' hhas)
  · rw [get_of_not_has hhas, get_of_not_has fun hhas' => hhas (h.has_iff.1 hhas')]

/-- The same value is put into a cell of both. -/
theorem put (h : Mirrors hidden w w') (hc : w.Has c) (v : Int) :
    Mirrors hidden (w.put c v) (w'.put c v) := by
  refine ⟨?_, fun d hd => ?_, h.sets_eq, h.dense_eq⟩
  · rw [size_put, size_put, h.size_eq]
  · rw [get_put hc, get_put (h.has_iff.2 hc), h.get_eq d hd]

/-- A value is put into a hidden cell of one. -/
theorem put_hidden (h : Mirrors hidden w w') (hc : hidden c) (v : Int) :
    Mirrors hidden w (w'.put c v) := by
  refine ⟨?_, fun d hd => ?_, h.sets_eq, h.dense_eq⟩
  · rw [size_put, h.size_eq]
  · rw [get_put_of_ne w' v (fun hdc : d = c => hd (hdc ▸ hc)), h.get_eq d hd]

/-- A cell is added to both. -/
theorem push (h : Mirrors hidden w w') (v : Int) :
    Mirrors hidden { w with values := w.values.push v } { w' with values := w'.values.push v } := by
  refine ⟨?_, fun d hd => ?_, h.sets_eq, h.dense_eq⟩
  · rw [Array.size_push, Array.size_push, h.size_eq]
  · have hget := h.get_eq d hd
    rw [get, get] at hget ⊢
    dsimp only at hget ⊢
    rw [Array.getElem?_push, Array.getElem?_push, h.size_eq]
    split
    · rfl
    · exact hget

end Mirrors

end Frame

namespace Trail

variable {t t' t₁ t₁' : Trail} {c : Cell} {v : Int} {id : SetId} {set : SparseSet}

/-! ## Trails -/

/-- Two trails differ in the hidden cells only, now and in the past.  The cells of the sets are not
hidden. -/
structure Mirrors (hidden : Cell → Prop) (t t' : Trail) : Prop where
  tracked : t.Tracked
  tracked' : t'.Tracked
  now : t.now.Mirrors hidden t'.now
  past : List.Forall₂ (Frame.Mirrors hidden) t.past t'.past
  sets_eq : t'.sets = t.sets
  dense_eq : t'.dense = t.dense
  position_eq : t'.position = t.position
  shown : ∀ c, t.IsSetCell c → ¬ hidden c
  has : ∀ c, hidden c → t.now.Has c

namespace Mirrors

theorem refl (h : t.Tracked) : Mirrors (fun _ => False) t t where
  tracked := h
  tracked' := h
  now := .refl _ _
  past := List.forall₂_same.2 fun w _ => .refl _ w
  sets_eq := rfl
  dense_eq := rfl
  position_eq := rfl
  shown _ _ := id
  has _ hc := hc.elim

theorem symm (h : Mirrors hidden t t') : Mirrors hidden t' t where
  tracked := h.tracked'
  tracked' := h.tracked
  now := h.now.symm
  past := h.past.flip.imp fun _ _ hw => hw.symm
  sets_eq := h.sets_eq.symm
  dense_eq := h.dense_eq.symm
  position_eq := h.position_eq.symm
  shown c hc := h.shown c (by rwa [IsSetCell, h.sets_eq] at hc)
  has c hc := h.now.has_iff.2 (h.has c hc)

/-- More cells are hidden. -/
theorem hide (h : Mirrors hidden t t') (hmore : ∀ c, hidden c → hidden' c)
    (hshown : ∀ c, t.IsSetCell c → ¬ hidden' c) (hhas : ∀ c, hidden' c → t.now.Has c) :
    Mirrors hidden' t t' :=
  ⟨h.tracked, h.tracked', h.now.mono hmore, h.past.imp fun _ _ hw => hw.mono hmore, h.sets_eq,
    h.dense_eq, h.position_eq, hshown, hhas⟩

theorem set_shown (h : Mirrors hidden t t') (hset : t.sets[id.index]? = some set) :
    ¬ hidden set.size ∧ ¬ hidden set.least ∧ ¬ hidden set.greatest := by
  have hmem := Array.mem_of_getElem? hset
  exact ⟨h.shown _ ⟨set, hmem, set.size_mem_cells⟩, h.shown _ ⟨set, hmem, set.least_mem_cells⟩,
    h.shown _ ⟨set, hmem, set.greatest_mem_cells⟩⟩

/-! ### Cells -/

/-- A cell that does not exist cannot be read. -/
theorem read_eq_error (h : ¬ t.now.Has c) : t.read c = .error .outOfBounds := by
  rw [Frame.Has, size_values_now] at h
  rw [Trail.read, fetch, Array.getElem?_eq_none (Nat.le_of_not_lt h)]
  rfl

theorem read (h : Mirrors hidden t t') (hc : ¬ hidden c) : InStep Eq (t.read c) (t'.read c) := by
  by_cases hhas : t.now.Has c
  · rw [read_eq hhas, read_eq (h.now.has_iff.2 hhas), h.now.get_eq c hc]
    exact .ok rfl
  · rw [read_eq_error hhas, read_eq_error fun hhas' => hhas (h.now.has_iff.1 hhas')]
    exact .error (by decide)

theorem readCount (h : Mirrors hidden t t') (hc : ¬ hidden c) :
    InStep Eq (t.readCount c) (t'.readCount c) :=
  (h.read hc).andThen fun _ => .ok rfl

/-- Both were written to. -/
theorem of_wrote (h : Mirrors hidden t t') (hc : t.now.Has c) (hw : Wrote t t₁ c v)
    (hw' : Wrote t' t₁' c v) : Mirrors hidden t₁ t₁' where
  tracked := hw.tracked
  tracked' := hw'.tracked
  now := by
    rw [hw.now_eq, hw'.now_eq]
    exact h.now.put hc v
  past := by
    rw [hw.past_eq, hw'.past_eq]
    exact h.past
  sets_eq := by rw [hw.sets_eq, hw'.sets_eq, h.sets_eq]
  dense_eq := by rw [hw.dense_eq, hw'.dense_eq, h.dense_eq]
  position_eq := by rw [hw.position_eq, hw'.position_eq, h.position_eq]
  shown d hd := h.shown d (by rwa [IsSetCell, hw.sets_eq] at hd)
  has d hd := by
    rw [hw.now_eq, Frame.has_put]
    exact h.has d hd

/-- A cell that does not exist cannot be written. -/
theorem write_eq_error (h : ¬ t.now.Has c) (v : Int) : t.write c v = .error .outOfBounds := by
  rw [Frame.Has, size_values_now] at h
  rw [Trail.write, Array.getElem?_eq_none (Nat.le_of_not_lt h)]

theorem write (h : Mirrors hidden t t') (c : Cell) (v : Int) :
    InStep (Mirrors hidden) (t.write c v) (t'.write c v) := by
  by_cases hhas : t.now.Has c
  · obtain ⟨t₁, hret, hw⟩ := write_eq h.tracked hhas v
    obtain ⟨t₁', hret', hw'⟩ := write_eq h.tracked' (h.now.has_iff.2 hhas) v
    rw [hret, hret']
    exact .ok (h.of_wrote hhas hw hw')
  · rw [write_eq_error hhas, write_eq_error fun hhas' => hhas (h.now.has_iff.1 hhas')]
    exact .error (by decide)

/-- A hidden cell may be written on one side alone. -/
theorem write_hidden (h : Mirrors hidden t t') (hc : hidden c) (hret : t'.write c v = .ok t₁') :
    Mirrors hidden t t₁' := by
  obtain ⟨t₂, hret₂, hw⟩ := write_eq h.tracked' (h.now.has_iff.2 (h.has c hc)) v
  cases hret.symm.trans hret₂
  exact {
    tracked := h.tracked
    tracked' := hw.tracked
    now := by
      rw [hw.now_eq]
      exact h.now.put_hidden hc v
    past := by
      rw [hw.past_eq]
      exact h.past
    sets_eq := by rw [hw.sets_eq, h.sets_eq]
    dense_eq := by rw [hw.dense_eq, h.dense_eq]
    position_eq := by rw [hw.position_eq, h.position_eq]
    shown := h.shown
    has := h.has }

/-- The two sides give the same answer and trails that mirror each other. -/
def Paired {α : Type} (hidden : Cell → Prop) (r r' : α × Trail) : Prop :=
  r.1 = r'.1 ∧ Mirrors hidden r.2 r'.2

theorem increment (h : Mirrors hidden t t') (hc : ¬ hidden c) :
    InStep (Paired hidden) (t.increment c) (t'.increment c) :=
  (h.read hc).andThen fun _ => (InStep.check _).andThen fun _ =>
    (h.write c _).bind fun _ _ h₁ => .ok ⟨rfl, h₁⟩

theorem decrement (h : Mirrors hidden t t') (hc : ¬ hidden c) :
    InStep (Paired hidden) (t.decrement c) (t'.decrement c) :=
  (h.read hc).andThen fun _ => (InStep.check _).andThen fun _ =>
    (h.write c _).bind fun _ _ h₁ => .ok ⟨rfl, h₁⟩

theorem newCell (h : Mirrors hidden t t') (v : Int) :
    Paired hidden (t.newCell v) (t'.newCell v) := by
  obtain ⟨hid, hnow, hpast, htracked⟩ := newCell_eq h.tracked v
  obtain ⟨hid', hnow', hpast', htracked'⟩ := newCell_eq h.tracked' v
  have hsize := h.now.size_eq
  rw [size_values_now, size_values_now] at hsize
  refine ⟨by rw [hid, hid', hsize], htracked, htracked', ?_, ?_, h.sets_eq, h.dense_eq,
    h.position_eq, h.shown, fun c hc => ?_⟩
  · rw [hnow, hnow']
    exact h.now.push v
  · rw [hpast, hpast']
    exact h.past
  · rw [hnow]
    exact Frame.has_push (h.has c hc) v _ _

/-- A new cell is not hidden. -/
theorem not_hidden_newCell (h : Mirrors hidden t t') (v : Int) : ¬ hidden (t.newCell v).1 := by
  intro hc
  have hhas := h.has _ hc
  rw [Frame.Has, size_values_now] at hhas
  exact Nat.lt_irrefl _ hhas

/-! ### Sets -/

/-- The description of a set is the same, and its cells are not hidden. -/
theorem on_set {α β : Type} {R : α → β → Prop} {f : SparseSet → Except Fault α}
    {g : SparseSet → Except Fault β} (h : Mirrors hidden t t') (id : SetId)
    (hf : ∀ set : SparseSet, ¬ hidden set.size → ¬ hidden set.least → ¬ hidden set.greatest →
      InStep R (f set) (g set)) : InStep R (t.describe id >>= f) (t'.describe id >>= g) := by
  rw [describe, describe, h.sets_eq]
  refine (InStep.fetch t.sets id.index).bind_of_eq fun set _ hset _ hsame => ?_
  subst hsame
  obtain ⟨hsize, hleast, hgreatest⟩ := h.set_shown (fetch_eq_ok_iff.1 hset)
  exact hf set hsize hleast hgreatest

theorem card (h : Mirrors hidden t t') (id : SetId) : InStep Eq (t.card id) (t'.card id) :=
  h.on_set id fun _ hsize _ _ => h.readCount hsize

theorem least? (h : Mirrors hidden t t') (id : SetId) : InStep Eq (t.least? id) (t'.least? id) :=
  h.on_set id fun _ hsize hleast _ => (h.read hsize).andThen fun _ =>
    .ite (fun _ => .ok rfl) fun _ => (h.read hleast).andThen fun _ =>
      (InStep.check _).andThen fun _ => .ok rfl

theorem greatest? (h : Mirrors hidden t t') (id : SetId) :
    InStep Eq (t.greatest? id) (t'.greatest? id) :=
  h.on_set id fun _ hsize _ hgreatest => (h.read hsize).andThen fun _ =>
    .ite (fun _ => .ok rfl) fun _ => (h.read hgreatest).andThen fun _ =>
      (InStep.check _).andThen fun _ => .ok rfl

theorem member (h : Mirrors hidden t t') (id : SetId) (v : Int) :
    InStep Eq (t.member id v) (t'.member id v) := by
  refine h.on_set id fun set hsize _ _ => (InStep.check _).andThen fun r =>
    .ite (fun _ => .ok rfl) fun _ => (h.readCount hsize).andThen fun size => ?_
  rw [h.position_eq]
  exact (InStep.fetch _ _).andThen fun _ => (InStep.addCount _ _).andThen fun _ => .ok rfl

theorem segmentEnd (h : Mirrors hidden t t') (set : SparseSet) (size : Nat) :
    InStep Eq (t.segmentEnd set size) (t'.segmentEnd set size) := by
  refine (InStep.addCount _ _).andThen fun stop => ?_
  rw [h.dense_eq]
  exact .ite (fun _ => .error (by decide)) fun _ => .ok rfl

theorem segment_eq (h : Mirrors hidden t t') (set : SparseSet) (stop : Nat) :
    t'.segment set stop = t.segment set stop := by
  rw [segment, segment, h.dense_eq]

theorem elements (h : Mirrors hidden t t') (id : SetId) :
    InStep Eq (t.elements id) (t'.elements id) := by
  refine h.on_set id fun set hsize _ _ => (h.readCount hsize).andThen fun size =>
    (h.segmentEnd set size).andThen fun stop => ?_
  rw [h.segment_eq]
  exact .mapM fun _ _ => .check _

/-- The same is done to the arrays of the members. -/
theorem of_arrays (h : Mirrors hidden t t') {dense position : Array Nat}
    (hd : dense.size = t.dense.size) (hp : position.size = t.position.size) :
    Mirrors hidden { t with dense, position } { t' with dense, position } := by
  obtain ⟨hnow, hpast, htracked⟩ := h.tracked.of_arrays dense position hd hp
  obtain ⟨hnow', hpast', htracked'⟩ :=
    h.tracked'.of_arrays dense position (by rw [h.dense_eq, hd]) (by rw [h.position_eq, hp])
  refine ⟨htracked, htracked', ?_, ?_, h.sets_eq, rfl, rfl, h.shown, ?_⟩
  · rw [hnow, hnow']
    exact h.now
  · rw [hpast, hpast']
    exact h.past
  · rw [hnow]
    exact h.has

theorem exchange (h : Mirrors hidden t t') (a b : Nat) :
    InStep (Mirrors hidden) (t.exchange a b) (t'.exchange a b) := by
  rw [Trail.exchange, Trail.exchange, h.position_eq, h.dense_eq]
  exact (InStep.fetch _ _).andThen fun i => (InStep.fetch _ _).andThen fun j =>
    .ite (fun _ => .error (by decide)) fun _ =>
      .ok (h.of_arrays Array.size_swapIfInBounds Array.size_swapIfInBounds)

theorem refreshBounds (h : Mirrors hidden t t') (hleast : ¬ hidden set.least)
    (hgreatest : ¬ hidden set.greatest) (size r : Nat) :
    InStep (Mirrors hidden) (t.refreshBounds set size r) (t'.refreshBounds set size r) := by
  refine .ite (fun _ => .ok h) fun _ => (h.segmentEnd set size).andThen fun stop => ?_
  -- The greatest member is looked for after the least one, on the trail that this left.
  have hupper : ∀ u u' : Trail, Mirrors hidden u u' → InStep (Mirrors hidden)
      (do if Word.unsigned (← u.read set.greatest) = r then
            u.write set.greatest ((u.segment set stop).max?.getD r : Nat)
          else
            return u)
      (do if Word.unsigned (← u'.read set.greatest) = r then
            u'.write set.greatest ((u'.segment set stop).max?.getD r : Nat)
          else
            return u') := by
    intro u u' hu
    rw [hu.segment_eq]
    exact (hu.read hgreatest).andThen fun _ => .ite (fun _ => hu.write _ _) fun _ => .ok hu
  refine (h.read hleast).andThen fun least => ?_
  rw [h.segment_eq]
  exact .ite (fun _ => (h.write _ _).bind hupper) fun _ => hupper t t' h

theorem erase (h : Mirrors hidden t t') (id : SetId) (v : Int) :
    InStep (Paired hidden) (t.erase id v) (t'.erase id v) := by
  refine (h.member id v).andThen fun has => .ite (fun _ => ?_) fun _ => .ok ⟨rfl, h⟩
  refine h.on_set id fun set hsize hleast hgreatest => (InStep.check _).andThen fun r =>
    (h.readCount hsize).andThen fun size => (InStep.addCount _ _).andThen fun stop =>
      (InStep.subCount _ _).andThen fun place => ?_
  rw [h.dense_eq]
  refine (InStep.fetch _ _).andThen fun last => (h.exchange _ _).bind fun t₁ t₁' h₁ =>
    (h₁.decrement hsize).bind ?_
  rintro ⟨size, t₂⟩ ⟨_, t₂'⟩ ⟨rfl, h₂⟩
  exact (h₂.refreshBounds hleast hgreatest _ _).bind fun _ _ h₃ => .ok ⟨rfl, h₃⟩

theorem clear (h : Mirrors hidden t t') (id : SetId) :
    InStep (Mirrors hidden) (t.clear id) (t'.clear id) :=
  h.on_set id fun _ _ _ _ => h.write _ _

theorem keepOnly (h : Mirrors hidden t t') (id : SetId) (v : Int) :
    InStep (Mirrors hidden) (t.keepOnly id v) (t'.keepOnly id v) := by
  refine (h.member id v).andThen fun has => .ite (fun _ => ?_) fun _ => h.clear id
  refine h.on_set id fun set _ _ _ => (InStep.check _).andThen fun r => ?_
  rw [h.dense_eq]
  exact (InStep.fetch _ _).andThen fun first => (h.exchange _ _).bind fun _ _ h₁ =>
    (h₁.write _ _).bind fun _ _ h₂ => (h₂.write _ _).bind fun _ _ h₃ => h₃.write _ _

theorem eraseRun (h : Mirrors hidden t t') (id : SetId) (count : Nat) (v : Int) :
    InStep (Mirrors hidden) (eraseRun id count v t) (eraseRun id count v t') := by
  induction count generalizing v t t' with
  | zero => exact .ok h
  | succ count ih => exact (h.erase id v).bind fun _ _ h₁ => ih h₁.2 (v + 1)

theorem eraseBelow (h : Mirrors hidden t t') (id : SetId) (v : Int) :
    InStep (Mirrors hidden) (t.eraseBelow id v) (t'.eraseBelow id v) := by
  refine (h.least? id).andThen fun least => (h.greatest? id).andThen fun greatest => ?_
  cases least with
  | none => exact .ok h
  | some least =>
    cases greatest with
    | none => exact .ok h
    | some greatest => exact .ite (fun _ => h.clear id) fun _ => h.eraseRun id _ _

theorem eraseAbove (h : Mirrors hidden t t') (id : SetId) (v : Int) :
    InStep (Mirrors hidden) (t.eraseAbove id v) (t'.eraseAbove id v) := by
  refine (h.least? id).andThen fun least => (h.greatest? id).andThen fun greatest => ?_
  cases least with
  | none => exact .ok h
  | some least =>
    cases greatest with
    | none => exact .ok h
    | some greatest =>
      exact .ite (fun _ => h.clear id) fun _ => (InStep.check _).andThen fun _ => h.eraseRun id _ _

theorem bound? (h : Mirrors hidden t t') (side : Side) (id : SetId) :
    InStep Eq (t.bound? side id) (t'.bound? side id) := by
  cases side with
  | lower => exact h.least? id
  | upper => exact h.greatest? id

theorem eraseBeyond (h : Mirrors hidden t t') (side : Side) (id : SetId) (v : Int) :
    InStep (Mirrors hidden) (t.eraseBeyond side id v) (t'.eraseBeyond side id v) := by
  cases side with
  | lower => exact h.eraseBelow id v
  | upper => exact h.eraseAbove id v

/-- Both trails have one more set. -/
theorem addSegment (h : Mirrors hidden t t') (n : Nat) (hset : ∀ c ∈ set.cells, ¬ hidden c) :
    Mirrors hidden (t.addSegment n set) (t'.addSegment n set) := by
  have hnow : ∀ u : Trail, (u.addSegment n set).now =
      { u.now with sets := u.now.sets + 1, dense := u.now.dense + n } := by
    intro u
    simp [Trail.addSegment, Trail.now]
  refine ⟨h.tracked.addSegment n set, h.tracked'.addSegment n set, ?_, h.past, ?_, ?_, ?_,
    ?_, ?_⟩
  · rw [hnow, hnow]
    exact ⟨h.now.size_eq, h.now.get_eq, congrArg (· + 1) h.now.sets_eq,
      congrArg (· + n) h.now.dense_eq⟩
  · simp only [Trail.addSegment, h.sets_eq]
  · simp only [Trail.addSegment, h.dense_eq]
  · simp only [Trail.addSegment, h.dense_eq, h.position_eq]
  · rintro c ⟨other, hother, hc⟩
    obtain hother | rfl := Array.mem_push.1 hother
    · exact h.shown c ⟨other, hother, hc⟩
    · exact hset c hc
  · exact h.has

theorem newSet (h : Mirrors hidden t t') (n : Nat) (offset : Int) :
    Paired hidden (t.newSet n offset) (t'.newSet n offset) := by
  have hfirst := h.newCell n
  have hsecond := hfirst.2.newCell 0
  have hthird := hsecond.2.newCell (n - 1)
  rw [newSet_eq, newSet_eq, h.sets_eq, h.dense_eq]
  dsimp only
  rw [← hfirst.1, ← hsecond.1, ← hthird.1]
  refine ⟨rfl, hthird.2.addSegment n fun c hc => ?_⟩
  simp only [SparseSet.cells, List.mem_cons, List.not_mem_nil, or_false] at hc
  obtain rfl | rfl | rfl := hc
  · exact h.not_hidden_newCell n
  · exact hfirst.2.not_hidden_newCell 0
  · exact hsecond.2.not_hidden_newCell _

/-! ### Levels -/

theorem save (h : Mirrors hidden t t') : Mirrors hidden t.save t'.save := by
  obtain ⟨hnow, hpast, htracked⟩ := save_eq h.tracked
  obtain ⟨hnow', hpast', htracked'⟩ := save_eq h.tracked'
  refine ⟨htracked, htracked', ?_, ?_, h.sets_eq, h.dense_eq, h.position_eq, h.shown, h.has⟩
  · rw [hnow, hnow']
    exact h.now
  · rw [hpast, hpast']
    exact .cons h.now h.past

/-- Without a level there is nothing to restore. -/
theorem restore_eq_error (h : t.past = []) : t.restore = .error .rootLevel := by
  cases hlevels : t.levels with
  | nil => rw [Trail.restore, hlevels]
  | cons level levels =>
    rw [Trail.past, hlevels] at h
    cases h

/-- A level is restored.  The cells that were made since then are hidden no longer. -/
theorem restore (h : Mirrors hidden t t') (hsound : t.Sound) :
    InStep (fun t₁ t₁' => Mirrors (fun c => hidden c ∧ t₁.now.Has c) t₁ t₁') t.restore
      t'.restore := by
  have hforall := h.past
  have hafter := hsound.after
  rw [frames, List.pairwise_cons] at hafter
  cases hpast : t.past with
  | nil =>
    rw [hpast, List.forall₂_nil_left_iff] at hforall
    rw [restore_eq_error hpast, restore_eq_error hforall]
    exact .error (by decide)
  | cons w rest =>
    rw [hpast, List.forall₂_cons_left_iff] at hforall
    obtain ⟨w', rest', hw, hrest, hpast'⟩ := hforall
    obtain ⟨t₁, hret, hnow, hpast₁, hsets, hdense, hposition, _, _, htracked⟩ :=
      restore_eq h.tracked hpast
    obtain ⟨t₁', hret', hnow', hpast₁', hsets', hdense', hposition', _, _, htracked'⟩ :=
      restore_eq h.tracked' hpast'
    rw [hpast, List.pairwise_cons] at hafter
    rw [hret, hret']
    refine .ok ⟨htracked, htracked', ?_, ?_, ?_, ?_, ?_, ?_, fun c hc => hc.2⟩
    · rw [hnow, hnow']
      exact hw.restrict fun c hc hhas => ⟨hc, hhas⟩
    · rw [hpast₁, hpast₁', hnow]
      -- Older frames have no more cells.
      refine ((List.forall₂_and_left rest rest').2 ⟨hafter.2.1, hrest⟩).imp ?_
      rintro u u' ⟨hu, hmirrors⟩
      exact hmirrors.restrict fun c hc hhas => ⟨hc, Nat.lt_of_lt_of_le hhas hu.values_le⟩
    · rw [hsets, hsets', h.sets_eq, hw.sets_eq]
    · rw [hdense, hdense', h.dense_eq, hw.dense_eq]
    · rw [hposition, hposition', h.position_eq, hw.dense_eq]
    · rintro c ⟨set, hset, hc⟩ hhidden
      rw [hsets, Array.shrink_eq_take, Array.take_eq_extract] at hset
      obtain ⟨i, hi, rfl⟩ := Array.mem_extract_iff_getElem.1 hset
      exact h.shown c ⟨_, Array.getElem_mem _, hc⟩ hhidden.1

end Mirrors

end Trail

end FiniteDomain
