import FiniteDomain.Trail.Basic
import Mathlib.Order.Basic

/-!
# What a trail goes back to

A frame is what the cells hold at one moment, with the numbers of sets and of places there are.
`Trail.now` is the frame of the present, and `Trail.past` lists the frames that restoring the saved
levels one after the other brings back, the latest one first.

`Trail.Tracked` is the invariant of the clock, the stamps and the log: a cell whose stamp is the
present clock is recorded in the open level, or was made in it.  Under it every operation is
described by what it does to the two.

* A write changes one cell of the present and nothing of the past (`Trail.write_eq`).
* A new cell is added to the present, and is not in the past (`Trail.now_newCell`).
* Saving puts the present before the past (`Trail.past_save`), and restoring takes it from there
  (`Trail.restore_eq`).
-/

namespace FiniteDomain

/-- What the cells hold at one moment, and how many sets and places for their members there are. -/
structure Frame where
  values : Array Int
  sets : Nat
  dense : Nat

namespace Frame

/-- The frame has a cell. -/
def Has (w : Frame) (c : Cell) : Prop := c.index < w.values.size

/-- What a cell holds. -/
def get (w : Frame) (c : Cell) : Int := (w.values[c.index]?).getD 0

/-- Puts a value into a cell. -/
def put (w : Frame) (c : Cell) (v : Int) : Frame :=
  { w with values := w.values.setIfInBounds c.index v }

@[simp]
theorem sets_put (w : Frame) (c : Cell) (v : Int) : (w.put c v).sets = w.sets := rfl

@[simp]
theorem dense_put (w : Frame) (c : Cell) (v : Int) : (w.put c v).dense = w.dense := rfl

@[simp]
theorem size_put (w : Frame) (c : Cell) (v : Int) :
    (w.put c v).values.size = w.values.size := by
  rw [put, Array.size_setIfInBounds]

@[simp]
theorem has_put {w : Frame} {c d : Cell} {v : Int} : (w.put c v).Has d ↔ w.Has d := by
  rw [Has, Has, size_put]

/-- What a cell holds after a value was put into some cell. -/
theorem get_put {w : Frame} {c : Cell} (h : w.Has c) (v : Int) (d : Cell) :
    (w.put c v).get d = if d = c then v else w.get d := by
  rw [get, put]
  by_cases hd : d = c
  · subst hd
    rw [if_pos rfl, Array.getElem?_setIfInBounds_self_of_lt h]
    rfl
  · have hne : c.index ≠ d.index := fun hi => hd (congrArg Cell.mk hi.symm)
    rw [if_neg hd, Array.getElem?_setIfInBounds_ne hne]
    rfl

/-- The cell itself holds the value. -/
theorem get_put_self {w : Frame} {c : Cell} (h : w.Has c) (v : Int) : (w.put c v).get c = v := by
  rw [get_put h, if_pos rfl]

/-- The other cells hold what they held. -/
theorem get_put_of_ne (w : Frame) {c d : Cell} (v : Int) (h : d ≠ c) :
    (w.put c v).get d = w.get d := by
  have hne : c.index ≠ d.index := fun hi => h (congrArg Cell.mk hi.symm)
  rw [get, put, Array.getElem?_setIfInBounds_ne hne]
  rfl

/-- Putting into a cell what it holds changes nothing. -/
theorem put_get (w : Frame) (c : Cell) : w.put c (w.get c) = w := by
  have hvalues : w.values.setIfInBounds c.index (w.get c) = w.values := by
    refine Array.ext_getElem? fun j => ?_
    rw [Array.getElem?_setIfInBounds, get]
    split_ifs with hj hlt
    · rw [← hj, Array.getElem?_eq_getElem hlt]
      rfl
    · exact (Array.getElem?_eq_none (by omega)).symm
    · rfl
  rw [put, hvalues]

end Frame

/-- The lengths at one level are at most those at another. -/
def Level.Below (older newer : Level) : Prop :=
  older.log ≤ newer.log ∧ older.cells ≤ newer.cells ∧ older.sets ≤ newer.sets ∧
    older.dense ≤ newer.dense

namespace Trail

/-! ## The present and the past -/

/-- The frame of the present. -/
def now (t : Trail) : Frame :=
  ⟨t.cells.map CellState.value, t.sets.size, t.dense.size⟩

/-- Takes entries of the log back, the last one first. -/
def rollback (entries : List LogEntry) (cells : Array CellState) : Array CellState :=
  entries.foldr (fun e cells => cells.setIfInBounds e.cell.index e.before) cells

/-- The frames that several levels bring back, given the log and the cells. -/
def framesOf : List Level → List LogEntry → Array CellState → List Frame
  | [], _, _ => []
  | level :: levels, log, cells =>
    let cells := (rollback (log.drop level.log) cells).shrink level.cells
    ⟨cells.map CellState.value, level.sets, level.dense⟩ ::
      framesOf levels (log.take level.log) cells

/-- The frames that restoring brings back, the next one first. -/
def past (t : Trail) : List Frame := framesOf t.levels t.log.toList t.cells

/-- The frame of the present and those of the past. -/
def frames (t : Trail) : List Frame := t.now :: t.past

/-- The stamps are not ahead of the clock, what has the stamp of the present is recorded or new,
and the levels were saved one after the other. -/
structure Tracked (t : Trail) : Prop where
  stamp_le : ∀ state ∈ t.cells, state.stamp ≤ t.clock
  before_le : ∀ e ∈ t.log, e.before.stamp ≤ t.clock
  recorded : ∀ level ∈ t.levels.head?, ∀ (i : Nat) (state : CellState),
    t.cells[i]? = some state → t.clock ≤ state.stamp →
      level.cells ≤ i ∨ ∃ e ∈ t.log.toList.drop level.log, e.cell.index = i
  level_below : ∀ level ∈ t.levels,
    level.Below ⟨t.log.size, t.cells.size, t.sets.size, t.dense.size⟩
  levels_sorted : t.levels.Pairwise fun newer older => older.Below newer
  position_size : t.position.size = t.dense.size

/-! ## Arrays that grow and are cut off -/

/-- What an array holds after one entry was added. -/
theorem getElem?_push_cases {α : Type} {xs : Array α} {a b : α} {i : Nat}
    (h : (xs.push a)[i]? = some b) : i < xs.size ∧ xs[i]? = some b ∨ i = xs.size ∧ b = a := by
  rw [Array.getElem?_push] at h
  split_ifs at h with hi
  · exact Or.inr ⟨hi, (Option.some.inj h).symm⟩
  · exact Or.inl ⟨(Array.getElem?_eq_some_iff.1 h).1, h⟩

theorem getElem?_shrink {α : Type} (xs : Array α) (n i : Nat) :
    (xs.shrink n)[i]? = if i < n then xs[i]? else none := by
  rw [Array.shrink_eq_take, Array.take_eq_extract, Array.getElem?_extract]
  simp only [Nat.sub_zero, Nat.zero_add]
  by_cases hi : i < n
  · rw [if_pos hi]
    by_cases hlt : i < xs.size
    · rw [if_pos (by omega)]
    · rw [if_neg (by omega), Array.getElem?_eq_none (by omega)]
  · rw [if_neg hi, if_neg (by omega)]

/-- What is left after an array was cut off. -/
theorem getElem?_shrink_eq_some {α : Type} {xs : Array α} {n i : Nat} {a : α} :
    (xs.shrink n)[i]? = some a ↔ i < n ∧ xs[i]? = some a := by
  rw [getElem?_shrink]
  split_ifs with hi
  · exact (and_iff_right hi).symm
  · exact ⟨nofun, fun h => absurd h.1 hi⟩

theorem size_shrink {α : Type} {xs : Array α} {n : Nat} (h : n ≤ xs.size) :
    (xs.shrink n).size = n := by
  rw [Array.shrink_eq_take, Array.take_eq_extract, Array.size_extract]
  omega

/-- What is left was there. -/
theorem mem_of_mem_shrink {α : Type} {xs : Array α} {n : Nat} {a : α} (h : a ∈ xs.shrink n) :
    a ∈ xs := by
  obtain ⟨i, hi⟩ := Array.mem_iff_getElem?.1 h
  exact Array.mem_of_getElem? (getElem?_shrink_eq_some.1 hi).2

/-! ## Taking the log back -/

@[simp]
theorem size_rollback (entries : List LogEntry) (cells : Array CellState) :
    (rollback entries cells).size = cells.size := by
  induction entries with
  | nil => rfl
  | cons e rest ih => rw [rollback, List.foldr_cons, Array.size_setIfInBounds]; exact ih

/-- What is brought back at a place depends on what is there only. -/
theorem rollback_congr {cells cells' : Array CellState} {i : Nat}
    (entries : List LogEntry) (h : cells[i]? = cells'[i]?) :
    (rollback entries cells)[i]? = (rollback entries cells')[i]? := by
  induction entries with
  | nil => exact h
  | cons e rest ih =>
    rw [rollback, rollback, List.foldr_cons, List.foldr_cons, ← rollback, ← rollback]
    by_cases hi : e.cell.index = i
    · subst hi
      by_cases hlt : e.cell.index < cells.size
      · have hlt' : e.cell.index < cells'.size := by
          rw [Array.getElem?_eq_getElem hlt] at h
          exact (Array.getElem?_eq_some_iff.1 h.symm).1
        rw [Array.getElem?_setIfInBounds_self_of_lt (by rw [size_rollback]; exact hlt),
          Array.getElem?_setIfInBounds_self_of_lt (by rw [size_rollback]; exact hlt')]
      · have hnone : cells'[e.cell.index]? = none := by
          rw [← h]
          exact Array.getElem?_eq_none (by omega)
        have hge := Array.getElem?_eq_none_iff.1 hnone
        rw [Array.getElem?_eq_none (by rw [Array.size_setIfInBounds, size_rollback]; omega),
          Array.getElem?_eq_none (by rw [Array.size_setIfInBounds, size_rollback]; exact hge)]
    · rw [Array.getElem?_setIfInBounds_ne hi, Array.getElem?_setIfInBounds_ne hi, ih]

/-- What is brought back at a place that is recorded does not depend on what is there. -/
theorem rollback_set_of_recorded {cells : Array CellState} {entries : List LogEntry} {i : Nat}
    (state : CellState) (h : ∃ e ∈ entries, e.cell.index = i) :
    rollback entries (cells.setIfInBounds i state) = rollback entries cells := by
  refine Array.ext_getElem? fun j => ?_
  by_cases hj : i = j
  · subst hj
    induction entries with
    | nil =>
      obtain ⟨e, he, _⟩ := h
      cases he
    | cons e rest ih =>
      rw [rollback, rollback, List.foldr_cons, List.foldr_cons, ← rollback, ← rollback]
      by_cases hi : e.cell.index = i
      · subst hi
        by_cases hlt : e.cell.index < cells.size
        · rw [Array.getElem?_setIfInBounds_self_of_lt
              (by rw [size_rollback, Array.size_setIfInBounds]; exact hlt),
            Array.getElem?_setIfInBounds_self_of_lt (by rw [size_rollback]; exact hlt)]
        · rw [Array.getElem?_eq_none
              (by rw [Array.size_setIfInBounds, size_rollback, Array.size_setIfInBounds]; omega),
            Array.getElem?_eq_none (by rw [Array.size_setIfInBounds, size_rollback]; omega)]
      · rw [Array.getElem?_setIfInBounds_ne hi, Array.getElem?_setIfInBounds_ne hi]
        obtain ⟨e', he', hi'⟩ := h
        rcases List.mem_cons.1 he' with rfl | he'
        · exact absurd hi' hi
        · exact ih ⟨e', he', hi'⟩
  · exact rollback_congr entries (Array.getElem?_setIfInBounds_ne hj)

/-- What is brought back has a stamp of an entry, or the one it had. -/
theorem stamp_le_of_mem_rollback {entries : List LogEntry} {cells : Array CellState} {clock : Nat}
    (hcells : ∀ state ∈ cells, state.stamp ≤ clock)
    (hentries : ∀ e ∈ entries, e.before.stamp ≤ clock) :
    ∀ state ∈ rollback entries cells, state.stamp ≤ clock := by
  induction entries with
  | nil => exact hcells
  | cons e rest ih =>
    intro state hstate
    rw [rollback, List.foldr_cons] at hstate
    obtain ⟨he, hrest⟩ := List.forall_mem_cons.1 hentries
    rcases Array.mem_or_eq_of_mem_setIfInBounds hstate with hstate | rfl
    · exact ih hrest state hstate
    · exact he

/-- The frames of the past stay what they are if the last level is brought back as it was. -/
theorem past_congr {t : Trail} {log : Array LogEntry} {cells : Array CellState}
    (h : ∀ level ∈ t.levels.head?, log.toList.take level.log = t.log.toList.take level.log ∧
      (rollback (log.toList.drop level.log) cells).shrink level.cells =
        (rollback (t.log.toList.drop level.log) t.cells).shrink level.cells) :
    ({ t with log, cells } : Trail).past = t.past := by
  rw [past, past]
  dsimp only
  cases hl : t.levels with
  | nil => rfl
  | cons level levels =>
    obtain ⟨htake, hcells⟩ := h level (by rw [hl]; rfl)
    rw [framesOf, framesOf, htake, hcells]

/-- Undoing entries one after the other takes them back. -/
theorem undo_eq (count : Nat) (t : Trail) (h : count ≤ t.log.size) :
    undo count t = { t with
      log := t.log.take (t.log.size - count)
      cells := rollback (t.log.toList.drop (t.log.size - count)) t.cells } := by
  induction count generalizing t with
  | zero =>
    have hlen : t.log.toList.drop t.log.size = [] := List.drop_eq_nil_of_le (by simp)
    rw [undo, Nat.sub_zero, hlen]
    simp [rollback]
  | succ count ih =>
    have hpos : 0 < t.log.size := by omega
    have hback : t.log.back? = some t.log[t.log.size - 1] := by
      rw [Array.back?, Array.getElem?_eq_getElem (by omega)]
    have hdrop : t.log.toList.drop (t.log.size - (count + 1)) =
        (t.log.pop.toList.drop (t.log.pop.size - count)) ++ [t.log[t.log.size - 1]] := by
      have hlist : t.log.toList = t.log.pop.toList ++ [t.log[t.log.size - 1]] := by
        rw [Array.toList_pop]
        have hne : t.log.toList ≠ [] := by
          intro hnil
          rw [← Array.length_toList, hnil] at hpos
          exact absurd hpos (by simp)
        have hlast : t.log.toList.getLast hne = t.log[t.log.size - 1] := by
          rw [List.getLast_eq_getElem, Array.getElem_toList]
          rfl
        rw [← hlast, List.dropLast_concat_getLast]
      rw [Array.size_pop, hlist, List.drop_append_of_le_length]
      · congr 2
        omega
      · rw [Array.length_toList, Array.size_pop]
        omega
    rw [undo, hback]
    dsimp only
    rw [ih _ (by rw [Array.size_pop]; omega), hdrop]
    have hsize : t.log.pop.size - count = t.log.size - (count + 1) := by
      rw [Array.size_pop]
      omega
    have htake : t.log.pop.take (t.log.size - (count + 1)) =
        t.log.take (t.log.size - (count + 1)) := by
      refine Array.ext_getElem? fun j => ?_
      simp only [Array.take_eq_extract, Array.getElem?_extract, Array.size_pop]
      by_cases hj : j < t.log.size - (count + 1)
      · rw [if_pos (by omega), if_pos (by omega), Array.getElem?_pop, if_pos (by omega)]
      · rw [if_neg (by omega), if_neg (by omega)]
    rw [hsize, htake, rollback, rollback, List.foldr_append]
    rfl

/-! ## Cells -/

@[simp]
theorem size_values_now (t : Trail) : t.now.values.size = t.cells.size := Array.size_map

/-- A cell that exists is read. -/
theorem read_eq {t : Trail} {c : Cell} (h : t.now.Has c) : t.read c = .ok (t.now.get c) := by
  have hlt : c.index < t.cells.size := by
    rw [Frame.Has, size_values_now] at h
    exact h
  simp [read, fetch, Frame.get, now, hlt]

/-- A cell that holds a count is read as that count. -/
theorem readCount_eq {t : Trail} {c : Cell} {n : Nat} (h : t.now.Has c)
    (hn : t.now.get c = n) (hlt : n < Word.countBound) : t.readCount c = .ok n := by
  rw [readCount, read_eq h, hn]
  exact congrArg Except.ok (Word.unsigned_natCast hlt)

/-- What a write changes. -/
structure Wrote (t t' : Trail) (c : Cell) (v : Int) : Prop where
  now_eq : t'.now = t.now.put c v
  past_eq : t'.past = t.past
  sets_eq : t'.sets = t.sets
  dense_eq : t'.dense = t.dense
  position_eq : t'.position = t.position
  tracked : t'.Tracked

theorem Tracked.log_le {t : Trail} (ht : t.Tracked) {level : Level} (h : level ∈ t.levels.head?) :
    level.log ≤ t.log.size :=
  (ht.level_below level (List.mem_of_mem_head? h)).1

theorem Tracked.cells_le {t : Trail} (ht : t.Tracked) {level : Level} (h : level ∈ t.levels.head?) :
    level.cells ≤ t.cells.size :=
  (ht.level_below level (List.mem_of_mem_head? h)).2.1

/-- What the cells hold after one of them got another state. -/
theorem now_setIfInBounds (t : Trail) (log : Array LogEntry) (c : Cell) (state : CellState) :
    ({ t with log, cells := t.cells.setIfInBounds c.index state } : Trail).now =
      t.now.put c state.value := by
  rw [now, Array.map_setIfInBounds]
  rfl

/-- The old state goes to the log, so that taking the entry back restores the array. -/
theorem wrote_of_recorded {t : Trail} (ht : t.Tracked) {c : Cell} {old : CellState}
    (hold : t.cells[c.index]? = some old) (hstamp : old.stamp < t.clock) (v : Int) :
    Wrote t { t with
      log := t.log.push ⟨c, old⟩
      cells := t.cells.setIfInBounds c.index ⟨t.clock, v⟩ } c v := by
  have hback : (t.cells.setIfInBounds c.index ⟨t.clock, v⟩).setIfInBounds c.index old = t.cells := by
    refine Array.ext_getElem? fun j => ?_
    by_cases hj : c.index = j
    · subst hj
      rw [Array.getElem?_setIfInBounds_self_of_lt (by
        rw [Array.size_setIfInBounds]
        exact (Array.getElem?_eq_some_iff.1 hold).1), hold]
    · rw [Array.getElem?_setIfInBounds_ne hj, Array.getElem?_setIfInBounds_ne hj]
  have hdrop : ∀ level ∈ t.levels.head?, (t.log.push ⟨c, old⟩).toList.drop level.log =
      t.log.toList.drop level.log ++ [⟨c, old⟩] := fun level hlevel => by
    rw [Array.toList_push, List.drop_append_of_le_length (ht.log_le hlevel)]
  refine ⟨now_setIfInBounds t _ c _, past_congr fun level hlevel => ⟨?_, ?_⟩, rfl, rfl, rfl, ?_⟩
  · rw [Array.toList_push, List.take_append_of_le_length (ht.log_le hlevel)]
  · rw [hdrop level hlevel, rollback, List.foldr_append, List.foldr_cons, List.foldr_nil, hback]
    rfl
  · refine ⟨fun state hstate => ?_, fun e he => ?_, fun level hlevel i state hi hle => ?_,
      fun level hlevel => ?_, ht.levels_sorted, ht.position_size⟩
    · rcases Array.mem_or_eq_of_mem_setIfInBounds hstate with hstate | rfl
      · exact ht.stamp_le state hstate
      · exact Nat.le_refl _
    · rcases Array.mem_push.1 he with he | rfl
      · exact ht.before_le e he
      · exact Nat.le_of_lt hstamp
    · rw [hdrop level hlevel]
      by_cases hci : c.index = i
      · exact Or.inr ⟨⟨c, old⟩, by simp, hci⟩
      · rw [Array.getElem?_setIfInBounds_ne hci] at hi
        refine (ht.recorded level hlevel i state hi hle).imp_right ?_
        rintro ⟨e, he, hei⟩
        exact ⟨e, List.mem_append_left _ he, hei⟩
    · obtain ⟨hlog, hcells, hrest⟩ := ht.level_below level hlevel
      exact ⟨Nat.le_trans hlog (by simp), hcells.trans_eq Array.size_setIfInBounds.symm, hrest⟩

/-- The cell is recorded since the level began, or was made after that, so nothing is recorded. -/
theorem wrote_of_stamped {t : Trail} (ht : t.Tracked) {c : Cell} {old : CellState}
    (hold : t.cells[c.index]? = some old) (hstamp : t.clock ≤ old.stamp) (v : Int) :
    Wrote t { t with cells := t.cells.setIfInBounds c.index ⟨old.stamp, v⟩ } c v := by
  refine ⟨now_setIfInBounds t _ c _, past_congr fun level hlevel => ⟨rfl, ?_⟩, rfl, rfl, rfl, ?_⟩
  · rcases ht.recorded level hlevel _ _ hold hstamp with hge | hrecorded
    · refine Array.ext_getElem? fun j => ?_
      rw [getElem?_shrink, getElem?_shrink]
      split_ifs with hj
      · exact rollback_congr _ (Array.getElem?_setIfInBounds_ne (by omega))
      · rfl
    · rw [rollback_set_of_recorded _ hrecorded]
  · refine ⟨fun state hstate => ?_, ht.before_le, fun level hlevel i state hi hle => ?_,
      fun level hlevel => ?_, ht.levels_sorted, ht.position_size⟩
    · rcases Array.mem_or_eq_of_mem_setIfInBounds hstate with hstate | rfl
      · exact ht.stamp_le state hstate
      · exact ht.stamp_le old (Array.mem_of_getElem? hold)
    · by_cases hci : c.index = i
      · subst hci
        exact ht.recorded level hlevel _ _ hold hstamp
      · rw [Array.getElem?_setIfInBounds_ne hci] at hi
        exact ht.recorded level hlevel i state hi hle
    · obtain ⟨hlog, hcells, hrest⟩ := ht.level_below level hlevel
      exact ⟨hlog, hcells.trans_eq Array.size_setIfInBounds.symm, hrest⟩

/-- A write into a cell that exists changes what the cell holds now. -/
theorem write_eq {t : Trail} (ht : t.Tracked) {c : Cell} (h : t.now.Has c) (v : Int) :
    ∃ t', t.write c v = .ok t' ∧ Wrote t t' c v := by
  obtain ⟨old, hold⟩ : ∃ old, t.cells[c.index]? = some old := by
    rw [Frame.Has, size_values_now] at h
    exact ⟨_, Array.getElem?_eq_getElem h⟩
  rw [write, hold]
  dsimp only
  split_ifs with hv hs
  · refine ⟨t, rfl, ?_, rfl, rfl, rfl, rfl, ht⟩
    have hget : t.now.get c = v := by
      rw [Frame.get, now, Array.getElem?_map, hold, hv]
      rfl
    rw [← hget, Frame.put_get]
  · exact ⟨_, rfl, wrote_of_recorded ht hold hs v⟩
  · exact ⟨_, rfl, wrote_of_stamped ht hold (Nat.le_of_not_lt hs) v⟩

/-- A new cell comes after the others, and is not in the past. -/
theorem newCell_eq {t : Trail} (ht : t.Tracked) (v : Int) :
    (t.newCell v).1 = ⟨t.cells.size⟩ ∧
      (t.newCell v).2.now = { t.now with values := t.now.values.push v } ∧
      (t.newCell v).2.past = t.past ∧ (t.newCell v).2.Tracked := by
  refine ⟨rfl, ?_, ?_, ?_⟩
  · simp [newCell, now]
  · refine past_congr fun level hlevel => ⟨rfl, Array.ext_getElem? fun j => ?_⟩
    rw [getElem?_shrink, getElem?_shrink]
    split_ifs with hj
    · have hlt := Nat.lt_of_lt_of_le hj (ht.cells_le hlevel)
      refine rollback_congr _ ?_
      rw [Array.getElem?_push_lt hlt, Array.getElem?_eq_getElem hlt]
    · rfl
  · refine ⟨?_, ht.before_le, ?_, ?_, ht.levels_sorted, ht.position_size⟩
    · intro state hstate
      rcases Array.mem_push.1 hstate with hstate | rfl
      · exact ht.stamp_le state hstate
      · exact Nat.le_refl _
    · intro level hlevel i state hi hle
      obtain ⟨_, hi⟩ | ⟨rfl, _⟩ := getElem?_push_cases hi
      · exact ht.recorded level hlevel i state hi hle
      · exact Or.inl (ht.cells_le hlevel)
    · intro level hlevel
      have h4 := ht.level_below level hlevel
      refine ⟨h4.1, Nat.le_trans h4.2.1 ?_, h4.2.2⟩
      dsimp only [newCell]
      rw [Array.size_push]
      exact Nat.le_succ _

/-! ## Levels -/

/-- Saving makes the present the next frame to go back to. -/
theorem save_eq {t : Trail} (ht : t.Tracked) :
    t.save.now = t.now ∧ t.save.past = t.now :: t.past ∧ t.save.Tracked := by
  refine ⟨rfl, ?_, ?_⟩
  · have hdrop : t.log.toList.drop t.log.size = [] := List.drop_eq_nil_of_le (by simp)
    have htake : t.log.toList.take t.log.size = t.log.toList := List.take_of_length_le (by simp)
    rw [past, save]
    dsimp only
    rw [framesOf]
    dsimp only
    rw [hdrop, htake]
    simp [rollback, now, past]
  · refine ⟨fun state hs => Nat.le_succ_of_le (ht.stamp_le state hs),
      fun e he => Nat.le_succ_of_le (ht.before_le e he), ?_, ?_, ?_, ht.position_size⟩
    · intro level _ i state hi hle
      have := ht.stamp_le state (Array.mem_of_getElem? hi)
      dsimp only [save] at hle
      omega
    · intro level hlevel
      rcases List.mem_cons.1 hlevel with rfl | hlevel
      · exact ⟨Nat.le_refl _, Nat.le_refl _, Nat.le_refl _, Nat.le_refl _⟩
      · exact ht.level_below level hlevel
    · exact List.pairwise_cons.2 ⟨fun level hlevel => ht.level_below level hlevel,
        ht.levels_sorted⟩

/-- Restoring goes back to the first frame of the past. -/
theorem restore_eq {t : Trail} (ht : t.Tracked) {w : Frame} {rest : List Frame}
    (hpast : t.past = w :: rest) :
    ∃ t', t.restore = .ok t' ∧ t'.now = w ∧ t'.past = rest ∧ t'.sets = t.sets.shrink w.sets ∧
      t'.dense = t.dense.shrink w.dense ∧ t'.position = t.position.shrink w.dense ∧
      w.sets ≤ t.sets.size ∧ w.dense ≤ t.dense.size ∧ t'.Tracked := by
  cases hl : t.levels with
  | nil =>
    rw [past, hl] at hpast
    cases hpast
  | cons level levels =>
    have hbelow := ht.level_below level (by rw [hl]; exact List.mem_cons_self ..)
    obtain ⟨hlog, hcells, hsets, hdense⟩ := hbelow
    dsimp only at hlog hcells hsets hdense
    have hsub : t.log.size - (t.log.size - level.log) = level.log := by omega
    have hundo := undo_eq (t.log.size - level.log) t (Nat.sub_le _ _)
    rw [hsub] at hundo
    rw [past, hl, framesOf] at hpast
    obtain ⟨hw, hrest⟩ := List.cons.inj hpast
    have hsorted := ht.levels_sorted
    rw [hl, List.pairwise_cons] at hsorted
    have hstamp : ∀ state ∈ (rollback (t.log.toList.drop level.log) t.cells).shrink level.cells,
        state.stamp ≤ t.clock := fun state hstate =>
      stamp_le_of_mem_rollback ht.stamp_le
        (fun e he => ht.before_le e (Array.mem_toList_iff.1 (List.mem_of_mem_drop he))) state
        (mem_of_mem_shrink hstate)
    refine ⟨_, by rw [restore, hl], ?_⟩
    dsimp only
    rw [hundo]
    subst hw
    refine ⟨?_, ?_, rfl, rfl, rfl, hsets, hdense, fun state hstate => ?_, fun e he => ?_,
      fun level' _ i state hi hle => ?_, fun level' hlevel' => ?_, hsorted.2, ?_⟩
    · rw [now]
      dsimp only
      rw [size_shrink hsets, size_shrink hdense]
    · rw [past, ← hrest]
      dsimp only
      congr 1
      simp
    · exact Nat.le_succ_of_le (hstamp state hstate)
    · obtain ⟨i, _, rfl⟩ := Array.mem_extract_iff_getElem.1 (Array.take_eq_extract ▸ he)
      exact Nat.le_succ_of_le (ht.before_le _ (Array.getElem_mem _))
    · have := hstamp state (Array.mem_of_getElem? hi)
      dsimp only at hle
      omega
    · obtain ⟨h1, h2, h3, h4⟩ := hsorted.1 level' hlevel'
      refine ⟨?_, ?_, ?_, ?_⟩
      · dsimp only
        rw [Array.take_eq_extract, Array.size_extract]
        omega
      · rw [size_shrink (by rw [size_rollback]; exact hcells)]
        exact h2
      · rw [size_shrink hsets]
        exact h3
      · rw [size_shrink hdense]
        exact h4
    · rw [size_shrink hdense, size_shrink (ht.position_size.symm ▸ hdense)]

/-- A level that was restored had a frame. -/
theorem exists_past_of_restore {t t' : Trail} (hret : t.restore = .ok t') :
    ∃ w rest, t.past = w :: rest := by
  cases hl : t.levels with
  | nil =>
    rw [restore, hl] at hret
    cases hret
  | cons level levels =>
    rw [past, hl]
    exact ⟨_, _, rfl⟩

end Trail

end FiniteDomain
