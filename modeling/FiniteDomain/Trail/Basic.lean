import FiniteDomain.Word

/-!
# The trail

A trail keeps integers, called cells, and sets of integers, and can put all of them back to what
they were when a level was saved.

There are three groups.

* The representation.  A cell carries the stamp of the clock at which it was last recorded.  The
  log holds, for the levels that are saved, what the cells were before.
* Cells.  A write records the old state of the cell when its stamp is older than the clock, so a
  cell is recorded at most once between two moments at which the clock moves.
* Levels.  `save` and `restore` both move the clock.  `restore` undoes the log in reverse down to
  the length it had, and drops every cell and set that was created since, so that their
  identifiers are handed out again.

The sets live in the same structure.  Their operations are in `FiniteDomain.Trail.SparseSet`.
-/

namespace FiniteDomain

/-! ## The representation -/

/-- The identifier of a reversible integer. -/
structure Cell where
  index : Nat
  deriving DecidableEq, Repr

/-- The identifier of a reversible set. -/
structure SetId where
  index : Nat
  deriving DecidableEq, Repr

/-- A value, and the clock at the write that last recorded what was there before it. -/
structure CellState where
  stamp : Nat
  value : Int
  deriving DecidableEq, Repr

/-- What a cell was before a write. -/
structure LogEntry where
  cell : Cell
  before : CellState
  deriving DecidableEq, Repr

/-- The lengths of the arrays of a trail at the moment a level was saved. -/
structure Level where
  log : Nat
  cells : Nat
  sets : Nat
  dense : Nat
  deriving DecidableEq, Repr

/-- A set of integers from `offset` up to `offset + capacity`, excluded.  It owns the segment of
the shared arrays that begins at `start`; its size and its bounds, relative to the offset, are
cells. -/
structure SparseSet where
  offset : Int
  start : Nat
  capacity : Nat
  size : Cell
  least : Cell
  greatest : Cell
  deriving DecidableEq, Repr

/-- Integers and sets with a history.  The segment of a set in `dense` lists the relative values,
members first; `position` gives, for each relative value, where it stands in `dense`. -/
structure Trail where
  clock : Nat
  log : Array LogEntry
  /-- The saved levels, the last one first. -/
  levels : List Level
  cells : Array CellState
  sets : Array SparseSet
  dense : Array Nat
  position : Array Nat
  deriving DecidableEq, Repr

namespace Trail

/-- A trail without cells, sets or saved levels. -/
def empty : Trail where
  clock := 0
  log := #[]
  levels := []
  cells := #[]
  sets := #[]
  dense := #[]
  position := #[]

/-- The number of levels that can be restored. -/
def depth (t : Trail) : Nat := t.levels.length

/-! ## Cells -/

/-- A new cell that holds `v`. -/
def newCell (t : Trail) (v : Int) : Cell × Trail :=
  (⟨t.cells.size⟩, { t with cells := t.cells.push ⟨t.clock, v⟩ })

/-- The value of a cell. -/
def read (t : Trail) (c : Cell) : Except Fault Int := do
  return (← fetch t.cells c.index).value

/-- The value of a cell that holds a count. -/
def readCount (t : Trail) (c : Cell) : Except Fault Nat := do
  return Word.unsigned (← t.read c)

/-- Puts `v` into a cell.  The old state is recorded unless the value stays the same or the cell
was recorded since the clock last moved. -/
def write (t : Trail) (c : Cell) (v : Int) : Except Fault Trail :=
  match t.cells[c.index]? with
  | none => .error .outOfBounds
  | some old =>
    if v = old.value then
      .ok t
    else if old.stamp < t.clock then
      .ok { t with
        log := t.log.push ⟨c, old⟩
        cells := t.cells.setIfInBounds c.index ⟨t.clock, v⟩ }
    else
      .ok { t with cells := t.cells.setIfInBounds c.index ⟨old.stamp, v⟩ }

/-- Adds one to a cell and gives the new value. -/
def increment (t : Trail) (c : Cell) : Except Fault (Int × Trail) := do
  let v ← Word.add (← t.read c) 1
  return (v, ← t.write c v)

/-- Takes one from a cell and gives the new value. -/
def decrement (t : Trail) (c : Cell) : Except Fault (Int × Trail) := do
  let v ← Word.sub (← t.read c) 1
  return (v, ← t.write c v)

/-- What a cell holds after a write into some cell. -/
theorem read_write {t t' : Trail} {c : Cell} {v : Int} (h : t.write c v = .ok t') (d : Cell) :
    t'.read d = if d = c then .ok v else t.read d := by
  unfold write at h
  split at h
  · cases h
  rename_i old hold
  have hlt : c.index < t.cells.size := (Array.getElem?_eq_some_iff.1 hold).1
  have hset : ∀ (state : CellState) (cells : Array CellState),
      cells = t.cells.setIfInBounds c.index state → state.value = v →
      (fetch cells d.index >>= fun s => pure s.value) =
        if d = c then (Except.ok v : Except Fault Int) else t.read d := by
    rintro state cells rfl rfl
    by_cases hd : d = c
    · subst hd
      simp [fetch, hlt, bind, Except.bind, pure, Except.pure]
    · have hne : c.index ≠ d.index := fun hi => hd (congrArg Cell.mk hi.symm)
      rw [if_neg hd, read, fetch, Array.getElem?_setIfInBounds_ne hne]
      rfl
  by_cases hv : v = old.value
  · rw [if_pos hv] at h
    cases h
    by_cases hd : d = c
    · subst hd
      rw [if_pos rfl, read, fetch, hold, hv]
      rfl
    · rw [if_neg hd]
  · rw [if_neg hv] at h
    by_cases hs : old.stamp < t.clock
    · rw [if_pos hs] at h
      cases h
      exact hset _ _ rfl rfl
    · rw [if_neg hs] at h
      cases h
      exact hset _ _ rfl rfl

/-! ## Levels -/

/-- Begins a new level. -/
def save (t : Trail) : Trail :=
  { t with
    clock := t.clock + 1
    levels := ⟨t.log.size, t.cells.size, t.sets.size, t.dense.size⟩ :: t.levels }

/-- Takes back the last `count` entries of the log, the last one first. -/
def undo : Nat → Trail → Trail
  | 0, t => t
  | count + 1, t =>
    match t.log.back? with
    | none => t
    | some e =>
      undo count { t with
        log := t.log.pop
        cells := t.cells.setIfInBounds e.cell.index e.before }

/-- Puts everything back to what it was when the last level began. -/
def restore (t : Trail) : Except Fault Trail :=
  match t.levels with
  | [] => .error .rootLevel
  | level :: levels =>
    let t := undo (t.log.size - level.log) t
    .ok { t with
      clock := t.clock + 1
      levels := levels
      cells := t.cells.shrink level.cells
      sets := t.sets.shrink level.sets
      dense := t.dense.shrink level.dense
      position := t.position.shrink level.dense }

end Trail

end FiniteDomain
