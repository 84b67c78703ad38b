import FiniteDomain.Trail.Basic

/-!
# Reversible sets

A set of integers is a permutation of its first values together with a size: the members are the
values that stand in the first `size` places of the segment.  Removing a value exchanges it with
the last member and shortens the size by one.  The size is a cell, so restoring it brings the value
back, wherever the exchanges have left it; only the order of the members can differ.

The bounds are two more cells.  They are brought up to date by every operation that leaves a
member, and mean nothing while the set is empty.

* Queries: `card`, `least?`, `greatest?`, `member`, `elements`.
* Updates: `erase`, `clear`, `keepOnly`, `eraseBelow`, `eraseAbove`.
-/

namespace FiniteDomain.Trail

/-- A new set with the `n` values from `offset` on. -/
def newSet (t : Trail) (n : Nat) (offset : Int) : SetId × Trail :=
  let id : SetId := ⟨t.sets.size⟩
  let start := t.dense.size
  let t := { t with
    dense := t.dense ++ (List.range n).toArray
    position := t.position ++ (List.range' start n).toArray }
  let (size, t) := t.newCell (n : Int)
  let (least, t) := t.newCell 0
  let (greatest, t) := t.newCell ((n : Int) - 1)
  (id, { t with sets := t.sets.push ⟨offset, start, n, size, least, greatest⟩ })

/-! ## Queries -/

/-- The description of a set. -/
def describe (t : Trail) (id : SetId) : Except Fault SparseSet :=
  fetch t.sets id.index

/-- The number of members. -/
def card (t : Trail) (id : SetId) : Except Fault Nat := do
  t.readCount (← t.describe id).size

/-- The least member, if there is one. -/
def least? (t : Trail) (id : SetId) : Except Fault (Option Int) := do
  let s ← t.describe id
  if (← t.read s.size) ≤ 0 then
    return none
  else
    return some (← Word.add (← t.read s.least) s.offset)

/-- The greatest member, if there is one. -/
def greatest? (t : Trail) (id : SetId) : Except Fault (Option Int) := do
  let s ← t.describe id
  if (← t.read s.size) ≤ 0 then
    return none
  else
    return some (← Word.add (← t.read s.greatest) s.offset)

/-- Whether `v` is a member. -/
def member (t : Trail) (id : SetId) (v : Int) : Except Fault Bool := do
  let s ← t.describe id
  let r ← Word.sub v s.offset
  if r < 0 ∨ (s.capacity : Int) ≤ r then
    return false
  else
    let size ← t.readCount s.size
    let place ← fetch t.position (s.start + r.toNat)
    return place < (← Word.addCount s.start size)

/-- Where the first `size` places of a set end in `dense`. -/
def segmentEnd (t : Trail) (s : SparseSet) (size : Nat) : Except Fault Nat := do
  let stop ← Word.addCount s.start size
  if t.dense.size < stop then
    throw .outOfBounds
  else
    return stop

/-- The relative values of a set that stand in `dense` before `stop`. -/
def segment (t : Trail) (s : SparseSet) (stop : Nat) : List Nat :=
  (t.dense.extract s.start stop).toList

/-- The members, in the order of the segment. -/
def elements (t : Trail) (id : SetId) : Except Fault (List Int) := do
  let s ← t.describe id
  let stop ← t.segmentEnd s (← t.readCount s.size)
  (t.segment s stop).mapM fun (r : Nat) => Word.add (r : Int) s.offset

/-! ## Updates -/

/-- Exchanges the two values whose positions are recorded at `a` and `b`. -/
def exchange (t : Trail) (a b : Nat) : Except Fault Trail := do
  let i ← fetch t.position a
  let j ← fetch t.position b
  if t.dense.size ≤ i ∨ t.dense.size ≤ j then
    throw .outOfBounds
  else
    return { t with
      dense := t.dense.swapIfInBounds i j
      position := t.position.swapIfInBounds a b }

/-- Brings the bounds of a set up to date after the relative value `r` left it and `size` members
remain.  The bounds of an empty set are not touched. -/
def refreshBounds (t : Trail) (s : SparseSet) (size r : Nat) : Except Fault Trail := do
  if size = 0 then
    return t
  else
    let stop ← t.segmentEnd s size
    let t ←
      if Word.unsigned (← t.read s.least) = r then
        t.write s.least ((t.segment s stop).min?.getD r : Nat)
      else
        pure t
    if Word.unsigned (← t.read s.greatest) = r then
      t.write s.greatest ((t.segment s stop).max?.getD r : Nat)
    else
      return t

/-- Removes `v`, and tells whether it was a member. -/
def erase (t : Trail) (id : SetId) (v : Int) : Except Fault (Bool × Trail) := do
  if ← t.member id v then
    let s ← t.describe id
    let r := Word.unsigned (← Word.sub v s.offset)
    let size ← t.readCount s.size
    let last ← fetch t.dense (← Word.subCount (← Word.addCount s.start size) 1)
    let t ← t.exchange (s.start + r) (s.start + last)
    let (size, t) ← t.decrement s.size
    return (true, ← t.refreshBounds s (Word.unsigned size) r)
  else
    return (false, t)

/-- Removes every member. -/
def clear (t : Trail) (id : SetId) : Except Fault Trail := do
  t.write (← t.describe id).size 0

/-- Removes every member other than `v`. -/
def keepOnly (t : Trail) (id : SetId) (v : Int) : Except Fault Trail := do
  if ← t.member id v then
    let s ← t.describe id
    let r := Word.unsigned (← Word.sub v s.offset)
    let first ← fetch t.dense s.start
    let t ← t.exchange (s.start + r) (s.start + first)
    let t ← t.write s.size 1
    let t ← t.write s.least (r : Int)
    t.write s.greatest (r : Int)
  else
    t.clear id

/-- Removes the `count` values from `v` on, one after the other. -/
def eraseRun (id : SetId) : Nat → Int → Trail → Except Fault Trail
  | 0, _, t => .ok t
  | count + 1, v, t => do
    let (_, t) ← t.erase id v
    eraseRun id count (v + 1) t

/-- Removes the members below `v`. -/
def eraseBelow (t : Trail) (id : SetId) (v : Int) : Except Fault Trail := do
  match ← t.least? id, ← t.greatest? id with
  | some least, some greatest =>
    if greatest < v then
      t.clear id
    else
      eraseRun id (v - least).toNat least t
  | _, _ => return t

/-- Removes the members above `v`. -/
def eraseAbove (t : Trail) (id : SetId) (v : Int) : Except Fault Trail := do
  match ← t.least? id, ← t.greatest? id with
  | some least, some greatest =>
    if v < least then
      t.clear id
    else
      let next ← Word.add v 1
      eraseRun id (greatest - v).toNat next t
  | _, _ => return t

end FiniteDomain.Trail
