import FiniteDomain.Store.Basic

/-!
# From a view to its primitive variable

A path is a definition with the identifiers followed: the steps from a variable down to the
primitive variable that holds its domain.  Every question about a variable and every way to narrow
it is answered along its path.

* `Path.push` carries a value of the primitive variable up to the view, and `Path.pull` carries a
  value of the view down.  They undo each other; a value that is no multiple of a coefficient has
  nothing below it.
* `Path.pullBound` carries a bound down.  A flip exchanges the two sides, and a bound that falls
  between two multiples moves towards the values that are kept.
* `Store.pull` and `Store.pullBound` do the same along all the steps that there are, also when they
  come back to where they have been.
* The questions: `min?`, `max?`, `size`, `contains`, `values`, `source`.

Each step is checked on its own, from the top to the bottom or from the bottom to the top, so the
first step that leaves the range of values decides.

A variable that was dropped with its level can be the base of a view, and then its identifier can
be given to that view or to one above it.  Such a chain of definitions goes round for ever.  What
has to come up from a primitive variable never comes, but a value that is carried down can still
leave the range, or meet a coefficient that does not divide it.
-/

namespace FiniteDomain

/-! ## Sides -/

/-- One of the two ends of a domain. -/
inductive Side where
  | lower
  | upper
  deriving DecidableEq, Repr

/-- The other end. -/
def Side.opposite : Side → Side
  | lower => upper
  | upper => lower

/-- The extreme member of a set on one side, if there is one. -/
def Trail.bound? (t : Trail) : Side → SetId → Except Fault (Option Int)
  | .lower, id => t.least? id
  | .upper, id => t.greatest? id

/-- Removes the members beyond `v` on one side. -/
def Trail.eraseBeyond (t : Trail) : Side → SetId → Int → Except Fault Trail
  | .lower, id, v => t.eraseBelow id v
  | .upper, id, v => t.eraseAbove id v

/-! ## Paths -/

/-- A primitive variable with its event and its domain. -/
structure Base where
  var : Var
  slot : Nat
  domain : SetId
  deriving DecidableEq, Repr

/-- The steps from a variable down to its primitive variable. -/
inductive Path where
  | base (b : Base)
  | shift (k : Int) (rest : Path)
  | scale (c : Int) (rest : Path)
  | flip (rest : Path)
  /-- The identifier that comes next does not exist. -/
  | missing
  /-- The steps go on at the variable `x`. -/
  | onwards (x : Var)
  deriving DecidableEq, Repr

/-- Where something that is carried down a path arrives. -/
inductive Landing (α : Type) where
  /-- At the primitive variable. -/
  | base (b : Base) (a : α)
  /-- At the variable where the steps go on. -/
  | onwards (x : Var) (a : α)
  deriving DecidableEq, Repr

namespace Path

/-- Follows the definitions for at most `fuel` steps. -/
def follow (definitions : Array Definition) : Nat → Var → Path
  | 0, x => onwards x
  | fuel + 1, x =>
    match definitions[x.index]? with
    | none => missing
    | some (.primitive slot domain) => base ⟨x, slot, domain⟩
    | some (.shift y k) => shift k (follow definitions fuel y)
    | some (.scale y c) => scale c (follow definitions fuel y)
    | some (.flip y) => flip (follow definitions fuel y)

/-- The primitive variable at the end. -/
def source : Path → Except Fault Base
  | base b => .ok b
  | shift _ rest => rest.source
  | scale _ rest => rest.source
  | flip rest => rest.source
  | missing => .error .outOfBounds
  | onwards _ => .error .circularView

/-- The value of the view when the primitive variable has the value `v`. -/
def push : Path → Int → Except Fault Int
  | base _, v => .ok v
  | shift k rest, v => do Word.add (← rest.push v) k
  | scale c rest, v => do Word.mul (← rest.push v) c
  | flip rest, v => do Word.neg (← rest.push v)
  | missing, _ => .error .outOfBounds
  | onwards _, _ => .error .circularView

/-- The value at the end of the path when the view has the value `v`.  There is none for a value
that some coefficient on the way does not divide. -/
def pull : Path → Int → Except Fault (Option (Landing Int))
  | base b, v => .ok (some (.base b v))
  | shift k rest, v => do rest.pull (← Word.sub v k)
  | scale c rest, v => if v % c = 0 then rest.pull (v / c) else .ok none
  | flip rest, v => do rest.pull (← Word.neg v)
  | missing, _ => .error .outOfBounds
  | onwards x, v => .ok (some (.onwards x v))

/-- The end of the primitive domain that lies at an end of the view's. -/
def turn : Path → Side → Side
  | shift _ rest, side => rest.turn side
  | scale _ rest, side => rest.turn side
  | flip rest, side => rest.turn side.opposite
  | _, side => side

/-- The quotient of `v` by `c`, rounded towards the values that a bound on this side keeps. -/
def roundInward (side : Side) (v c : Int) : Int :=
  match side with
  | .lower => if v % c = 0 then v / c else v / c + 1
  | .upper => v / c

/-- The bound at the end of the path that a bound `v` on the view amounts to. -/
def pullBound : Path → Side → Int → Except Fault (Landing (Side × Int))
  | base b, side, v => .ok (.base b (side, v))
  | shift k rest, side, v => do rest.pullBound side (← Word.sub v k)
  | scale c rest, side, v => rest.pullBound side (roundInward side v c)
  | flip rest, side, v => do rest.pullBound side.opposite (← Word.neg v)
  | missing, _, _ => .error .outOfBounds
  | onwards x, side, v => .ok (.onwards x (side, v))

/-- The path ends in a primitive variable, and its coefficients are greater than one. -/
def Proper : Path → Prop
  | base _ => True
  | shift _ rest => rest.Proper
  | scale c rest => 1 < c ∧ rest.Proper
  | flip rest => rest.Proper
  | missing => False
  | onwards _ => False

/-- A value that was carried up is carried down to where it came from. -/
theorem pull_push {p : Path} {b : Base} {v w : Int} (hp : p.Proper) (hb : p.source = .ok b)
    (hv : Word.InRange v) (h : p.push v = .ok w) :
    p.pull w = .ok (some (.base b v)) ∧ Word.InRange w := by
  induction p generalizing w with
  | base b' =>
    cases hb
    cases h
    exact ⟨rfl, hv⟩
  | shift k rest ih =>
    obtain ⟨u, hu, hw⟩ := bind_eq_ok_iff.1 h
    obtain ⟨hin, rfl⟩ := Word.check_eq_ok_iff.1 hw
    obtain ⟨hpull, hur⟩ := ih hp hb hu
    refine ⟨bind_eq_ok_iff.2 ⟨u, ?_, hpull⟩, hin⟩
    rw [Word.sub, Int.add_sub_cancel]
    exact Word.check_of_inRange hur
  | scale c rest ih =>
    obtain ⟨u, hu, hw⟩ := bind_eq_ok_iff.1 h
    obtain ⟨hin, rfl⟩ := Word.check_eq_ok_iff.1 hw
    have hc : c ≠ 0 := by
      have := hp.1
      omega
    obtain ⟨hpull, _⟩ := ih hp.2 hb hu
    rw [pull, if_pos (Int.mul_emod_left u c), Int.mul_ediv_cancel u hc]
    exact ⟨hpull, hin⟩
  | flip rest ih =>
    obtain ⟨u, hu, hw⟩ := bind_eq_ok_iff.1 h
    obtain ⟨hin, rfl⟩ := Word.check_eq_ok_iff.1 hw
    obtain ⟨hpull, hur⟩ := ih hp hb hu
    refine ⟨bind_eq_ok_iff.2 ⟨u, ?_, hpull⟩, hin⟩
    rw [Word.neg, Int.neg_neg]
    exact Word.check_of_inRange hur
  | missing => cases hb
  | onwards _ => cases hb

end Path

/-! ## Questions about a variable -/

namespace Store

/-- The path of a variable.  A chain of definitions that never comes back has no more steps than
there are variables, so a path that is not at its end then is circular. -/
def path (s : Store) (x : Var) : Path :=
  Path.follow s.definitions (s.definitions.size + 1) x

/-- How many paths in a row a value is carried down.  There is a second one only on a circular
chain.  A value that is carried round such a chain leaves the range, or is not divisible, or comes
back to itself for ever, and the last case has to be given up. -/
def pathBound : Nat := 1048576

/-- Carries a value down from `x`, at most `count` paths in a row. -/
def pullAlong (s : Store) : Nat → Var → Int → Except Fault (Option (Base × Int))
  | 0, _, _ => .error .circularView
  | count + 1, x, v => do
    match ← (s.path x).pull v with
    | none => return none
    | some (.base b r) => return some (b, r)
    | some (.onwards y w) => pullAlong s count y w

/-- The primitive variable below `x`, and the value it has when `x` has the value `v`.  There is
none for a value that some coefficient on the way does not divide. -/
def pull (s : Store) (x : Var) (v : Int) : Except Fault (Option (Base × Int)) :=
  s.pullAlong pathBound x v

/-- Carries a bound down from `x`, at most `count` paths in a row. -/
def pullBoundAlong (s : Store) : Nat → Var → Side → Int → Except Fault (Base × Side × Int)
  | 0, _, _, _ => .error .circularView
  | count + 1, x, side, v => do
    match ← (s.path x).pullBound side v with
    | .base b bound => return (b, bound)
    | .onwards y (side, w) => pullBoundAlong s count y side w

/-- The bound on the primitive variable below `x` that a bound `v` on `x` amounts to. -/
def pullBound (s : Store) (x : Var) (side : Side) (v : Int) : Except Fault (Base × Side × Int) :=
  s.pullBoundAlong pathBound x side v

/-- A value is carried down to where its path ends, if that is a primitive variable. -/
theorem pull_of_base {s : Store} {x : Var} {v r : Int} {b : Base}
    (h : (s.path x).pull v = .ok (some (.base b r))) : s.pull x v = .ok (some (b, r)) := by
  rw [pull, pathBound, pullAlong, h]
  rfl

/-- The extreme value of a variable on one side, if it has a value. -/
def bound? (s : Store) (side : Side) (x : Var) : Except Fault (Option Int) := do
  let p := s.path x
  let b ← p.source
  match ← s.trail.bound? (p.turn side) b.domain with
  | none => return none
  | some v => return some (← p.push v)

/-- The least value of a variable, if it has one. -/
def min? (s : Store) (x : Var) : Except Fault (Option Int) := s.bound? .lower x

/-- The greatest value of a variable, if it has one. -/
def max? (s : Store) (x : Var) : Except Fault (Option Int) := s.bound? .upper x

/-- The number of values of a variable. -/
def size (s : Store) (x : Var) : Except Fault Nat := do
  s.trail.card (← (s.path x).source).domain

/-- Whether exactly one value is left. -/
def isFixed (s : Store) (x : Var) : Except Fault Bool := do
  return (← s.size x) == 1

/-- Whether `v` is a value of the variable. -/
def contains (s : Store) (x : Var) (v : Int) : Except Fault Bool := do
  match ← s.pull x v with
  | none => return false
  | some (b, r) => s.trail.member b.domain r

/-- The values of a variable, in the order of the primitive domain. -/
def values (s : Store) (x : Var) : Except Fault (List Int) := do
  let p := s.path x
  (← s.trail.elements (← p.source).domain).mapM p.push

/-- The primitive variable that holds the domain. -/
def source (s : Store) (x : Var) : Except Fault Var := do
  return (← (s.path x).source).var

end Store

end FiniteDomain
