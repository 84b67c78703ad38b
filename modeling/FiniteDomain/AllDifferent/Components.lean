import FiniteDomain.AllDifferent.ValueGraph

/-!
# Components

Two active variables belong together when each can take over the other's mate by way of exchanges:
they lie in one strongly connected component of the arcs `x → y`, where `y` may still take the
mate of `x`.  Each component has a tag, which is kept in a cell of each of its variables.

Tags are given by a depth first search that closes a component when it leaves the first of its
variables.  As long as the matching stays the same, a lost edge can only split a component.  So it
is enough to search the components of the variables that lost something, and no arc that matters
leaves them: arcs are followed within a region only, which is the old component.

* The representation: `Tagging`, with the working memory of the search.
* One step of the search: `enter`, `followArc`, `leave`, `step`.
* Passes: `tagAll`, `tagTouched`, and `tagsAgree`, which compares the tags with those of a pass over
  all active variables.
-/

namespace FiniteDomain.AllDifferent

/-- The tags of the variables, and what the search works with.  Between two passes no variable has
an index, lies on the stack or belongs to a region other than `outside`. -/
structure Tagging where
  tags : Array Cell
  /-- The next tag that was never used. -/
  nextTag : Nat
  /-- When each variable was met. -/
  index : Array (Option Nat)
  /-- The earliest meeting that each variable is known to lead back to. -/
  lowlink : Array Nat
  onStack : Array Bool
  /-- The variables whose component is not closed, the last one first. -/
  stack : List Nat
  /-- The variables that are being searched, each with the place of its next arc, the last one
  first. -/
  calls : List (Nat × Nat)
  /-- Arcs are followed between variables of one region. -/
  region : Array Int
  deriving DecidableEq, Repr

namespace Tagging

/-- The region of the variables that are not searched.  A search never gives this tag. -/
def outside : Int := Word.least

/-- Tags for `n` variables, all of them negative, which no pass gives. -/
def new (s : Store) (n : Nat) : Tagging × Store :=
  let (tags, s) := s.newCells (List.replicate n (-1))
  ({ tags
     nextTag := 0
     index := Array.replicate n none
     lowlink := Array.replicate n 0
     onStack := Array.replicate n false
     stack := []
     calls := []
     region := Array.replicate n outside }, s)

/-- The tag of a variable. -/
def tag (c : Tagging) (s : Store) (x : Nat) : Except Fault Int := do
  s.read (← fetch c.tags x)

/-! ## The search -/

/-- Meets a variable for the first time. -/
def enter (c : Tagging) (x counter : Nat) : Tagging :=
  { c with
    index := c.index.setIfInBounds x (some counter)
    lowlink := c.lowlink.setIfInBounds x counter
    onStack := c.onStack.setIfInBounds x true
    stack := x :: c.stack
    calls := (x, 0) :: c.calls }

/-- Notes that `x` leads back to the meeting `i`. -/
def lower (c : Tagging) (x i : Nat) : Tagging :=
  { c with lowlink := c.lowlink.modify x (min · i) }

/-- Gives a tag to the variables on the stack down to `root`, and takes them off. -/
def closeStack (root : Nat) (tag : Int) : List Nat → Tagging → Store →
    Except Fault (Tagging × Store)
  | [], c, s => .ok ({ c with stack := [] }, s)
  | y :: rest, c, s => do
    let s ← s.write (← fetch c.tags y) tag
    let c := { c with onStack := c.onStack.setIfInBounds y false }
    if y = root then
      return ({ c with stack := rest }, s)
    else
      closeStack root tag rest c s

/-- Closes the component of `root`. -/
def closeComponent (c : Tagging) (s : Store) (root : Nat) : Except Fault (Tagging × Store) :=
  let tag := c.nextTag
  closeStack root tag c.stack { c with nextTag := tag + 1 } s

/-- Follows the arc from `x` to `y`, unless it leaves the region or is a loop. -/
def followArc (c : Tagging) (counter x y : Nat) : Except Fault (Nat × Tagging) := do
  if y = x then
    return (counter, c)
  else if (← fetch c.region y) != (← fetch c.region x) then
    return (counter, c)
  else
    match ← fetch c.index y with
    | none => return (counter + 1, c.enter y counter)
    | some i => return (counter, if ← fetch c.onStack y then c.lower x i else c)

/-- Leaves the variable `x`, whose arcs are all followed.  What it leads back to is passed on to the
variable it was met from, and its component is closed if it leads back to nothing earlier. -/
def leave (c : Tagging) (s : Store) (x : Nat) (calls : List (Nat × Nat)) :
    Except Fault (Tagging × Store) := do
  let low ← fetch c.lowlink x
  let c := { c with calls := calls }
  let c := match calls with
    | [] => c
    | (parent, _) :: _ => c.lower parent low
  if some low = (← fetch c.index x) then
    c.closeComponent s x
  else
    return (c, s)

/-- Follows the next arc of the variable that is being searched, or leaves it.  The counter numbers
the meetings.  Nothing is left to do when no variable is being searched. -/
def step (g : ValueGraph) (counter : Nat) (c : Tagging) (s : Store) :
    Except Fault (Option (Nat × Tagging × Store)) := do
  match c.calls with
  | [] => return none
  | (x, k) :: calls =>
    match ← g.mate? s x with
    | none =>
      let (c, s) ← c.leave s x calls
      return some (counter, c, s)
    | some v =>
      if k < (← g.liveCount s v) then
        let y ← g.liveVar v k
        let (counter, c) ← followArc { c with calls := (x, k + 1) :: calls } counter x y
        return some (counter, c, s)
      else
        let (c, s) ← c.leave s x calls
        return some (counter, c, s)

/-- Takes at most `fuel` steps. -/
def search (g : ValueGraph) : Nat → Nat → Tagging → Store → Except Fault (Nat × Tagging × Store)
  | 0, _, _, _ => .error .outOfFuel
  | fuel + 1, counter, c, s => do
    match ← step g counter c s with
    | none => return (counter, c, s)
    | some (counter, c, s) => search g fuel counter c s

/-- Enough steps to follow the arcs of every variable and to leave it. -/
def searchFuel (g : ValueGraph) : Nat :=
  g.varTotal * (g.edgeTotal + 2) + 1

/-- Searches from each of several variables that were not met yet. -/
def searchAll (g : ValueGraph) : List Nat → Nat → Tagging → Store →
    Except Fault (Tagging × Store)
  | [], _, c, s => .ok (c, s)
  | root :: rest, counter, c, s => do
    match ← fetch c.index root with
    | some _ => searchAll g rest counter c s
    | none =>
      let (counter, c, s) ← search g (searchFuel g) (counter + 1) (c.enter root counter) s
      searchAll g rest counter c s

/-- Forgets when a variable was met and which region it belongs to. -/
def forget (c : Tagging) (x : Nat) : Tagging :=
  { c with
    index := c.index.setIfInBounds x none
    region := c.region.setIfInBounds x outside }

/-- Tags several variables, whose regions are set, from scratch. -/
def retag (g : ValueGraph) (members : List Nat) (c : Tagging) (s : Store) :
    Except Fault (Tagging × Store) := do
  let (c, s) ← searchAll g members 0 c s
  return (members.foldl forget c, s)

/-! ## Passes -/

/-- Puts a variable into a region. -/
def assign (c : Tagging) (x : Nat) (region : Int) : Tagging :=
  { c with region := c.region.setIfInBounds x region }

/-- Tags all active variables. -/
def tagAll (g : ValueGraph) (c : Tagging) (s : Store) : Except Fault (Tagging × Store) := do
  let members ← g.activeVars s
  retag g members (members.foldl (·.assign · 0) c) s

/-- Tags the active variables of the components that contain a touched variable.  The tags of the
others stay right as long as the matching has not changed since they were given. -/
def tagTouched (g : ValueGraph) (touched : List Nat) (c : Tagging) (s : Store) :
    Except Fault (Tagging × Store) := do
  let affected ← touched.mapM (c.tag s)
  let members ← (← g.activeVars s).filterMapM fun x => do
    let tag ← c.tag s x
    return if tag ∈ affected then some (x, tag) else none
  retag g (members.map Prod.fst) (members.foldl (fun c (x, tag) => c.assign x tag) c) s

/-- Whether two lists of tags group their places in the same way. -/
def sameGroups (before after : List Int) : Bool :=
  let pairs := before.zip after
  pairs.all fun (old, new) => pairs.all fun (old', new') => (old == old') == (new == new')

/-- Whether the tags describe the components.  They are compared with those of a full pass, which
takes their place. -/
def tagsAgree (g : ValueGraph) (c : Tagging) (s : Store) :
    Except Fault (Bool × Tagging × Store) := do
  let active ← g.activeVars s
  let before ← active.mapM (c.tag s)
  let (c, s) ← tagAll g c s
  let after ← active.mapM (c.tag s)
  return (sameGroups before after, c, s)

end Tagging

end FiniteDomain.AllDifferent
