import Mathlib.Logic.Function.Basic
import Mathlib.Logic.Relation
import Mathlib.Data.Finset.Card
import Mathlib.Algebra.GroupWithZero.Nat

/-!
# A depth first search finds the components

The search for components, apart from how a value graph stores its arcs and a tagging its working
memory.  An `Arena` has arcs, and a `Walk` is a moment of the search; `Walk.Next` are its moves.

* `Walk.Good` is the invariant, in four parts: how meetings are numbered (`Ordered`), how the stack
  hangs together (`Tied`), what the arcs that were followed have told (`Followed`), and what was
  said of the components that are closed (`Sealed`).
* `Walk.Good.next` is preservation, move by move, and `Walk.Next.work_lt` is progress.
* When nothing is being searched, the stack is empty, so that all variables that were met are
  closed: two of them have the same tag exactly when each leads to the other.
-/

namespace FiniteDomain.AllDifferent

open Relation

/-- The arcs of each variable, in order.  Some of them are not to be followed. -/
structure Arena where
  degree : Nat → Nat
  target : Nat → Nat → Nat
  inside : Nat → Nat → Bool

namespace Arena

variable {A : Arena}

/-- There is an arc to follow from `x` to `y`. -/
def Arc (A : Arena) (x y : Nat) : Prop :=
  A.inside x y ∧ ∃ k < A.degree x, A.target x k = y

/-- Arcs lead from `x` to `y`. -/
abbrev Leads (A : Arena) (x y : Nat) : Prop := ReflTransGen A.Arc x y

/-- Each of the two variables leads to the other. -/
def Mutual (A : Arena) (x y : Nat) : Prop := A.Leads x y ∧ A.Leads y x

theorem Mutual.trans {x y z : Nat} (h : A.Mutual x y) (h' : A.Mutual y z) : A.Mutual x z :=
  ⟨h.1.trans h'.1, h'.2.trans h.2⟩

theorem Mutual.symm {x y : Nat} (h : A.Mutual x y) : A.Mutual y x := ⟨h.2, h.1⟩

end Arena

/-- A moment of the search. -/
@[ext]
structure Walk where
  /-- When each variable was met. -/
  index : Nat → Option Nat
  /-- The earliest meeting that each variable is known to lead back to. -/
  low : Nat → Nat
  /-- The variables whose component is not closed, the last one first. -/
  stack : List Nat
  /-- The variables that are being searched, each with the number of its arcs that were followed. -/
  calls : List (Nat × Nat)
  tag : Nat → Int
  nextTag : Nat
  /-- The number of meetings. -/
  counter : Nat

namespace Walk

variable {A : Arena} {M : Nat → Prop} {first : Nat} {old : Nat → Int} {w w' : Walk} {x y : Nat}

/-! ## Moves -/

/-- The number of the meeting with a variable. -/
def num (w : Walk) (x : Nat) : Nat := (w.index x).getD 0

/-- The variables that are being searched. -/
def open_ (w : Walk) : List Nat := w.calls.map Prod.fst

/-- Meets a variable. -/
def enter (w : Walk) (x : Nat) : Walk :=
  { w with
    index := Function.update w.index x (some w.counter)
    low := Function.update w.low x w.counter
    stack := x :: w.stack
    calls := (x, 0) :: w.calls
    counter := w.counter + 1 }

/-- Notes that `x` leads back to the meeting `i`. -/
def lower (w : Walk) (x i : Nat) : Walk :=
  { w with low := Function.update w.low x (min (w.low x) i) }

/-- Goes on with `calls`. -/
def resume (w : Walk) (calls : List (Nat × Nat)) : Walk := { w with calls := calls }

/-- Goes back from `x` to the variable it was met from. -/
def pop (w : Walk) (x : Nat) : List (Nat × Nat) → Walk
  | [] => w.resume []
  | (parent, k) :: calls => (w.resume ((parent, k) :: calls)).lower parent (w.low x)

/-- Gives a tag to a component. -/
def close (w : Walk) (part rest : List Nat) : Walk :=
  { w with
    stack := rest
    tag := fun y => if y ∈ part then w.nextTag else w.tag y
    nextTag := w.nextTag + 1 }

/-- The moves of the search. -/
inductive Next (A : Arena) (w : Walk) : Walk → Prop
  /-- An arc that is not to be followed. -/
  | skip {x k calls} : w.calls = (x, k) :: calls → k < A.degree x →
    A.inside x (A.target x k) = false → Next A w (w.resume ((x, k + 1) :: calls))
  /-- An arc to a variable that was not met yet. -/
  | enter {x k calls} : w.calls = (x, k) :: calls → k < A.degree x →
    A.inside x (A.target x k) → w.index (A.target x k) = none →
    Next A w ((w.resume ((x, k + 1) :: calls)).enter (A.target x k))
  /-- An arc to a variable on the stack. -/
  | see {x k calls i} : w.calls = (x, k) :: calls → k < A.degree x →
    A.inside x (A.target x k) → w.index (A.target x k) = some i → A.target x k ∈ w.stack →
    Next A w ((w.resume ((x, k + 1) :: calls)).lower x i)
  /-- An arc to a component that is closed. -/
  | pass {x k calls i} : w.calls = (x, k) :: calls → k < A.degree x →
    w.index (A.target x k) = some i → A.target x k ∉ w.stack →
    Next A w (w.resume ((x, k + 1) :: calls))
  /-- No arc is left, and the variable leads back. -/
  | keep {x k calls} : w.calls = (x, k) :: calls → A.degree x ≤ k →
    w.index x ≠ some (w.low x) → Next A w (w.pop x calls)
  /-- No arc is left, and the variable does not lead back. -/
  | close {x k calls top rest} : w.calls = (x, k) :: calls → A.degree x ≤ k →
    w.index x = some (w.low x) → w.stack = top ++ x :: rest → x ∉ top →
    Next A w ((w.pop x calls).close (top ++ [x]) rest)

/-! ## The invariant -/

/-- How meetings are numbered. -/
structure Ordered (A : Arena) (M : Nat → Prop) (w : Walk) : Prop where
  index_lt : ∀ x i, w.index x = some i → i < w.counter
  index_inj : ∀ x y i, w.index x = some i → w.index y = some i → x = y
  home : ∀ x, w.index x ≠ none → M x
  met : ∀ x ∈ w.stack, w.index x ≠ none
  sorted : w.stack.Pairwise fun x y => w.num y < w.num x
  sublist : w.open_.Sublist w.stack
  cursor_le : ∀ x k, (x, k) ∈ w.calls → k ≤ A.degree x

/-- How the stack hangs together: the variables that are being searched lead to all variables above
them, and each variable leads down to one of these. -/
structure Tied (A : Arena) (w : Walk) : Prop where
  lead : ∀ c ∈ w.open_, ∀ y ∈ w.stack, w.num c ≤ w.num y → A.Leads c y
  back : ∀ y ∈ w.stack, ∃ c ∈ w.open_, w.num c ≤ w.num y ∧ A.Leads y c
  low_le : ∀ c ∈ w.open_, w.low c ≤ w.num c
  low_why : ∀ c ∈ w.open_, ∃ z ∈ w.stack, w.low c = w.num z ∧ A.Leads c z

/-- The last of the variables that are being searched that is not above `y`. -/
def Holds (w : Walk) (c y : Nat) : Prop :=
  c ∈ w.open_ ∧ w.num c ≤ w.num y ∧ ∀ d ∈ w.open_, w.num d ≤ w.num y → w.num d ≤ w.num c

/-- What the arcs that were followed have told: all arcs of a variable that is left, and as many as
the number in its call of one that is being searched. -/
def Followed (A : Arena) (w : Walk) : Prop :=
  ∀ y ∈ w.stack, ∀ k < A.degree y, (∀ j, (y, j) ∈ w.calls → k < j) → A.inside y (A.target y k) →
    w.index (A.target y k) ≠ none ∧
      (A.target y k ∈ w.stack → ∃ c, w.Holds c y ∧ w.low c ≤ w.num (A.target y k))

/-- The variable was met, and its component is closed. -/
def Closed (w : Walk) (x : Nat) : Prop := w.index x ≠ none ∧ x ∉ w.stack

/-- What was said of the components that are closed. -/
structure Sealed (A : Arena) (first : Nat) (old : Nat → Int) (w : Walk) : Prop where
  arc : ∀ x y, w.Closed x → A.Arc x y → w.Closed y
  first_le : first ≤ w.nextTag
  range : ∀ x, w.Closed x → (first : Int) ≤ w.tag x ∧ w.tag x < w.nextTag
  same : ∀ x y, w.Closed x → w.Closed y → (w.tag x = w.tag y ↔ A.Mutual x y)
  other : ∀ x, ¬ w.Closed x → w.tag x = old x

/-- What holds of a search at all times. -/
structure Good (A : Arena) (M : Nat → Prop) (first : Nat) (old : Nat → Int) (w : Walk) : Prop where
  ordered : w.Ordered A M
  tied : w.Tied A
  followed : w.Followed A
  sealed_ : w.Sealed A first old

/-! ## Numbers -/

theorem num_eq {i : Nat} (h : w.index x = some i) : w.num x = i := by
  rw [num, h, Option.getD_some]

theorem mem_open {k : Nat} (h : (x, k) ∈ w.calls) : x ∈ w.open_ :=
  List.mem_map.2 ⟨(x, k), h, rfl⟩

theorem Ordered.mem_stack (h : w.Ordered A M) (hx : x ∈ w.open_) : x ∈ w.stack :=
  h.sublist.subset hx

theorem Ordered.num_lt (h : w.Ordered A M) (hx : x ∈ w.stack) : w.num x < w.counter := by
  obtain ⟨i, hi⟩ := Option.ne_none_iff_exists'.1 (h.met x hx)
  rw [num_eq hi]
  exact h.index_lt x i hi

theorem Ordered.num_inj (h : w.Ordered A M) (hx : x ∈ w.stack) (hy : y ∈ w.stack)
    (heq : w.num x = w.num y) : x = y := by
  obtain ⟨i, hi⟩ := Option.ne_none_iff_exists'.1 (h.met x hx)
  obtain ⟨j, hj⟩ := Option.ne_none_iff_exists'.1 (h.met y hy)
  rw [num_eq hi, num_eq hj] at heq
  exact h.index_inj x y i hi (heq ▸ hj)

/-- The variable that was met last is the one that is being searched now. -/
theorem Ordered.num_le_head (h : w.Ordered A M) {k : Nat} {calls : List (Nat × Nat)}
    (hcalls : w.calls = (x, k) :: calls) {c : Nat} (hc : c ∈ w.open_) : w.num c ≤ w.num x := by
  have hsorted := h.sorted.sublist h.sublist
  rw [open_, hcalls, List.map_cons] at hsorted hc
  obtain rfl | hc := List.mem_cons.1 hc
  · exact Nat.le_refl _
  · exact Nat.le_of_lt (List.rel_of_pairwise_cons hsorted hc)

/-- The calls below the first one are of variables that were met earlier. -/
theorem Ordered.num_lt_head (h : w.Ordered A M) {k : Nat} {calls : List (Nat × Nat)}
    (hcalls : w.calls = (x, k) :: calls) {c : Nat} (hc : c ∈ calls.map Prod.fst) :
    w.num c < w.num x := by
  have hsorted := h.sorted.sublist h.sublist
  rw [open_, hcalls, List.map_cons] at hsorted
  exact List.rel_of_pairwise_cons hsorted hc

/-- The first call holds all variables above it. -/
theorem Ordered.holds_head (h : w.Ordered A M) {k : Nat} {calls : List (Nat × Nat)}
    (hcalls : w.calls = (x, k) :: calls) (hle : w.num x ≤ w.num y) : w.Holds x y :=
  ⟨mem_open (hcalls ▸ List.mem_cons_self ..), hle, fun _ hd _ => h.num_le_head hcalls hd⟩

theorem Ordered.holds_unique (h : w.Ordered A M) {c d : Nat} (hc : w.Holds c y)
    (hd : w.Holds d y) : c = d :=
  h.num_inj (h.mem_stack hc.1) (h.mem_stack hd.1)
    (Nat.le_antisymm (hd.2.2 c hc.1 hc.2.1) (hc.2.2 d hd.1 hd.2.1))

/-! ## Following an arc -/

/-- A further arc counts as followed. -/
theorem Good.resume (h : w.Good A M first old) {pre post : List (Nat × Nat)} {k : Nat}
    (hcalls : w.calls = pre ++ (x, k) :: post) (hk : k < A.degree x)
    (hnew : A.inside x (A.target x k) → w.index (A.target x k) ≠ none ∧
      (A.target x k ∈ w.stack → w.low x ≤ w.num (A.target x k))) :
    (w.resume (pre ++ (x, k + 1) :: post)).Good A M first old := by
  have hopen : (w.resume (pre ++ (x, k + 1) :: post)).open_ = w.open_ := by
    rw [open_, open_, hcalls, Walk.resume, List.map_append, List.map_append, List.map_cons,
      List.map_cons]
  have hx : x ∈ w.open_ := by
    refine mem_open (k := k) ?_
    rw [hcalls]
    exact List.mem_append_right _ (List.mem_cons_self ..)
  have hholds : ∀ {c z}, (w.resume (pre ++ (x, k + 1) :: post)).Holds c z ↔ w.Holds c z := by
    intro c z
    rw [Holds, Holds, hopen]
    rfl
  refine ⟨⟨h.ordered.index_lt, h.ordered.index_inj, h.ordered.home, h.ordered.met,
    h.ordered.sorted, by rw [hopen]; exact h.ordered.sublist, fun y j hj => ?_⟩,
    ⟨by rw [hopen]; exact h.tied.lead, by rw [hopen]; exact h.tied.back,
      by rw [hopen]; exact h.tied.low_le, by rw [hopen]; exact h.tied.low_why⟩,
    fun y hy j hj hdone hin => ?_, ⟨h.sealed_.arc, h.sealed_.first_le, h.sealed_.range,
      h.sealed_.same, h.sealed_.other⟩⟩
  · obtain hj | hj := List.mem_append.1 hj
    · exact h.ordered.cursor_le y j (hcalls ▸ List.mem_append_left _ hj)
    · obtain heq | hj := List.mem_cons.1 hj
      · cases heq
        exact hk
      · exact h.ordered.cursor_le y j
          (hcalls ▸ List.mem_append_right _ (List.mem_cons_of_mem _ hj))
  · by_cases hself : y = x ∧ j = k
    · obtain ⟨rfl, rfl⟩ := hself
      obtain ⟨hmet, hlow⟩ := hnew hin
      exact ⟨hmet, fun hs => ⟨y, hholds.2 ⟨hx, Nat.le_refl _, fun _ _ hle => hle⟩, hlow hs⟩⟩
    · have hdone' : ∀ i, (y, i) ∈ w.calls → j < i := by
        intro i hi
        rw [hcalls] at hi
        obtain hi | hi := List.mem_append.1 hi
        · exact hdone i (List.mem_append_left _ hi)
        · obtain heq | hi := List.mem_cons.1 hi
          · cases heq
            have hlt := hdone (k + 1) (List.mem_append_right _ (List.mem_cons_self ..))
            exact Nat.lt_of_le_of_ne (Nat.le_of_lt_succ hlt) fun heq => hself ⟨rfl, heq⟩
          · exact hdone i (List.mem_append_right _ (List.mem_cons_of_mem _ hi))
      obtain ⟨hmet, hlow⟩ := h.followed y hy j hj hdone' hin
      refine ⟨hmet, fun hs => ?_⟩
      obtain ⟨c, hc, hle⟩ := hlow hs
      exact ⟨c, hholds.2 hc, hle⟩

/-- A variable that is being searched leads back to another one on the stack. -/
theorem Good.lower (h : w.Good A M first old) {i : Nat} (hy : y ∈ w.stack)
    (hi : w.index y = some i) (hto : A.Leads x y) : (w.lower x i).Good A M first old := by
  have hle : ∀ c, (w.lower x i).low c ≤ w.low c := by
    intro c
    rw [Walk.lower]
    dsimp only
    rw [Function.update_apply]
    split
    · rename_i heq
      rw [heq]
      exact Nat.min_le_left _ _
    · exact Nat.le_refl _
  refine ⟨⟨h.ordered.index_lt, h.ordered.index_inj, h.ordered.home, h.ordered.met,
    h.ordered.sorted, h.ordered.sublist, h.ordered.cursor_le⟩, ⟨h.tied.lead, h.tied.back,
    fun c hc => Nat.le_trans (hle c) (h.tied.low_le c hc), fun c hc => ?_⟩,
    fun z hz k hk hdone hin => ?_, ⟨h.sealed_.arc, h.sealed_.first_le, h.sealed_.range,
      h.sealed_.same, h.sealed_.other⟩⟩
  · obtain ⟨z, hz, hlow, hcz⟩ := h.tied.low_why c hc
    show ∃ z ∈ w.stack, Function.update w.low x (min (w.low x) i) c = w.num z ∧ A.Leads c z
    rw [Function.update_apply]
    by_cases hcx : c = x
    · subst hcx
      rw [if_pos rfl]
      obtain hmin | hmin := Nat.le_total (w.low c) i
      · exact ⟨z, hz, by rw [Nat.min_eq_left hmin, hlow], hcz⟩
      · exact ⟨y, hy, by rw [Nat.min_eq_right hmin, num_eq hi], hto⟩
    · rw [if_neg hcx]
      exact ⟨z, hz, hlow, hcz⟩
  · obtain ⟨hmet, hlow⟩ := h.followed z hz k hk hdone hin
    refine ⟨hmet, fun hs => ?_⟩
    obtain ⟨c, hc, hcle⟩ := hlow hs
    exact ⟨c, hc, Nat.le_trans (hle c) hcle⟩

/-! ## Meeting a variable -/

theorem enter_index_self (w : Walk) (y : Nat) : (w.enter y).index y = some w.counter :=
  Function.update_self ..

theorem enter_index (w : Walk) (hx : x ≠ y) : (w.enter y).index x = w.index x :=
  Function.update_of_ne hx ..

theorem enter_num_self (w : Walk) (y : Nat) : (w.enter y).num y = w.counter :=
  num_eq (enter_index_self w y)

theorem enter_num (w : Walk) (hx : x ≠ y) : (w.enter y).num x = w.num x := by
  rw [num, num, enter_index w hx]

theorem enter_low_self (w : Walk) (y : Nat) : (w.enter y).low y = w.counter :=
  Function.update_self ..

theorem enter_low (w : Walk) (hx : x ≠ y) : (w.enter y).low x = w.low x :=
  Function.update_of_ne hx ..

theorem mem_enter_stack : x ∈ (w.enter y).stack ↔ x = y ∨ x ∈ w.stack := List.mem_cons

theorem mem_enter_open : x ∈ (w.enter y).open_ ↔ x = y ∨ x ∈ w.open_ := List.mem_cons

/-- A variable that was met is not the one that is met now. -/
theorem ne_of_met (hy : w.index y = none) (hx : w.index x ≠ none) : x ≠ y := by
  rintro rfl
  exact hx hy

/-- Nothing is closed by a meeting. -/
theorem closed_enter (hy : w.index y = none) : (w.enter y).Closed x ↔ w.Closed x := by
  constructor
  · rintro ⟨hmet, hout⟩
    have hne : x ≠ y := fun heq => hout (heq ▸ List.mem_cons_self ..)
    rw [enter_index w hne] at hmet
    exact ⟨hmet, fun hs => hout (List.mem_cons_of_mem _ hs)⟩
  · rintro ⟨hmet, hout⟩
    refine ⟨by rw [enter_index w (ne_of_met hy hmet)]; exact hmet, fun hs => ?_⟩
    obtain heq | hs := mem_enter_stack.1 hs
    · exact ne_of_met hy hmet heq
    · exact hout hs

section

variable (hord : w.Ordered A M) (hy : w.index y = none)

include hord hy

theorem Ordered.ne_of_mem_stack (hx : x ∈ w.stack) : x ≠ y := ne_of_met hy (hord.met x hx)

theorem Ordered.ne_of_mem_open (hx : x ∈ w.open_) : x ≠ y :=
  hord.ne_of_mem_stack hy (hord.mem_stack hx)

/-- The number of the new meeting is larger than all others. -/
theorem Ordered.enter (hM : M y) : (w.enter y).Ordered A M := by
  constructor
  case index_lt =>
    intro z i hi
    show i < w.counter + 1
    by_cases hzy : z = y
    · subst hzy
      cases (enter_index_self w z).symm.trans hi
      exact Nat.lt_succ_self _
    · rw [enter_index w hzy] at hi
      exact Nat.lt_succ_of_lt (hord.index_lt z i hi)
  case index_inj =>
    have hnew : ∀ {z}, z ≠ y → (w.enter y).index z ≠ some w.counter := by
      intro z hzy hi
      rw [enter_index w hzy] at hi
      exact Nat.lt_irrefl _ (hord.index_lt z _ hi)
    intro z z' i hi hi'
    by_cases hzy : z = y
    · subst hzy
      cases (enter_index_self w z).symm.trans hi
      by_contra hne
      exact hnew (Ne.symm hne) hi'
    · by_cases hzy' : z' = y
      · subst hzy'
        cases (enter_index_self w z').symm.trans hi'
        exact absurd hi (hnew hzy)
      · rw [enter_index w hzy] at hi
        rw [enter_index w hzy'] at hi'
        exact hord.index_inj z z' i hi hi'
  case home =>
    intro z hz
    by_cases hzy : z = y
    · exact hzy ▸ hM
    · rw [enter_index w hzy] at hz
      exact hord.home z hz
  case met =>
    intro z hz
    obtain rfl | hz := mem_enter_stack.1 hz
    · rw [enter_index_self]
      exact fun heq => by cases heq
    · rw [enter_index w (hord.ne_of_mem_stack hy hz)]
      exact hord.met z hz
  case sorted =>
    refine List.Pairwise.cons (fun z hz => ?_) (hord.sorted.imp_of_mem fun hz hz' hlt => ?_)
    · rw [enter_num_self, enter_num w (hord.ne_of_mem_stack hy hz)]
      exact hord.num_lt hz
    · rw [enter_num w (hord.ne_of_mem_stack hy hz), enter_num w (hord.ne_of_mem_stack hy hz')]
      exact hlt
  case sublist => exact hord.sublist.cons_cons y
  case cursor_le =>
    intro z k hk
    obtain heq | hk := List.mem_cons.1 hk
    · cases heq
      exact Nat.zero_le _
    · exact hord.cursor_le z k hk

/-- All variables that are being searched lead to the new one, which leads to itself. -/
theorem Tied.enter (h : w.Tied A) (hto : ∀ c ∈ w.open_, A.Leads c y) : (w.enter y).Tied A := by
  constructor
  case lead =>
    intro c hc z hz hle
    obtain rfl | hold := mem_enter_open.1 hc
    · obtain rfl | hz := mem_enter_stack.1 hz
      · exact .refl
      · rw [enter_num_self, enter_num w (hord.ne_of_mem_stack hy hz)] at hle
        exact absurd (hord.num_lt hz) (Nat.not_lt.2 hle)
    · obtain rfl | hz := mem_enter_stack.1 hz
      · exact hto c hold
      · rw [enter_num w (hord.ne_of_mem_open hy hold),
          enter_num w (hord.ne_of_mem_stack hy hz)] at hle
        exact h.lead c hold z hz hle
  case back =>
    intro z hz
    obtain rfl | hz := mem_enter_stack.1 hz
    · exact ⟨z, List.mem_cons_self .., Nat.le_refl _, .refl⟩
    · obtain ⟨c, hc, hle, hzc⟩ := h.back z hz
      refine ⟨c, List.mem_cons_of_mem _ hc, ?_, hzc⟩
      rw [enter_num w (hord.ne_of_mem_open hy hc), enter_num w (hord.ne_of_mem_stack hy hz)]
      exact hle
  case low_le =>
    intro c hc
    obtain rfl | hc := mem_enter_open.1 hc
    · rw [enter_num_self, enter_low_self]
    · rw [enter_low w (hord.ne_of_mem_open hy hc), enter_num w (hord.ne_of_mem_open hy hc)]
      exact h.low_le c hc
  case low_why =>
    intro c hc
    obtain rfl | hc := mem_enter_open.1 hc
    · exact ⟨c, List.mem_cons_self .., by rw [enter_num_self, enter_low_self], .refl⟩
    · obtain ⟨z, hz, heq, hcz⟩ := h.low_why c hc
      refine ⟨z, List.mem_cons_of_mem _ hz, ?_, hcz⟩
      rw [enter_low w (hord.ne_of_mem_open hy hc), enter_num w (hord.ne_of_mem_stack hy hz)]
      exact heq

/-- The new variable is above all others, and holds none of them. -/
theorem Ordered.holds_enter {c z : Nat} (hz : z ∈ w.stack) (hc : w.Holds c z) :
    (w.enter y).Holds c z := by
  obtain ⟨hc, hle, hmax⟩ := hc
  have hzy := hord.ne_of_mem_stack hy hz
  refine ⟨List.mem_cons_of_mem _ hc, ?_, fun d hd hdle => ?_⟩
  · rw [enter_num w (hord.ne_of_mem_open hy hc), enter_num w hzy]
    exact hle
  · obtain rfl | hd := mem_enter_open.1 hd
    · rw [enter_num_self, enter_num w hzy] at hdle
      exact absurd (hord.num_lt hz) (Nat.not_lt.2 hdle)
    · rw [enter_num w (hord.ne_of_mem_open hy hd), enter_num w hzy] at hdle
      rw [enter_num w (hord.ne_of_mem_open hy hd), enter_num w (hord.ne_of_mem_open hy hc)]
      exact hmax d hd hdle

/-- No arc of the new variable was followed. -/
theorem Followed.enter (h : w.Followed A) : (w.enter y).Followed A := by
  intro z hz k hk hdone hin
  obtain rfl | hz := mem_enter_stack.1 hz
  · exact absurd (hdone 0 (List.mem_cons_self ..)) (Nat.not_lt_zero _)
  obtain ⟨hmet, hlow⟩ := h z hz k hk (fun j hj => hdone j (List.mem_cons_of_mem _ hj)) hin
  have hne := ne_of_met hy hmet
  refine ⟨by rw [enter_index w hne]; exact hmet, fun hs => ?_⟩
  obtain ⟨c, hc, hcle⟩ := hlow ((mem_enter_stack.1 hs).resolve_left hne)
  refine ⟨c, hord.holds_enter hy hz hc, ?_⟩
  rw [enter_low w (hord.ne_of_mem_open hy hc.1), enter_num w hne]
  exact hcle

end

theorem Sealed.enter (h : w.Sealed A first old) (hy : w.index y = none) :
    (w.enter y).Sealed A first old where
  arc z z' hz harc := (closed_enter hy).2 (h.arc z z' ((closed_enter hy).1 hz) harc)
  first_le := h.first_le
  range z hz := h.range z ((closed_enter hy).1 hz)
  same z z' hz hz' := h.same z z' ((closed_enter hy).1 hz) ((closed_enter hy).1 hz')
  other z hz := h.other z fun hz' => hz ((closed_enter hy).2 hz')

/-- A variable is met to which all variables lead that are being searched. -/
theorem Good.enter (h : w.Good A M first old) (hy : w.index y = none) (hM : M y)
    (hto : ∀ c ∈ w.open_, A.Leads c y) : (w.enter y).Good A M first old :=
  ⟨h.ordered.enter hy hM, h.tied.enter h.ordered hy hto, h.followed.enter h.ordered hy,
    h.sealed_.enter hy⟩

/-! ## Leaving a variable -/

variable {k : Nat} {calls : List (Nat × Nat)}

@[simp]
theorem pop_index (w : Walk) (x : Nat) : (w.pop x calls).index = w.index := by cases calls <;> rfl

@[simp]
theorem pop_stack (w : Walk) (x : Nat) : (w.pop x calls).stack = w.stack := by cases calls <;> rfl

@[simp]
theorem pop_calls (w : Walk) (x : Nat) : (w.pop x calls).calls = calls := by cases calls <;> rfl

@[simp]
theorem pop_tag (w : Walk) (x : Nat) : (w.pop x calls).tag = w.tag := by cases calls <;> rfl

@[simp]
theorem pop_nextTag (w : Walk) (x : Nat) : (w.pop x calls).nextTag = w.nextTag := by
  cases calls <;> rfl

@[simp]
theorem pop_counter (w : Walk) (x : Nat) : (w.pop x calls).counter = w.counter := by
  cases calls <;> rfl

@[simp]
theorem pop_open (w : Walk) (x : Nat) : (w.pop x calls).open_ = calls.map Prod.fst := by
  rw [open_, pop_calls]

@[simp]
theorem pop_num (w : Walk) (x c : Nat) : (w.pop x calls).num c = w.num c := by
  rw [num, num, pop_index]

/-- Only the variable that the search goes back to may learn something, which is what `x` knew. -/
theorem pop_low (w : Walk) (x c : Nat) : (w.pop x calls).low c = w.low c ∨
    c ∈ calls.map Prod.fst ∧ (w.pop x calls).low c = w.low x := by
  cases calls with
  | nil => exact Or.inl rfl
  | cons call calls =>
    obtain ⟨parent, k⟩ := call
    by_cases hc : c = parent
    · subst hc
      have hlow : (w.pop x ((c, k) :: calls)).low c = min (w.low c) (w.low x) :=
        Function.update_self ..
      rw [hlow]
      obtain hle | hle := Nat.le_total (w.low c) (w.low x)
      · exact Or.inl (Nat.min_eq_left hle)
      · exact Or.inr ⟨List.mem_cons_self .., Nat.min_eq_right hle⟩
    · exact Or.inl (Function.update_of_ne hc _ _)

theorem pop_low_le (w : Walk) (x c : Nat) : (w.pop x calls).low c ≤ w.low c := by
  cases calls with
  | nil => exact Nat.le_refl _
  | cons call calls =>
    obtain ⟨parent, k⟩ := call
    by_cases hc : c = parent
    · subst hc
      exact Nat.le_trans (Nat.le_of_eq (Function.update_self ..)) (Nat.min_le_left _ _)
    · exact Nat.le_of_eq (Function.update_of_ne hc _ _)

/-- The variable that the search goes back to knows what `x` knew. -/
theorem pop_low_head (w : Walk) (x parent k : Nat) :
    (w.pop x ((parent, k) :: calls)).low parent ≤ w.low x :=
  Nat.le_trans (Nat.le_of_eq (Function.update_self ..)) (Nat.min_le_right _ _)

theorem mem_open_iff (hcalls : w.calls = (x, k) :: calls) {c : Nat} :
    c ∈ w.open_ ↔ c = x ∨ c ∈ calls.map Prod.fst := by
  rw [open_, hcalls, List.map_cons, List.mem_cons]

theorem Ordered.pop (h : w.Ordered A M) (hcalls : w.calls = (x, k) :: calls) :
    (w.pop x calls).Ordered A M := by
  refine ⟨?_, ?_, ?_, ?_, ?_, ?_, fun y j hj => ?_⟩
  · rw [pop_index, pop_counter]
    exact h.index_lt
  · rw [pop_index]
    exact h.index_inj
  · rw [pop_index]
    exact h.home
  · rw [pop_index, pop_stack]
    exact h.met
  · simp only [pop_stack, pop_num]
    exact h.sorted
  · rw [pop_open, pop_stack]
    have hsub := h.sublist
    rw [open_, hcalls, List.map_cons] at hsub
    exact List.sublist_of_cons_sublist hsub
  · rw [pop_calls] at hj
    exact h.cursor_le y j (hcalls ▸ List.mem_cons_of_mem _ hj)

/-- When no arc of the variable is left, each arc of it counts as followed. -/
theorem done_of_pop (hcalls : w.calls = (x, k) :: calls)
    (hk : A.degree x ≤ k) {y j : Nat} (hj : j < A.degree y)
    (hdone : ∀ i, (y, i) ∈ calls → j < i) : ∀ i, (y, i) ∈ w.calls → j < i := by
  intro i hi
  rw [hcalls] at hi
  obtain heq | hi := List.mem_cons.1 hi
  · cases heq
    exact Nat.lt_of_lt_of_le hj hk
  · exact hdone i hi

/-- What is still being searched below the variable holds what it held. -/
theorem holds_pop (hcalls : w.calls = (x, k) :: calls) {c : Nat} (hc : w.Holds c y)
    (hmem : c ∈ calls.map Prod.fst) : (w.pop x calls).Holds c y := by
  simp only [Holds, pop_open, pop_num]
  exact ⟨hmem, hc.2.1, fun e he => hc.2.2 e ((mem_open_iff hcalls).2 (Or.inr he))⟩

section

variable (h : w.Good A M first old) (hcalls : w.calls = (x, k) :: calls)

include h hcalls

/-- A variable that leads back leads to one that was met earlier and is still being searched. -/
theorem Good.exists_earlier (hne : w.index x ≠ some (w.low x)) :
    ∃ d ∈ calls.map Prod.fst, w.num d < w.num x ∧ A.Leads x d := by
  have hx : x ∈ w.open_ := (mem_open_iff hcalls).2 (Or.inl rfl)
  have hlow : w.low x < w.num x := by
    obtain ⟨i, hi⟩ := Option.ne_none_iff_exists'.1 (h.ordered.met x (h.ordered.mem_stack hx))
    refine Nat.lt_of_le_of_ne (h.tied.low_le x hx) fun heq => hne ?_
    rw [hi, heq, num_eq hi]
  obtain ⟨z, hz, heq, hxz⟩ := h.tied.low_why x hx
  obtain ⟨d, hd, hle, hzd⟩ := h.tied.back z hz
  have hlt : w.num d < w.num x := Nat.lt_of_le_of_lt hle (heq ▸ hlow)
  obtain rfl | hd := (mem_open_iff hcalls).1 hd
  · exact absurd hlt (Nat.lt_irrefl _)
  · exact ⟨d, hd, hlt, hxz.trans hzd⟩

/-- What led down to the variable leads further down. -/
theorem Tied.keep (hne : w.index x ≠ some (w.low x)) : (w.pop x calls).Tied A := by
  have hx : x ∈ w.open_ := (mem_open_iff hcalls).2 (Or.inl rfl)
  have hsub : ∀ {c}, c ∈ calls.map Prod.fst → c ∈ w.open_ :=
    fun hc => (mem_open_iff hcalls).2 (Or.inr hc)
  obtain ⟨d, hd, hdlt, hxd⟩ := h.exists_earlier hcalls hne
  constructor
  case lead =>
    simp only [pop_open, pop_stack, pop_num]
    exact fun c hc => h.tied.lead c (hsub hc)
  case back =>
    simp only [pop_open, pop_stack, pop_num]
    intro y hy
    obtain ⟨c, hc, hle, hyc⟩ := h.tied.back y hy
    obtain rfl | hc := (mem_open_iff hcalls).1 hc
    · exact ⟨d, hd, by omega, hyc.trans hxd⟩
    · exact ⟨c, hc, hle, hyc⟩
  case low_le =>
    intro c hc
    rw [pop_open] at hc
    rw [pop_num]
    exact Nat.le_trans (pop_low_le w x c) (h.tied.low_le c (hsub hc))
  case low_why =>
    intro c hc
    rw [pop_open] at hc
    simp only [pop_stack, pop_num]
    obtain heq | ⟨hc, heq⟩ := @pop_low calls w x c
    · rw [heq]
      exact h.tied.low_why c (hsub hc)
    · obtain ⟨z, hz, hlowz, hxz⟩ := h.tied.low_why x hx
      have hcx := h.tied.lead c (hsub hc) x (h.ordered.mem_stack hx)
        (Nat.le_of_lt (h.ordered.num_lt_head hcalls hc))
      exact ⟨z, hz, heq.trans hlowz, hcx.trans hxz⟩

/-- What `x` held, the variable that the search goes back to holds now. -/
theorem Ordered.holds_parent {parent l : Nat} {rest : List (Nat × Nat)}
    (heq : calls = (parent, l) :: rest) (hle : w.num x ≤ w.num y) :
    (w.pop x calls).Holds parent y := by
  subst heq
  have hp : parent ∈ ((parent, l) :: rest).map Prod.fst := List.mem_cons_self ..
  simp only [Holds, pop_open, pop_num]
  refine ⟨hp, Nat.le_trans (Nat.le_of_lt (h.ordered.num_lt_head hcalls hp)) hle, fun e he _ => ?_⟩
  obtain rfl | he := List.mem_cons.1 he
  · exact Nat.le_refl _
  · have hsorted := h.ordered.sorted.sublist h.ordered.sublist
    rw [open_, hcalls, List.map_cons, List.map_cons] at hsorted
    exact Nat.le_of_lt (List.rel_of_pairwise_cons hsorted.of_cons he)

/-- All arcs of the variable were followed, and what they told is passed on. -/
theorem Followed.keep (hk : A.degree x ≤ k) (hne : w.index x ≠ some (w.low x)) :
    (w.pop x calls).Followed A := by
  intro y hy j hj hdone hin
  rw [pop_stack] at hy
  rw [pop_calls] at hdone
  obtain ⟨hmet, hlo⟩ := h.followed y hy j hj (done_of_pop hcalls hk hj hdone) hin
  rw [pop_index, pop_stack]
  refine ⟨hmet, fun hs => ?_⟩
  obtain ⟨c, hc, hle⟩ := hlo hs
  rw [pop_num]
  obtain rfl | hmem := (mem_open_iff hcalls).1 hc.1
  · obtain ⟨d, hd, _⟩ := h.exists_earlier hcalls hne
    cases hrest : calls with
    | nil =>
      rw [hrest] at hd
      cases hd
    | cons call rest =>
      obtain ⟨parent, l⟩ := call
      exact ⟨parent, hrest ▸ Ordered.holds_parent h hcalls hrest hc.2.1,
        Nat.le_trans (pop_low_head w c parent l) hle⟩
  · exact ⟨c, holds_pop hcalls hc hmem, Nat.le_trans (pop_low_le w x c) hle⟩

end

theorem Sealed.pop (h : w.Sealed A first old) (x : Nat) (calls : List (Nat × Nat)) :
    (w.pop x calls).Sealed A first old := by
  refine ⟨?_, ?_, ?_, ?_, ?_⟩
  all_goals simp only [Closed, pop_index, pop_stack, pop_tag, pop_nextTag]
  · exact h.arc
  · exact h.first_le
  · exact h.range
  · exact h.same
  · exact h.other

/-- A variable that leads back is left. -/
theorem Good.keep (h : w.Good A M first old) (hcalls : w.calls = (x, k) :: calls)
    (hk : A.degree x ≤ k) (hne : w.index x ≠ some (w.low x)) :
    (w.pop x calls).Good A M first old :=
  ⟨h.ordered.pop hcalls, .keep h hcalls hne, .keep h hcalls hk hne, h.sealed_.pop x calls⟩

/-! ## Closing a component -/

/-- What a closed variable leads to is closed. -/
theorem Sealed.closed_of_leads (h : w.Sealed A first old) (hx : w.Closed x) (hto : A.Leads x y) :
    w.Closed y := by
  induction hto with
  | refl => exact hx
  | tail _ harc ih => exact h.arc _ _ ih harc

theorem sublist_of_cons_sublist_append {α : Type} {a : α} {l top rest : List α} (ha : a ∉ top)
    (h : (a :: l).Sublist (top ++ a :: rest)) : l.Sublist rest := by
  induction top with
  | nil => exact List.cons_sublist_cons.1 h
  | cons b top ih =>
    rw [List.mem_cons, not_or] at ha
    cases h with
    | cons _ h => exact ih ha.2 h
    | cons_cons _ _ => exact absurd rfl ha.1

/-- The variables above `x`, and those below. -/
theorem Ordered.mem_part (h : w.Ordered A M) {top rest : List Nat}
    (hstack : w.stack = top ++ x :: rest) :
    (∀ y, y ∈ top ++ [x] ↔ y ∈ w.stack ∧ w.num x ≤ w.num y) ∧
      ∀ y, y ∈ rest ↔ y ∈ w.stack ∧ w.num y < w.num x := by
  have hsorted := h.sorted
  rw [hstack, List.pairwise_append, List.pairwise_cons] at hsorted
  obtain ⟨_, ⟨hrest, _⟩, htop⟩ := hsorted
  have htop' : ∀ y ∈ top ++ [x], w.num x ≤ w.num y := by
    intro y hy
    obtain hy | hy := List.mem_append.1 hy
    · exact Nat.le_of_lt (htop y hy x (List.mem_cons_self ..))
    · exact Nat.le_of_eq (congrArg w.num (List.mem_singleton.1 hy).symm)
  have hsplit : ∀ y, y ∈ w.stack ↔ y ∈ top ++ [x] ∨ y ∈ rest := by
    intro y
    rw [hstack, List.mem_append, List.mem_cons, List.mem_append, List.mem_singleton, or_assoc]
  refine ⟨fun y => ⟨fun hy => ⟨(hsplit y).2 (Or.inl hy), htop' y hy⟩, fun hy => ?_⟩,
    fun y => ⟨fun hy => ⟨(hsplit y).2 (Or.inr hy), hrest y hy⟩, fun hy => ?_⟩⟩
  · obtain hmem | hmem := (hsplit y).1 hy.1
    · exact hmem
    · exact absurd (hrest y hmem) (Nat.not_lt.2 hy.2)
  · obtain hmem | hmem := (hsplit y).1 hy.1
    · exact absurd (htop' y hmem) (Nat.not_le.2 hy.2)
    · exact hmem

/-- What stays on the stack is ordered as before. -/
theorem Ordered.close (h : w.Ordered A M) (hcalls : w.calls = (x, k) :: calls)
    {top rest : List Nat} (hstack : w.stack = top ++ x :: rest) (hnot : x ∉ top) :
    ((w.pop x calls).close (top ++ [x]) rest).Ordered A M := by
  have hord := h.pop hcalls
  refine ⟨hord.index_lt, hord.index_inj, hord.home, fun y hy => ?_, ?_, ?_, hord.cursor_le⟩
  · exact hord.met y (by rw [pop_stack]; exact (((h.mem_part hstack).2 y).1 hy).1)
  · have hsorted := hord.sorted
    rw [pop_stack, hstack] at hsorted
    exact (List.pairwise_append.1 hsorted).2.1.of_cons
  · show (w.pop x calls).open_.Sublist rest
    have hsublist := h.sublist
    rw [open_, hcalls, hstack, List.map_cons] at hsublist
    rw [pop_open]
    exact sublist_of_cons_sublist_append hnot hsublist

section

variable (h : w.Good A M first old) (hcalls : w.calls = (x, k) :: calls) {top rest : List Nat}
  (hstack : w.stack = top ++ x :: rest)

include h hcalls hstack

/-- The variable leads to all those above it, and they lead back to it. -/
theorem Good.mutual_of_mem_part (hy : y ∈ top ++ [x]) : A.Mutual x y := by
  have hx : x ∈ w.open_ := (mem_open_iff hcalls).2 (Or.inl rfl)
  obtain ⟨hy, hle⟩ := ((h.ordered.mem_part hstack).1 y).1 hy
  obtain ⟨c, hc, _, hyc⟩ := h.tied.back y hy
  exact ⟨h.tied.lead x hx y hy hle, hyc.trans (h.tied.lead c hc x (h.ordered.mem_stack hx)
    (h.ordered.num_le_head hcalls hc))⟩

omit hcalls in
/-- The component is closed, and nothing else is. -/
theorem Good.closed_close_iff :
    ((w.pop x calls).close (top ++ [x]) rest).Closed y ↔ w.Closed y ∨ y ∈ top ++ [x] := by
  obtain ⟨hpart, hrest⟩ := h.ordered.mem_part hstack
  show ((w.pop x calls).index y ≠ none ∧ y ∉ rest) ↔ _
  rw [pop_index]
  constructor
  · rintro ⟨hmet, hnr⟩
    by_cases hs : y ∈ w.stack
    · refine Or.inr ((hpart y).2 ⟨hs, Nat.le_of_not_lt fun hlt => hnr ?_⟩)
      exact (hrest y).2 ⟨hs, hlt⟩
    · exact Or.inl ⟨hmet, hs⟩
  · rintro (hy | hy)
    · exact ⟨hy.1, fun hr => hy.2 ((hrest y).1 hr).1⟩
    · obtain ⟨hs, hle⟩ := (hpart y).1 hy
      exact ⟨h.ordered.met y hs, fun hr => Nat.not_lt.2 hle ((hrest y).1 hr).2⟩

/-- No arc from the component leads back to what stays on the stack. -/
theorem Good.arc_of_mem_part (hk : A.degree x ≤ k) (heq : w.index x = some (w.low x)) {z : Nat}
    (hy : y ∈ top ++ [x]) (harc : A.Arc y z) : w.Closed z ∨ z ∈ top ++ [x] := by
  obtain ⟨hpart, _⟩ := h.ordered.mem_part hstack
  obtain ⟨hin, j, hj, rfl⟩ := harc
  obtain ⟨hs, hle⟩ := (hpart y).1 hy
  have hdone : ∀ i, (y, i) ∈ w.calls → j < i := by
    refine done_of_pop hcalls hk hj fun i hi => ?_
    have hlt := h.ordered.num_lt_head hcalls (List.mem_map.2 ⟨(y, i), hi, rfl⟩)
    exact absurd hlt (Nat.not_lt.2 hle)
  obtain ⟨hmet, hlo⟩ := h.followed y hs j hj hdone hin
  by_cases hzs : A.target y j ∈ w.stack
  · obtain ⟨c, hc, hcle⟩ := hlo hzs
    obtain rfl : c = x := h.ordered.holds_unique hc (h.ordered.holds_head hcalls hle)
    exact Or.inr ((hpart _).2 ⟨hzs, by rw [num_eq heq]; exact hcle⟩)
  · exact Or.inl ⟨hmet, hzs⟩

/-- What stays on the stack hangs together without the component. -/
theorem Tied.close (heq : w.index x = some (w.low x)) :
    ((w.pop x calls).close (top ++ [x]) rest).Tied A := by
  obtain ⟨_, hrest⟩ := h.ordered.mem_part hstack
  have hnum : w.num x = w.low x := num_eq heq
  have hsub : ∀ {c}, c ∈ calls.map Prod.fst → c ∈ w.open_ :=
    fun hc => (mem_open_iff hcalls).2 (Or.inr hc)
  constructor
  case lead =>
    show ∀ c ∈ (w.pop x calls).open_, ∀ y ∈ rest, (w.pop x calls).num c ≤ (w.pop x calls).num y → _
    simp only [pop_open, pop_num]
    exact fun c hc y hy => h.tied.lead c (hsub hc) y ((hrest y).1 hy).1
  case back =>
    show ∀ y ∈ rest, ∃ c ∈ (w.pop x calls).open_,
      (w.pop x calls).num c ≤ (w.pop x calls).num y ∧ _
    simp only [pop_open, pop_num]
    intro y hy
    obtain ⟨hys, hylt⟩ := (hrest y).1 hy
    obtain ⟨c, hc, hle, hyc⟩ := h.tied.back y hys
    obtain rfl | hc := (mem_open_iff hcalls).1 hc
    · exact absurd hylt (Nat.not_lt.2 hle)
    · exact ⟨c, hc, hle, hyc⟩
  case low_le =>
    show ∀ c ∈ (w.pop x calls).open_, (w.pop x calls).low c ≤ (w.pop x calls).num c
    simp only [pop_open, pop_num]
    exact fun c hc => Nat.le_trans (pop_low_le w x c) (h.tied.low_le c (hsub hc))
  case low_why =>
    show ∀ c ∈ (w.pop x calls).open_, ∃ z ∈ rest,
      (w.pop x calls).low c = (w.pop x calls).num z ∧ A.Leads c z
    simp only [pop_open, pop_num]
    intro c hc
    have hcle := h.tied.low_le c (hsub hc)
    have hclt := h.ordered.num_lt_head hcalls hc
    obtain hlow | ⟨_, hlow⟩ := @pop_low calls w x c
    · obtain ⟨z, hz, hcz, hto⟩ := h.tied.low_why c (hsub hc)
      exact ⟨z, (hrest z).2 ⟨hz, by omega⟩, hlow.trans hcz, hto⟩
    · have := @pop_low_le calls w x c
      omega

/-- What the arcs told that lead from below the component. -/
theorem Followed.close (hk : A.degree x ≤ k) :
    ((w.pop x calls).close (top ++ [x]) rest).Followed A := by
  obtain ⟨_, hrest⟩ := h.ordered.mem_part hstack
  intro y hy j hj hdone hin
  show (w.pop x calls).index _ ≠ none ∧ (_ ∈ rest → ∃ c, (w.pop x calls).Holds c y ∧
    (w.pop x calls).low c ≤ (w.pop x calls).num _)
  replace hdone : ∀ i, (y, i) ∈ (w.pop x calls).calls → j < i := hdone
  rw [pop_calls] at hdone
  obtain ⟨hys, hylt⟩ := (hrest y).1 hy
  obtain ⟨hmet, hlo⟩ := h.followed y hys j hj (done_of_pop hcalls hk hj hdone) hin
  rw [pop_index]
  refine ⟨hmet, fun hr => ?_⟩
  obtain ⟨c, hc, hle⟩ := hlo ((hrest _).1 hr).1
  rw [pop_num]
  obtain rfl | hmem := (mem_open_iff hcalls).1 hc.1
  · exact absurd hylt (Nat.not_lt.2 hc.2.1)
  · exact ⟨c, holds_pop hcalls hc hmem, Nat.le_trans (pop_low_le w x c) hle⟩

/-- The component has a tag of its own. -/
theorem Sealed.close (hk : A.degree x ≤ k) (heq : w.index x = some (w.low x)) :
    ((w.pop x calls).close (top ++ [x]) rest).Sealed A first old := by
  have hsealed := h.sealed_
  have hclosed : ∀ {y}, ((w.pop x calls).close (top ++ [x]) rest).Closed y ↔
      w.Closed y ∨ y ∈ top ++ [x] := h.closed_close_iff hstack
  have hout : ∀ {y}, w.Closed y → y ∉ top ++ [x] :=
    fun hy hp => hy.2 (((h.ordered.mem_part hstack).1 _).1 hp).1
  have hmutual : ∀ {y}, y ∈ top ++ [x] → A.Mutual x y := h.mutual_of_mem_part hcalls hstack
  have htag : ∀ y, ((w.pop x calls).close (top ++ [x]) rest).tag y =
      if y ∈ top ++ [x] then (w.nextTag : Int) else w.tag y := by
    intro y
    rw [Walk.close]
    dsimp only
    rw [pop_nextTag, pop_tag]
  have hnext : ((w.pop x calls).close (top ++ [x]) rest).nextTag = w.nextTag + 1 := by
    rw [Walk.close]
    dsimp only
    rw [pop_nextTag]
  constructor
  case arc =>
    intro y z hy harc
    obtain hy | hy := hclosed.1 hy
    · exact hclosed.2 (Or.inl (hsealed.arc y z hy harc))
    · exact hclosed.2 (h.arc_of_mem_part hcalls hstack hk heq hy harc)
  case first_le =>
    rw [hnext]
    exact Nat.le_succ_of_le hsealed.first_le
  case range =>
    intro y hy
    have hfirst := hsealed.first_le
    rw [htag, hnext]
    obtain hy | hy := hclosed.1 hy
    · rw [if_neg (hout hy)]
      have := hsealed.range y hy
      omega
    · rw [if_pos hy]
      omega
  case same =>
    intro y z hy hz
    rw [htag, htag]
    obtain hy | hy := hclosed.1 hy <;> obtain hz | hz := hclosed.1 hz
    · rw [if_neg (hout hy), if_neg (hout hz)]
      exact hsealed.same y z hy hz
    · rw [if_neg (hout hy), if_pos hz]
      have := hsealed.range y hy
      exact ⟨fun heq => absurd heq (by omega), fun hm =>
        absurd hz (hout (hsealed.closed_of_leads hy hm.1))⟩
    · rw [if_pos hy, if_neg (hout hz)]
      have := hsealed.range z hz
      exact ⟨fun heq => absurd heq (by omega), fun hm =>
        absurd hy (hout (hsealed.closed_of_leads hz hm.2))⟩
    · rw [if_pos hy, if_pos hz]
      exact ⟨fun _ => (hmutual hy).symm.trans (hmutual hz), fun _ => rfl⟩
  case other =>
    intro y hy
    rw [htag, if_neg fun hp => hy (hclosed.2 (Or.inr hp))]
    exact hsealed.other y fun hc => hy (hclosed.2 (Or.inl hc))

end

/-- A variable that does not lead back is left, together with all variables above it. -/
theorem Good.close (h : w.Good A M first old) (hcalls : w.calls = (x, k) :: calls)
    (hk : A.degree x ≤ k) (heq : w.index x = some (w.low x)) {top rest : List Nat}
    (hstack : w.stack = top ++ x :: rest) (hnot : x ∉ top) :
    ((w.pop x calls).close (top ++ [x]) rest).Good A M first old :=
  ⟨h.ordered.close hcalls hstack hnot, .close h hcalls hstack heq, .close h hcalls hstack hk,
    .close h hcalls hstack hk heq⟩

/-! ## All moves -/

/-- The invariant is preserved. -/
theorem Good.next (h : w.Good A M first old) (hM : ∀ x y, M x → A.inside x y → M y)
    (hn : Next A w w') : w'.Good A M first old := by
  cases hn with
  | @skip x k calls hcalls hk hin =>
    refine h.resume (show w.calls = [] ++ (x, k) :: calls from hcalls) hk fun hin' => ?_
    rw [hin] at hin'
    cases hin'
  | @enter x k calls hcalls hk hin hnone =>
    have hx : x ∈ w.open_ := (mem_open_iff hcalls).2 (Or.inl rfl)
    have hxs := h.ordered.mem_stack hx
    have hne : x ≠ A.target x k := fun heq => h.ordered.met x hxs (heq ▸ hnone)
    have henter := h.enter hnone (hM _ _ (h.ordered.home x (h.ordered.met x hxs)) hin)
      fun c hc => (h.tied.lead c hc x hxs (h.ordered.num_le_head hcalls hc)).tail
        ⟨hin, k, hk, rfl⟩
    have hcalls' : (w.enter (A.target x k)).calls = [(A.target x k, 0)] ++ (x, k) :: calls := by
      show (A.target x k, 0) :: w.calls = _
      rw [hcalls]
      rfl
    refine henter.resume hcalls' hk fun _ => ⟨?_, fun _ => ?_⟩
    · rw [enter_index_self]
      exact fun heq => by cases heq
    · rw [enter_low w hne, enter_num_self]
      exact Nat.le_trans (h.tied.low_le x hx) (Nat.le_of_lt (h.ordered.num_lt hxs))
  | @see x k calls i hcalls hk hin hi hs =>
    refine (h.lower hs hi (.single ⟨hin, k, hk, rfl⟩)).resume
      (show w.calls = [] ++ (x, k) :: calls from hcalls) hk fun _ => ⟨?_, fun _ => ?_⟩
    · show w.index _ ≠ none
      rw [hi]
      exact fun heq => by cases heq
    · show (w.lower x i).low x ≤ w.num _
      rw [num_eq hi]
      exact Nat.le_trans (Nat.le_of_eq (Function.update_self ..)) (Nat.min_le_right _ _)
  | @pass x k calls i hcalls hk hi hs =>
    refine h.resume (show w.calls = [] ++ (x, k) :: calls from hcalls) hk fun _ =>
      ⟨?_, fun hs' => absurd hs' hs⟩
    rw [hi]
    exact fun heq => by cases heq
  | keep hcalls hk hne => exact h.keep hcalls hk hne
  | close hcalls hk heq hstack hnot => exact h.close hcalls hk heq hstack hnot

/-- What was met stays so. -/
theorem Next.index_ne_none (hn : Next A w w') (hx : w.index x ≠ none) : w'.index x ≠ none := by
  cases hn with
  | skip => exact hx
  | @enter y k _ _ _ _ hnone =>
    have hne : x ≠ A.target y k := fun heq => hx (heq ▸ hnone)
    rw [← enter_index w hne] at hx
    exact hx
  | see => exact hx
  | pass => exact hx
  | keep =>
    rw [pop_index]
    exact hx
  | close =>
    show (w.pop _ _).index x ≠ none
    rw [pop_index]
    exact hx

/-- When nothing is being searched, the stack is empty. -/
theorem Good.stack_eq_nil (h : w.Good A M first old) (hcalls : w.calls = []) : w.stack = [] := by
  rw [List.eq_nil_iff_forall_not_mem]
  intro y hy
  obtain ⟨c, hc, _⟩ := h.tied.back y hy
  rw [open_, hcalls] at hc
  cases hc

/-- A search begins. -/
theorem good_start (hindex : ∀ x, w.index x = none) (hstack : w.stack = [])
    (hcalls : w.calls = []) : w.Good A M w.nextTag w.tag := by
  have hopen : w.open_ = [] := by rw [open_, hcalls]; rfl
  have hclosed : ∀ {x}, ¬ w.Closed x := fun hc => hc.1 (hindex _)
  refine ⟨⟨fun x i hi => ?_, fun x y i hi => ?_, fun x hx => absurd (hindex x) hx, ?_, ?_, ?_,
    fun x k hk => ?_⟩, ⟨?_, ?_, ?_, ?_⟩, ?_, ⟨fun x y hx => absurd hx hclosed, Nat.le_refl _,
    fun x hx => absurd hx hclosed, fun x y hx => absurd hx hclosed, fun _ _ => rfl⟩⟩
  · rw [hindex] at hi
    cases hi
  · rw [hindex] at hi
    cases hi
  · rw [hstack]
    exact fun x hx => absurd hx List.not_mem_nil
  · rw [hstack]
    exact .nil
  · rw [hopen, hstack]
  · rw [hcalls] at hk
    cases hk
  · rw [hopen]
    exact fun c hc => absurd hc List.not_mem_nil
  · rw [hstack]
    exact fun c hc => absurd hc List.not_mem_nil
  · rw [hopen]
    exact fun c hc => absurd hc List.not_mem_nil
  · rw [hopen]
    exact fun c hc => absurd hc List.not_mem_nil
  · intro y hy
    rw [hstack] at hy
    cases hy

/-! ## Progress -/

variable {n E : Nat}

/-- The number of variables that were not met yet. -/
def unmet (n : Nat) (w : Walk) : Nat := ((Finset.range n).filter fun x => w.index x = none).card

/-- A bound for the number of moves that are left, if there are `n` variables with at most `E` arcs
each. -/
def work (n E : Nat) (w : Walk) : Nat :=
  unmet n w * (E + 2) + (w.calls.map fun call => E + 1 - call.2).sum

theorem unmet_enter (hx : w.index x = none) (hn : x < n) :
    unmet n (w.enter x) + 1 = unmet n w := by
  have hmem : x ∈ (Finset.range n).filter fun y => w.index y = none :=
    Finset.mem_filter.2 ⟨Finset.mem_range.2 hn, hx⟩
  have heq : ((Finset.range n).filter fun y => (w.enter x).index y = none) =
      ((Finset.range n).filter fun y => w.index y = none).erase x := by
    ext y
    rw [Finset.mem_erase, Finset.mem_filter, Finset.mem_filter]
    by_cases hyx : y = x
    · subst hyx
      refine ⟨fun hy => ?_, fun hy => absurd rfl hy.1⟩
      rw [enter_index_self] at hy
      cases hy.2
    · rw [enter_index w hyx]
      exact ⟨fun hy => ⟨hyx, hy⟩, And.right⟩
  rw [unmet, unmet, heq, Finset.card_erase_of_mem hmem]
  have := Finset.card_pos.2 ⟨x, hmem⟩
  omega

/-- Each move brings the end nearer. -/
theorem Next.work_lt (hn : Next A w w')
    (hlt : ∀ x k, (x, k) ∈ w.calls → A.inside x (A.target x k) → A.target x k < n)
    (hE : ∀ x, A.degree x ≤ E) (hcur : ∀ x k, (x, k) ∈ w.calls → k ≤ A.degree x) :
    work n E w' < work n E w := by
  have hfollow : ∀ {x k calls}, w.calls = (x, k) :: calls → k < A.degree x →
      (((x, k + 1) :: calls).map fun call => E + 1 - call.2).sum <
        (w.calls.map fun call => E + 1 - call.2).sum := by
    intro x k calls hcalls hk
    have := hE x
    rw [hcalls, List.map_cons, List.map_cons, List.sum_cons, List.sum_cons]
    dsimp only
    omega
  have hpop : ∀ {x k calls}, w.calls = (x, k) :: calls →
      (calls.map fun call => E + 1 - call.2).sum <
        (w.calls.map fun call => E + 1 - call.2).sum := by
    intro x k calls hcalls
    have hle := Nat.le_trans (hcur x k (hcalls ▸ List.mem_cons_self ..)) (hE x)
    rw [hcalls, List.map_cons, List.sum_cons]
    dsimp only
    omega
  cases hn with
  | skip hcalls hk => exact Nat.add_lt_add_left (hfollow hcalls hk) _
  | @enter x k calls hcalls hk hin hnone =>
    have hunmet := unmet_enter (w := w.resume ((x, k + 1) :: calls)) hnone
      (hlt x k (hcalls ▸ List.mem_cons_self ..) hin)
    have hsum := hfollow hcalls hk
    show unmet n ((w.resume _).enter _) * (E + 2) +
      ((E + 1 - 0) + (((x, k + 1) :: calls).map fun call => E + 1 - call.2).sum) <
        unmet n (w.resume ((x, k + 1) :: calls)) * (E + 2) + _
    rw [← hunmet, Nat.add_mul]
    omega
  | see hcalls hk => exact Nat.add_lt_add_left (hfollow hcalls hk) _
  | pass hcalls hk => exact Nat.add_lt_add_left (hfollow hcalls hk) _
  | keep hcalls =>
    have := hpop hcalls
    rw [work, work, unmet, unmet, pop_index, pop_calls]
    omega
  | @close x k calls top rest hcalls =>
    have hsum := hpop hcalls
    show ((Finset.range n).filter fun y => (w.pop x calls).index y = none).card * (E + 2) +
      (((w.pop x calls).calls).map fun call => E + 1 - call.2).sum < _
    rw [work, unmet, pop_index, pop_calls]
    omega

end Walk

end FiniteDomain.AllDifferent
