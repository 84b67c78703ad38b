import FiniteDomain.Proofs.Store.Events
import FiniteDomain.Proofs.Store.Views

/-!
# Computations that end

A computation ends with an answer or with a fault.  Two faults stand for a computation that would
not end: a loop was given too few turns, or a chain of definitions goes round.

* `Returns` says that a computation ends, and `Returns.bind` puts two parts together.
* `Halts` says that a loop ends within some number of turns, so that more turns change nothing.
* The rest of the module shows that questions about variables and attempts to narrow them end.  In a
  sound store no chain of definitions goes round.
-/

namespace FiniteDomain

/-! ## Ends of a computation -/

/-- A loop would have gone on, or a chain of definitions goes round. -/
def Fault.Endless (f : Fault) : Prop := f = .outOfFuel ∨ f = .circularView

instance (f : Fault) : Decidable f.Endless := inferInstanceAs (Decidable (_ ∨ _))

/-- The computation ends, with an answer or with a fault. -/
def Returns {α : Type} (x : Except Fault α) : Prop := ∀ f, x = .error f → ¬ f.Endless

/-- The loop ends if it is given so many turns, and more turns change nothing. -/
structure Halts {α : Type} (turns : Nat) (loop : Nat → Except Fault α) : Prop where
  returns : Returns (loop turns)
  same : ∀ fuel, turns ≤ fuel → loop fuel = loop turns

namespace Returns

variable {α β : Type} {x : Except Fault α}

theorem ok (a : α) : Returns (.ok a) := fun _ h => by cases h

theorem error {f : Fault} (h : ¬ f.Endless) : Returns (.error f : Except Fault α) := by
  rintro _ ⟨⟩
  exact h

theorem of_eq {a : α} (h : x = .ok a) : Returns x := h ▸ ok a

theorem ne_outOfFuel (h : Returns x) : x ≠ .error .outOfFuel :=
  fun heq => h _ heq (Or.inl rfl)

/-- A computation in two parts. -/
theorem bind {f : α → Except Fault β} (h : Returns x) (hf : ∀ a, x = .ok a → Returns (f a)) :
    Returns (x >>= f) := by
  cases x with
  | error fault => exact error (h fault rfl)
  | ok a => exact hf a rfl

end Returns

namespace Halts

variable {α : Type} {turns : Nat} {loop : Nat → Except Fault α}

/-- A loop that does the same with one turn more, unless it wants for turns. -/
theorem of_succ (hloop : ∀ fuel, loop fuel ≠ .error .outOfFuel → loop (fuel + 1) = loop fuel)
    (h : Returns (loop turns)) : Halts turns loop := by
  refine ⟨h, fun fuel hle => ?_⟩
  induction fuel, hle using Nat.le_induction with
  | base => rfl
  | succ fuel _ ih => exact (hloop fuel (ih ▸ h.ne_outOfFuel)).trans ih

end Halts

open Returns

namespace Word

theorem returns_check (v : Int) : Returns (check v) := by
  unfold check
  split
  · exact ok v
  · exact error (by decide)

theorem returns_addCount (a b : Nat) : Returns (addCount a b) := by
  unfold addCount
  split
  · exact ok _
  · exact error (by decide)

end Word

theorem returns_fetch {α : Type} (xs : Array α) (i : Nat) : Returns (fetch xs i) := by
  intro f h
  rw [(fetch_eq_error_iff.1 h).2]
  decide

namespace Trail

variable {t : Trail}

theorem returns_read (c : Cell) : Returns (t.read c) :=
  (returns_fetch _ _).bind fun _ _ => ok _

theorem returns_member (id : SetId) (v : Int) : Returns (t.member id v) := by
  refine (returns_fetch _ _).bind fun set _ => (Word.returns_check _).bind fun r _ => ?_
  split
  · exact ok _
  · refine ((returns_read _).bind fun _ _ => ok _).bind fun size _ => ?_
    exact (returns_fetch _ _).bind fun _ _ => (Word.returns_addCount _ _).bind fun _ _ => ok _

theorem returns_write (c : Cell) (v : Int) : Returns (t.write c v) := by
  unfold write
  split
  · exact error (by decide)
  · split_ifs <;> exact ok _

theorem returns_increment (c : Cell) : Returns (t.increment c) :=
  (returns_read c).bind fun _ _ => (Word.returns_check _).bind fun _ _ =>
    (returns_write c _).bind fun _ _ => ok _

end Trail

/-! ## Paths -/

namespace Path

variable {p : Path}

/-- A value that is carried up can leave the range. -/
theorem returns_push (hp : p.Proper) (v : Int) : Returns (p.push v) := by
  induction p with
  | base b => exact ok v
  | shift k rest ih => exact (ih hp).bind fun _ _ => Word.returns_check _
  | scale c rest ih => exact (ih hp.2).bind fun _ _ => Word.returns_check _
  | flip rest ih => exact (ih hp).bind fun _ _ => Word.returns_check _
  | missing => exact hp.elim
  | onwards x => exact hp.elim

/-- A value that is carried down can leave the range. -/
theorem returns_pull (hp : p.Proper) (v : Int) : Returns (p.pull v) := by
  induction p generalizing v with
  | base b => exact ok _
  | shift k rest ih => exact (Word.returns_check _).bind fun u _ => ih hp u
  | scale c rest ih =>
    rw [pull]
    split
    · exact ih hp.2 _
    · exact ok none
  | flip rest ih => exact (Word.returns_check _).bind fun u _ => ih hp u
  | missing => exact hp.elim
  | onwards x => exact hp.elim

/-- A bound that is carried down can leave the range. -/
theorem returns_pullBound (hp : p.Proper) (side : Side) (v : Int) :
    Returns (p.pullBound side v) := by
  induction p generalizing side v with
  | base b => exact ok _
  | shift k rest ih => exact (Word.returns_check _).bind fun u _ => ih hp side u
  | scale c rest ih => exact ih hp.2 side _
  | flip rest ih => exact (Word.returns_check _).bind fun u _ => ih hp side.opposite u
  | missing => exact hp.elim
  | onwards x => exact hp.elim

end Path

/-! ## Variables -/

namespace Store

variable {s : Store}

/-- A variable exists and has a path, or its identifier is out of bounds. -/
theorem path_cases (h : s.Sound) (x : Var) : s.path x = .missing ∨
    ∃ b, (s.path x).Proper ∧ (s.path x).source = .ok b ∧ s.IsBase b := by
  by_cases hx : x.index < s.definitions.size
  · exact Or.inr (h.exists_base hx)
  · exact Or.inl (path_eq_missing hx)

/-- What is asked of the primitive variable below a variable. -/
theorem returns_of_source {α : Type} {x : Var} {ask : Base → Except Fault α} (h : s.Sound)
    (hask : ∀ b, (s.path x).Proper → s.IsBase b → Returns (ask b)) :
    Returns ((s.path x).source >>= ask) := by
  obtain hmissing | ⟨b, hp, hsource, hb⟩ := path_cases h x
  · rw [hmissing]
    exact error (by decide)
  · rw [hsource, ok_bind]
    exact hask b hp hb

theorem returns_size (h : s.Sound) (x : Var) : Returns (s.size x) :=
  returns_of_source h fun _ _ hb => of_eq (card_eq h hb)

theorem returns_isFixed (h : s.Sound) (x : Var) : Returns (s.isFixed x) :=
  (returns_size h x).bind fun _ _ => ok _

theorem returns_bound? (h : s.Sound) (side : Side) (x : Var) :
    Returns (s.bound? side x) := by
  refine returns_of_source h fun b hp hb => ?_
  obtain ⟨_, hnone⟩ | ⟨u, _, hsome, _⟩ := bound?_cases h hb ((s.path x).turn side)
  · rw [hnone, ok_bind]
    exact ok none
  · rw [hsome, ok_bind]
    exact (Path.returns_push hp u).bind fun _ _ => ok _

theorem returns_pull (h : s.Sound) (x : Var) (v : Int) : Returns (s.pull x v) := by
  rw [pull, pathBound, pullAlong]
  obtain hmissing | ⟨_, hp, _⟩ := path_cases h x
  · rw [hmissing]
    exact error (by decide)
  · refine (Path.returns_pull hp v).bind fun landing hlanding => ?_
    obtain rfl | ⟨b, r, rfl⟩ := Path.pull_cases hp hlanding <;> exact ok _

theorem returns_pullBound (h : s.Sound) (x : Var) (side : Side) (v : Int) :
    Returns (s.pullBound x side v) := by
  rw [pullBound, pathBound, pullBoundAlong]
  obtain hmissing | ⟨_, hp, _⟩ := path_cases h x
  · rw [hmissing]
    exact error (by decide)
  · refine (Path.returns_pullBound hp side v).bind fun landing hlanding => ?_
    obtain ⟨b, side', r, rfl⟩ := Path.pullBound_cases hp hlanding
    exact ok _

theorem returns_contains (h : s.Sound) (x : Var) (v : Int) :
    Returns (s.contains x v) := by
  refine (returns_pull h x v).bind fun answer _ => ?_
  cases answer with
  | none => exact ok false
  | some pair => exact Trail.returns_member pair.1.domain pair.2

/-! ### Attempts -/

/-- A value of a variable that exists is one of a primitive variable. -/
theorem isBase_of_pull (h : s.Sound) {x : Var} {v r : Int} {b : Base}
    (hpull : s.pull x v = .ok (some (b, r))) : s.IsBase b := by
  rw [pull, pathBound, pullAlong] at hpull
  obtain ⟨landing, hlanding, hpull⟩ := bind_eq_ok_iff.1 hpull
  obtain hmissing | ⟨b', hp, hsource, hb⟩ := path_cases h x
  · rw [hmissing] at hlanding
    cases hlanding
  · obtain rfl | ⟨b'', r', rfl⟩ := Path.pull_cases hp hlanding
    · cases hpull
    · cases hpull
      obtain rfl := Except.ok.inj (hsource.symm.trans (Path.pull_base hlanding).1)
      exact hb

/-- A bound on a variable that exists is one on a primitive variable. -/
theorem isBase_of_pullBound (h : s.Sound) {x : Var} {side : Side} {v : Int} {b : Base}
    {bound : Side × Int} (hpull : s.pullBound x side v = .ok (b, bound)) : s.IsBase b := by
  rw [pullBound, pathBound, pullBoundAlong] at hpull
  obtain ⟨landing, hlanding, hpull⟩ := bind_eq_ok_iff.1 hpull
  obtain hmissing | ⟨b', hp, hsource, hb⟩ := path_cases h x
  · rw [hmissing] at hlanding
    cases hlanding
  · obtain ⟨b'', side', r, rfl⟩ := Path.pullBound_cases hp hlanding
    cases hpull
    obtain rfl := Except.ok.inj (hsource.symm.trans (Path.pullBound_base hp hlanding).1)
    exact hb

theorem returns_fix (h : s.Sound) (x : Var) (v : Int) : Returns (s.fix x v) := by
  refine (returns_pull h x v).bind fun answer hpull => ?_
  cases answer with
  | none => exact ok _
  | some pair =>
    obtain ⟨b, r⟩ := pair
    have hb := isBase_of_pull h hpull
    by_cases hr : r ∈ s.domain b.var
    · obtain ⟨_, hret, _⟩ := fixBase_of_mem h hb hr
      exact of_eq hret
    · dsimp only
      cases hm : s.trail.member b.domain r with
      | error fault =>
        rw [fixBase, hm]
        exact error (Trail.returns_member _ _ fault hm)
      | ok answer => exact of_eq (fixBase_of_not_mem h hb hm hr)

theorem returns_remove (h : s.Sound) (x : Var) (v : Int) :
    Returns (s.remove x v) := by
  refine (returns_pull h x v).bind fun answer hpull => ?_
  cases answer with
  | none => exact ok _
  | some pair =>
    obtain ⟨b, r⟩ := pair
    dsimp only
    cases hm : s.trail.member b.domain r with
    | error fault =>
      rw [removeBase, hm]
      exact error (Trail.returns_member _ _ fault hm)
    | ok answer =>
      obtain ⟨_, _, hret, _⟩ := removeBase_eq h (isBase_of_pull h hpull) hm
      exact of_eq hret

theorem returns_removeBeyond (h : s.Sound) (side : Side) (x : Var) (v : Int) :
    Returns (s.removeBeyond side x v) := by
  refine (returns_pullBound h x side v).bind fun answer hpull => ?_
  obtain ⟨b, side', r⟩ := answer
  obtain ⟨_, _, hret, _⟩ := removeBeyondBase_eq h (isBase_of_pullBound h hpull) side' r
  exact of_eq hret

theorem returns_increment (c : Cell) : Returns (s.increment c) := by
  rw [increment, onTrail_eq]
  exact (Trail.returns_increment c).bind fun _ _ => ok _

end Store

end FiniteDomain
