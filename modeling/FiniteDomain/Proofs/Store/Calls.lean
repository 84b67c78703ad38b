import FiniteDomain.Proofs.Store.Reached

/-!
# Calls to a store

`Store.Call` is a call that may change a store, as a piece of data, and `Store.Call.perform` what it
does.  The stores that are reached are those that such calls lead to, if they are allowed:
`Reached.perform`.

A variable that outlives a call is made as it was made: `Call.path_eq`.  How the path of a view is
made of the path of the variable below it is `path_of_shift`, `path_of_scale` and `path_of_flip`.
-/

namespace FiniteDomain.Store

variable {s s' : Store}

/-- A call that may change a store. -/
inductive Call where
  | newCell (v : Int)
  | write (c : Cell) (v : Int)
  | increment (c : Cell)
  | decrement (c : Cell)
  | declare (d : Declaration)
  | attempt (a : Attempt)
  | clearEvents
  | save
  | restore
  deriving DecidableEq, Repr

namespace Call

/-- The store after a call. -/
def perform (s : Store) : Call → Except Fault Store
  | newCell v => .ok (s.newCell v).2
  | write c v => s.write c v
  | increment c => return (← s.increment c).2
  | decrement c => return (← s.decrement c).2
  | declare d => return (← s.declare d).2
  | attempt a => return (← s.attempt a).2
  | clearEvents => .ok s.clearEvents
  | save => .ok s.save
  | restore => s.restore

/-- The cells are those of the client, the bounds of a new domain are values, and views are made on
variables that exist. -/
def Allowed (s : Store) : Call → Prop
  | write c _ | increment c | decrement c => s.trail.now.Has c ∧ s.Free c
  | declare d => d.Valid s
  | newCell _ | attempt _ | clearEvents | save | restore => True

end Call

/-- A call that is allowed leads to another store that is reached. -/
theorem Reached.perform {call : Call} (h : s.Reached) (hallowed : call.Allowed s)
    (hret : call.perform s = .ok s') : s'.Reached := by
  cases call with
  | newCell v =>
    cases hret
    exact .newCell v h
  | write c v => exact .write hallowed.1 hallowed.2 hret h
  | increment c =>
    obtain ⟨⟨v, s₁⟩, hinc, hret⟩ := bind_eq_ok_iff.1 hret
    cases hret
    exact .increment hallowed.1 hallowed.2 hinc h
  | decrement c =>
    obtain ⟨⟨v, s₁⟩, hdec, hret⟩ := bind_eq_ok_iff.1 hret
    cases hret
    exact .decrement hallowed.1 hallowed.2 hdec h
  | declare d =>
    obtain ⟨⟨x, s₁⟩, hdeclare, hret⟩ := bind_eq_ok_iff.1 hret
    cases hret
    cases d with
    | primitive min max => exact .newPrimitive hallowed.1 hallowed.2 hdeclare h
    | plus x k => exact .plus hallowed hdeclare h
    | minus x k => exact .minus hallowed hdeclare h
    | negate x => exact .negate hallowed hdeclare h
    | times x c => exact .times hallowed hdeclare h
  | attempt a =>
    obtain ⟨⟨verdict, s₁⟩, hattempt, hret⟩ := bind_eq_ok_iff.1 hret
    cases hret
    exact .attempt hattempt h
  | clearEvents =>
    cases hret
    exact .clearEvents h
  | save =>
    cases hret
    exact .save h
  | restore => exact .restore hret h

/-! ## Cells -/

/-- A call that writes into a cell of the client, if it is one. -/
theorem Call.exists_write {call : Call} {c : Cell}
    (hcall : (∃ v, call = .write c v) ∨ call = .increment c ∨ call = .decrement c)
    (hret : call.perform s = .ok s') : ∃ v, s.write c v = .ok s' := by
  obtain ⟨v, rfl⟩ | rfl | rfl := hcall
  · exact ⟨v, hret⟩
  · obtain ⟨⟨v, s₁⟩, hinc, hret⟩ := bind_eq_ok_iff.1 hret
    cases hret
    exact exists_write_of_count (.inl hinc)
  · obtain ⟨⟨v, s₁⟩, hdec, hret⟩ := bind_eq_ok_iff.1 hret
    cases hret
    exact exists_write_of_count (.inr hdec)

/-- What writing into a cell of the client comes to. -/
theorem Call.wrote (h : s.Sound) {call : Call} {c : Cell}
    (hcall : (∃ v, call = .write c v) ∨ call = .increment c ∨ call = .decrement c)
    (hallowed : s.trail.now.Has c ∧ s.Free c) (hret : call.perform s = .ok s') :
    s'.events = s.events ∧ ∃ v, Wrote s s' c v := by
  obtain ⟨v, hwrite⟩ := Call.exists_write hcall hret
  obtain ⟨s₁, hwrite', hwrote⟩ := write_eq h hallowed.1 hallowed.2 v
  rw [hwrite] at hwrite'
  cases hwrite'
  obtain ⟨t, _, hs'⟩ := bind_eq_ok_iff.1 ((updateTrail_eq s _).symm.trans hwrite)
  cases hs'
  exact ⟨rfl, v, hwrote⟩

/-! ## Variables that outlive a call -/

/-- A variable that is there before and after a call is defined as before. -/
theorem Call.definitions_eq (h : s.Sound) {call : Call} (hallowed : call.Allowed s)
    (hret : call.perform s = .ok s') {i : Nat} (hi : i < s.definitions.size)
    (hi' : i < s'.definitions.size) : s'.definitions[i]? = s.definitions[i]? := by
  cases call with
  | newCell v =>
    cases hret
    rw [(newCell_grown h v).2.2.2.2.2]
  | write c v =>
    obtain ⟨_, _, hwrote⟩ := Call.wrote h (.inl ⟨v, rfl⟩) hallowed hret
    rw [hwrote.definitions_eq]
  | increment c =>
    obtain ⟨_, _, hwrote⟩ := Call.wrote h (.inr (.inl rfl)) hallowed hret
    rw [hwrote.definitions_eq]
  | decrement c =>
    obtain ⟨_, _, hwrote⟩ := Call.wrote h (.inr (.inr rfl)) hallowed hret
    rw [hwrote.definitions_eq]
  | declare d =>
    obtain ⟨⟨x, s₁⟩, hdeclare, hret⟩ := bind_eq_ok_iff.1 hret
    cases hret
    exact (Declaration.declare_grown h hallowed hdeclare).definitions_eq i hi
  | attempt a =>
    obtain ⟨⟨verdict, s₁⟩, hattempt, hret⟩ := bind_eq_ok_iff.1 hret
    cases hret
    obtain ⟨b, D, _, _, hshrinks, _⟩ := attempt_spec h hattempt
    rw [hshrinks.definitions_eq]
  | clearEvents | save =>
    cases hret
    rfl
  | restore =>
    obtain ⟨w, rest, hpast, hrestored⟩ := h.restored_of_ok hret
    have hle := (h.counts w (by rw [Trail.frames, hpast]; simp)).vars_le
    rw [hrestored.definitions_eq, Trail.size_shrink hle] at hi'
    rw [hrestored.definitions_eq, Trail.getElem?_shrink, if_pos hi']

/-- The path of a variable that outlives a call stays the same. -/
theorem Call.path_eq (h : s.Sound) {call : Call} (hallowed : call.Allowed s)
    (hret : call.perform s = .ok s') {x : Var} (hx : x.index < s.definitions.size)
    (hx' : x.index < s'.definitions.size) : s'.path x = s.path x :=
  Path.follow_congr h.grounded
    (fun _ hi => Call.definitions_eq h hallowed hret (by omega) (by omega)) (by omega) (by omega)

/-! ## The path of a view -/

/-- The path of a variable below a view does not need the last step that is allowed. -/
theorem follow_below (h : s.Sound) {y : Var} (hy : y.index + 1 < s.definitions.size + 1) :
    Path.follow s.definitions s.definitions.size y = s.path y :=
  Path.follow_congr h.grounded (fun _ _ => rfl) (by omega) (by omega)

/-- The path of a view that shifts. -/
theorem path_of_shift (h : s.Sound) {x y : Var} {k : Int}
    (hx : s.definitions[x.index]? = some (.shift y k)) : s.path x = .shift k (s.path y) := by
  have hlt : y.index < x.index := h.grounded _ _ hx
  have hsize := (Array.getElem?_eq_some_iff.1 hx).1
  rw [path, Path.follow, hx, ← follow_below h (by omega)]

/-- The path of a view that scales. -/
theorem path_of_scale (h : s.Sound) {x y : Var} {c : Int}
    (hx : s.definitions[x.index]? = some (.scale y c)) : s.path x = .scale c (s.path y) := by
  have hlt : y.index < x.index := (h.grounded _ _ hx).1
  have hsize := (Array.getElem?_eq_some_iff.1 hx).1
  rw [path, Path.follow, hx, ← follow_below h (by omega)]

/-- The path of a view that flips. -/
theorem path_of_flip (h : s.Sound) {x y : Var}
    (hx : s.definitions[x.index]? = some (.flip y)) : s.path x = .flip (s.path y) := by
  have hlt : y.index < x.index := h.grounded _ _ hx
  have hsize := (Array.getElem?_eq_some_iff.1 hx).1
  rw [path, Path.follow, hx, ← follow_below h (by omega)]

end FiniteDomain.Store
