import FiniteDomain.Proofs.Store.Events
import FiniteDomain.Proofs.Store.Levels

/-!
# The stores that the interface reaches

`Store.Reached` holds of every store that a client of the interface comes to: it makes cells,
variables and views, narrows domains, writes the cells that it was given, lets the events be
cleared, and saves and restores levels.  It uses identifiers that exist only, and the bounds of a new
domain are values.  Every such store is sound: `Reached.sound`.

`Declaration` is a call that makes a variable, as a piece of data.
-/

namespace FiniteDomain.Store

/-- What a client of the interface comes to.  It begins with a trail on which there are cells
already. -/
inductive Reached : Store → Prop
  | start (values : List Int) :
    Reached (ofTrail (values.foldl (fun t v => (t.newCell v).2) Trail.empty))
  | newCell {s : Store} (v : Int) : Reached s → Reached (s.newCell v).2
  | write {s s' : Store} {c : Cell} {v : Int} (hhas : s.trail.now.Has c) (hfree : s.Free c)
      (hret : s.write c v = .ok s') : Reached s → Reached s'
  | increment {s s' : Store} {c : Cell} {v : Int} (hhas : s.trail.now.Has c) (hfree : s.Free c)
      (hret : s.increment c = .ok (v, s')) : Reached s → Reached s'
  | decrement {s s' : Store} {c : Cell} {v : Int} (hhas : s.trail.now.Has c) (hfree : s.Free c)
      (hret : s.decrement c = .ok (v, s')) : Reached s → Reached s'
  | newPrimitive {s s' : Store} {min max : Int} {x : Var} (hmin : Word.InRange min)
      (hmax : Word.InRange max) (hret : s.newPrimitive min max = .ok (x, s')) :
      Reached s → Reached s'
  | plus {s s' : Store} {x y : Var} {k : Int} (hx : x.index < s.definitions.size)
      (hret : s.plus x k = .ok (y, s')) : Reached s → Reached s'
  | minus {s s' : Store} {x y : Var} {k : Int} (hx : x.index < s.definitions.size)
      (hret : s.minus x k = .ok (y, s')) : Reached s → Reached s'
  | negate {s s' : Store} {x y : Var} (hx : x.index < s.definitions.size)
      (hret : s.negate x = .ok (y, s')) : Reached s → Reached s'
  | times {s s' : Store} {x y : Var} {c : Int} (hx : x.index < s.definitions.size)
      (hret : s.times x c = .ok (y, s')) : Reached s → Reached s'
  | attempt {s s' : Store} {a : Attempt} {verdict : Verdict}
      (hret : s.attempt a = .ok (verdict, s')) : Reached s → Reached s'
  | clearEvents {s : Store} : Reached s → Reached s.clearEvents
  | save {s : Store} : Reached s → Reached s.save
  | restore {s s' : Store} (hret : s.restore = .ok s') : Reached s → Reached s'

/-! ## The calls one by one -/

variable {s s' : Store}

/-- A trail with some cells and nothing else. -/
theorem sound_cells (values : List Int) (t : Trail) (h : t.Sound) (hpast : t.past = [])
    (hsets : t.sets = #[]) :
    (values.foldl (fun t v => (t.newCell v).2) t).Sound ∧
      (values.foldl (fun t v => (t.newCell v).2) t).past = [] ∧
      (values.foldl (fun t v => (t.newCell v).2) t).sets = #[] := by
  induction values generalizing t with
  | nil => exact ⟨h, hpast, hsets⟩
  | cons v values ih =>
    obtain ⟨hgrown, _⟩ := Trail.newCell_grown h v
    exact ih _ hgrown.sound (hgrown.past_eq.trans hpast) hsets

/-- Counting in a cell is a write. -/
theorem exists_write_of_count {c : Cell} {v : Int}
    (hret : s.increment c = .ok (v, s') ∨ s.decrement c = .ok (v, s')) :
    ∃ w, s.write c w = .ok s' := by
  rcases hret with hret | hret
  all_goals
    obtain ⟨⟨_, t⟩, ht, heq⟩ := bind_eq_ok_iff.1 ((onTrail_eq s _).symm.trans hret)
    cases heq
    obtain ⟨u, _, ht⟩ := bind_eq_ok_iff.1 ht
    obtain ⟨w, _, ht⟩ := bind_eq_ok_iff.1 ht
    obtain ⟨t', hwrite, ht⟩ := bind_eq_ok_iff.1 ht
    cases ht
    exact ⟨_, bind_eq_ok_iff.2 ⟨_, hwrite, rfl⟩⟩

/-- A write into a free cell keeps the store sound. -/
theorem Sound.write (h : s.Sound) {c : Cell} {v : Int} (hhas : s.trail.now.Has c)
    (hfree : s.Free c) (hret : s.write c v = .ok s') : s'.Sound := by
  obtain ⟨s₁, hwrite, hwrote⟩ := write_eq h hhas hfree v
  rw [hwrite] at hret
  cases hret
  exact hwrote.sound

/-- Scaling makes no view, a flip, a multiple, or a multiple of a flip. -/
theorem times_grown (h : s.Sound) {x y : Var} {c : Int} (hx : x.index < s.definitions.size)
    (hret : s.times x c = .ok (y, s')) : Grown s s' := by
  rw [Store.times] at hret
  split at hret
  · cases hret
  split at hret
  · cases hret
    exact .refl h
  split at hret
  · rename_i hone hneg
    obtain ⟨⟨z, s₁⟩, hflip, hret⟩ := bind_eq_ok_iff.1 hret
    obtain ⟨rfl, hgrown, hdefs⟩ := newVar_grown h (d := .flip x) hx (fun _ _ => nofun) hflip
    obtain ⟨k, hk, hret⟩ := bind_eq_ok_iff.1 hret
    obtain ⟨_, rfl⟩ := Word.check_eq_ok_iff.1 hk
    split at hret
    · cases hret
      exact hgrown
    · refine hgrown.trans (newVar_grown hgrown.sound (d := .scale _ (-c)) ⟨?_, by omega⟩
        (fun _ _ => nofun) hret).2.1
      rw [hdefs, Array.size_push]
      exact Nat.lt_succ_self _
  · exact (newVar_grown h (d := .scale x c) ⟨hx, by omega⟩ (fun _ _ => nofun) hret).2.1

end Store

/-! ### New variables -/

/-- A call that makes a variable. -/
inductive Declaration where
  | primitive (min max : Int)
  | plus (x : Var) (k : Int)
  | minus (x : Var) (k : Int)
  | negate (x : Var)
  | times (x : Var) (c : Int)
  deriving DecidableEq, Repr

/-- Makes a variable. -/
def Store.declare (s : Store) : Declaration → Except Fault (Var × Store)
  | .primitive min max => s.newPrimitive min max
  | .plus x k => s.plus x k
  | .minus x k => s.minus x k
  | .negate x => s.negate x
  | .times x c => s.times x c

namespace Declaration

variable {s s' : Store}

/-- The bounds of a new domain are values, and views are made on variables that exist. -/
def Valid (s : Store) : Declaration → Prop
  | primitive min max => Word.InRange min ∧ Word.InRange max
  | plus x _ | minus x _ | negate x | times x _ => x.index < s.definitions.size

/-- Nothing but the new variable is added. -/
theorem declare_grown {d : Declaration} (h : s.Sound) (hd : d.Valid s) {x : Var}
    (hret : s.declare d = .ok (x, s')) : Store.Grown s s' := by
  cases d with
  | primitive min max => exact (Store.newPrimitive_grown h hd.1 hd.2 hret).2.1
  | plus x k => exact (Store.newVar_grown h (d := .shift x k) hd (fun _ _ => nofun) hret).2.1
  | minus x k =>
    obtain ⟨k', _, hret⟩ := bind_eq_ok_iff.1 hret
    exact (Store.newVar_grown h (d := .shift x k') hd (fun _ _ => nofun) hret).2.1
  | negate x => exact (Store.newVar_grown h (d := .flip x) hd (fun _ _ => nofun) hret).2.1
  | times x c => exact Store.times_grown h hd hret

end Declaration

namespace Store

variable {s : Store}

/-- Every store that the interface reaches is sound. -/
theorem Reached.sound (h : s.Reached) : s.Sound := by
  induction h with
  | start values =>
    obtain ⟨ht, hpast, hsets⟩ := sound_cells values _ Trail.sound_empty rfl rfl
    exact (sound_ofTrail ht hpast hsets).1
  | newCell v _ ih => exact (newCell_grown ih v).1.sound
  | write hhas hfree hret _ ih => exact ih.write hhas hfree hret
  | increment hhas hfree hret _ ih =>
    obtain ⟨w, hw⟩ := exists_write_of_count (.inl hret)
    exact ih.write hhas hfree hw
  | decrement hhas hfree hret _ ih =>
    obtain ⟨w, hw⟩ := exists_write_of_count (.inr hret)
    exact ih.write hhas hfree hw
  | newPrimitive hmin hmax hret _ ih =>
    exact (Declaration.declare_grown (d := .primitive _ _) ih ⟨hmin, hmax⟩ hret).sound
  | plus hx hret _ ih =>
    exact (Declaration.declare_grown (d := .plus _ _) ih hx hret).sound
  | minus hx hret _ ih =>
    exact (Declaration.declare_grown (d := .minus _ _) ih hx hret).sound
  | negate hx hret _ ih => exact (Declaration.declare_grown (d := .negate _) ih hx hret).sound
  | times hx hret _ ih => exact (Declaration.declare_grown (d := .times _ _) ih hx hret).sound
  | attempt hret _ ih =>
    obtain ⟨b, D, _, _, hshrinks, _⟩ := attempt_spec ih hret
    exact hshrinks.sound
  | clearEvents _ ih => exact ih.clearEvents
  | save _ ih => exact ih.save
  | restore hret _ ih =>
    obtain ⟨_, _, _, hrestored⟩ := ih.restored_of_ok hret
    exact hrestored.sound

end FiniteDomain.Store
