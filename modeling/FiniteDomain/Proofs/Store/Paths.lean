import FiniteDomain.Store.Domain
import Mathlib.Logic.Function.Basic

/-!
# The values along a path

`Path.eval` is what a path makes of a value when no step leaves the range.  Every checked way along
a path agrees with it: `push_eval` upwards, `pull_base` and `pull_none` downwards, `pullBound_base`
for bounds.

Definitions are grounded when each view is defined through an earlier variable.  Then every path
ends in a primitive variable (`follow_proper`), and it only depends on the definitions up to the
variable where it begins (`follow_congr`).
-/

namespace FiniteDomain

namespace Path

/-! ## Evaluation -/

/-- The value of the view, without regard to the range of values. -/
def eval : Path → Int → Int
  | shift k rest, v => rest.eval v + k
  | scale c rest, v => rest.eval v * c
  | flip rest, v => -rest.eval v
  | _, v => v

/-- A value that is carried up is evaluated. -/
theorem push_eval {p : Path} {v w : Int} (h : p.push v = .ok w) : p.eval v = w := by
  induction p generalizing w with
  | base b =>
    cases h
    rfl
  | shift k rest ih =>
    obtain ⟨u, hu, hw⟩ := bind_eq_ok_iff.1 h
    rw [eval, ih hu]
    exact (Word.check_eq_ok_iff.1 hw).2.symm
  | scale c rest ih =>
    obtain ⟨u, hu, hw⟩ := bind_eq_ok_iff.1 h
    rw [eval, ih hu]
    exact (Word.check_eq_ok_iff.1 hw).2.symm
  | flip rest ih =>
    obtain ⟨u, hu, hw⟩ := bind_eq_ok_iff.1 h
    rw [eval, ih hu]
    exact (Word.check_eq_ok_iff.1 hw).2.symm
  | missing => cases h
  | onwards _ => cases h

/-- Two values of a primitive variable are told apart at the view. -/
theorem eval_injective {p : Path} (hp : p.Proper) : Function.Injective p.eval := by
  induction p with
  | base b => exact fun _ _ h => h
  | shift k rest ih =>
    intro v w h
    refine ih hp ?_
    have h' : rest.eval v + k = rest.eval w + k := h
    omega
  | scale c rest ih =>
    intro v w h
    have hc : c ≠ 0 := by
      have := hp.1
      omega
    exact ih hp.2 (Int.eq_of_mul_eq_mul_right hc h)
  | flip rest ih =>
    intro v w h
    exact ih hp (Int.neg_inj.1 h)
  | missing => exact hp.elim
  | onwards _ => exact hp.elim

/-- A value that arrives at the end of a path evaluates to the value it was carried down from. -/
theorem pull_base {p : Path} {b : Base} {v r : Int} (h : p.pull v = .ok (some (.base b r))) :
    p.source = .ok b ∧ p.eval r = v := by
  induction p generalizing v with
  | base b' =>
    cases h
    exact ⟨rfl, rfl⟩
  | shift k rest ih =>
    obtain ⟨u, hu, hpull⟩ := bind_eq_ok_iff.1 h
    obtain ⟨_, rfl⟩ := Word.check_eq_ok_iff.1 hu
    obtain ⟨hsource, heval⟩ := ih hpull
    refine ⟨hsource, ?_⟩
    rw [eval, heval]
    omega
  | scale c rest ih =>
    rw [pull] at h
    split at h
    · rename_i hdvd
      obtain ⟨hsource, heval⟩ := ih h
      refine ⟨hsource, ?_⟩
      rw [eval, heval]
      exact Int.ediv_mul_cancel (Int.dvd_of_emod_eq_zero hdvd)
    · cases h
  | flip rest ih =>
    obtain ⟨u, hu, hpull⟩ := bind_eq_ok_iff.1 h
    obtain ⟨_, rfl⟩ := Word.check_eq_ok_iff.1 hu
    obtain ⟨hsource, heval⟩ := ih hpull
    refine ⟨hsource, ?_⟩
    rw [eval, heval]
    omega
  | missing => cases h
  | onwards _ => cases h

/-- A value that gets lost on the way down is no value of the view. -/
theorem pull_none {p : Path} {v : Int} (hp : p.Proper) (h : p.pull v = .ok none) (r : Int) :
    p.eval r ≠ v := by
  induction p generalizing v with
  | base b' => cases h
  | shift k rest ih =>
    obtain ⟨u, hu, hpull⟩ := bind_eq_ok_iff.1 h
    obtain ⟨_, rfl⟩ := Word.check_eq_ok_iff.1 hu
    have := ih hp hpull
    rw [eval]
    omega
  | scale c rest ih =>
    rw [pull] at h
    rw [eval]
    split at h
    · rintro rfl
      have hc : c ≠ 0 := by
        have := hp.1
        omega
      exact ih hp.2 h (Int.mul_ediv_cancel _ hc).symm
    · rename_i hdvd
      rintro rfl
      exact hdvd (Int.mul_emod_left _ _)
  | flip rest ih =>
    obtain ⟨u, hu, hpull⟩ := bind_eq_ok_iff.1 h
    obtain ⟨_, rfl⟩ := Word.check_eq_ok_iff.1 hu
    have := ih hp hpull
    rw [eval]
    omega
  | missing => cases h
  | onwards _ => cases h

/-- On a proper path nothing has to be carried on. -/
theorem pull_cases {p : Path} {v : Int} {landing : Option (Landing Int)} (hp : p.Proper)
    (h : p.pull v = .ok landing) : landing = none ∨ ∃ b r, landing = some (.base b r) := by
  induction p generalizing v with
  | base b' =>
    cases h
    exact Or.inr ⟨b', v, rfl⟩
  | shift k rest ih =>
    obtain ⟨u, _, hpull⟩ := bind_eq_ok_iff.1 h
    exact ih hp hpull
  | scale c rest ih =>
    rw [pull] at h
    split at h
    · exact ih hp.2 h
    · cases h
      exact Or.inl rfl
  | flip rest ih =>
    obtain ⟨u, _, hpull⟩ := bind_eq_ok_iff.1 h
    exact ih hp hpull
  | missing => exact hp.elim
  | onwards _ => exact hp.elim

/-! ## Bounds -/

/-- Which values lie beyond the bound that a bound on a multiple amounts to. -/
theorem liesBeyond_roundInward {side : Side} {u v c : Int} (hc : 1 < c) :
    Store.liesBeyond side (u * c) v = Store.liesBeyond side u (roundInward side v c) := by
  have hpos : 0 < c := by omega
  cases side with
  | lower =>
    rw [Store.liesBeyond, Store.liesBeyond, roundInward, decide_eq_decide]
    split
    · rename_i hdvd
      exact (Int.lt_ediv_iff_mul_lt hpos (Int.dvd_of_emod_eq_zero hdvd)).symm
    · rename_i hdvd
      rw [Int.lt_add_one_iff, Int.le_ediv_iff_mul_le hpos]
      constructor
      · exact Int.le_of_lt
      · intro hle
        refine Int.lt_iff_le_and_ne.2 ⟨hle, ?_⟩
        rintro rfl
        exact hdvd (Int.mul_emod_left _ _)
  | upper =>
    rw [Store.liesBeyond, Store.liesBeyond, roundInward, decide_eq_decide]
    exact (Int.ediv_lt_iff_lt_mul hpos).symm

/-- A bound that arrives at the end of a path cuts off what it cut off at the view. -/
theorem pullBound_base {p : Path} {b : Base} {side side' : Side} {v r : Int} (hp : p.Proper)
    (h : p.pullBound side v = .ok (.base b (side', r))) :
    p.source = .ok b ∧ ∀ u, Store.liesBeyond side (p.eval u) v = Store.liesBeyond side' u r := by
  induction p generalizing side v with
  | base b' =>
    cases h
    exact ⟨rfl, fun _ => rfl⟩
  | shift k rest ih =>
    obtain ⟨w, hw, hpull⟩ := bind_eq_ok_iff.1 h
    obtain ⟨_, rfl⟩ := Word.check_eq_ok_iff.1 hw
    obtain ⟨hsource, heval⟩ := ih hp hpull
    refine ⟨hsource, fun u => ?_⟩
    rw [← heval u, eval]
    cases side <;> rw [Store.liesBeyond, Store.liesBeyond, decide_eq_decide] <;> omega
  | scale c rest ih =>
    obtain ⟨hsource, heval⟩ := ih hp.2 h
    refine ⟨hsource, fun u => ?_⟩
    rw [← heval u, eval, liesBeyond_roundInward hp.1]
  | flip rest ih =>
    obtain ⟨w, hw, hpull⟩ := bind_eq_ok_iff.1 h
    obtain ⟨_, rfl⟩ := Word.check_eq_ok_iff.1 hw
    obtain ⟨hsource, heval⟩ := ih hp hpull
    refine ⟨hsource, fun u => ?_⟩
    rw [← heval u, eval]
    cases side <;> rw [Side.opposite, Store.liesBeyond, Store.liesBeyond, decide_eq_decide] <;>
      omega
  | missing => cases h
  | onwards _ => cases h

/-- On a proper path no bound has to be carried on. -/
theorem pullBound_cases {p : Path} {side : Side} {v : Int} {landing : Landing (Side × Int)}
    (hp : p.Proper) (h : p.pullBound side v = .ok landing) :
    ∃ b side' r, landing = .base b (side', r) := by
  induction p generalizing side v with
  | base b' =>
    cases h
    exact ⟨b', side, v, rfl⟩
  | shift k rest ih =>
    obtain ⟨u, _, hpull⟩ := bind_eq_ok_iff.1 h
    exact ih hp hpull
  | scale c rest ih => exact ih hp.2 h
  | flip rest ih =>
    obtain ⟨u, _, hpull⟩ := bind_eq_ok_iff.1 h
    exact ih hp hpull
  | missing => exact hp.elim
  | onwards _ => exact hp.elim

end Path

/-! ## Grounded definitions -/

/-- A view is defined through an earlier variable, with a coefficient greater than one. -/
def Definition.Grounded (i : Nat) : Definition → Prop
  | primitive _ _ => True
  | shift x _ => x.index < i
  | scale x c => x.index < i ∧ 1 < c
  | flip x => x.index < i

/-- All definitions are grounded. -/
def AllGrounded (definitions : Array Definition) : Prop :=
  ∀ (i : Nat) (d : Definition), definitions[i]? = some d → d.Grounded i

namespace Path

variable {definitions definitions' : Array Definition}

/-- The path of a variable that exists leads to a primitive variable. -/
theorem follow_proper (h : AllGrounded definitions) {fuel : Nat} {x : Var}
    (hfuel : x.index < fuel) (hx : x.index < definitions.size) :
    ∃ b, (follow definitions fuel x).Proper ∧ (follow definitions fuel x).source = .ok b ∧
      definitions[b.var.index]? = some (.primitive b.slot b.domain) := by
  induction fuel generalizing x with
  | zero => omega
  | succ fuel ih =>
    have hget : definitions[x.index]? = some definitions[x.index] := Array.getElem?_eq_getElem hx
    have hground := h _ _ hget
    rw [follow, hget]
    cases hd : definitions[x.index] with
    | primitive slot domain => exact ⟨⟨x, slot, domain⟩, trivial, rfl, hd ▸ hget⟩
    | shift y k =>
      rw [hd] at hground
      have hy : y.index < x.index := hground
      exact ih (by omega) (by omega)
    | scale y c =>
      rw [hd] at hground
      have hy : y.index < x.index := hground.1
      obtain ⟨b, hp, hs, hb⟩ := ih (x := y) (by omega) (by omega)
      exact ⟨b, ⟨hground.2, hp⟩, hs, hb⟩
    | flip y =>
      rw [hd] at hground
      have hy : y.index < x.index := hground
      exact ih (by omega) (by omega)

/-- A path leads to an earlier variable, or nowhere else. -/
theorem follow_source_le (h : AllGrounded definitions) {fuel : Nat} {x : Var} {b : Base}
    (hb : (follow definitions fuel x).source = .ok b) : b.var.index ≤ x.index := by
  induction fuel generalizing x with
  | zero => cases hb
  | succ fuel ih =>
    rw [follow] at hb
    cases hd : definitions[x.index]? with
    | none =>
      rw [hd] at hb
      cases hb
    | some d =>
      rw [hd] at hb
      have hground := h _ _ hd
      cases d with
      | primitive slot domain =>
        cases hb
        exact Nat.le_refl _
      | shift y k => exact Nat.le_of_lt (Nat.lt_of_le_of_lt (ih hb) hground)
      | scale y c => exact Nat.le_of_lt (Nat.lt_of_le_of_lt (ih hb) hground.1)
      | flip y => exact Nat.le_of_lt (Nat.lt_of_le_of_lt (ih hb) hground)

/-- A path depends on the definitions up to the variable where it begins. -/
theorem follow_congr (h : AllGrounded definitions) {fuel fuel' : Nat} {x : Var}
    (heq : ∀ i ≤ x.index, definitions'[i]? = definitions[i]?) (hfuel : x.index < fuel)
    (hfuel' : x.index < fuel') : follow definitions' fuel' x = follow definitions fuel x := by
  induction fuel generalizing x fuel' with
  | zero => omega
  | succ fuel ih =>
    obtain ⟨fuel', rfl⟩ : ∃ n, fuel' = n + 1 := ⟨fuel' - 1, by omega⟩
    rw [follow, follow, heq x.index (Nat.le_refl _)]
    cases hd : definitions[x.index]? with
    | none => rfl
    | some d =>
      have hground := h _ _ hd
      cases d with
      | primitive slot domain => rfl
      | shift y k =>
        have hy : y.index < x.index := hground
        exact congrArg (shift k) (ih (fun i hi => heq i (by omega)) (by omega) (by omega))
      | scale y c =>
        have hy : y.index < x.index := hground.1
        exact congrArg (scale c) (ih (fun i hi => heq i (by omega)) (by omega) (by omega))
      | flip y =>
        have hy : y.index < x.index := hground
        exact congrArg flip (ih (fun i hi => heq i (by omega)) (by omega) (by omega))

end Path

end FiniteDomain
