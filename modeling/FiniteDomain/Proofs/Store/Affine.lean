import FiniteDomain.Proofs.Store.Calls
import FiniteDomain.Proofs.Store.Returns
import Mathlib.Tactic.Ring

/-!
# Views are affine images

A variable that was made from a primitive variable by shifting, flipping and scaling has the values
`f v`, for `v` in the domain of the primitive variable and `f` the composed function.  Every
question about it is answered from these values, every narrowing keeps those that it should, and a
call that does not overflow returns.

* `OverflowOnly` are the computations that fail by leaving the range only, and `UnlessOverflow` says
  what such a computation answers.
* `Path.liesBeyond_eval` is the order of the values along a path, and `bound?_spec` gives the
  extreme one.
* `Store.ViewOf p s x f` says that `x` was made from `p` by views, with the composed function `f`,
  and `ViewOf.evaluates` that its path evaluates to `f`.
* `Store.AffineImage` is what the calls about `x` do, in terms of `p` and `f`: `ViewOf.affineImage`.
-/

namespace FiniteDomain

/-! ## Failing by overflow -/

section

variable {α β : Type}

/-- The computation can only fail because a number leaves the range. -/
def OverflowOnly (x : Except Fault α) : Prop := ∀ f, x = .error f → f = .overflow

/-- A call that does not overflow returns, with an answer of the property `P`. -/
def UnlessOverflow (call : Except Fault α) (P : α → Prop) : Prop :=
  call ≠ .error .overflow → ∃ a, call = .ok a ∧ P a

namespace OverflowOnly

theorem ok (a : α) : OverflowOnly (.ok a : Except Fault α) := nofun

theorem bind {x : Except Fault α} {f : α → Except Fault β} (h : OverflowOnly x)
    (hf : ∀ a, x = .ok a → OverflowOnly (f a)) : OverflowOnly (x >>= f) := by
  cases hx : x with
  | error e =>
    intro e' he'
    cases he'
    exact h e hx
  | ok a => exact hf a hx

theorem check (v : Int) : OverflowOnly (Word.check v) := by
  unfold Word.check
  split
  · exact ok v
  · rintro _ ⟨⟩
    rfl

theorem mapM {f : α → Except Fault β} {l : List α} (h : ∀ a ∈ l, OverflowOnly (f a)) :
    OverflowOnly (l.mapM f) := by
  induction l with
  | nil => exact ok []
  | cons a rest ih =>
    rw [List.mapM_cons]
    refine (h a (List.mem_cons_self ..)).bind fun b _ => ?_
    exact (ih fun c hc => h c (List.mem_cons_of_mem _ hc)).bind fun bs _ => ok _

/-- What a computation answers if it returns, it answers unless it overflows. -/
theorem returns {call : Except Fault α} {P : α → Prop} (h : OverflowOnly call)
    (hP : ∀ a, call = .ok a → P a) : UnlessOverflow call P := by
  intro hne
  cases hcall : call with
  | error f => exact absurd (by rw [hcall, h f hcall]) hne
  | ok a => exact ⟨a, rfl, hP a hcall⟩

end OverflowOnly

end

open OverflowOnly

/-! ## Along a path -/

namespace Path

variable {p : Path}

theorem overflowOnly_push (hp : p.Proper) (v : Int) : OverflowOnly (p.push v) := by
  induction p with
  | base b => exact ok v
  | shift k rest ih => exact (ih hp).bind fun _ _ => check _
  | scale c rest ih => exact (ih hp.2).bind fun _ _ => check _
  | flip rest ih => exact (ih hp).bind fun _ _ => check _
  | missing => exact hp.elim
  | onwards x => exact hp.elim

theorem overflowOnly_pull (hp : p.Proper) (v : Int) : OverflowOnly (p.pull v) := by
  induction p generalizing v with
  | base b => exact ok _
  | shift k rest ih => exact (check _).bind fun u _ => ih hp u
  | scale c rest ih =>
    rw [pull]
    split
    · exact ih hp.2 _
    · exact ok _
  | flip rest ih => exact (check _).bind fun u _ => ih hp u
  | missing => exact hp.elim
  | onwards x => exact hp.elim

theorem overflowOnly_pullBound (hp : p.Proper) (side : Side) (v : Int) :
    OverflowOnly (p.pullBound side v) := by
  induction p generalizing side v with
  | base b => exact ok _
  | shift k rest ih => exact (check _).bind fun u _ => ih hp side u
  | scale c rest ih => exact ih hp.2 side _
  | flip rest ih => exact (check _).bind fun u _ => ih hp _ u
  | missing => exact hp.elim
  | onwards x => exact hp.elim

/-- The order of two values of a view is that of the values below, or the opposite one. -/
theorem liesBeyond_eval (hp : p.Proper) (side : Side) (u v : Int) :
    Store.liesBeyond side (p.eval u) (p.eval v) = Store.liesBeyond (p.turn side) u v := by
  induction p generalizing side with
  | base b => rfl
  | shift k rest ih =>
    rw [turn, ← ih hp, eval, eval]
    cases side <;> rw [Store.liesBeyond, Store.liesBeyond, decide_eq_decide] <;> omega
  | scale c rest ih =>
    have hc : 0 < c := by
      have := hp.1
      omega
    rw [turn, ← ih hp.2, eval, eval]
    cases side <;> rw [Store.liesBeyond, Store.liesBeyond, decide_eq_decide]
    · exact Int.mul_lt_mul_right hc
    · exact Int.mul_lt_mul_right hc
  | flip rest ih =>
    rw [turn, ← ih hp, eval, eval]
    cases side <;> rw [Side.opposite, Store.liesBeyond, Store.liesBeyond, decide_eq_decide] <;>
      omega
  | missing => exact hp.elim
  | onwards x => exact hp.elim

end Path

namespace Store

variable {s s' : Store} {b : Base} {p q x y : Var} {f g : Int → Int}

/-! ## Calls about one variable -/

theorem overflowOnly_pull (h : s.Sound) (hx : x.index < s.definitions.size) (v : Int) :
    OverflowOnly (s.pull x v) := by
  obtain ⟨_, hp, _, _⟩ := h.exists_base hx
  rw [pull, pathBound, pullAlong]
  refine (Path.overflowOnly_pull hp v).bind fun landing hland => ?_
  obtain rfl | ⟨b, r, rfl⟩ := Path.pull_cases hp hland <;> exact ok _

theorem overflowOnly_pullBound (h : s.Sound) (hx : x.index < s.definitions.size) (side : Side)
    (v : Int) : OverflowOnly (s.pullBound x side v) := by
  obtain ⟨_, hp, _, _⟩ := h.exists_base hx
  rw [pullBound, pathBound, pullBoundAlong]
  refine (Path.overflowOnly_pullBound hp side v).bind fun landing hland => ?_
  obtain ⟨b, side', r, rfl⟩ := Path.pullBound_cases hp hland
  exact ok _

theorem overflowOnly_member (h : s.Sound) (hb : s.IsBase b) (v : Int) :
    OverflowOnly (s.trail.member b.domain v) := by
  obtain ⟨set, hset⟩ := h.exists_set hb
  rw [Trail.member_eq h.trail hset]
  exact (check _).bind fun _ _ => ok _

theorem overflowOnly_contains (h : s.Sound) (hx : x.index < s.definitions.size) (v : Int) :
    OverflowOnly (s.contains x v) := by
  refine (overflowOnly_pull h hx v).bind fun answer hpull => ?_
  match answer, hpull with
  | none, _ => exact ok _
  | some (b, r), hpull => exact overflowOnly_member h (isBase_of_pull h hpull) r

theorem overflowOnly_values (h : s.Sound) (hx : x.index < s.definitions.size) :
    OverflowOnly (s.values x) := by
  obtain ⟨b, hp, hsource, hb⟩ := h.exists_base hx
  obtain ⟨set, hset⟩ := h.exists_set hb
  obtain ⟨rs, hrs, _, _⟩ := Trail.elements_eq h.trail h.values_fit hset
  rw [values, hsource, ok_bind, hrs, ok_bind]
  exact mapM fun r _ => Path.overflowOnly_push hp r

theorem overflowOnly_bound? (h : s.Sound) (hx : x.index < s.definitions.size) (side : Side) :
    OverflowOnly (s.bound? side x) := by
  obtain ⟨b, hp, hsource, hb⟩ := h.exists_base hx
  rw [bound?, hsource, ok_bind]
  obtain ⟨_, hnone⟩ | ⟨r, _, hsome, _⟩ := bound?_cases h hb ((s.path x).turn side)
  · rw [hnone]
    exact ok _
  · rw [hsome]
    exact (Path.overflowOnly_push hp r).bind fun _ _ => ok _

theorem overflowOnly_fix (h : s.Sound) (hx : x.index < s.definitions.size) (v : Int) :
    OverflowOnly (s.fix x v) := by
  refine (overflowOnly_pull h hx v).bind fun answer hpull => ?_
  match answer, hpull with
  | none, _ => exact ok _
  | some (b, r), hpull =>
    have hb := isBase_of_pull h hpull
    dsimp only
    cases hm : s.trail.member b.domain r with
    | error e =>
      obtain rfl := overflowOnly_member h hb r e hm
      rw [fixBase, hm]
      rintro _ ⟨⟩
      rfl
    | ok answer =>
      by_cases hr : r ∈ s.domain b.var
      · obtain ⟨s₁, hret, _⟩ := fixBase_of_mem h hb hr
        rw [hret]
        exact ok _
      · rw [fixBase_of_not_mem h hb hm hr]
        exact ok _

theorem overflowOnly_remove (h : s.Sound) (hx : x.index < s.definitions.size) (v : Int) :
    OverflowOnly (s.remove x v) := by
  refine (overflowOnly_pull h hx v).bind fun answer hpull => ?_
  match answer, hpull with
  | none, _ => exact ok _
  | some (b, r), hpull =>
    have hb := isBase_of_pull h hpull
    dsimp only
    cases hm : s.trail.member b.domain r with
    | error e =>
      obtain rfl := overflowOnly_member h hb r e hm
      rw [removeBase, hm]
      rintro _ ⟨⟩
      rfl
    | ok answer =>
      obtain ⟨verdict, s₁, hret, _⟩ := removeBase_eq h hb hm
      rw [hret]
      exact ok _

theorem overflowOnly_removeBeyond (h : s.Sound) (hx : x.index < s.definitions.size) (side : Side)
    (v : Int) : OverflowOnly (s.removeBeyond side x v) := by
  obtain ⟨b, hp, hsource, hb⟩ := h.exists_base hx
  refine (overflowOnly_pullBound h hx side v).bind fun pulled hpull => ?_
  rw [pullBound, pathBound, pullBoundAlong] at hpull
  obtain ⟨landing, hland, hpull⟩ := bind_eq_ok_iff.1 hpull
  obtain ⟨b', side', r, rfl⟩ := Path.pullBound_cases hp hland
  cases hpull
  cases hsource.symm.trans (Path.pullBound_base hp hland).1
  obtain ⟨verdict, s₁, hret, _⟩ := removeBeyondBase_eq h hb side' r
  dsimp only
  rw [hret]
  exact ok _

/-- The extreme value on one side. -/
theorem bound?_spec (h : s.Sound) (hx : x.index < s.definitions.size) {side : Side}
    {answer : Option Int} (hret : s.bound? side x = .ok answer) :
    s.view x = ∅ ∧ answer = none ∨ ∃ v ∈ s.view x, answer = some v ∧
      ∀ w ∈ s.view x, liesBeyond side w v = false := by
  obtain ⟨b, hp, hsource, hb⟩ := h.exists_base hx
  rw [bound?, hsource, ok_bind] at hret
  obtain ⟨hempty, hnone⟩ | ⟨r, hr, hsome, hextreme⟩ := bound?_cases h hb ((s.path x).turn side)
  · rw [hnone, ok_bind] at hret
    dsimp only at hret
    cases hret
    refine Or.inl ⟨?_, rfl⟩
    by_contra hne
    exact (view_ne_empty_iff hsource).1 hne hempty
  · rw [hsome, ok_bind] at hret
    obtain ⟨v, hpush, hret⟩ := bind_eq_ok_iff.1 hret
    cases hret
    rw [← Path.push_eval hpush]
    refine Or.inr ⟨_, (mem_view hsource).2 ⟨r, hr, rfl⟩, rfl, fun w hw => ?_⟩
    obtain ⟨a, ha, rfl⟩ := (mem_view hsource).1 hw
    rw [Path.liesBeyond_eval hp]
    exact hextreme a ha

/-- The extreme value as the answer to a question: `E` says what is extreme. -/
theorem bound?_answer {D : Finset Int} {answer : Option Int} {E : Int → Prop}
    (hE : ∀ v ∈ D, E v → ∀ w, E w → v = w) (hmem : ∀ w, E w → w ∈ D)
    (h : D = ∅ ∧ answer = none ∨ ∃ v ∈ D, answer = some v ∧ E v) :
    (answer = none ↔ D = ∅) ∧ ∀ w, answer = some w ↔ E w := by
  obtain ⟨rfl, rfl⟩ | ⟨v, hv, rfl, hextreme⟩ := h
  · exact ⟨iff_of_true rfl rfl, fun w =>
      iff_of_false nofun fun hw => absurd (hmem w hw) (Finset.notMem_empty w)⟩
  · refine ⟨iff_of_false nofun (Finset.ne_empty_of_mem hv), fun w => ⟨?_, fun hw => ?_⟩⟩
    · rintro ⟨⟩
      exact hextreme
    · rw [hE v hv hextreme w hw]

/-! ## Variables made from a primitive variable -/

/-- The variable `x` was made from the primitive variable `p` by views, whose composed function is
`f`, and both are still there. -/
inductive ViewOf (p : Var) : Store → Var → (Int → Int) → Prop
  | primitive {s s' : Store} {min max : Int} (hs : s.Reached) (hmin : Word.InRange min)
      (hmax : Word.InRange max) (hret : s.newPrimitive min max = .ok (p, s')) : ViewOf p s' p id
  | plus {s s' : Store} {x y : Var} {f : Int → Int} {k : Int} (hx : ViewOf p s x f)
      (hret : s.plus x k = .ok (y, s')) : ViewOf p s' y fun v => f v + k
  | minus {s s' : Store} {x y : Var} {f : Int → Int} {k : Int} (hx : ViewOf p s x f)
      (hret : s.minus x k = .ok (y, s')) : ViewOf p s' y fun v => f v - k
  | negate {s s' : Store} {x y : Var} {f : Int → Int} (hx : ViewOf p s x f)
      (hret : s.negate x = .ok (y, s')) : ViewOf p s' y fun v => -f v
  | times {s s' : Store} {x y : Var} {f : Int → Int} {c : Int} (hx : ViewOf p s x f)
      (hret : s.times x c = .ok (y, s')) : ViewOf p s' y fun v => f v * c
  | later {s s' : Store} {x : Var} {f : Int → Int} (call : Call) (hx : ViewOf p s x f)
      (hallowed : call.Allowed s) (hret : call.perform s = .ok s')
      (hleft : x.index < s'.definitions.size) : ViewOf p s' x f

/-- The path of the variable `x` leads to the primitive variable `p` and evaluates to `f`. -/
structure Evaluates (s : Store) (p x : Var) (f : Int → Int) : Prop where
  lt : x.index < s.definitions.size
  source : ∃ b, b.var = p ∧ (s.path x).source = .ok b
  eval : ∀ v, (s.path x).eval v = f v

/-- A new view evaluates to the function of the variable below and its own step. -/
theorem Evaluates.newVar (step : Path → Path) (hs : s.Sound) (h : Evaluates s p x f)
    {d : Definition} (hground : d.Grounded s.definitions.size)
    (hview : ∀ slot set, d ≠ .primitive slot set) (hret : s.newVar d = .ok (y, s'))
    (hpath : ∀ {t : Store} {z : Var}, t.Sound → t.definitions[z.index]? = some d →
      t.path z = step (t.path x))
    (hsource : ∀ path, (step path).source = path.source)
    (heval : ∀ path v, (step path).eval v = g (path.eval v)) :
    Evaluates s' p y (fun v => g (f v)) ∧ s'.Sound := by
  obtain ⟨rfl, hgrown, hdefs⟩ := newVar_grown hs hground hview hret
  have hnew : s'.definitions[s.definitions.size]? = some d := by
    rw [hdefs]
    exact Array.getElem?_push_size
  have hpath' : s'.path ⟨s.definitions.size⟩ = step (s.path x) := by
    rw [hpath (z := ⟨s.definitions.size⟩) hgrown.sound hnew, hgrown.path_eq hs h.lt]
  obtain ⟨b, hb, hsrc⟩ := h.source
  refine ⟨⟨(Array.getElem?_eq_some_iff.1 hnew).1, ⟨b, hb, ?_⟩, fun v => ?_⟩, hgrown.sound⟩
  · rw [hpath', hsource, hsrc]
  · rw [hpath', heval, h.eval]

theorem Evaluates.plus (hs : s.Sound) (h : Evaluates s p x f) {k : Int}
    (hret : s.plus x k = .ok (y, s')) : Evaluates s' p y (fun v => f v + k) :=
  (h.newVar (.shift k) hs (d := .shift x k) (g := (· + k)) h.lt (fun _ _ => nofun) hret
    (fun ht hz => path_of_shift ht hz) (fun _ => rfl) fun _ _ => rfl).1

theorem Evaluates.negate (hs : s.Sound) (h : Evaluates s p x f)
    (hret : s.negate x = .ok (y, s')) : Evaluates s' p y (fun v => -f v) ∧ s'.Sound :=
  h.newVar .flip hs (d := .flip x) (g := (- ·)) h.lt (fun _ _ => nofun) hret
    (fun ht hz => path_of_flip ht hz) (fun _ => rfl) fun _ _ => rfl

theorem Evaluates.scale (hs : s.Sound) (h : Evaluates s p x f) {c : Int} (hc : 1 < c)
    (hret : s.newVar (.scale x c) = .ok (y, s')) : Evaluates s' p y (fun v => f v * c) :=
  (h.newVar (.scale c) hs (d := .scale x c) (g := (· * c)) ⟨h.lt, hc⟩ (fun _ _ => nofun) hret
    (fun ht hz => path_of_scale ht hz) (fun _ => rfl) fun _ _ => rfl).1

/-- Scaling is no step, a flip, a multiple, or a flip and a multiple. -/
theorem Evaluates.times (hs : s.Sound) (h : Evaluates s p x f) {c : Int}
    (hret : s.times x c = .ok (y, s')) : c ≠ 0 ∧ Evaluates s' p y (fun v => f v * c) := by
  rw [Store.times] at hret
  split at hret
  · cases hret
  rename_i hzero
  refine ⟨hzero, ?_⟩
  split at hret
  · rename_i hone
    cases hret
    simpa only [hone, mul_one] using h
  split at hret
  · obtain ⟨⟨z, s₁⟩, hflip, hret⟩ := bind_eq_ok_iff.1 hret
    obtain ⟨hz, hs₁⟩ := h.negate hs hflip
    obtain ⟨k, hk, hret⟩ := bind_eq_ok_iff.1 hret
    obtain ⟨_, rfl⟩ := Word.check_eq_ok_iff.1 hk
    split at hret
    · cases hret
      obtain rfl : c = -1 := by omega
      simpa only [mul_neg, mul_one] using hz
    · have hscaled := hz.scale hs₁ (by omega) hret
      simpa only [neg_mul_neg] using hscaled
  · exact h.scale hs (by omega) hret

/-- A variable that outlives a call evaluates as before. -/
theorem Evaluates.later (hs : s.Sound) (h : Evaluates s p x f) {call : Call}
    (hallowed : call.Allowed s) (hret : call.perform s = .ok s')
    (hleft : x.index < s'.definitions.size) : Evaluates s' p x f := by
  have hpath := Call.path_eq hs hallowed hret h.lt hleft
  exact ⟨hleft, by rw [hpath]; exact h.source, by rw [hpath]; exact h.eval⟩

/-- A variable that was made from a primitive variable evaluates to the composed function, and that
function is affine. -/
theorem ViewOf.evaluates (h : ViewOf p s x f) :
    s.Reached ∧ Evaluates s p x f ∧ ∃ a b : Int, a ≠ 0 ∧ ∀ v, f v = a * v + b := by
  induction h with
  | @primitive s s' min max hs hmin hmax hret =>
    obtain ⟨rfl, hgrown, hsize, ⟨b, hvar, hb⟩, _⟩ := newPrimitive_grown hs.sound hmin hmax hret
    have hpath : s'.path b.var = .base b := by
      rw [path, Path.follow, hb]
    rw [← hvar]
    exact ⟨.newPrimitive hmin hmax hret hs, ⟨(Array.getElem?_eq_some_iff.1 hb).1,
      ⟨b, rfl, by rw [hpath]; rfl⟩, fun v => by rw [hpath]; rfl⟩, 1, 0, one_ne_zero,
      fun v => by simp⟩
  | @plus s s' x y f k _ hret ih =>
    obtain ⟨hs, heval, a, b, ha, haffine⟩ := ih
    exact ⟨.plus heval.lt hret hs, heval.plus hs.sound hret, a, b + k, ha, fun v => by
      simp only [haffine]
      ring⟩
  | @minus s s' x y f k _ hret ih =>
    obtain ⟨hs, heval, a, b, ha, haffine⟩ := ih
    obtain ⟨k', hk, hplus⟩ := bind_eq_ok_iff.1 hret
    obtain ⟨_, rfl⟩ := Word.check_eq_ok_iff.1 hk
    refine ⟨.minus heval.lt hret hs, ?_, a, b - k, ha, fun v => by
      simp only [haffine]
      ring⟩
    simpa only [← sub_eq_add_neg] using heval.plus hs.sound hplus
  | @negate s s' x y f _ hret ih =>
    obtain ⟨hs, heval, a, b, ha, haffine⟩ := ih
    exact ⟨.negate heval.lt hret hs, (heval.negate hs.sound hret).1, -a, -b, neg_ne_zero.2 ha,
      fun v => by
        simp only [haffine]
        ring⟩
  | @times s s' x y f c _ hret ih =>
    obtain ⟨hs, heval, a, b, ha, haffine⟩ := ih
    obtain ⟨hc, heval'⟩ := heval.times hs.sound hret
    exact ⟨.times heval.lt hret hs, heval', a * c, b * c, mul_ne_zero ha hc, fun v => by
      simp only [haffine]
      ring⟩
  | later _ _ hallowed hret hleft ih =>
    obtain ⟨hs, heval, haffine⟩ := ih
    exact ⟨hs.perform hallowed hret, heval.later hs.sound hallowed hret hleft, haffine⟩

/-! ## The image -/

/-- An operation on a view of `p` leaves the values `D` of the view, and the domains of all other
primitive variables. -/
structure Cuts (s s' : Store) (p : Var) (f : Int → Int) (D : Finset Int) : Prop where
  self : (s'.domain p).image f = D
  other : ∀ q, q ≠ p → s'.domain q = s.domain q
  definitions_eq : s'.definitions = s.definitions

/-- The calls about the variable `x` are those about the values `f v`, for `v` in the domain of the
primitive variable `p`. -/
structure AffineImage (s : Store) (x p : Var) (f : Int → Int) : Prop where
  affine : ∃ a b : Int, a ≠ 0 ∧ ∀ v, f v = a * v + b
  source : s.source x = .ok p
  values : UnlessOverflow (s.values x) fun vs =>
    vs.Nodup ∧ vs.Perm ((s.domain p).toList.map f)
  contains : ∀ w, UnlessOverflow (s.contains x w) fun found =>
    found = true ↔ w ∈ (s.domain p).image f
  size : s.size x = .ok ((s.domain p).image f).card
  min : UnlessOverflow (s.min? x) fun least =>
    (least = none ↔ (s.domain p).image f = ∅) ∧
      ∀ w, least = some w ↔ IsLeast ((s.domain p).image f : Set Int) w
  max : UnlessOverflow (s.max? x) fun greatest =>
    (greatest = none ↔ (s.domain p).image f = ∅) ∧
      ∀ w, greatest = some w ↔ IsGreatest ((s.domain p).image f : Set Int) w
  fix : ∀ w, UnlessOverflow (s.fix x w) fun (verdict, s') =>
    w ∈ (s.domain p).image f ∧ verdict = .consistent ∧ Cuts s s' p f {w} ∨
      w ∉ (s.domain p).image f ∧ verdict = .failed .domainWipeout ∧ s' = s
  remove : ∀ w, UnlessOverflow (s.remove x w) fun (verdict, s') =>
    Cuts s s' p f (((s.domain p).image f).erase w) ∧
      Judges verdict ((s.domain p).image f) (((s.domain p).image f).erase w)
  removeBelow : ∀ w, UnlessOverflow (s.removeBelow x w) fun (verdict, s') =>
    Cuts s s' p f (((s.domain p).image f).filter (w ≤ ·)) ∧
      Judges verdict ((s.domain p).image f) (((s.domain p).image f).filter (w ≤ ·))
  removeAbove : ∀ w, UnlessOverflow (s.removeAbove x w) fun (verdict, s') =>
    Cuts s s' p f (((s.domain p).image f).filter (· ≤ w)) ∧
      Judges verdict ((s.domain p).image f) (((s.domain p).image f).filter (· ≤ w))

/-- What is judged of the domain below is judged of the image. -/
theorem Judges.image {verdict : Verdict} {D D' : Finset Int} (h : Judges verdict D D')
    (f : Int → Int) : Judges verdict (D.image f) (D'.image f) := by
  simpa only [Judges, ne_eq, Finset.image_eq_empty] using h

/-- The values that are kept below are those that are kept in the image. -/
theorem Shrinks.cuts {P : Int → Prop} [DecidablePred P] (heval : ∀ v, (s.path x).eval v = f v)
    (h : Shrinks s s' b ((s.domain b.var).filter fun r => P ((s.path x).eval r))) :
    Cuts s s' b.var f (((s.domain b.var).image f).filter P) where
  self := by
    rw [h.self, Finset.filter_image]
    simp only [heval]
  other := h.other
  definitions_eq := h.definitions_eq

namespace Evaluates

theorem view_eq (h : Evaluates s p x f) : s.view x = (s.domain p).image f := by
  obtain ⟨b, rfl, hsource⟩ := h.source
  rw [view, viewIn_eq hsource, funext h.eval]
  rfl

theorem injective (h : Evaluates s p x f) (hs : s.Sound) : Function.Injective f := by
  obtain ⟨b, hproper, _, _⟩ := hs.exists_base h.lt
  rw [← funext h.eval]
  exact Path.eval_injective hproper

/-- The values are those of the image. -/
theorem values_image (h : Evaluates s p x f) (hs : s.Sound) {vs : List Int}
    (hret : s.values x = .ok vs) : vs.Nodup ∧ vs.Perm ((s.domain p).toList.map f) := by
  obtain ⟨vs', hret', hnodup, hmem⟩ := values_eq hs h.lt (readable_of_values hs h.lt hret)
  cases hret.symm.trans hret'
  have hnodup' := (Finset.nodup_toList (s.domain p)).map (h.injective hs)
  refine ⟨hnodup, (List.perm_ext_iff_of_nodup hnodup hnodup').2 fun v => ?_⟩
  rw [hmem, h.view_eq]
  simp

/-- The extreme value on one side is that of the image. -/
theorem bound?_image (h : Evaluates s p x f) (hs : s.Sound) {side : Side} {E : Int → Prop}
    (hE : ∀ v, E v ↔ v ∈ (s.domain p).image f ∧
      ∀ w ∈ (s.domain p).image f, liesBeyond side w v = false)
    {answer : Option Int} (hret : s.bound? side x = .ok answer) :
    (answer = none ↔ (s.domain p).image f = ∅) ∧ ∀ w, answer = some w ↔ E w := by
  have hspec := bound?_spec hs h.lt hret
  rw [h.view_eq] at hspec
  refine bound?_answer (fun v hv hv' w hw => ?_) (fun w hw => ((hE w).1 hw).1)
    (hspec.imp_right ?_)
  · have hvw := ((hE v).1 hv').2 w ((hE w).1 hw).1
    have hwv := ((hE w).1 hw).2 v hv
    cases side <;> simp only [liesBeyond, decide_eq_false_iff_not] at hvw hwv <;> omega
  · rintro ⟨v, hv, rfl, hextreme⟩
    exact ⟨v, hv, rfl, (hE v).2 ⟨hv, hextreme⟩⟩

/-- What fixing a variable does to the image. -/
theorem fix_image (h : Evaluates s p x f) (hs : s.Sound) {w : Int} {verdict : Verdict}
    (hret : s.fix x w = .ok (verdict, s')) :
    w ∈ (s.domain p).image f ∧ verdict = .consistent ∧ Cuts s s' p f {w} ∨
      w ∉ (s.domain p).image f ∧ verdict = .failed .domainWipeout ∧ s' = s := by
  obtain ⟨b', hsource', _, hcases⟩ := fix_spec hs h.lt hret
  rw [h.view_eq] at hcases
  obtain ⟨b, rfl, hsource⟩ := h.source
  cases hsource.symm.trans hsource'
  refine hcases.imp_left ?_
  rintro ⟨hw, hverdict, hshrinks⟩
  have hcuts := hshrinks.cuts (P := (· = w)) h.eval
  rw [Finset.filter_eq', if_pos hw] at hcuts
  exact ⟨hw, hverdict, hcuts⟩

/-- What removing a value does to the image. -/
theorem remove_image (h : Evaluates s p x f) (hs : s.Sound) {w : Int} {verdict : Verdict}
    (hret : s.remove x w = .ok (verdict, s')) :
    Cuts s s' p f (((s.domain p).image f).erase w) ∧
      Judges verdict ((s.domain p).image f) (((s.domain p).image f).erase w) := by
  obtain ⟨b, rfl, hsource⟩ := h.source
  obtain ⟨b', hsource', _, hshrinks, hjudges⟩ := remove_spec hs h.lt hret
  cases hsource.symm.trans hsource'
  have hcuts := hshrinks.cuts (P := (· ≠ w)) h.eval
  have hjudged := hjudges.image f
  simp only [h.eval] at hjudged
  rw [← Finset.filter_image (p := (· ≠ w))] at hjudged
  rw [Finset.filter_ne'] at hcuts hjudged
  exact ⟨hcuts, hjudged⟩

/-- What removing the values beyond a bound does to the image. -/
theorem removeBeyond_image (h : Evaluates s p x f) (hs : s.Sound) {side : Side} {w : Int}
    {P : Int → Prop} [DecidablePred P] (hP : ∀ v, liesBeyond side v w = false ↔ P v)
    {verdict : Verdict} (hret : s.removeBeyond side x w = .ok (verdict, s')) :
    Cuts s s' p f (((s.domain p).image f).filter P) ∧
      Judges verdict ((s.domain p).image f) (((s.domain p).image f).filter P) := by
  obtain ⟨b, rfl, hsource⟩ := h.source
  obtain ⟨b', hsource', _, hshrinks, hjudges⟩ := removeBeyond_spec hs h.lt hret
  cases hsource.symm.trans hsource'
  simp only [hP] at hshrinks hjudges
  have hjudged := hjudges.image f
  simp only [h.eval, ← Finset.filter_image] at hjudged
  exact ⟨hshrinks.cuts h.eval, hjudged⟩

end Evaluates

/-- A variable that was made from a primitive variable by views is its image under the composed
function, which is affine: all questions about it and all narrowings of it are those of the image,
and a call that does not overflow returns. -/
theorem ViewOf.affineImage (h : ViewOf p s x f) : AffineImage s x p f := by
  obtain ⟨hreached, heval, haffine⟩ := h.evaluates
  have hs := hreached.sound
  have hx := heval.lt
  have hview := heval.view_eq
  refine ⟨haffine, ?_, ?_, fun w => ?_, ?_, ?_, ?_, fun w => ?_, fun w => ?_, fun w => ?_,
    fun w => ?_⟩
  · obtain ⟨b, rfl, hsource⟩ := heval.source
    rw [source, hsource]
    rfl
  · exact (overflowOnly_values hs hx).returns fun _ hret => heval.values_image hs hret
  · refine (overflowOnly_contains hs hx w).returns fun found hret => ?_
    rw [contains_spec hs hx hret, decide_eq_true_iff, hview]
  · rw [size_eq hs hx, hview]
  · refine (overflowOnly_bound? hs hx .lower).returns fun _ hret =>
      heval.bound?_image hs (fun v => ?_) hret
    simp [IsLeast, mem_lowerBounds, liesBeyond]
  · refine (overflowOnly_bound? hs hx .upper).returns fun _ hret =>
      heval.bound?_image hs (fun v => ?_) hret
    simp [IsGreatest, mem_upperBounds, liesBeyond]
  · exact (overflowOnly_fix hs hx w).returns fun _ hret => heval.fix_image hs hret
  · exact (overflowOnly_remove hs hx w).returns fun _ hret => heval.remove_image hs hret
  · exact (overflowOnly_removeBeyond hs hx .lower w).returns fun _ hret =>
      heval.removeBeyond_image hs (fun v => by simp [liesBeyond]) hret
  · exact (overflowOnly_removeBeyond hs hx .upper w).returns fun _ hret =>
      heval.removeBeyond_image hs (fun v => by simp [liesBeyond]) hret

/-- The view `3 - 2 * p` of a variable with the values from `0` to `4`, from which the value `1` of
the view was removed. -/
theorem affineImage_nested :
    ∃ (s : Store) (p x : Var), ViewOf p s x (fun v => v * (-2) + 3) ∧
      s.values x = .ok [3, -5, -1, -3] ∧ s.min? x = .ok (some (-5)) ∧
      s.contains x 2 = .ok false ∧ AffineImage s x p fun v => v * (-2) + 3 := by
  have hrun : (empty.newPrimitive 0 4 >>= fun p => p.2.times p.1 (-2) >>= fun y =>
      y.2.plus y.1 3 >>= fun x => (Call.attempt (.remove x.1 1)).perform x.2 >>= fun s =>
        s.values x.1 >>= fun vs => s.min? x.1 >>= fun least => s.contains x.1 2 >>= fun found =>
          .ok (vs, least, found, decide (x.1.index < s.definitions.size))) =
        .ok ([3, -5, -1, -3], some (-5), false, true) := by
    decide +kernel
  obtain ⟨⟨p, s₁⟩, hprimitive, hrun⟩ := bind_eq_ok_iff.1 hrun
  obtain ⟨⟨y, s₂⟩, htimes, hrun⟩ := bind_eq_ok_iff.1 hrun
  obtain ⟨⟨x, s₃⟩, hplus, hrun⟩ := bind_eq_ok_iff.1 hrun
  obtain ⟨s, hremove, hrun⟩ := bind_eq_ok_iff.1 hrun
  obtain ⟨vs, hvalues, hrun⟩ := bind_eq_ok_iff.1 hrun
  obtain ⟨least, hmin, hrun⟩ := bind_eq_ok_iff.1 hrun
  obtain ⟨found, hcontains, hrun⟩ := bind_eq_ok_iff.1 hrun
  simp only [Except.ok.injEq, Prod.mk.injEq, decide_eq_true_eq] at hrun
  obtain ⟨rfl, rfl, rfl, hleft⟩ := hrun
  have hview : ViewOf p s x fun v => v * (-2) + 3 :=
    .later (.attempt (.remove x 1)) (.plus (.times (.primitive (.start []) (by decide)
      (by decide) hprimitive) htimes) hplus) trivial hremove hleft
  exact ⟨s, p, x, hview, hvalues, hmin, hcontains, hview.affineImage⟩

end Store

end FiniteDomain
