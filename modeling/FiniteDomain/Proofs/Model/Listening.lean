import FiniteDomain.Proofs.Store.Reached
import FiniteDomain.Proofs.Model.Wakeups

/-!
# Listening through a view

A constraint listens to the primitive variable below the variable that it names.  A view with an odd
number of flips exchanges the bounds, and the condition is not exchanged with them: a constraint that
asks for the least value of such a view hears of the greatest one.

* `Condition.Kind.Happened` says that what a condition names happened between two domains, and
  `Path.heardAs` what a condition on a view amounts to on the values of the view.
* `listen_eq` says whom a registration lets listen to what.
* `listener_hears` is what a registered constraint hears after a sequence of successful attempts.
* `flipped_bound_unheard` is the run that shows that the conditions on bounds are not exchanged.
-/

namespace FiniteDomain

/-! ## What a condition on a view amounts to -/

/-- The function keeps the order of the integers. -/
def Rising (f : Int → Int) : Prop := ∀ a b, a < b → f a < f b

/-- The function turns the order of the integers round. -/
def Falling (f : Int → Int) : Prop := ∀ a b, a < b → f b < f a

namespace Path

/-- The order of the values of a view is that of the primitive variable, or the opposite one. -/
theorem eval_monotone {p : Path} (hp : p.Proper) :
    p.turn .lower = .lower ∧ p.turn .upper = .upper ∧ Rising p.eval ∨
      p.turn .lower = .upper ∧ p.turn .upper = .lower ∧ Falling p.eval := by
  induction p with
  | base b => exact Or.inl ⟨rfl, rfl, fun _ _ h => h⟩
  | shift k rest ih =>
    obtain ⟨h1, h2, h3⟩ | ⟨h1, h2, h3⟩ := ih hp
    · exact Or.inl ⟨h1, h2, fun a b h => Int.add_lt_add_right (h3 a b h) k⟩
    · exact Or.inr ⟨h1, h2, fun a b h => Int.add_lt_add_right (h3 a b h) k⟩
  | scale c rest ih =>
    have hc : 0 < c := lt_trans (by decide) hp.1
    obtain ⟨h1, h2, h3⟩ | ⟨h1, h2, h3⟩ := ih hp.2
    · exact Or.inl ⟨h1, h2, fun a b h => Int.mul_lt_mul_of_pos_right (h3 a b h) hc⟩
    · exact Or.inr ⟨h1, h2, fun a b h => Int.mul_lt_mul_of_pos_right (h3 a b h) hc⟩
  | flip rest ih =>
    obtain ⟨h1, h2, h3⟩ | ⟨h1, h2, h3⟩ := ih hp
    · exact Or.inr ⟨h2, h1, fun a b h => Int.neg_lt_neg (h3 a b h)⟩
    · exact Or.inl ⟨h2, h1, fun a b h => Int.neg_lt_neg (h3 a b h)⟩
  | missing => cases hp
  | onwards x => cases hp

/-- What a condition on a view amounts to on the values of the view: behind an odd number of flips
the bounds are exchanged. -/
def heardAs (p : Path) : Condition.Kind → Condition.Kind
  | .minChanged => match p.turn .lower with
    | .lower => .minChanged
    | .upper => .maxChanged
  | .maxChanged => match p.turn .upper with
    | .lower => .minChanged
    | .upper => .maxChanged
  | kind => kind

end Path

/-- What a condition names happened to a domain that was `F` and is `D`. -/
def Condition.Kind.Happened (F D : Finset Int) : Condition.Kind → Prop
  | .fixed => D.card = 1 ∧ F.card ≠ 1
  | .minChanged => D.min ≠ F.min
  | .maxChanged => D.max ≠ F.max
  | .domainChanged => D ≠ F

theorem Event.Describes.tells_iff {F D : Finset Int} {e : Event} (h : e.Describes F D)
    (hkeep : F ≠ ∅ → D ≠ ∅) (kind : Condition.Kind) :
    e.tells kind = true ↔ kind.Happened F D := by
  cases kind with
  | fixed => exact h.fixed hkeep
  | minChanged => exact h.minChanged hkeep
  | maxChanged => exact h.maxChanged hkeep
  | domainChanged => exact h.domainChanged

/-! ### Images -/

theorem isLeast_coe_iff {D : Finset Int} {u : Int} :
    IsLeast (D : Set Int) u ↔ D.min = (u : WithTop Int) :=
  ⟨Store.min_eq_of_isLeast, fun h => ⟨Finset.mem_coe.2 (Finset.mem_of_min h), fun _ ha =>
    Finset.min_le_of_eq (Finset.mem_coe.1 ha) h⟩⟩

theorem isGreatest_coe_iff {D : Finset Int} {u : Int} :
    IsGreatest (D : Set Int) u ↔ D.max = (u : WithBot Int) :=
  ⟨Store.max_eq_of_isGreatest, fun h => ⟨Finset.mem_coe.2 (Finset.mem_of_max h), fun _ ha =>
    Finset.le_max_of_eq (Finset.mem_coe.1 ha) h⟩⟩

theorem min_eq_min_iff {D F : Finset Int} :
    D.min = F.min ↔ ∀ u, IsLeast (D : Set Int) u ↔ IsLeast (F : Set Int) u := by
  simp only [isLeast_coe_iff]
  exact ⟨fun h u => by rw [h], fun h => Option.ext h⟩

theorem max_eq_max_iff {D F : Finset Int} :
    D.max = F.max ↔ ∀ u, IsGreatest (D : Set Int) u ↔ IsGreatest (F : Set Int) u := by
  simp only [isGreatest_coe_iff]
  exact ⟨fun h u => by rw [h], fun h => Option.ext h⟩

section

variable {f : Int → Int}

/-- Two properties of values are the same when they are the same for the images. -/
theorem forall_image_iff (hf : Function.Injective f) {P Q : Int → Prop} :
    (∀ w, (∃ u, P u ∧ f u = w) ↔ ∃ u, Q u ∧ f u = w) ↔ ∀ u, P u ↔ Q u := by
  constructor
  · intro h u
    constructor
    · intro hu
      obtain ⟨u', hu', heq⟩ := (h (f u)).1 ⟨u, hu, rfl⟩
      exact hf heq ▸ hu'
    · intro hu
      obtain ⟨u', hu', heq⟩ := (h (f u)).2 ⟨u, hu, rfl⟩
      exact hf heq ▸ hu'
  · intro h w
    simp only [h]

theorem isLeast_image_mono (hf : Rising f) {S : Set Int} {w : Int} :
    IsLeast (f '' S) w ↔ ∃ u, IsLeast S u ∧ f u = w := by
  have hf : StrictMono f := fun a b => hf a b
  constructor
  · rintro ⟨⟨u, hu, rfl⟩, hle⟩
    exact ⟨u, ⟨hu, fun a ha => hf.le_iff_le.1 (hle ⟨a, ha, rfl⟩)⟩, rfl⟩
  · rintro ⟨u, hu, rfl⟩
    exact hf.monotone.map_isLeast hu

theorem isGreatest_image_mono (hf : Rising f) {S : Set Int} {w : Int} :
    IsGreatest (f '' S) w ↔ ∃ u, IsGreatest S u ∧ f u = w := by
  have hf : StrictMono f := fun a b => hf a b
  constructor
  · rintro ⟨⟨u, hu, rfl⟩, hle⟩
    exact ⟨u, ⟨hu, fun a ha => hf.le_iff_le.1 (hle ⟨a, ha, rfl⟩)⟩, rfl⟩
  · rintro ⟨u, hu, rfl⟩
    exact hf.monotone.map_isGreatest hu

theorem isLeast_image_anti (hf : Falling f) {S : Set Int} {w : Int} :
    IsLeast (f '' S) w ↔ ∃ u, IsGreatest S u ∧ f u = w := by
  have hf : StrictAnti f := fun a b => hf a b
  constructor
  · rintro ⟨⟨u, hu, rfl⟩, hle⟩
    exact ⟨u, ⟨hu, fun a ha => hf.le_iff_ge.1 (hle ⟨a, ha, rfl⟩)⟩, rfl⟩
  · rintro ⟨u, hu, rfl⟩
    exact hf.antitone.map_isGreatest hu

theorem isGreatest_image_anti (hf : Falling f) {S : Set Int} {w : Int} :
    IsGreatest (f '' S) w ↔ ∃ u, IsLeast S u ∧ f u = w := by
  have hf : StrictAnti f := fun a b => hf a b
  constructor
  · rintro ⟨⟨u, hu, rfl⟩, hle⟩
    exact ⟨u, ⟨hu, fun a ha => hf.le_iff_ge.1 (hle ⟨a, ha, rfl⟩)⟩, rfl⟩
  · rintro ⟨u, hu, rfl⟩
    exact hf.antitone.map_isLeast hu

end

/-- A condition on the primitive variable is met when the condition that it amounts to is met for the
values of the view. -/
theorem Path.happened_image {p : Path} (hp : p.Proper) (F D : Finset Int) (kind : Condition.Kind) :
    (p.heardAs kind).Happened (F.image p.eval) (D.image p.eval) ↔ kind.Happened F D := by
  have hinj := Path.eval_injective hp
  cases kind with
  | fixed =>
    simp only [heardAs, Condition.Kind.Happened, Finset.card_image_of_injective _ hinj]
  | domainChanged =>
    simp only [heardAs, Condition.Kind.Happened, ne_eq, (Finset.image_injective hinj).eq_iff]
  | minChanged =>
    obtain ⟨hlower, _, hf⟩ | ⟨hlower, _, hf⟩ := Path.eval_monotone hp <;>
      simp only [heardAs, hlower, Condition.Kind.Happened, ne_eq, min_eq_min_iff, max_eq_max_iff,
        Finset.coe_image]
    · simp only [isLeast_image_mono hf, forall_image_iff hinj]
    · simp only [isGreatest_image_anti hf, forall_image_iff hinj]
  | maxChanged =>
    obtain ⟨_, hupper, hf⟩ | ⟨_, hupper, hf⟩ := Path.eval_monotone hp <;>
      simp only [heardAs, hupper, Condition.Kind.Happened, ne_eq, min_eq_min_iff, max_eq_max_iff,
        Finset.coe_image]
    · simp only [isGreatest_image_mono hf, forall_image_iff hinj]
    · simp only [isLeast_image_anti hf, forall_image_iff hinj]

/-- What a variable that has a source depends on. -/
theorem Store.Sound.base_of_source {s : Store} (h : s.Sound) {x y : Var}
    (hsource : s.source x = .ok y) :
    ∃ b, b.var = y ∧ (s.path x).Proper ∧ (s.path x).source = .ok b ∧ s.IsBase b := by
  have hx : x.index < s.definitions.size := by
    by_contra hlt
    rw [source, path_eq_missing hlt] at hsource
    cases hsource
  obtain ⟨b, hproper, hb, hbase⟩ := h.exists_base hx
  rw [source, hb] at hsource
  cases hsource
  exact ⟨b, rfl, hproper, hb, hbase⟩

/-- Between two stores that differ by narrowed domains, a condition on the primitive variable below a
view is met when the condition that it amounts to is met for the view. -/
theorem Store.Evolves.happened_iff {C : Cell → Prop} {s s' : Store} (h : s.Evolves C s')
    (hs : s.Sound) {x y : Var} (hsource : s.source x = .ok y) (kind : Condition.Kind) :
    ((s.path x).heardAs kind).Happened (s.view x) (s'.view x) ↔
      kind.Happened (s.domain y) (s'.domain y) := by
  obtain ⟨b, rfl, hproper, hb, _⟩ := hs.base_of_source hsource
  have hb' : (s'.path x).source = .ok b := by rw [h.path_eq, hb]
  rw [view, view, viewIn_eq hb, viewIn_eq hb', h.path_eq]
  exact Path.happened_image hproper _ _ kind

/-- Some event of a primitive variable has the flag of a condition when the condition is met. -/
theorem Store.Told.tells_iff {F : Var → Finset Int} {s : Store} (h : s.Told F) {y : Var}
    (hkeep : F y ≠ ∅ → s.domain y ≠ ∅) (hevent : ∃ e ∈ s.events, e.var = y)
    (kind : Condition.Kind) :
    (∃ e ∈ s.events, e.var = y ∧ e.tells kind = true) ↔ kind.Happened (F y) (s.domain y) := by
  constructor
  · rintro ⟨e, he, rfl, htells⟩
    exact ((h.describes e he).tells_iff hkeep kind).1 htells
  · intro hhappened
    obtain ⟨e, he, rfl⟩ := hevent
    exact ⟨e, he, rfl, ((h.describes e he).tells_iff hkeep kind).2 hhappened⟩

namespace Model

variable {π : Type}

/-! ## Registrations -/

theorem onStore_eq_ok_iff {α : Type} {m m' : Model π} {f : Store → Except Fault (α × Store)}
    {a : α} : m.onStore f = .ok (a, m') ↔ ∃ s, f m.store = .ok (a, s) ∧ m' = { m with store := s } := by
  constructor
  · intro h
    obtain ⟨⟨a', s⟩, hs, heq⟩ := bind_eq_ok_iff.1 h
    cases heq
    exact ⟨s, hs, rfl⟩
  · rintro ⟨s, hs, rfl⟩
    exact bind_eq_ok_iff.2 ⟨_, hs, rfl⟩

/-- The interface reaches the store, and the model has cells of its own on it. -/
structure Counted (m : Model π) : Prop where
  reached : m.store.Reached
  conditionCount : m.store.trail.now.Has m.conditionCount ∧ m.store.Free m.conditionCount
  propagatorCount : m.store.trail.now.Has m.propagatorCount ∧ m.store.Free m.propagatorCount

theorem Counted.empty (order : DrainOrder) : (empty order : Model π).Counted := by
  have hcells := Store.sound_cells [0, 0] _ Trail.sound_empty rfl rfl
  obtain ⟨_, _, hfree, _⟩ := Store.sound_ofTrail hcells.1 hcells.2.1 hcells.2.2
  obtain ⟨hhas₀, hfree₀, _⟩ := hfree ⟨0⟩ (by unfold Frame.Has; decide +kernel)
  obtain ⟨hhas₁, hfree₁, _⟩ := hfree ⟨1⟩ (by unfold Frame.Has; decide +kernel)
  exact ⟨.start [0, 0], ⟨hhas₀, hfree₀⟩, ⟨hhas₁, hfree₁⟩⟩

/-- Variables and cells may be added. -/
theorem Counted.grow {m : Model π} (h : m.Counted) {s : Store} (hgrown : m.store.Grown s)
    (hreached : s.Reached) : ({ m with store := s } : Model π).Counted :=
  ⟨hreached,
    ⟨hgrown.has _ h.conditionCount.1, hgrown.free _ h.conditionCount.1 h.conditionCount.2⟩,
    ⟨hgrown.has _ h.propagatorCount.1, hgrown.free _ h.propagatorCount.1 h.propagatorCount.2⟩⟩

/-- A cell of the model may count. -/
theorem Counted.count {m : Model π} (h : m.Counted) {c : Cell}
    (hc : m.store.trail.now.Has c ∧ m.store.Free c) {v : Int} {s : Store}
    (hret : m.store.increment c = .ok (v, s)) : ({ m with store := s } : Model π).Counted := by
  obtain ⟨w, hw⟩ := Store.exists_write_of_count (.inl hret)
  obtain ⟨s', hs', hwrote⟩ := Store.write_eq h.reached.sound hc.1 hc.2 w
  rw [hw] at hs'
  cases hs'
  exact ⟨.increment hc.1 hc.2 hret h.reached,
    ⟨hwrote.has h.conditionCount.1, hwrote.free h.conditionCount.2⟩,
    ⟨hwrote.has h.propagatorCount.1, hwrote.free h.propagatorCount.2⟩⟩

theorem Counted.post {m m' : Model π} (h : m.Counted) {p : π} {c : Constraint}
    (hret : m.post p = .ok (c, m')) : m'.Counted := by
  obtain ⟨⟨n, m₁⟩, hcount, hret⟩ := bind_eq_ok_iff.1 hret
  obtain ⟨s, hs, rfl⟩ := onStore_eq_ok_iff.1 hcount
  obtain ⟨_, _, hret⟩ := bind_eq_ok_iff.1 hret
  cases hret
  obtain ⟨h1, h2, h3⟩ := h.count h.propagatorCount hs
  exact ⟨h1, h2, h3⟩

theorem Counted.listen {m m' : Model π} (h : m.Counted) {c : Constraint} {kind : Condition.Kind}
    {x : Var} (hret : m.listen c kind x = .ok m') : m'.Counted := by
  obtain ⟨y, _, hret⟩ := bind_eq_ok_iff.1 hret
  dsimp only at hret
  split at hret
  · cases hret
    exact h
  · obtain ⟨⟨n, m₁⟩, hcount, hret⟩ := bind_eq_ok_iff.1 hret
    obtain ⟨s, hs, rfl⟩ := onStore_eq_ok_iff.1 hcount
    cases hret
    obtain ⟨h1, h2, h3⟩ := h.count h.conditionCount hs
    exact ⟨h1, h2, h3⟩

/-! ## What a constraint hears -/

variable [Propagator π]

/-- A constraint listens to a condition on a view, nothing is pending or scheduled, and domains are
narrowed successfully.  The constraint hears of it in the next round, and runs, when what its condition
amounts to happened to the view; behind an odd number of flips this is a change of the other bound.  If
nothing else makes the constraint run, it does not hear or run otherwise. -/
theorem listener_hears {m : Model π} {c : Constraint} {kind : Condition.Kind} {x y : Var}
    (hreached : m.store.Reached) (hquiet : m.store.news = []) (hidle : m.scheduled = [])
    (hsource : m.store.source x = .ok y) (hlistens : c ∈ m.listening ⟨kind, y⟩)
    {attempts : List Attempt} {s : Store}
    (hattempts : m.store.attemptAll attempts = .ok (.consistent, s)) {v : Verdict}
    {w : Model (Recorded π)} (hfix : ({ m with store := s } : Model π).record.fixpoint = .ok (v, w)) :
    (((m.store.path x).heardAs kind).Happened (m.store.view x) (s.view x) →
      ∃ told : List Var, told.Nodup ∧ y ∈ told ∧
        (told.map .told ++ [.ran] <+: w.notices c ∨
          (∃ why, v = .failed why) ∧ w.notices c = told.map .told)) ∧
    ((∀ condition, c ∈ m.listening condition → condition = ⟨kind, y⟩) →
      ¬ ((m.store.path x).heardAs kind).Happened (m.store.view x) (s.view x) →
      ∃ w₁, ({ m with store := s } : Model π).record.wake = .ok w₁ ∧ w₁.notices c = [] ∧
        c ∉ w₁.scheduled ∧ ∀ v₁ m₁, w₁.drain = .ok (v₁, m₁) → m₁.notices c = []) := by
  have hs := hreached.sound
  obtain ⟨hevolves, htold, hkeep⟩ := Store.attemptAll_told hs (Store.told_of_quiet hquiet) hattempts
  obtain ⟨b, hb, _, _, hbase⟩ := hs.base_of_source hsource
  have hevent : ∃ e ∈ s.events, e.var = y := by
    obtain ⟨e, he, hvar⟩ := hevolves.sound.event_of_base _ _ _ (hevolves.isBase_iff.2 hbase)
    exact ⟨e, Array.mem_of_getElem? he, hvar.trans hb⟩
  rw [hevolves.happened_iff hs hsource, ← htold.tells_iff (hkeep y) hevent]
  generalize hm' : ({ m with store := s } : Model π) = m' at hfix ⊢
  have hscheduled : m'.record.scheduled = [] := by rw [← hm']; exact hidle
  have hheard : ∀ z, z ∈ m'.record.heard c ↔ ∃ e ∈ s.events, e.var = z ∧
      ∃ kind, e.tells kind = true ∧ c ∈ m.listening ⟨kind, z⟩ := by
    intro z
    rw [mem_heard, mem_fired, ← hm']
    rfl
  obtain ⟨w₁, hwake, hfirst⟩ := runRounds_first (hscheduled ▸ List.nodup_nil) hfix
  obtain ⟨_, _, hwoken, hnodup⟩ := wake_eq hwake
  constructor
  · rintro ⟨e, he, hvar, htells⟩
    have hy : y ∈ m'.record.heard c := (hheard y).2 ⟨e, he, hvar, kind, htells, hvar ▸ hlistens⟩
    have hne : m'.record.heard c ≠ [] := List.ne_nil_of_mem hy
    refine ⟨m'.record.heard c, nodup_heard _ _, hy, ?_⟩
    obtain ⟨hnil, _⟩ | ⟨v₁, m₁, _, hstop, hround⟩ := hfirst
    · have hc := (hwoken c).2 (Or.inl hne)
      rw [hnil] at hc
      cases hc
    obtain ⟨hbegins, hran | ⟨⟨why, hv⟩, hleft⟩⟩ := hround c
    · rw [hran, notices_record, List.nil_append, block, if_pos (Or.inr hne)] at hbegins
      exact Or.inl hbegins
    · obtain ⟨rfl, rfl⟩ := hstop why hv
      rw [notices_record, List.nil_append] at hleft
      exact Or.inr ⟨⟨why, hv⟩, hleft⟩
  · intro honly hnot
    have hnone : m'.record.heard c = [] := by
      rw [List.eq_nil_iff_forall_not_mem]
      intro z hz
      obtain ⟨e, he, rfl, kind', htells, hmem⟩ := (hheard z).1 hz
      cases honly _ hmem
      exact hnot ⟨e, he, rfl, htells⟩
    have hquiet : w₁.notices c = [] := by
      rw [wake_notices hwake, notices_record, hnone, List.map_nil, List.append_nil]
    have hc : c ∉ w₁.scheduled := by
      rw [hwoken, hnone, hscheduled]
      simp
    refine ⟨w₁, hwake, hquiet, hc, fun v₁ m₁ hdrain => ?_⟩
    obtain h | ⟨_, h⟩ := drain_notices_cases (hnodup (hscheduled ▸ List.nodup_nil)) hdrain c
    · rw [h, hquiet, if_neg hc, List.append_nil]
    · rw [h, hquiet]

/-! ### Bounds of a view that is flipped -/

/-- A constraint that listens to the least value of a view `-x`, where `x` has the values from one to
five. -/
def flipped : Except Fault (Model Script) := do
  let (x, m) ← (empty .lastFirst : Model Script).onStore (·.newPrimitive 1 5)
  let (y, m) ← m.onStore (·.negate x)
  let (c, m) ← m.post (.new [] none)
  m.listen c .minChanged y

/-- The interface reaches the store of the model. -/
theorem flipped_reached {m : Model Script} (h : flipped = .ok m) : m.store.Reached := by
  obtain ⟨⟨x, m₁⟩, hx, hrest⟩ := bind_eq_ok_iff.1 h
  obtain ⟨⟨y, m₂⟩, hy, hrest'⟩ := bind_eq_ok_iff.1 hrest
  obtain ⟨⟨c, m₃⟩, hc, hlisten⟩ := bind_eq_ok_iff.1 hrest'
  obtain ⟨s₁, hs₁, rfl⟩ := onStore_eq_ok_iff.1 hx
  have hempty : (empty .lastFirst : Model Script).Counted := .empty _
  obtain ⟨rfl, hgrown₁, hsize, _⟩ :=
    Store.newPrimitive_grown hempty.reached.sound (by decide) (by decide) hs₁
  have hcounted₁ := hempty.grow hgrown₁ (.newPrimitive (by decide) (by decide) hs₁ hempty.reached)
  obtain ⟨s₂, hs₂, rfl⟩ := onStore_eq_ok_iff.1 hy
  have hlt : (empty .lastFirst : Model Script).store.definitions.size < s₁.definitions.size :=
    hsize ▸ Nat.lt_succ_self _
  obtain ⟨rfl, hgrown₂, _⟩ :=
    Store.newVar_grown hgrown₁.sound (d := .flip _) hlt (fun _ _ => nofun) hs₂
  have hcounted₂ := hcounted₁.grow hgrown₂ (.negate hlt hs₂ hcounted₁.reached)
  exact ((hcounted₂.post hc).listen hlisten).reached

/-- Nothing is pending or scheduled in the model, and the constraint has one registration. -/
theorem flipped_eq : ∃ m, flipped = .ok m ∧ m.store.Reached ∧ m.store.news = [] ∧
    m.scheduled = [] ∧ m.store.source ⟨1⟩ = .ok ⟨0⟩ ∧
    m.listeners = [(⟨.minChanged, ⟨0⟩⟩, [⟨0⟩])] := by
  have hstart : (flipped >>= fun m => m.store.source ⟨1⟩ >>= fun y =>
      .ok (m.store.news, m.scheduled, y)) = .ok ([], [], ⟨0⟩) := by
    decide +kernel
  have hlisteners : (flipped >>= fun m => .ok m.listeners) =
      .ok [(⟨.minChanged, ⟨0⟩⟩, [⟨0⟩])] := by
    decide +kernel
  obtain ⟨m, hm, hstart⟩ := bind_eq_ok_iff.1 hstart
  obtain ⟨y, hy, hstart⟩ := bind_eq_ok_iff.1 hstart
  obtain ⟨hnews, hstart⟩ := Prod.mk.inj (Except.ok.inj hstart)
  obtain ⟨hscheduled, rfl⟩ := Prod.mk.inj hstart
  rw [hm, ok_bind] at hlisteners
  exact ⟨m, hm, flipped_reached hm, hnews, hscheduled, hy, Except.ok.inj hlisteners⟩

/-- The greatest value of the view changes.  The constraint, which asked for the least one, is told and
runs. -/
theorem listener_hears_flipped : ∃ m s w, flipped = .ok m ∧
    m.store.attemptAll [.removeBelow ⟨0⟩ 2] = .ok (.consistent, s) ∧
    ({ m with store := s } : Model Script).record.fixpoint = .ok (.consistent, w) ∧
    ((m.store.path ⟨1⟩).heardAs .minChanged).Happened (m.store.view ⟨1⟩) (s.view ⟨1⟩) ∧
    .told ⟨0⟩ ∈ w.notices ⟨0⟩ ∧ .ran ∈ w.notices ⟨0⟩ := by
  obtain ⟨m, hm, hreached, hnews, hscheduled, hsource, hlisteners⟩ := flipped_eq
  have hrun : (flipped >>= fun m => m.store.attemptAll [.removeBelow ⟨0⟩ 2] >>= fun p =>
      ({ m with store := p.2 } : Model Script).record.fixpoint >>= fun q => .ok (p.1, q.1,
        (m.store.path ⟨1⟩).heardAs .minChanged, m.store.view ⟨1⟩, p.2.view ⟨1⟩)) =
      .ok (.consistent, .consistent, .maxChanged, {-1, -2, -3, -4, -5}, {-2, -3, -4, -5}) := by
    decide +kernel
  rw [hm, ok_bind] at hrun
  obtain ⟨⟨v, s⟩, hs, hrun⟩ := bind_eq_ok_iff.1 hrun
  obtain ⟨⟨v', w⟩, hw, hrun⟩ := bind_eq_ok_iff.1 hrun
  simp only [Except.ok.injEq, Prod.mk.injEq] at hrun
  obtain ⟨rfl, rfl, hkind, hview, hview'⟩ := hrun
  have hhappened : ((m.store.path ⟨1⟩).heardAs .minChanged).Happened (m.store.view ⟨1⟩)
      (s.view ⟨1⟩) := by
    rw [hkind, hview, hview', Condition.Kind.Happened]
    decide
  have hlistens : ⟨0⟩ ∈ m.listening ⟨.minChanged, ⟨0⟩⟩ := by
    rw [listening, hlisteners]
    decide
  obtain ⟨told, _, hmem, hbegins | ⟨⟨why, hv⟩, _⟩⟩ :=
    (listener_hears hreached hnews hscheduled hsource hlistens hs hw).1 hhappened
  · exact ⟨m, s, w, hm, hs, hw, hhappened,
      hbegins.subset (List.mem_append_left _ (List.mem_map_of_mem hmem)),
      hbegins.subset (List.mem_append_right _ (List.mem_singleton_self _))⟩
  · cases hv

/-- The least value of the view changes, and the constraint is not told and does not run. -/
theorem flipped_bound_unheard : ∃ m s w, flipped = .ok m ∧ m.store.news = [] ∧ m.scheduled = [] ∧
    m.store.source ⟨1⟩ = .ok ⟨0⟩ ∧ ⟨0⟩ ∈ m.listening ⟨.minChanged, ⟨0⟩⟩ ∧
    m.store.attemptAll [.removeAbove ⟨0⟩ 4] = .ok (.consistent, s) ∧
    m.store.min? ⟨1⟩ = .ok (some (-5)) ∧ s.min? ⟨1⟩ = .ok (some (-4)) ∧
    ({ m with store := s } : Model Script).record.fixpoint = .ok (.consistent, w) ∧
    w.notices ⟨0⟩ = [] := by
  obtain ⟨m, hm, _, hnews, hscheduled, hsource, hlisteners⟩ := flipped_eq
  have hrun : (flipped >>= fun m => m.store.attemptAll [.removeAbove ⟨0⟩ 4] >>= fun p =>
      m.store.min? ⟨1⟩ >>= fun u => p.2.min? ⟨1⟩ >>= fun u' =>
      ({ m with store := p.2 } : Model Script).record.fixpoint >>= fun q => .ok (p.1, u, u', q.1,
        q.2.notices ⟨0⟩)) = .ok (.consistent, some (-5), some (-4), .consistent, []) := by
    decide +kernel
  rw [hm, ok_bind] at hrun
  obtain ⟨⟨v, s⟩, hs, hrun⟩ := bind_eq_ok_iff.1 hrun
  obtain ⟨u, hu, hrun⟩ := bind_eq_ok_iff.1 hrun
  obtain ⟨u', hu', hrun⟩ := bind_eq_ok_iff.1 hrun
  obtain ⟨⟨v', w⟩, hw, hrun⟩ := bind_eq_ok_iff.1 hrun
  simp only [Except.ok.injEq, Prod.mk.injEq] at hrun
  obtain ⟨rfl, rfl, rfl, rfl, hnotices⟩ := hrun
  refine ⟨m, s, w, hm, hnews, hscheduled, hsource, ?_, hs, hu, hu', hw, hnotices⟩
  rw [listening, hlisteners]
  decide

end Model

end FiniteDomain
