import FiniteDomain.Proofs.AllDifferent.Attachment
import FiniteDomain.Proofs.Store.Reached

/-!
# Solutions of a model

A solution gives each primitive variable a value of its domain, such that the variables of every
constraint, which may be views, take pairwise distinct values.

* `Model.Call` is a call of the interface of a model of all different constraints, and
  `Model.Reached` holds of every model that such calls come to.  There is no discipline: levels are
  saved and restored at any moment, also while events are pending, and before and after failures.
* No run of the propagators loses a solution, and a run that fails tells that there is none:
  `Reached.runs_spare_solutions`.
-/

namespace FiniteDomain

/-! ## Assignments -/

/-- The variable has a domain of its own. -/
def Store.IsPrimitive (s : Store) (q : Var) : Prop :=
  ∃ slot d, s.definitions[q.index]? = some (.primitive slot d)

/-- The value of a variable when the primitive variables have the values `α`. -/
def Store.valueAt (s : Store) (α : Var → Int) (x : Var) : Int :=
  match (s.path x).source with
  | .ok b => (s.path x).eval (α b.var)
  | .error _ => 0

theorem Store.valueAt_eq {s : Store} {α : Var → Int} {x : Var} {b : Base}
    (h : (s.path x).source = .ok b) : s.valueAt α x = (s.path x).eval (α b.var) := by
  rw [valueAt, h]

namespace Model

open AllDifferent ValueGraph

variable {m m' : Model AllDifferent} {s : Store} {verdict : Verdict} {α : Var → Int}

/-- Each primitive variable has a value of its domain, and the variables of every constraint have
pairwise distinct values. -/
structure Solves (m : Model AllDifferent) (α : Var → Int) : Prop where
  mem : ∀ q, m.store.IsPrimitive q → α q ∈ m.store.domain q
  distinct : ∀ p ∈ m.propagators, (p.graph.vars.toList.map (m.store.valueAt α)).Nodup

/-! ## Calls -/

/-- A call of the interface. -/
inductive Call where
  | declare (d : Declaration)
  /-- Adds a constraint that listens to nothing and is not scheduled. -/
  | add (vars : List Var) (options : Options)
  | listen (c : Constraint) (kind : Condition.Kind) (x : Var)
  /-- Adds a constraint that listens to all changes of its variables. -/
  | attach (vars : List Var) (options : Options)
  | schedule (c : Constraint)
  /-- Attaches a constraint, and runs the propagators. -/
  | install (vars : List Var) (options : Options)
  | attempt (a : Attempt)
  | save
  | restore
  | fixpoint

/-- Performs a call. -/
def perform (m : Model AllDifferent) : Call → Except Fault (Verdict × Model AllDifferent)
  | .declare d => do
    let (_, m) ← m.onStore (·.declare d)
    return (.consistent, m)
  | .add vars options => do
    let (_, m) ← m.add vars options
    return (.consistent, m)
  | .listen c kind x => do
    let m ← m.listen c kind x
    return (.consistent, m)
  | .attach vars options => do
    let (_, m) ← m.attach vars options
    return (.consistent, m)
  | .schedule c => .ok (.consistent, m.schedule c)
  | .install vars options => m.install id vars options
  | .attempt a => m.onStore (·.attempt a)
  | .save => .ok (.consistent, m.save)
  | .restore => do
    let m ← m.restore
    return (.consistent, m)
  | .fixpoint => m.fixpoint

/-- The call uses identifiers that exist, and the bounds of a new domain are values. -/
def Call.Valid (m : Model AllDifferent) : Call → Prop
  | declare d => d.Valid m.store
  | add vars _ | attach vars _ | install vars _ => ∀ x ∈ vars, x.index < m.store.definitions.size
  | listen c _ x => c.index < m.propagators.size ∧ x.index < m.store.definitions.size
  | schedule c => c.index < m.propagators.size
  | attempt a => a.var.index < m.store.definitions.size
  | save | restore | fixpoint => True

/-- What calls come to that get an answer, whatever the answer. -/
inductive Reached : Model AllDifferent → Prop
  | start (order : DrainOrder) : Reached (Model.empty order)
  | call {m m' : Model AllDifferent} {c : Call} {verdict : Verdict} (hvalid : c.Valid m)
      (hret : m.perform c = .ok (verdict, m')) : Reached m → Reached m'

instance (m : Model AllDifferent) : DecidablePred (Call.Valid m)
  | .declare (.primitive _ _) => inferInstanceAs (Decidable (_ ∧ _))
  | .declare (.plus _ _) | .declare (.minus _ _) | .declare (.negate _) | .declare (.times _ _) =>
    inferInstanceAs (Decidable (_ < _))
  | .add vars _ | .attach vars _ | .install vars _ =>
    inferInstanceAs (Decidable (∀ x ∈ vars, x.index < m.store.definitions.size))
  | .listen _ _ _ => inferInstanceAs (Decidable (_ ∧ _))
  | .schedule _ | .attempt _ => inferInstanceAs (Decidable (_ < _))
  | .save | .restore | .fixpoint => .isTrue trivial

/-- Performs several valid calls. -/
def performAll (m : Model AllDifferent) : List Call → Except Fault (Model AllDifferent)
  | [] => .ok m
  | c :: rest =>
    if c.Valid m then do
      let (_, m) ← m.perform c
      m.performAll rest
    else
      .error .outOfBounds

theorem Reached.performAll (h : m.Reached) {calls : List Call}
    (hret : m.performAll calls = .ok m') : m'.Reached := by
  induction calls generalizing m with
  | nil =>
    cases hret
    exact h
  | cons c rest ih =>
    rw [Model.performAll] at hret
    split at hret
    · rename_i hvalid
      obtain ⟨⟨v, m₁⟩, hcall, hret⟩ := bind_eq_ok_iff.1 hret
      exact ih (h.call hvalid hcall) hret
    · cases hret

/-! ## The guard along calls -/

namespace Guarded

theorem enlist (h : m.Guarded) {vars : List Var}
    (hvars : ∀ x ∈ vars, x.index < m.store.definitions.size) {options : Options}
    (hret : m.enlist id vars options = .ok m') : m'.Guarded := by
  rw [enlist_eq] at hret
  obtain ⟨⟨c, m₁⟩, hattach, hret⟩ := bind_eq_ok_iff.1 hret
  cases hret
  obtain ⟨p, hattached⟩ := h.attach_eq hvars hattach
  exact hattached.guarded.schedule c

theorem perform (h : m.Guarded) {c : Call} (hvalid : c.Valid m)
    (hret : m.perform c = .ok (verdict, m')) : m'.Guarded := by
  cases c with
  | declare d =>
    obtain ⟨⟨x, m₁⟩, hdeclare, hret⟩ := bind_eq_ok_iff.1 hret
    obtain ⟨s, hs, rfl⟩ := onStore_eq_ok_iff.1 hdeclare
    cases hret
    exact h.of_grown (Declaration.declare_grown h.store hvalid hs)
  | add vars options =>
    obtain ⟨⟨c, m₁⟩, hadd, hret⟩ := bind_eq_ok_iff.1 hret
    cases hret
    obtain ⟨p, s, hadded⟩ := h.add_eq hvalid hadd
    exact hadded.guarded
  | listen c kind x =>
    obtain ⟨m₁, hlisten, hret⟩ := bind_eq_ok_iff.1 hret
    cases hret
    exact h.listen hvalid.1 hlisten
  | attach vars options =>
    obtain ⟨⟨c, m₁⟩, hattach, hret⟩ := bind_eq_ok_iff.1 hret
    cases hret
    obtain ⟨p, hattached⟩ := h.attach_eq hvalid hattach
    exact hattached.guarded
  | schedule c =>
    cases hret
    exact h.schedule c
  | install vars options =>
    obtain ⟨m₁, henlist, hret⟩ := bind_eq_ok_iff.1 hret
    exact ((h.enlist hvalid henlist).fixpoint_obeys hret).guarded
  | attempt a =>
    have hret : m.onStore (·.attempt a) = .ok (verdict, m') := hret
    obtain ⟨s, hs, rfl⟩ := onStore_eq_ok_iff.1 hret
    obtain ⟨b, D, _, _, hshrinks, _⟩ := Store.attempt_spec h.store hs
    exact h.of_evolves hshrinks.toEvolves
  | save =>
    cases hret
    exact h.save
  | restore =>
    obtain ⟨m₁, hrestore, hret⟩ := bind_eq_ok_iff.1 hret
    cases hret
    exact (h.restore_eq hrestore).1
  | fixpoint => exact (h.fixpoint_obeys hret).guarded

end Guarded

theorem Reached.guarded (h : m.Reached) : m.Guarded := by
  induction h with
  | start order => exact .empty order
  | call hvalid hret _ ih => exact ih.perform hvalid hret

/-! ## Solutions are kept -/

/-- The domains that consist of the values in solutions. -/
noncomputable def used (m : Model AllDifferent) (q : Var) : Finset Int :=
  haveI := Classical.dec
  (m.store.domain q).filter fun u => ∃ α, m.Solves α ∧ α q = u

theorem mem_used {q : Var} {u : Int} :
    u ∈ m.used q ↔ u ∈ m.store.domain q ∧ ∃ α, m.Solves α ∧ α q = u := by
  classical
  rw [used, Finset.mem_filter]

theorem used_subset (m : Model AllDifferent) (q : Var) : m.used q ⊆ m.store.domain q :=
  fun _ hu => (mem_used.1 hu).1

/-- Values for the primitive variables that satisfy a constraint are a choice. -/
theorem Guarded.choice_valueAt (hm : m.Guarded) {p : AllDifferent} (hp : p ∈ m.propagators)
    {F : Var → Finset Int}
    (hF : ∀ x < p.graph.varTotal, α (p.graph.sourceOf x) ∈ F (p.graph.sourceOf x))
    (hnodup : (p.graph.vars.toList.map (m.store.valueAt α)).Nodup) :
    Choice (p.graph.views m.store F) p.graph.varTotal
      fun x => m.store.valueAt α (p.graph.varOf x) := by
  obtain ⟨i, hi, rfl⟩ := Array.mem_iff_getElem.1 hp
  have hanchored := (hm.guarded i _ (Array.getElem?_eq_getElem hi)).anchored
  refine ⟨fun x hx => ?_, fun x hx y hy heq => ?_⟩
  · obtain ⟨b, hsource, hb⟩ := hanchored.source_eq x hx
    rw [Store.valueAt_eq hsource, hb]
    exact (hanchored.mem_views hx).2 ⟨_, hF x hx, rfl⟩
  · rw [toList_vars, List.map_map] at hnodup
    exact List.inj_on_of_nodup_map hnodup (List.mem_range.2 hx) (List.mem_range.2 hy) heq

/-- A solution is a choice from the used values for every constraint. -/
theorem Solves.choice (h : m.Solves α) (hm : m.Guarded) {p : AllDifferent}
    (hp : p ∈ m.propagators) :
    Choice (p.graph.views m.store m.used) p.graph.varTotal
      fun x => m.store.valueAt α (p.graph.varOf x) := by
  refine hm.choice_valueAt hp (fun x hx => ?_) (h.distinct p hp)
  obtain ⟨i, hi, rfl⟩ := Array.mem_iff_getElem.1 hp
  have hanchored := (hm.guarded i _ (Array.getElem?_eq_getElem hi)).anchored
  obtain ⟨b, _, hsource, hbase⟩ := hm.store.exists_base (hanchored.var_lt x hx)
  obtain ⟨b', hsource', hb⟩ := hanchored.source_eq x hx
  obtain rfl := Except.ok.inj (hsource.symm.trans hsource')
  rw [← hb]
  exact mem_used.2 ⟨h.mem b.var ⟨_, _, hbase⟩, α, h, rfl⟩

/-- If there is a solution, every used value of a constrained variable belongs to a choice. -/
theorem supports_used (hm : m.Guarded) (h : m.Solves α) : m.Supports m.used := by
  intro p hp
  refine ⟨⟨_, h.choice hm hp⟩, fun x hx u hu => ?_⟩
  obtain ⟨i, hi, rfl⟩ := Array.mem_iff_getElem.1 hp
  obtain ⟨b, _, hsource, hbase⟩ :=
    hm.store.exists_base ((hm.guarded i _ (Array.getElem?_eq_getElem hi)).anchored.var_lt x hx)
  rw [views, Store.viewFrom_eq hsource, Finset.mem_image] at hu
  obtain ⟨r, hr, rfl⟩ := hu
  obtain ⟨_, β, hβ, rfl⟩ := mem_used.1 hr
  exact ⟨_, hβ.choice hm hp, Store.valueAt_eq hsource⟩

/-- A run with the answer `verdict` loses no solution, and fails only if there is none. -/
structure Spares (m : Model AllDifferent) (verdict : Verdict) (m' : Model AllDifferent) : Prop where
  keeps : ∀ α, m.Solves α → ∀ q, m.store.IsPrimitive q → α q ∈ m'.store.domain q
  keeps_view : ∀ α, m.Solves α → ∀ x : Var, x.index < m.store.definitions.size →
    m.store.valueAt α x ∈ m'.store.view x
  fails : verdict ≠ .consistent → ∀ α, ¬ m.Solves α

/-- Propagators that keep all supported domains lose no solution. -/
theorem Obeys.spares (hm : m.Guarded) (h : Obeys m verdict m') : m.Spares verdict m' := by
  have hkeep : ∀ α, m.Solves α → ∀ q, m.store.IsPrimitive q → α q ∈ m'.store.domain q :=
    fun α hα q hq => h.keeps m.used (supports_used hm hα) m.used_subset q
      (mem_used.2 ⟨hα.mem q hq, α, hα, rfl⟩)
  refine ⟨hkeep, fun α hα x hx => ?_, fun hv α hα => ?_⟩
  · obtain ⟨b, _, hsource, hbase⟩ := hm.store.exists_base hx
    have hpath := h.narrowed.path_eq x
    rw [Store.valueAt_eq hsource, Store.mem_view (by rw [hpath]; exact hsource), hpath]
    exact ⟨_, hkeep α hα _ ⟨_, _, hbase⟩, rfl⟩
  · obtain ⟨p, hp, hhopeless⟩ := h.hopeless hv
    have hsupports := h.supports_iff.2 (supports_used hm hα) p hp
    obtain ⟨φ, hφ⟩ := hsupports.exists_choice
    refine hhopeless φ (hφ.mono fun x hx => ?_)
    rw [shown_domains hx]
    exact views_mono (h.keeps m.used (supports_used hm hα) m.used_subset) x

/-- However the model was used, no run of the propagators loses a value that belongs to a solution,
and a run that fails tells that there is no solution.  This is so for a run that is called for, and for
the one that ends the installation of a constraint, which belongs to the model then. -/
theorem Reached.runs_spare_solutions (h : m.Reached) :
    (∀ verdict m', m.fixpoint = .ok (verdict, m') → m.Spares verdict m') ∧
      ∀ vars options verdict m', (∀ x ∈ vars, x.index < m.store.definitions.size) →
        m.install id vars options = .ok (verdict, m') →
          ∃ m₁, m.enlist id vars options = .ok m₁ ∧ m₁.Spares verdict m' := by
  refine ⟨fun verdict m' hret => (h.guarded.fixpoint_obeys hret).spares h.guarded,
    fun vars options verdict m' hvars hret => ?_⟩
  obtain ⟨m₁, henlist, hret⟩ := bind_eq_ok_iff.1 hret
  have hguarded := h.guarded.enlist hvars henlist
  exact ⟨m₁, henlist, (hguarded.fixpoint_obeys hret).spares hguarded⟩

/-- A first matching is found on a level that is restored, so that the propagator takes itself to be
ready although nothing is matched. -/
def forgetting : List Call :=
  [.declare (.primitive 1 2), .declare (.primitive 1 2), .declare (.primitive 1 3),
    .add [⟨0⟩, ⟨1⟩, ⟨2⟩] .usual, .save, .schedule ⟨0⟩, .fixpoint, .restore,
    .attempt (.remove ⟨2⟩ 1), .schedule ⟨0⟩]

/-- The run that follows loses no solution. -/
theorem Reached.runs_spare_solutions_forgetting : ∃ m m',
    (Model.empty .lastFirst).performAll forgetting = .ok m ∧
      m.fixpoint = .ok (.consistent, m') ∧ m.Spares .consistent m' := by
  have hrun : ((Model.empty .lastFirst).performAll forgetting >>= fun m =>
      m.fixpoint >>= fun answer => .ok answer.1) = .ok .consistent := by decide +kernel
  obtain ⟨m, hm, hrun⟩ := bind_eq_ok_iff.1 hrun
  obtain ⟨⟨v, m'⟩, hfixpoint, hv⟩ := bind_eq_ok_iff.1 hrun
  cases hv
  exact ⟨m, m', hm, hfixpoint,
    (Reached.runs_spare_solutions ((Reached.start _).performAll hm)).1 _ _ hfixpoint⟩

end Model

end FiniteDomain
