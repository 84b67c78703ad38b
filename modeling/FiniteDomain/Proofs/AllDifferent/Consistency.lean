import FiniteDomain.Proofs.AllDifferent.Driving
import FiniteDomain.Proofs.AllDifferent.Room

/-!
# Exact domain consistency

In a model with a single constraint, whose variables have pairwise distinct primitive variables, the
propagator leaves each variable the values that it takes in some choice of pairwise distinct values
from the domains before the run, and it fails exactly when there is no such choice.

* `Store.Chooses` is a choice of values, and `Store.Filters` says what a run comes to.
* `Poised.filters_choices` is about one run, and `Driven.filters` about all runs with discipline.
-/

namespace FiniteDomain

/-! ## Choices for a list of variables -/

/-- A value of its domain for each of the variables, and no value twice. -/
structure Store.Chooses (s : Store) (vars : List Var) (vs : List Int) : Prop where
  length_eq : vs.length = vars.length
  mem : ∀ (i : Nat) (x : Var) (v : Int), vars[i]? = some x → vs[i]? = some v → v ∈ s.view x
  nodup : vs.Nodup

/-- Where there is a choice, every variable has a value. -/
theorem Store.Chooses.view_ne_empty {s : Store} {vars : List Var} {vs : List Int}
    (h : s.Chooses vars vs) {x : Var} (hx : x ∈ vars) : s.view x ≠ ∅ := by
  intro hempty
  obtain ⟨i, hi, rfl⟩ := List.mem_iff_getElem.1 hx
  have hv := h.mem i _ _ (List.getElem?_eq_getElem hi)
    (List.getElem?_eq_getElem (h.length_eq.symm ▸ hi))
  rw [hempty] at hv
  exact Finset.notMem_empty _ hv

/-- The run with the answer `verdict` fails exactly if there is no choice, and otherwise leaves each of
the variables the values that it takes in some choice, and all values to variables that have nothing to
do with them. -/
structure Store.Filters (s : Store) (vars : List Var) (verdict : Verdict) (s' : Store) : Prop where
  fails_iff : verdict ≠ .consistent ↔ ∀ vs, ¬ s.Chooses vars vs
  mem_iff : verdict = .consistent → ∀ (i : Nat) (x : Var), vars[i]? = some x → ∀ u : Int,
    u ∈ s'.view x ↔ ∃ vs, s.Chooses vars vs ∧ vs[i]? = some u
  others : verdict = .consistent → ∀ y : Var, y.index < s.definitions.size →
    (∀ x ∈ vars, s.source x ≠ s.source y) → s'.view y = s.view y

namespace AllDifferent

open ValueGraph

variable {g : ValueGraph} {s s' : Store} {φ : Nat → Int} {vs : List Int}

theorem Choice.chooses (h : Choice (g.domains s) g.varTotal φ) :
    s.Chooses g.vars.toList ((List.range g.varTotal).map φ) := by
  refine ⟨?_, fun x y u hy hu => ?_, ?_⟩
  · rw [List.length_map, List.length_range, Array.length_toList]
    rfl
  · rw [List.getElem?_map] at hu
    obtain ⟨z, hz, rfl⟩ := Option.map_eq_some_iff.1 hu
    obtain ⟨hlt, rfl⟩ := List.getElem?_eq_some_iff.1 hz
    rw [List.length_range] at hlt
    rw [getElem?_vars hlt] at hy
    obtain rfl := Option.some.inj hy
    rw [List.getElem_range]
    exact h.mem x hlt
  · refine List.Nodup.map_on (fun x hx y hy heq => ?_) List.nodup_range
    exact h.distinct x (List.mem_range.1 hx) y (List.mem_range.1 hy) heq

theorem choice_of_chooses (h : s.Chooses g.vars.toList vs) :
    Choice (g.domains s) g.varTotal fun x => vs.getD x 0 := by
  have hlength : vs.length = g.varTotal := by
    rw [h.length_eq, Array.length_toList]
    rfl
  have hget : ∀ x < g.varTotal, vs[x]? = some (vs.getD x 0) := by
    intro x hx
    rw [List.getD_eq_getElem?_getD, List.getElem?_eq_getElem (hlength ▸ hx)]
    rfl
  refine ⟨fun x hx => h.mem x _ _ (getElem?_vars hx) (hget x hx), fun x hx y hy heq => ?_⟩
  refine (List.getElem?_inj (hlength ▸ hx) h.nodup).1 ?_
  rw [hget x hx, hget y hy]
  exact congrArg some heq

/-- A choice can be read by positions or along the list. -/
theorem exists_chooses_iff {x : Nat} (hx : x < g.varTotal) {u : Int} :
    (∃ vs, s.Chooses g.vars.toList vs ∧ vs[x]? = some u) ↔
      ∃ φ, Choice (g.domains s) g.varTotal φ ∧ φ x = u := by
  constructor
  · rintro ⟨vs, hvs, hu⟩
    refine ⟨_, choice_of_chooses hvs, ?_⟩
    show vs.getD x 0 = u
    rw [List.getD_eq_getElem?_getD, hu]
    rfl
  · rintro ⟨φ, hφ, rfl⟩
    refine ⟨_, hφ.chooses, ?_⟩
    rw [List.getElem?_map, List.getElem?_range hx]
    rfl

/-! ## The values in choices -/

namespace ValueGraph

/-- The variables have pairwise distinct primitive variables. -/
def Independent (g : ValueGraph) : Prop :=
  ∀ x < g.varTotal, ∀ y < g.varTotal, g.sourceOf x = g.sourceOf y → x = y

/-- With the value `r` of the primitive variable `q`, its variables have values that they take in
choices. -/
def Takes (g : ValueGraph) (s : Store) (q : Var) (r : Int) : Prop :=
  ∀ x < g.varTotal, g.sourceOf x = q →
    ∃ φ, Choice (g.domains s) g.varTotal φ ∧ φ x = (s.path (g.varOf x)).eval r

/-- The values of a primitive variable with which its variables have values that they take in
choices. -/
noncomputable def taken (g : ValueGraph) (s : Store) (q : Var) : Finset Int :=
  haveI := Classical.dec
  (s.domain q).filter (g.Takes s q)

theorem mem_taken {q : Var} {r : Int} : r ∈ g.taken s q ↔ r ∈ s.domain q ∧ g.Takes s q r := by
  classical
  rw [taken, Finset.mem_filter]

theorem taken_subset (q : Var) : g.taken s q ⊆ s.domain q := fun _ hr => (mem_taken.1 hr).1

/-- Independent variables can be chosen from the values that they take in choices. -/
theorem Independent.choice_taken (h : g.Independent) (ha : g.Anchored s)
    (hφ : Choice (g.domains s) g.varTotal φ) : Choice (g.views s (g.taken s)) g.varTotal φ := by
  refine ⟨fun x hx => ?_, hφ.distinct⟩
  obtain ⟨r, hr, heq⟩ := (ha.mem_views hx).1 (hφ.mem x hx)
  refine (ha.mem_views hx).2 ⟨r, mem_taken.2 ⟨hr, fun y hy hyx => ?_⟩, heq⟩
  obtain rfl := h y hy x hx hyx
  exact ⟨φ, hφ, heq.symm⟩

/-- If there is a choice, the values in choices are supported. -/
theorem Independent.supports_taken (h : g.Independent) (ha : g.Anchored s)
    (hφ : Choice (g.domains s) g.varTotal φ) : g.Supports s (g.taken s) := by
  refine ⟨⟨φ, h.choice_taken ha hφ⟩, fun x hx u hu => ?_⟩
  obtain ⟨r, hr, rfl⟩ := (ha.mem_views hx).1 hu
  obtain ⟨ψ, hψ, heq⟩ := (mem_taken.1 hr).2 x hx rfl
  exact ⟨ψ, h.choice_taken ha hψ, heq⟩

theorem Anchored.source_varOf (h : g.Anchored s) {x : Nat} (hx : x < g.varTotal) :
    s.source (g.varOf x) = .ok (g.sourceOf x) := by
  obtain ⟨b, hsource, hb⟩ := h.source_eq x hx
  rw [Store.source, hsource, ← hb]
  rfl

theorem Anchored.independent (h : g.Anchored s) (hnodup : (g.vars.toList.map s.source).Nodup) :
    g.Independent := by
  intro x hx y hy heq
  have hget : ∀ z < g.varTotal,
      (g.vars.toList.map s.source)[z]? = some (.ok (g.sourceOf z)) := by
    intro z hz
    rw [List.getElem?_map, getElem?_vars hz, Option.map_some, h.source_varOf hz]
  refine (List.getElem?_inj ?_ hnodup).1 ((hget x hx).trans (heq ▸ (hget y hy).symm))
  rw [List.length_map, Array.length_toList]
  exact hx

end ValueGraph

end AllDifferent

namespace Model

open AllDifferent ValueGraph

variable {m m' : Model AllDifferent} {s : Store} {verdict last : Verdict} {p : AllDifferent}

/-! ## Runs -/

/-- A single constraint is still the only one after a run. -/
theorem Follows.single (h : Follows m m') (hp : m.propagators = #[p]) :
    ∃ p', m'.propagators = #[p'] ∧ Alike p.graph p'.graph := by
  have hhere : m.propagators[0]? = some p := by
    rw [hp]
    rfl
  obtain ⟨p', hp', halike, _⟩ := h.alike 0 p hhere
  refine ⟨p', Array.ext_getElem? fun i => ?_, halike⟩
  cases i with
  | zero => exact hp'
  | succ i =>
    rw [Array.getElem?_eq_none, Array.getElem?_eq_none]
    · exact Nat.le_add_left _ _
    · rw [h.size_eq, hp]
      exact Nat.le_add_left _ _

/-- What a run of a model with a single constraint on independent variables leaves alone. -/
theorem Obeys.taken_subset (h : Obeys m verdict m') (hm : m.Guarded) (hp : m.propagators = #[p])
    (hindependent : p.graph.Independent) {φ : Nat → Int}
    (hφ : Choice (p.graph.domains m.store) p.graph.varTotal φ) (q : Var) :
    p.graph.taken m.store q ⊆ m'.store.domain q := by
  have hanchored := (hm.guarded 0 p (by rw [hp]; rfl)).anchored
  refine h.keeps _ (fun p' hp' => ?_) ValueGraph.taken_subset q
  rw [hp] at hp'
  obtain rfl := List.mem_singleton.1 (Array.mem_toList_iff.2 hp')
  exact hindependent.supports_taken hanchored hφ

/-- A run loses no choice. -/
theorem Obeys.choice_iff (h : Obeys m verdict m') (hm : m.Guarded) (hp : m.propagators = #[p])
    (hindependent : p.graph.Independent) {φ : Nat → Int} :
    Choice (p.graph.views m.store m'.store.domain) p.graph.varTotal φ ↔
      Choice (p.graph.domains m.store) p.graph.varTotal φ := by
  have hanchored := (hm.guarded 0 p (by rw [hp]; rfl)).anchored
  constructor
  · exact fun hφ => hφ.mono fun x _ => views_mono h.narrowed.subset x
  · exact fun hφ => (hindependent.choice_taken hanchored hφ).mono fun x _ =>
      views_mono (h.taken_subset hm hp hindependent hφ) x

/-- A run that leaves supported domains, if it does not fail, filters the variables exactly. -/
theorem Obeys.filters_choices (h : Obeys m verdict m') (hm : m.Guarded) (hp : m.propagators = #[p])
    (hindependent : p.graph.Independent)
    (hsupported : verdict = .consistent → ∀ (i : Nat) (p' : AllDifferent),
      m'.propagators[i]? = some p' → Supported (p'.graph.domains m'.store) p'.graph.varTotal) :
    m.store.Filters p.graph.vars.toList verdict m'.store := by
  have hanchored := (hm.guarded 0 p (by rw [hp]; rfl)).anchored
  obtain ⟨p', hp', halike⟩ := h.single hp
  have hdomains : p'.graph.domains m'.store = p.graph.views m.store m'.store.domain :=
    ValueGraph.views_congr halike h.narrowed.path_eq _
  have hexists : verdict = .consistent →
      Supported (p.graph.views m.store m'.store.domain) p.graph.varTotal := by
    intro hv
    have hthere := hsupported hv 0 p' (by rw [hp']; rfl)
    rwa [hdomains, halike.varTotal_eq] at hthere
  have hiff := fun φ : Nat → Int => h.choice_iff (φ := φ) hm hp hindependent
  refine ⟨⟨fun hv vs hvs => ?_, fun hnone hv => ?_⟩, fun hv i x hx u => ?_,
    fun hv y hy hapart => ?_⟩
  · obtain ⟨p'', hmem, hhopeless⟩ := h.hopeless hv
    rw [hp'] at hmem
    obtain rfl := List.mem_singleton.1 (Array.mem_toList_iff.2 hmem)
    have hnone : AllDifferent.Hopeless (p''.graph.domains m'.store) p''.graph.varTotal :=
      hopeless_iff.1 hhopeless
    rw [hdomains, halike.varTotal_eq] at hnone
    exact hnone _ ((hiff _).2 (choice_of_chooses hvs))
  · obtain ⟨φ, hφ⟩ := (hexists hv).exists_choice
    exact hnone _ ((hiff φ).1 hφ).chooses
  · have hlt : i < p.graph.varTotal := by
      have hlength := (List.getElem?_eq_some_iff.1 hx).1
      rwa [Array.length_toList] at hlength
    obtain rfl := Option.some.inj ((getElem?_vars hlt).symm.trans hx)
    have hview : m'.store.view (p.graph.varOf i) = p.graph.views m.store m'.store.domain i :=
      Store.viewFrom_congr (h.narrowed.path_eq _) _
    rw [exists_chooses_iff hlt, hview]
    constructor
    · intro hu
      obtain ⟨φ, hφ, heq⟩ := (hexists hv).used i hlt u hu
      exact ⟨φ, (hiff φ).1 hφ, heq⟩
    · rintro ⟨φ, hφ, rfl⟩
      exact ((hiff φ).2 hφ).mem i hlt
  · obtain ⟨b, _, hsource, _⟩ := hm.store.exists_base hy
    obtain ⟨φ, hφ⟩ := (hexists hv).exists_choice
    -- No variable of the constraint has this primitive variable, so all its values are kept.
    have hkept : m.store.domain b.var ⊆ m'.store.domain b.var := by
      refine fun r hr => h.taken_subset hm hp hindependent ((hiff φ).1 hφ) b.var
        (mem_taken.2 ⟨hr, fun x hx heq => ?_⟩)
      refine absurd ?_ (hapart _ (List.mem_of_getElem? (getElem?_vars hx)))
      rw [hanchored.source_varOf hx, heq, Store.source, hsource]
      rfl
    have hsource' : (m'.store.path y).source = .ok b := by
      rw [h.narrowed.path_eq]
      exact hsource
    rw [Store.view, Store.view, Store.viewIn_eq hsource, Store.viewIn_eq hsource',
      h.narrowed.path_eq]
    exact congrArg (Finset.image _) ((h.narrowed.subset b.var).antisymm hkept)

/-- A run of a settled model with a single constraint gets an answer and filters the variables
exactly. -/
theorem Poised.filters_choices (h : m.Poised (fun _ => False) m.scheduled) (hp : m.propagators = #[p])
    (hindependent : (p.graph.vars.toList.map m.store.source).Nodup) :
    ∃ verdict m', m.fixpoint = .ok (verdict, m') ∧
      m.store.Filters p.graph.vars.toList verdict m'.store := by
  have hanchored := (h.guarded 0 p (by rw [hp]; rfl)).anchored
  have hindependent := hanchored.independent hindependent
  obtain ⟨m', hret, hpoised, hquiet⟩ | ⟨why, m', hret⟩ := h.fixpoint_cases
  · exact ⟨.consistent, m', hret, (h.toGuarded.fixpoint_obeys hret).filters_choices h.toGuarded hp
      hindependent fun _ i p' hp' => hpoised.supported hquiet hp' id⟩
  · exact ⟨.failed why, m', hret, (h.toGuarded.fixpoint_obeys hret).filters_choices h.toGuarded hp
      hindependent nofun⟩

end Model

/-! ## Constraints that are installed -/

/-- What a run filters does not depend on variables that were added before it. -/
theorem Store.Filters.of_grown {s s₁ s' : Store} {vars : List Var} {verdict : Verdict}
    (h : s₁.Filters vars verdict s') (hs : s.Sound)
    (hvars : ∀ x ∈ vars, x.index < s.definitions.size)
    (hdefinitions : s.definitions.size ≤ s₁.definitions.size)
    (hpath : ∀ x : Var, x.index < s.definitions.size → s₁.path x = s.path x)
    (hdomain : ∀ q : Var, q.index < s.definitions.size → s₁.domain q = s.domain q) :
    s.Filters vars verdict s' := by
  have hview : ∀ x : Var, x.index < s.definitions.size → s₁.view x = s.view x := by
    intro x hx
    obtain ⟨b, _, hsource, hb⟩ := hs.exists_base hx
    have hsource' : (s₁.path x).source = .ok b := by
      rw [hpath x hx]
      exact hsource
    rw [view, view, viewIn_eq hsource, viewIn_eq hsource', hpath x hx]
    exact congrArg (Finset.image _) (hdomain b.var (Array.getElem?_eq_some_iff.1 hb).1)
  have hsource : ∀ x : Var, x.index < s.definitions.size → s₁.source x = s.source x := by
    intro x hx
    rw [source, source, hpath x hx]
  have hchooses : ∀ vs, s₁.Chooses vars vs ↔ s.Chooses vars vs := by
    refine fun vs => ⟨fun hvs => ⟨hvs.length_eq, fun i x v hx hv => ?_, hvs.nodup⟩,
      fun hvs => ⟨hvs.length_eq, fun i x v hx hv => ?_, hvs.nodup⟩⟩
    · rw [← hview x (hvars x (List.mem_of_getElem? hx))]
      exact hvs.mem i x v hx hv
    · rw [hview x (hvars x (List.mem_of_getElem? hx))]
      exact hvs.mem i x v hx hv
  refine ⟨h.fails_iff.trans (forall_congr' fun vs => not_congr (hchooses vs)),
    fun hv i x hx u => (h.mem_iff hv i x hx u).trans
      (exists_congr fun vs => and_congr_left fun _ => hchooses vs), fun hv y hy hapart => ?_⟩
  rw [h.others hv y (Nat.lt_of_lt_of_le hy hdefinitions) fun x hx => ?_, hview y hy]
  rw [hsource x (hvars x hx), hsource y hy]
  exact hapart x hx

namespace Model

open AllDifferent

variable {m : Model AllDifferent}

/-- In every run with discipline, of a model with one installed constraint on variables with pairwise
distinct primitive variables, each run of the propagators gets an answer: it fails exactly if there
is no choice of pairwise distinct values from the domains before it, and otherwise leaves each
variable the values that it takes in such a choice, and all other domains alone.  The same holds of
the run that ends the installation, which gets an answer if there is room for the constraint. -/
theorem Driven.filters (h : Driven Call.Installs m .consistent) :
    (∀ p, m.propagators = #[p] → (p.graph.vars.toList.map m.store.source).Nodup →
      ∃ verdict m', m.fixpoint = .ok (verdict, m') ∧
        m.store.Filters p.graph.vars.toList verdict m'.store) ∧
    ∀ vars options, m.propagators = #[] → (∀ x ∈ vars, x.index < m.store.definitions.size) →
      (vars.map m.store.source).Nodup →
        (m.HasRoom vars → ∃ answer, m.install id vars options = .ok answer) ∧
        ∀ verdict m', m.install id vars options = .ok (verdict, m') →
          m.store.Filters vars verdict m'.store := by
  have hpoised := h.kept.poised rfl
  refine ⟨fun p hp hnodup => hpoised.filters_choices hp hnodup,
    fun vars options hnone hvars hnodup => ?_⟩
  have hadded : ∀ m₁, m.enlist id vars options = .ok m₁ → ∃ verdict m',
      m₁.fixpoint = .ok (verdict, m') ∧ m.store.Filters vars verdict m'.store := by
    intro m₁ henlist
    obtain ⟨hdefinitions, hpath, hdomain, p, hpush, hpvars, _⟩ :=
      hpoised.toGuarded.enlisted hvars henlist
    have hlist : p.graph.vars.toList = vars := by rw [hpvars]
    have hsources : (p.graph.vars.toList.map m₁.store.source).Nodup := by
      rw [hlist]
      refine (List.map_congr_left fun x hx => ?_) ▸ hnodup
      rw [Store.source, Store.source, hpath x (hvars x hx)]
    obtain ⟨verdict, m', hret, hfilters⟩ :=
      (hpoised.enlist hvars henlist).filters_choices (by rw [hpush, hnone]; rfl) hsources
    rw [hlist] at hfilters
    exact ⟨verdict, m', hret, hfilters.of_grown hpoised.store hvars hdefinitions hpath hdomain⟩
  refine ⟨fun hroom => ?_, fun verdict m' hret => ?_⟩
  · obtain ⟨m₁, henlist⟩ := hroom.exists_enlist hpoised.toGuarded hvars options
    obtain ⟨verdict, m', hret, _⟩ := hadded m₁ henlist
    refine ⟨(verdict, m'), ?_⟩
    rw [install, henlist, ok_bind]
    exact hret
  · obtain ⟨m₁, henlist, hret⟩ := bind_eq_ok_iff.1 hret
    obtain ⟨verdict', m'', hret', hfilters⟩ := hadded m₁ henlist
    cases hret.symm.trans hret'
    exact hfilters

/-- Two variables and a shifted one, before a constraint on them is installed. -/
def shifted : List Call :=
  [.declare (.primitive 1 2), .declare (.primitive 0 1), .declare (.primitive 1 3),
    .declare (.plus ⟨1⟩ 1)]

/-- The constraint is installed, and the first variable is decided on a level of its own. -/
def decided : List Call :=
  shifted ++ [.install [⟨0⟩, ⟨3⟩, ⟨2⟩] .usual, .save, .attempt (.fix ⟨0⟩ 1)]

/-- Both kinds of runs. -/
theorem Driven.filters_shifted :
    (∃ m m' p, (Model.empty .lastFirst).driveAll Call.Installs .consistent decided =
        .ok (.consistent, m) ∧ m.propagators = #[p] ∧ m.fixpoint = .ok (.consistent, m') ∧
        m.store.Filters p.graph.vars.toList .consistent m'.store) ∧
    ∃ m m', (Model.empty .lastFirst).driveAll Call.Installs .consistent shifted =
        .ok (.consistent, m) ∧ m.install id [⟨0⟩, ⟨3⟩, ⟨2⟩] .usual = .ok (.consistent, m') ∧
        m.store.Filters [⟨0⟩, ⟨3⟩, ⟨2⟩] .consistent m'.store := by
  constructor
  · have hrun : ((Model.empty .lastFirst).driveAll Call.Installs .consistent decided >>= fun r =>
        r.2.fixpoint >>= fun answer => .ok (r.1, answer.1, r.2.propagators.size, r.2.propagators.all
          fun p => decide (p.graph.vars.toList.map r.2.store.source).Nodup)) =
        .ok (.consistent, .consistent, 1, true) := by decide +kernel
    obtain ⟨⟨last, m⟩, hm, hrun⟩ := bind_eq_ok_iff.1 hrun
    obtain ⟨⟨v, m'⟩, hret, heq⟩ := bind_eq_ok_iff.1 hrun
    injection heq with heq
    simp only [Prod.mk.injEq, Array.all_eq_true] at heq
    obtain ⟨rfl, rfl, hsize, hnodup⟩ := heq
    obtain ⟨p, hp⟩ := Array.size_eq_one_iff.1 hsize
    have hnodup : (p.graph.vars.toList.map m.store.source).Nodup := by
      have hfirst := hnodup 0 (by omega)
      simp only [hp] at hfirst
      exact of_decide_eq_true hfirst
    have hdriven : Driven Call.Installs m .consistent := (Driven.start .lastFirst).driveAll hm
    obtain ⟨verdict, m'', hret', hfilters⟩ := (Driven.filters hdriven).1 p hp hnodup
    cases hret.symm.trans hret'
    exact ⟨m, m', p, hm, hp, hret, hfilters⟩
  · have hrun : ((Model.empty .lastFirst).driveAll Call.Installs .consistent shifted >>= fun r =>
        r.2.install id [⟨0⟩, ⟨3⟩, ⟨2⟩] .usual >>= fun answer => .ok (r.1, answer.1,
          r.2.propagators.size, r.2.store.definitions.size,
          decide (([⟨0⟩, ⟨3⟩, ⟨2⟩] : List Var).map r.2.store.source).Nodup)) =
        .ok (.consistent, .consistent, 0, 4, true) := by decide +kernel
    obtain ⟨⟨last, m⟩, hm, hrun⟩ := bind_eq_ok_iff.1 hrun
    obtain ⟨⟨v, m'⟩, hret, heq⟩ := bind_eq_ok_iff.1 hrun
    injection heq with heq
    simp only [Prod.mk.injEq] at heq
    obtain ⟨rfl, rfl, hnone, hsize, hnodup⟩ := heq
    have hdriven : Driven Call.Installs m .consistent := (Driven.start .lastFirst).driveAll hm
    have hvars : ∀ x ∈ ([⟨0⟩, ⟨3⟩, ⟨2⟩] : List Var), x.index < m.store.definitions.size := by
      rw [hsize]
      decide
    exact ⟨m, m', hm, hret, ((Driven.filters hdriven).2 _ .usual (Array.size_eq_zero_iff.1 hnone)
      hvars (of_decide_eq_true hnodup)).2 _ _ hret⟩

end Model

end FiniteDomain
