import FiniteDomain.Proofs.AllDifferent.Changing

/-!
# A value graph and the domains of its variables

* `ValueGraph.Anchored` says that a graph is about variables of the store, and that its values can
  be carried along their paths, so that no question about them fails.
* `ValueGraph.views` are the domains of the variables of a graph when those of the primitive
  variables are given, and `ValueGraph.Supports` says that with these every value belongs to a
  choice.
* `ValueGraph.Narrows` says what it means for a graph that a variable was narrowed to the values
  with some property: supported domains survive if all choices have it.  `narrows_remove` and
  `narrows_fix` are the two ways to narrow a variable.
-/

namespace FiniteDomain.AllDifferent.ValueGraph

variable {g g' : ValueGraph} {s s' : Store} {F : Var → Finset Int}

/-- The graph is about variables of the store, and its values can be carried along their paths. -/
structure Anchored (g : ValueGraph) (s : Store) : Prop where
  var_lt : ∀ x < g.varTotal, (g.varOf x).index < s.definitions.size
  source_eq : ∀ x < g.varTotal, ∃ b, (s.path (g.varOf x)).source = .ok b ∧ b.var = g.sourceOf x
  reads : ∀ e < g.edgeTotal, s.Reads (g.varOf (g.tail e)) (g.val (g.head e))

/-- What the variables can take when the primitive variables can take the values in `F`. -/
def views (g : ValueGraph) (s : Store) (F : Var → Finset Int) (x : Nat) : Finset Int :=
  s.viewFrom F (g.varOf x)

/-- The domains of the variables. -/
def domains (g : ValueGraph) (s : Store) : Nat → Finset Int := g.views s s.domain

/-- With the domains in `F` every value belongs to a choice. -/
def Supports (g : ValueGraph) (s : Store) (F : Var → Finset Int) : Prop :=
  Supported (g.views s F) g.varTotal

theorem domains_eq (g : ValueGraph) (s : Store) (x : Nat) :
    g.domains s x = s.view (g.varOf x) := rfl

/-! ## What stays -/

theorem views_mono {F' : Var → Finset Int} (h : ∀ p, F p ⊆ F' p) (x : Nat) :
    g.views s F x ⊆ g.views s F' x :=
  Store.viewFrom_mono h _

namespace Alike

theorem varOf_eq (h : Alike g g') : g'.varOf = g.varOf := by
  funext x
  rw [varOf, varOf, h.vars_eq]

theorem val_eq (h : Alike g g') : g'.val = g.val := by
  funext v
  rw [val, val, h.values_eq]

theorem sourceOf_eq (h : Alike g g') : g'.sourceOf = g.sourceOf := by
  funext x
  rw [sourceOf, sourceOf, h.sources_eq]

end Alike

theorem views_congr (ha : Alike g g') (hp : ∀ x, s'.path x = s.path x) (F : Var → Finset Int) :
    g'.views s' F = g.views s F := by
  funext x
  rw [views, views, ha.varOf_eq, Store.viewFrom_congr (hp _)]

/-- The domains depend on those of the primitive variables and on the paths to them. -/
theorem domains_congr (ha : Alike g g') (hp : ∀ x, s'.path x = s.path x)
    (hd : ∀ q, s'.domain q = s.domain q) : g'.domains s' = g.domains s := by
  rw [domains, domains, views_congr ha hp, funext hd]

theorem supports_congr (ha : Alike g g') (hp : ∀ x, s'.path x = s.path x) :
    g'.Supports s' F ↔ g.Supports s F := by
  rw [Supports, Supports, views_congr ha hp, ha.varTotal_eq]

theorem Anchored.of_evolves {C : Cell → Prop} (h : g.Anchored s) (ha : Alike g g')
    (he : Store.Evolves C s s') : g'.Anchored s' := by
  refine ⟨fun x hx => ?_, fun x hx => ?_, fun e he' => ?_⟩
  · rw [ha.varOf_eq, he.definitions_eq]
    exact h.var_lt x (ha.varTotal_eq ▸ hx)
  · rw [ha.varOf_eq, ha.sourceOf_eq, he.path_eq]
    exact h.source_eq x (ha.varTotal_eq ▸ hx)
  · rw [ha.varOf_eq, ha.tail_eq, ha.val_eq, ha.head_eq, he.reads_iff]
    exact h.reads e (ha.edgeTotal_eq ▸ he')

theorem domains_subset {C : Cell → Prop} (ha : Alike g g') (he : Store.Evolves C s s') (x : Nat) :
    g'.domains s' x ⊆ g.domains s x := by
  rw [domains, views_congr ha he.path_eq]
  exact views_mono he.subset x

/-- A primitive variable is not younger than its views. -/
theorem Anchored.source_le (h : g.Anchored s) (hs : s.Sound) {x : Nat} (hx : x < g.varTotal) :
    (g.sourceOf x).index ≤ (g.varOf x).index := by
  obtain ⟨b, hsource, hb⟩ := h.source_eq x hx
  have hle := Path.follow_source_le hs.grounded hsource
  rw [hb] at hle
  exact hle

/-- The domains of the variables depend on those of their primitive variables. -/
theorem Anchored.views_congr (h : g.Anchored s) {F' : Var → Finset Int} {x : Nat}
    (hx : x < g.varTotal) (hF : F' (g.sourceOf x) = F (g.sourceOf x)) :
    g.views s F' x = g.views s F x := by
  obtain ⟨b, hsource, hb⟩ := h.source_eq x hx
  rw [views, views, Store.viewFrom_eq hsource, Store.viewFrom_eq hsource, hb, hF]

theorem Anchored.mem_views (h : g.Anchored s) {x : Nat} (hx : x < g.varTotal) {u : Int} :
    u ∈ g.views s F x ↔ ∃ r ∈ F (g.sourceOf x), (s.path (g.varOf x)).eval r = u := by
  obtain ⟨b, hsource, hb⟩ := h.source_eq x hx
  rw [views, Store.viewFrom_eq hsource, Finset.mem_image, hb]

/-- What a graph shows is about its variables and values. -/
theorem Sound.within (h : g.Sound s) :
    (g.snapshot (g.now s)).Within g.varTotal g.valueTotal g.val := by
  refine ⟨fun x hx => (mem_active.1 hx).1, fun x v hv => lt_of_mem_live h.layout hv,
    fun x v hv => h.intact.mate_lt hv, fun v x hx => h.intact.owner_lt hx, ?_⟩
  intro v hv v' hv' heq
  have hsame := (h.layout.valueId?_eq_some (u := g.val v')).2 ⟨hv, heq⟩
  have hsame' := (h.layout.valueId?_eq_some (u := g.val v')).2 ⟨hv', rfl⟩
  exact Option.some.inj (hsame.symm.trans hsame')

/-! ## Justified narrowing -/

/-- A graph keeps nothing in the cells of domains. -/
theorem step_of_shrinks (h : g.Sound s) {b : Base} {D : Finset Int} (hs : Store.Shrinks s s' b D) :
    Step g s g s' ∧ g.now s' = g.now s := by
  have hnow := now_of_evolves h.wired hs.toEvolves fun _ _ hc => hc
  refine ⟨⟨hs.toEvolves.mono fun _ hc => hc.elim, .refl g, ⟨hs.sound, h.layout,
    h.wired.of_evolves hs.toEvolves, by rw [hnow]; exact h.intact⟩, by rw [hnow]; exact .refl _,
    fun _ _ _ => Iff.rfl, fun _ _ _ => Iff.rfl⟩, hnow⟩

/-- Supported domains survive when a variable is narrowed to values that all choices have. -/
theorem keeps_of_shrinks (ha : g.Anchored s) {x : Nat} (hx : x < g.varTotal) {b : Base}
    (hsource : (s.path (g.varOf x)).source = .ok b) {P : Int → Prop} [DecidablePred P]
    (hs : Store.Shrinks s s' b
      ((s.domain b.var).filter fun r => P ((s.path (g.varOf x)).eval r)))
    (hP : ∀ φ, Choice (g.domains s) g.varTotal φ → P (φ x)) (hF : g.Supports s F)
    (hle : ∀ p, F p ⊆ s.domain p) (p : Var) : F p ⊆ s'.domain p := by
  by_cases hp : p = b.var
  · subst hp
    rw [hs.self]
    intro r hr
    refine Finset.mem_filter.2 ⟨hle _ hr, ?_⟩
    obtain ⟨b', hsource', hb⟩ := ha.source_eq x hx
    obtain rfl : b' = b := Except.ok.inj (hsource'.symm.trans hsource)
    obtain ⟨φ, hφ, hφx⟩ := hF.used x hx _ ((ha.mem_views hx).2 ⟨r, by rw [← hb]; exact hr, rfl⟩)
    rw [← hφx]
    exact hP φ (hφ.mono fun y _ => views_mono hle y)
  · rw [hs.other p hp]
    exact hle p

/-- An attempt to narrow the variable at position `z` to the values with the property `P`. -/
structure Narrows (g : ValueGraph) (s : Store) (z : Nat) (P : Int → Prop) (verdict : Verdict)
    (s' : Store) : Prop where
  step : Step g s g s'
  now_eq : g.now s' = g.now s
  keeps : (∀ φ, Choice (g.domains s) g.varTotal φ → P (φ z)) → ∀ F, g.Supports s F →
    (∀ p, F p ⊆ s.domain p) → ∀ p, F p ⊆ s'.domain p
  other : ∀ x < g.varTotal, g.sourceOf x ≠ g.sourceOf z → g.domains s' x = g.domains s x
  self : verdict = .consistent → ∀ u ∈ g.domains s' z, P u
  alive : verdict = .consistent → Store.Alive s s'
  empty : verdict ≠ .consistent → ∀ u ∈ g.domains s z, ¬ P u

theorem narrows_of_shrinks (h : g.Sound s) (ha : g.Anchored s) {z : Nat} (hz : z < g.varTotal)
    {b : Base} (hsource : (s.path (g.varOf z)).source = .ok b) {P : Int → Prop} [DecidablePred P]
    (hs : Store.Shrinks s s' b
      ((s.domain b.var).filter fun r => P ((s.path (g.varOf z)).eval r))) {verdict : Verdict}
    (hfilled : verdict = .consistent → s.domain b.var ≠ ∅ → s'.domain b.var ≠ ∅)
    (hempty : verdict ≠ .consistent → s'.domain b.var = ∅) : g.Narrows s z P verdict s' := by
  obtain ⟨hstep, hnow⟩ := step_of_shrinks h hs
  obtain ⟨b', hsource', hb⟩ := ha.source_eq z hz
  obtain rfl : b' = b := Except.ok.inj (hsource'.symm.trans hsource)
  have hviews : ∀ F, g.views s' F = g.views s F := fun F =>
    ValueGraph.views_congr (.refl g) hs.path_eq F
  have hother : ∀ x < g.varTotal, g.sourceOf x ≠ g.sourceOf z →
      g.domains s' x = g.domains s x := by
    intro x hx hne
    rw [domains, domains, hviews]
    exact ha.views_congr hx (hs.other _ (by rw [hb]; exact hne))
  refine ⟨hstep, hnow, fun hP F hF hle => keeps_of_shrinks ha hz hsource hs hP hF hle, hother,
    fun _ u hu => ?_, fun hverdict q hne => ?_, fun hverdict u hu hPu => ?_⟩
  · rw [domains, hviews, ha.mem_views hz, ← hb, hs.self] at hu
    obtain ⟨r, hr, rfl⟩ := hu
    exact (Finset.mem_filter.1 hr).2
  · by_cases hsame : q = b'.var
    · rw [hsame] at hne ⊢
      exact hfilled hverdict hne
    · rw [hs.other q hsame]
      exact hne
  · rw [domains, ha.mem_views hz, ← hb] at hu
    obtain ⟨r, hr, rfl⟩ := hu
    have hmem : r ∈ s'.domain b'.var := by
      rw [hs.self]
      exact Finset.mem_filter.2 ⟨hr, hPu⟩
    rw [hempty hverdict] at hmem
    exact Finset.notMem_empty r hmem

/-- A value of an edge is removed. -/
theorem narrows_remove (h : g.Sound s) (ha : g.Anchored s) {z : Nat} (hz : z < g.varTotal)
    {u : Int} (hu : s.Reads (g.varOf z) u) :
    ∃ verdict s', s.remove (g.varOf z) u = .ok (verdict, s') ∧
      g.Narrows s z (· ≠ u) verdict s' := by
  obtain ⟨verdict, s', hret⟩ := Store.remove_total h.store (ha.var_lt z hz) hu
  obtain ⟨b, hsource, _, hs, hjudge⟩ := Store.remove_spec h.store (ha.var_lt z hz) hret
  refine ⟨verdict, s', hret, narrows_of_shrinks h ha hz hsource hs ?_ ?_⟩
  · intro hv hne hempty
    rw [hs.self] at hempty
    rw [Store.Judges, if_pos ⟨hempty, hne⟩] at hjudge
    rw [hv] at hjudge
    cases hjudge
  · intro hv
    by_contra hne
    rw [hs.self] at hne
    rw [Store.Judges, if_neg fun hboth => hne hboth.1] at hjudge
    exact hv hjudge

/-- A variable is fixed to the value of an edge. -/
theorem narrows_fix (h : g.Sound s) (ha : g.Anchored s) {z : Nat} (hz : z < g.varTotal) {u : Int}
    (hu : s.Reads (g.varOf z) u) :
    ∃ verdict s', s.fix (g.varOf z) u = .ok (verdict, s') ∧ g.Narrows s z (· = u) verdict s' := by
  obtain ⟨verdict, s', hret⟩ := Store.fix_total h.store (ha.var_lt z hz) hu
  obtain ⟨b, hsource, _, ⟨hmem, rfl, hs⟩ | ⟨hmem, rfl, rfl⟩⟩ :=
    Store.fix_spec h.store (ha.var_lt z hz) hret
  · refine ⟨_, s', hret, narrows_of_shrinks h ha hz hsource hs ?_ fun hv => absurd rfl hv⟩
    intro _ _ hempty
    rw [hs.self] at hempty
    obtain ⟨r, hr, heval⟩ := (Store.mem_view hsource).1 hmem
    exact Finset.notMem_empty r (hempty ▸ Finset.mem_filter.2 ⟨hr, heval⟩)
  · refine ⟨_, _, hret, .refl h, rfl, fun _ _ _ hle => hle, fun _ _ _ => rfl,
      (fun hv => by cases hv), (fun hv => by cases hv), ?_⟩
    rintro _ _ hu' rfl
    exact hmem hu'

end FiniteDomain.AllDifferent.ValueGraph
