import FiniteDomain.AllDifferent.Propagation
import FiniteDomain.Proofs.Store.Levels
import FiniteDomain.Proofs.AllDifferent.Components
import FiniteDomain.Proofs.AllDifferent.ForwardCheck
import FiniteDomain.Proofs.AllDifferent.Matching
import FiniteDomain.Proofs.AllDifferent.Reach
import FiniteDomain.Proofs.AllDifferent.Sights

/-!
# The state of an all different propagator

What a propagator keeps in cells is read in frames: `AllDifferent.sight` is what it shows in one.

* `Fitted` holds of a propagator and its store whatever the cells hold, and `Shows` says that the
  cells hold something sensible in one frame.  Both together, for the present, are `Sound`.
* `Carries` says that a store takes the place of another one as far as a propagator is concerned.
  Variables and cells may be added, domains narrowed, and levels saved and restored:
  `Carries.of_evolves`, `Carries.of_grown`, `Carries.of_save`, `Carries.of_restored`.
* `Advance` is what the propagator itself does in a run.  The frames of the past show what they
  showed, though the permutations have changed (`Advance.sight_eq`).
-/

namespace FiniteDomain.AllDifferent

open ValueGraph

variable {p p' p'' : AllDifferent} {s s' s'' : Store} {w : Frame}

/-- A cell of the propagator. -/
def Owns (p : AllDifferent) (c : Cell) : Prop :=
  p.graph.Owns c ∨ c ∈ p.tagging.tags ∨ c = p.reach.previous

/-- What the propagator shows in a frame.  There are no domains beyond those of its variables. -/
def sight (p : AllDifferent) (s : Store) (w : Frame) : Sight where
  vars := p.graph.varTotal
  val := p.graph.val
  graph := p.graph.snapshot (p.graph.registers w)
  domains x := if x < p.graph.varTotal then p.graph.views s (s.domainIn w) x else ∅
  tag := p.tagging.tagIn w
  limit := (w.get p.reach.previous).toNat

/-- What the propagator shows now. -/
def shown (p : AllDifferent) (s : Store) : Sight := p.sight s s.trail.now

theorem sight_domains {x : Nat} (hx : x < p.graph.varTotal) :
    (p.sight s w).domains x = p.graph.views s (s.domainIn w) x := if_pos hx

theorem shown_domains {x : Nat} (hx : x < p.graph.varTotal) :
    (p.shown s).domains x = p.graph.domains s x := if_pos hx

/-- The propagator sees the same domains as long as they are the same. -/
theorem shown_domains_congr (hgraph : p'.graph = p.graph)
    (h : ∀ x < p.graph.varTotal, p.graph.domains s' x = p.graph.domains s x) :
    (p'.shown s').domains = (p.shown s).domains := by
  funext x
  by_cases hx : x < p.graph.varTotal
  · rw [shown_domains hx, shown_domains (hgraph ▸ hx), hgraph, h x hx]
  · exact (if_neg (hgraph ▸ hx)).trans (if_neg hx).symm

/-! ## The invariant -/

/-- What holds of a propagator and its store whatever the cells hold. -/
structure Fitted (p : AllDifferent) (s : Store) : Prop where
  store : s.Sound
  layout : p.graph.Layout
  wired : p.graph.Wired s
  anchored : p.graph.Anchored s
  tags_fit : p.tagging.Fit p.graph.varTotal
  tags_wired : p.tagging.Wired s
  tags_apart : ∀ d, p.graph.Owns d → d ∉ p.tagging.tags
  idle : p.tagging.Idle
  matcher : p.matcher.Fit p.graph
  reached : p.reach.reached.Fit p.graph.varTotal
  previous_has : s.trail.now.Has p.reach.previous
  previous_free : s.Free p.reach.previous
  previous_apart : ¬ p.graph.Owns p.reach.previous ∧ p.reach.previous ∉ p.tagging.tags
  work_nodup : p.work.waiting.Nodup
  work_lt : ∀ x ∈ p.work.waiting, x < p.graph.varTotal

/-- The variables exist in a frame, and the cells hold a matching along live edges, which allow for
the domains, tags that were given, and how many variables were reached. -/
structure Shows (p : AllDifferent) (s : Store) (w : Frame) : Prop where
  has : ∀ c, p.Owns c → w.Has c
  vars_lt : ∀ x < p.graph.varTotal, (p.graph.varOf x).index < s.varsIn w
  intact : p.graph.Intact (p.graph.registers w)
  matched : (p.sight s w).graph.Matched
  fits : (p.sight s w).graph.Fits p.graph.val (p.sight s w).domains p.graph.varTotal
  tags : ∀ x < p.graph.varTotal,
    -1 ≤ p.tagging.tagIn w x ∧ p.tagging.tagIn w x < p.tagging.nextTag
  limit_eq : w.get p.reach.previous = (p.sight s w).limit
  limit_le : (p.sight s w).limit ≤ p.graph.varTotal

/-- What holds of a propagator and its store at all times. -/
structure Sound (p : AllDifferent) (s : Store) : Prop extends Fitted p s where
  shows : p.Shows s s.trail.now

theorem Fitted.has (h : p.Fitted s) {c : Cell} (hc : p.Owns c) : s.trail.now.Has c := by
  obtain hc | hc | rfl := hc
  · exact h.wired.has c hc
  · exact h.tags_wired.has c hc
  · exact h.previous_has

theorem Fitted.free (h : p.Fitted s) {c : Cell} (hc : p.Owns c) : s.Free c := by
  obtain hc | hc | rfl := hc
  · exact h.wired.free c hc
  · exact h.tags_wired.free c hc
  · exact h.previous_free

/-- The value graph is sound if its cells hold counts that fit. -/
theorem Fitted.graph (h : p.Fitted s) (hi : p.graph.Intact (p.graph.now s)) : p.graph.Sound s :=
  ⟨h.store, h.layout, h.wired, hi⟩

namespace Sound

/-- The value graph is sound. -/
theorem graph (h : p.Sound s) : p.graph.Sound s := h.toFitted.graph h.shows.intact

/-- The tags can be given anew. -/
theorem ready (h : p.Sound s) : Tagging.Ready p.graph p.tagging s :=
  ⟨⟨h.graph, h.tags_fit, h.tags_wired, h.tags_apart⟩, h.idle, h.shows.tags⟩

theorem within (h : p.Sound s) :
    (p.shown s).graph.Within p.graph.varTotal p.graph.valueTotal p.graph.val :=
  h.graph.within

end Sound

/-! ## What others do -/

/-- The store `s'` takes the place of `s` for the propagator. -/
structure Carries (p : AllDifferent) (s s' : Store) : Prop where
  store : s'.Sound
  has : ∀ c, p.Owns c → s'.trail.now.Has c
  free : ∀ c, p.Owns c → s'.Free c
  var_lt : ∀ x < p.graph.varTotal, (p.graph.varOf x).index < s'.definitions.size
  path_eq : ∀ x < p.graph.varTotal, s'.path (p.graph.varOf x) = s.path (p.graph.varOf x)
  reads : ∀ x < p.graph.varTotal, ∀ v, s.Reads (p.graph.varOf x) v → s'.Reads (p.graph.varOf x) v

/-- A propagator fits the store that takes the place of its own. -/
theorem Fitted.carry (h : p.Fitted s) (hc : Carries p s s') : p.Fitted s' where
  store := hc.store
  layout := h.layout
  wired := ⟨h.wired.distinct, fun c ho => hc.has c (Or.inl ho), fun c ho => hc.free c (Or.inl ho)⟩
  anchored := ⟨hc.var_lt, fun x hx => by rw [hc.path_eq x hx]; exact h.anchored.source_eq x hx,
    fun e he => hc.reads _ (h.layout.tail_lt e he) _ (h.anchored.reads e he)⟩
  tags_fit := h.tags_fit
  tags_wired := ⟨h.tags_wired.distinct, fun d hd => hc.has d (Or.inr (Or.inl hd)),
    fun d hd => hc.free d (Or.inr (Or.inl hd))⟩
  tags_apart := h.tags_apart
  idle := h.idle
  matcher := h.matcher
  reached := h.reached
  previous_has := hc.has _ (Or.inr (Or.inr rfl))
  previous_free := hc.free _ (Or.inr (Or.inr rfl))
  previous_apart := h.previous_apart
  work_nodup := h.work_nodup
  work_lt := h.work_lt

/-- The store changed within a level. -/
theorem Carries.of_evolves {C : Cell → Prop} (h : p.Fitted s) (he : Store.Evolves C s s') :
    Carries p s s' :=
  ⟨he.sound, fun _ hc => he.has (h.has hc), fun _ hc => he.free (h.free hc),
    fun x hx => by rw [he.definitions_eq]; exact h.anchored.var_lt x hx,
    fun _ _ => he.path_eq _, fun _ _ _ hv => he.reads_iff.2 hv⟩

/-- Cells or variables were added. -/
theorem Carries.of_grown (h : p.Fitted s) (hg : Store.Grown s s') : Carries p s s' :=
  ⟨hg.sound, fun c hc => hg.has c (h.has hc), fun c hc => hg.free c (h.has hc) (h.free hc),
    fun x hx => Nat.lt_of_lt_of_le (h.anchored.var_lt x hx) hg.definitions_le,
    fun x hx => hg.path_eq h.store (h.anchored.var_lt x hx),
    fun x hx _ hv => hg.reads h.store (h.anchored.var_lt x hx) hv⟩

/-- A level was saved. -/
theorem Carries.of_save (h : p.Fitted s) : Carries p s s.save := by
  obtain ⟨hnow, _, _⟩ := Trail.save_eq h.store.trail.tracked
  refine ⟨h.store.save, fun c hc => ?_, fun c hc => ?_, h.anchored.var_lt, fun _ _ => rfl,
    fun _ _ _ hv => hv⟩
  · show s.trail.save.now.Has c
    rw [hnow]
    exact h.has hc
  · exact ⟨(h.free hc).not_isSetCell, (h.free hc).ne_varCount, (h.free hc).ne_eventCount⟩

/-- A level was restored in which there was the propagator. -/
theorem Carries.of_restored (h : p.Fitted s) {rest : List Frame} (hr : Store.Restored s s' w rest)
    (hw : w ∈ s.trail.frames) (hshows : p.Shows s w) : Carries p s s' := by
  have hle := (h.store.counts w hw).vars_le
  have hpath : ∀ x < p.graph.varTotal, s'.path (p.graph.varOf x) = s.path (p.graph.varOf x) :=
    fun x hx => hr.path_eq h.store (hshows.vars_lt x hx) hle
  refine ⟨hr.sound, fun c hc => ?_, fun c hc => hr.free (h.free hc), fun x hx => ?_, hpath,
    fun x hx _ hv => hr.reads (hpath x hx) hv⟩
  · rw [hr.now_eq]
    exact hshows.has c hc
  · rw [hr.definitions_eq, Trail.size_shrink hle]
    exact hshows.vars_lt x hx

/-! ## Frames that stay the same -/

/-- The primitive variable of a variable that exists in a frame exists there as well. -/
theorem Fitted.source_lt (h : p.Fitted s) {x : Nat} (hx : x < p.graph.varTotal) {k : Nat}
    (hlt : (p.graph.varOf x).index < k) : (p.graph.sourceOf x).index < k :=
  Nat.lt_of_le_of_lt (h.anchored.source_le h.store hx) hlt

/-- The domains that the propagator sees in a frame. -/
theorem Fitted.sight_eq (h : p.Fitted s) (hc : Carries p s s')
    (hdom : ∀ x < p.graph.varTotal,
      s'.domainIn w (p.graph.sourceOf x) = s.domainIn w (p.graph.sourceOf x)) :
    p.sight s' w = p.sight s w := by
  have hviews : ∀ x < p.graph.varTotal,
      p.graph.views s' (s'.domainIn w) x = p.graph.views s (s.domainIn w) x := by
    intro x hx
    rw [← h.anchored.views_congr hx (hdom x hx), views, views,
      Store.viewFrom_congr (hc.path_eq x hx)]
  rw [sight, sight]
  congr 1
  funext x
  by_cases hx : x < p.graph.varTotal
  · rw [if_pos hx, if_pos hx, hviews x hx]
  · rw [if_neg hx, if_neg hx]

/-- A frame in which the propagator shows the same, and the variables exist. -/
theorem Shows.congr (h : p.Shows s w) (heq : p.sight s' w = p.sight s w)
    (hvars : s.varsIn w ≤ s'.varsIn w) : p.Shows s' w :=
  ⟨h.has, fun x hx => Nat.lt_of_lt_of_le (h.vars_lt x hx) hvars, h.intact,
    by rw [heq]; exact h.matched, by rw [heq]; exact h.fits, h.tags, by rw [heq]; exact h.limit_eq,
    by rw [heq]; exact h.limit_le⟩

/-! ## Narrowed domains -/

theorem registers_congr {w' : Frame} (hget : ∀ c, p.Owns c → w'.get c = w.get c) :
    p.graph.registers w' = p.graph.registers w := by
  funext r
  rw [registers, registers]
  split
  · rename_i c hc
    exact hget c (Or.inl ⟨r, hc⟩)
  · rfl

theorem tagIn_congr {c : Tagging} {w' : Frame} (hget : ∀ d ∈ c.tags, w'.get d = w.get d) :
    c.tagIn w' = c.tagIn w := by
  funext x
  rw [Tagging.tagIn, Tagging.tagIn]
  split
  · rename_i d hd
    exact hget d (Array.mem_of_getElem? hd)
  · rfl

/-- A frame that holds the same in the cells of a propagator may differ in the domains. -/
theorem sight_narrow {w' : Frame} (hget : ∀ c, p.Owns c → w'.get c = w.get c) :
    p.sight s' w' = (p.sight s w).narrow (p.sight s' w').domains := by
  have htags := tagIn_congr fun d hd => hget d (Or.inr (Or.inl hd))
  simp only [sight, Sight.narrow, registers_congr hget, htags, hget _ (Or.inr (Or.inr rfl))]

/-- What a frame shows when it holds the same in the cells, and the domains are smaller. -/
theorem Shows.narrow {w' : Frame} (h : p.Shows s w) (hget : ∀ c, p.Owns c → w'.get c = w.get c)
    (hhas : ∀ c, p.Owns c → w'.Has c)
    (hvars : ∀ x < p.graph.varTotal, (p.graph.varOf x).index < s'.varsIn w')
    (hdom : ∀ x < p.graph.varTotal, (p.sight s' w').domains x ⊆ (p.sight s w).domains x) :
    p.Shows s' w' := by
  have hsight := @sight_narrow p s s' _ _ hget
  have hgraph : (p.sight s' w').graph = (p.sight s w).graph := by
    rw [hsight, Sight.narrow_graph]
  have htag : p.tagging.tagIn w' = p.tagging.tagIn w := congrArg Sight.tag hsight
  have hlimit : (p.sight s' w').limit = (p.sight s w).limit := by rw [hsight]; rfl
  refine ⟨hhas, hvars, by rw [registers_congr hget]; exact h.intact,
    by rw [hgraph]; exact h.matched, ?_, by rw [htag]; exact h.tags, ?_,
    by rw [hlimit]; exact h.limit_le⟩
  · rw [hgraph]
    exact h.fits.mono hdom
  · rw [hget _ (Or.inr (Or.inr rfl)), hlimit]
    exact h.limit_eq

/-- The domains are smaller when others narrowed them. -/
theorem domains_subset_of_evolves {C : Cell → Prop} (he : Store.Evolves C s s') {x : Nat}
    (hx : x < p.graph.varTotal) : (p.shown s').domains x ⊆ (p.shown s).domains x := by
  rw [shown_domains hx, shown_domains hx]
  exact domains_subset (.refl _) he x

/-- Whatever others do to the domains, the propagator stays sound. -/
theorem Sound.of_evolves {C : Cell → Prop} (h : p.Sound s) (he : Store.Evolves C s s')
    (hC : ∀ c, p.Owns c → ¬ C c) :
    p.Sound s' ∧ p.shown s' = (p.shown s).narrow (p.shown s').domains := by
  have hget : ∀ c, p.Owns c → s'.trail.now.get c = s.trail.now.get c :=
    fun c hc => he.get_eq c (h.free hc).not_isSetCell (hC c hc)
  have hcarries := Carries.of_evolves h.toFitted he
  refine ⟨⟨h.toFitted.carry hcarries, h.shows.narrow hget hcarries.has (fun x hx => ?_)
    fun x hx => domains_subset_of_evolves he hx⟩, sight_narrow hget⟩
  rw [he.sound.vars_now]
  exact hcarries.var_lt x hx

/-- Nothing changes for the propagator when cells or variables are added. -/
theorem Sound.of_grown (h : p.Sound s) (hg : Store.Grown s s') :
    p.Sound s' ∧ p.shown s' = p.shown s := by
  have hget : ∀ c, p.Owns c → s'.trail.now.get c = s.trail.now.get c :=
    fun c hc => hg.get_eq c (h.has hc) (h.free hc)
  have hcarries := Carries.of_grown h.toFitted hg
  have hdom : (p.shown s').domains = (p.shown s).domains :=
    shown_domains_congr rfl fun x hx => hg.view_eq h.store (h.anchored.var_lt x hx)
  refine ⟨⟨h.toFitted.carry hcarries, h.shows.narrow hget hcarries.has (fun x hx => ?_)
    fun x hx => ?_⟩, ?_⟩
  · rw [hcarries.store.vars_now]
    exact hcarries.var_lt x hx
  · show (p.shown s').domains x ⊆ (p.shown s).domains x
    rw [hdom]
  · rw [shown, sight_narrow (s := s) hget]
    show (p.shown s).narrow (p.shown s').domains = p.shown s
    rw [hdom]
    rfl

/-! ## What the propagator does -/

/-- What the propagator does within a run: it narrows domains and writes its own cells.  It removes no
value that belongs to supported domains, and what was seen from above is seen as it was. -/
structure Advance (p : AllDifferent) (s : Store) (p' : AllDifferent) (s' : Store) : Prop where
  sound : p'.Sound s'
  evolves : Store.Evolves p.Owns s s'
  alike : Alike p.graph p'.graph
  tags_eq : p'.tagging.tags = p.tagging.tags
  nextTag_le : p.tagging.nextTag ≤ p'.tagging.nextTag
  previous_eq : p'.reach.previous = p.reach.previous
  options_eq : p'.options = p.options
  below : Above (p'.graph.now s') (p.graph.now s)
  live_iff : ∀ ρ, Above (p.graph.now s) ρ → ∀ e, p'.graph.Live ρ e ↔ p.graph.Live ρ e
  active_iff : ∀ ρ, Above (p.graph.now s) ρ → ∀ x, p'.graph.Active ρ x ↔ p.graph.Active ρ x
  keeps : ∀ F, p.graph.Supports s F → (∀ q, F q ⊆ s.domain q) → ∀ q, F q ⊆ s'.domain q

namespace Advance

theorem refl (h : p.Sound s) : Advance p s p s :=
  ⟨h, .refl _ h.store, .refl _, rfl, Nat.le_refl _, rfl, rfl, .refl _, fun _ _ _ => Iff.rfl,
    fun _ _ _ => Iff.rfl, fun _ _ hle => hle⟩

theorem owns_iff (h : Advance p s p' s') {c : Cell} : p'.Owns c ↔ p.Owns c := by
  rw [Owns, Owns, h.alike.owns_iff, h.tags_eq, h.previous_eq]

theorem supports_iff (h : Advance p s p' s') {F : Var → Finset Int} :
    p'.graph.Supports s' F ↔ p.graph.Supports s F :=
  supports_congr h.alike h.evolves.path_eq

theorem trans (h : Advance p s p' s') (h' : Advance p' s' p'' s'') : Advance p s p'' s'' where
  sound := h'.sound
  evolves := h.evolves.trans (h'.evolves.mono fun _ hc => h.owns_iff.1 hc)
  alike := h.alike.trans h'.alike
  tags_eq := h'.tags_eq.trans h.tags_eq
  nextTag_le := Nat.le_trans h.nextTag_le h'.nextTag_le
  previous_eq := h'.previous_eq.trans h.previous_eq
  options_eq := h'.options_eq.trans h.options_eq
  below := h'.below.trans h.below
  live_iff ρ hρ e := (h'.live_iff ρ (h.below.trans hρ) e).trans (h.live_iff ρ hρ e)
  active_iff ρ hρ x := (h'.active_iff ρ (h.below.trans hρ) x).trans (h.active_iff ρ hρ x)
  keeps F hF hle := h'.keeps F (h.supports_iff.2 hF) (h.keeps F hF hle)

theorem domains_subset (h : Advance p s p' s') (x : Nat) :
    p'.graph.domains s' x ⊆ p.graph.domains s x :=
  ValueGraph.domains_subset h.alike h.evolves x

/-- No variable lost all values. -/
theorem filled (h : Advance p s p' s') (halive : s.Alive s') {x : Nat} (hx : x < p.graph.varTotal)
    (hne : (p.shown s).domains x ≠ ∅) : (p'.shown s').domains x ≠ ∅ := by
  rw [shown_domains hx, domains_eq] at hne
  rw [shown_domains (h.alike.varTotal_eq ▸ hx), domains_eq, h.alike.varOf_eq]
  exact halive.view (h.evolves.path_eq _) hne

/-- No edge becomes live. -/
theorem live_of_live (h : Advance p s p' s') {e : Nat} (he : p'.graph.Live (p'.graph.now s') e) :
    p.graph.Live (p.graph.now s) e :=
  (h.live_iff _ (.refl _) e).1 (h.below.live he)

/-- Without a choice before there is none afterwards. -/
theorem hopeless (h : Advance p s p' s')
    (hp : AllDifferent.Hopeless (p.graph.domains s) p.graph.varTotal) :
    AllDifferent.Hopeless (p'.graph.domains s') p'.graph.varTotal := by
  rw [h.alike.varTotal_eq]
  exact hp.mono fun x _ => h.domains_subset x

end Advance

/-- The same edges are live, and the same variables active, where the cells hold what they hold. -/
theorem snapshot_congr {g g' : ValueGraph} (ha : Alike g g') {ρ : Registers}
    (hlive : ∀ e, g'.Live ρ e ↔ g.Live ρ e) (hactive : ∀ x, g'.Active ρ x ↔ g.Active ρ x) :
    g'.snapshot ρ = g.snapshot ρ := by
  simp only [snapshot, ha.varTotal_eq, ha.edgeTotal_eq, ha.tail_eq, ha.head_eq, hlive, hactive]

namespace Advance

/-- A frame of the past from which the propagator sees at least as much as now shows what it
showed. -/
theorem past (h : Advance p s p' s') (hs : p.Fitted s) (hw : w ∈ s.trail.past)
    (habove : Above (p.graph.now s) (p.graph.registers w)) (hshows : p.Shows s w) :
    p'.sight s' w = p.sight s w ∧ p'.Shows s' w := by
  have hsnap := snapshot_congr h.alike (h.live_iff _ habove) (h.active_iff _ habove)
  have hvars : s'.varsIn w = s.varsIn w := h.evolves.varsIn_eq w
  have hsight : p'.sight s' w = p.sight s w := by
    have hold : p.sight s' w = p.sight s w := hs.sight_eq (.of_evolves hs h.evolves) fun x hx =>
      h.evolves.domainIn_past hs.store hw (hs.source_lt hx (hshows.vars_lt x hx))
    rw [← hold, sight, sight]
    simp only [h.alike.varTotal_eq, h.alike.val_eq, h.alike.registers_eq, hsnap, h.previous_eq,
      views, h.alike.varOf_eq]
    congr 1
    funext x
    rw [Tagging.tagIn, Tagging.tagIn, h.tags_eq]
  refine ⟨hsight, fun c hc => hshows.has c (h.owns_iff.1 hc), fun x hx => ?_, ?_,
    by rw [hsight]; exact hshows.matched, ?_, fun x hx => ?_, ?_, ?_⟩
  · rw [h.alike.varOf_eq, hvars]
    exact hshows.vars_lt x (h.alike.varTotal_eq ▸ hx)
  · rw [h.alike.registers_eq]
    exact hshows.intact.congr h.alike (h.live_iff _ habove)
  · rw [hsight, h.alike.val_eq, h.alike.varTotal_eq]
    exact hshows.fits
  · have htags := hshows.tags x (h.alike.varTotal_eq ▸ hx)
    rw [Tagging.tagIn, h.tags_eq]
    exact ⟨htags.1, Int.lt_of_lt_of_le htags.2 (Int.ofNat_le.2 h.nextTag_le)⟩
  · rw [hsight, h.previous_eq]
    exact hshows.limit_eq
  · rw [hsight, h.alike.varTotal_eq]
    exact hshows.limit_le

end Advance

end FiniteDomain.AllDifferent
