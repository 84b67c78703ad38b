import FiniteDomain.Proofs.AllDifferent.Build
import FiniteDomain.Proofs.AllDifferent.Propagation

/-!
# A new propagator

A propagator is made for the present domains.  Its graph shows them, nothing is matched or grounded,
and all its cells are new: `new_eq`.
-/

namespace FiniteDomain.AllDifferent

open ValueGraph

variable {p : AllDifferent} {s s' s'' : Store} {vars : Array Var} {options : Options}

/-- The propagator `p` of the variables was made. -/
structure Created (s : Store) (vars : Array Var) (options : Options) (p : AllDifferent)
    (s' : Store) : Prop where
  grown : Store.Grown s s'
  definitions_eq : s'.definitions = s.definitions
  vars_eq : p.graph.vars = vars
  options_eq : p.options = options
  ready_eq : p.ready = false
  work_eq : p.work = .empty
  new : ∀ c, p.Owns c → ¬ s.trail.now.Has c
  sound : p.Sound s'
  trusted : (p.shown s').Trusted
  tidy : (p.shown s').Tidy fun _ => False
  active : ∀ x < p.graph.varTotal, x ∈ (p.shown s').graph.active
  mate : ∀ x, (p.shown s').graph.mate x = none

/-! ## The parts -/

/-- The cells of a graph hold what they held after more cells were made. -/
theorem ValueGraph.Sound.now_of_grown {g : ValueGraph} (h : g.Sound s) (hg : Store.Grown s s') :
    g.now s' = g.now s := by
  funext r
  rw [now, now, registers, registers]
  split
  · rename_i c hc
    exact hg.get_eq c (h.wired.has c ⟨r, hc⟩) (h.wired.free c ⟨r, hc⟩)
  · rfl

/-- A graph stays sound when cells are made. -/
theorem ValueGraph.Sound.of_grown {g : ValueGraph} (h : g.Sound s) (hg : Store.Grown s s') :
    g.Sound s' :=
  ⟨hg.sound, h.layout, ⟨h.wired.distinct, fun c hc => hg.has c (h.wired.has c hc),
    fun c hc => hg.free c (h.wired.has c hc) (h.wired.free c hc)⟩,
    by rw [h.now_of_grown hg]; exact h.intact⟩

/-- A graph stays sound when a level is saved. -/
theorem ValueGraph.Sound.save {g : ValueGraph} (h : g.Sound s) :
    g.Sound s.save ∧ g.now s.save = g.now s := by
  obtain ⟨hnow, _, _⟩ := Trail.save_eq h.store.trail.tracked
  have hnow : s.save.trail.now = s.trail.now := hnow
  have hsame : g.now s.save = g.now s := congrArg g.registers hnow
  refine ⟨⟨h.store.save, h.layout, ⟨h.wired.distinct, fun c hc => ?_, fun c hc => ?_⟩,
    hsame.symm ▸ h.intact⟩, hsame⟩
  · rw [hnow]
    exact h.wired.has c hc
  · have hfree := h.wired.free c hc
    exact ⟨hfree.not_isSetCell, hfree.ne_varCount, hfree.ne_eventCount⟩

/-- A graph is sound again when a level is restored in which its cells held what they should. -/
theorem ValueGraph.Sound.restored {g : ValueGraph} {w : Frame} {rest : List Frame} (h : g.Sound s)
    (hr : Store.Restored s s' w rest) (hhas : ∀ c, g.Owns c → w.Has c)
    (hi : g.Intact (g.registers w)) : g.Sound s' ∧ g.now s' = g.registers w := by
  have hsame : g.now s' = g.registers w := congrArg g.registers hr.now_eq
  refine ⟨⟨hr.sound, h.layout, ⟨h.wired.distinct, fun c hc => ?_,
    fun c hc => hr.free (h.wired.free c hc)⟩, hsame.symm ▸ hi⟩, hsame⟩
  rw [hr.now_eq]
  exact hhas c hc

theorem ValueGraph.Anchored.of_grown {g : ValueGraph} (h : g.Anchored s) (hs : s.Sound)
    (hl : g.Layout) (hg : Store.Grown s s') : g.Anchored s' := by
  refine ⟨fun x hx => Nat.lt_of_lt_of_le (h.var_lt x hx) hg.definitions_le, fun x hx => ?_,
    fun e he => hg.reads hs (h.var_lt _ (hl.tail_lt e he)) (h.reads e he)⟩
  rw [hg.path_eq hs (h.var_lt x hx)]
  exact h.source_eq x hx

/-- New tags, all of them the same. -/
structure Labelled (s : Store) (n : Nat) (c : Tagging) (s' : Store) : Prop where
  grown : Store.Grown s s'
  definitions_eq : s'.definitions = s.definitions
  fit : c.Fit n
  wired : c.Wired s'
  idle : c.Idle
  new : ∀ d ∈ c.tags, ¬ s.trail.now.Has d
  tag_eq : ∀ x < n, c.tagIn s'.trail.now x = -1
  nextTag_eq : c.nextTag = 0

theorem Tagging.new_eq (hs : s.Sound) (n : Nat) :
    Labelled s n (Tagging.new s n).1 (Tagging.new s n).2 := by
  have hm := Store.newCells_made hs (List.replicate n (-1))
  rw [Tagging.new]
  generalize s.newCells (List.replicate n (-1)) = made at hm ⊢
  obtain ⟨tags, s₁⟩ := made
  dsimp only at hm ⊢
  have hsize : tags.size = n := by rw [hm.size_eq, List.length_replicate]
  have hgetD : ∀ {α : Type} (a : α) (x : Nat), (Array.replicate n a).getD x a = a := by
    intro α a x
    rw [Array.getD_eq_getD_getElem?, Array.getElem?_replicate]
    split <;> rfl
  refine ⟨hm.grown, hm.definitions_eq, ⟨hsize, Array.size_replicate, Array.size_replicate,
    Array.size_replicate, Array.size_replicate, fun x _ => ?_⟩,
    ⟨fun x y d hx hy => ?_, hm.has, hm.free⟩, ⟨hgetD none, rfl, rfl, hgetD outside⟩, hm.new,
    fun x hx => ?_, rfl⟩
  · rw [hgetD]
    rfl
  · obtain ⟨hlt, _⟩ := Array.getElem?_eq_some_iff.1 hx
    rw [← Array.getElem?_toList] at hx hy
    exact (List.getElem?_inj hlt hm.nodup).1 (hx.trans hy.symm)
  · have hlt : x < tags.size := hsize.symm ▸ hx
    have hget := hm.get_eq x _ (Array.getElem?_eq_getElem hlt)
    rw [List.getElem?_replicate, if_pos hx, Option.some.injEq] at hget
    rw [Tagging.tagIn]
    dsimp only
    rw [Array.getElem?_eq_getElem hlt]
    exact hget.symm

/-! ## The whole propagator -/

/-- The propagator that is made of a graph, its tags, and the cell that keeps the limit. -/
def fresh (options : Options) (g : ValueGraph) (c : Tagging) (previous : Cell) : AllDifferent :=
  { options, graph := g, matcher := .new g.varTotal g.valueTotal, tagging := c
    reach := ⟨.blank g.varTotal, previous, 0⟩, work := .empty, ready := false }

/-- The parts were made one after the other. -/
structure Parts (s : Store) (vars : Array Var) (g : ValueGraph) (c : Tagging) (previous : Cell)
    (s₁ s₂ s' : Store) : Prop where
  built : Built s vars g s₁
  labelled : Labelled s₁ g.varTotal c s₂
  grown : Store.Grown s₂ s'
  has : s'.trail.now.Has previous
  get_eq : s'.trail.now.get previous = g.varTotal
  free : s'.Free previous
  new : ¬ s₂.trail.now.Has previous
  definitions_eq : s'.definitions = s₂.definitions

namespace Parts

variable {g : ValueGraph} {c : Tagging} {previous : Cell} {s₁ s₂ : Store}

/-- What was made after the graph. -/
theorem grown_graph (h : Parts s vars g c previous s₁ s₂ s') : Store.Grown s₁ s' :=
  h.labelled.grown.trans h.grown

theorem tagIn_eq (h : Parts s vars g c previous s₁ s₂ s') {x : Nat} (hx : x < g.varTotal) :
    c.tagIn s'.trail.now x = -1 := by
  rw [← h.labelled.tag_eq x hx]
  refine congrFun (tagIn_congr fun d hd => ?_) x
  exact h.grown.get_eq d (h.labelled.wired.has d hd) (h.labelled.wired.free d hd)

/-- The parts of the propagator fit together. -/
theorem fitted (h : Parts s vars g c previous s₁ s₂ s') (options : Options) :
    (fresh options g c previous).Fitted s' := by
  have hb := h.built.sound
  have ht := h.labelled
  have hold : ∀ d, g.Owns d → s₁.trail.now.Has d := hb.wired.has
  exact {
    store := h.grown.sound
    layout := hb.layout
    wired := (hb.of_grown h.grown_graph).wired
    anchored := h.built.anchored.of_grown hb.store hb.layout h.grown_graph
    tags_fit := ht.fit
    tags_wired := ⟨ht.wired.distinct, fun d hd => h.grown.has d (ht.wired.has d hd),
      fun d hd => h.grown.free d (ht.wired.has d hd) (ht.wired.free d hd)⟩
    tags_apart := fun d ho hd => ht.new d hd (hold d ho)
    idle := ht.idle
    matcher := .new g
    reached := .blank _
    previous_has := h.has
    previous_free := h.free
    previous_apart := ⟨fun ho => h.new (ht.grown.has _ (hold _ ho)),
      fun hd => h.new (ht.wired.has _ hd)⟩
    work_nodup := List.nodup_nil
    work_lt := fun _ hx => nomatch hx }

/-- The graph shows what it showed when it was built. -/
theorem shown_graph (h : Parts s vars g c previous s₁ s₂ s') (options : Options) :
    ((fresh options g c previous).shown s').graph = g.snapshot (g.now s₁) := by
  rw [← h.built.sound.now_of_grown h.grown_graph]
  rfl

theorem shown_limit (h : Parts s vars g c previous s₁ s₂ s') (options : Options) :
    ((fresh options g c previous).shown s').limit = g.varTotal := by
  show (s'.trail.now.get previous).toNat = _
  rw [h.get_eq]
  rfl

theorem active (h : Parts s vars g c previous s₁ s₂ s') (options : Options) :
    ∀ x < g.varTotal, x ∈ ((fresh options g c previous).shown s').graph.active := by
  rw [h.shown_graph]
  exact h.built.active

theorem mate (h : Parts s vars g c previous s₁ s₂ s') (options : Options) :
    ∀ x, ((fresh options g c previous).shown s').graph.mate x = none := by
  rw [h.shown_graph]
  exact h.built.mate

theorem owner (h : Parts s vars g c previous s₁ s₂ s') (options : Options) :
    ∀ v, ((fresh options g c previous).shown s').graph.owner v = none := by
  rw [h.shown_graph]
  exact h.built.owner

/-- The live edges are the values of the domains. -/
theorem mem_domains (h : Parts s vars g c previous s₁ s₂ s') (options : Options) {x : Nat}
    (hx : x < g.varTotal) (u : Int) :
    u ∈ ((fresh options g c previous).shown s').domains x ↔
      ∃ v ∈ ((fresh options g c previous).shown s').graph.live x, g.val v = u := by
  rw [shown_domains (p := fresh options g c previous) hx, h.shown_graph, ← h.built.live x hx,
    domains_eq, domains_eq]
  show u ∈ s'.view (g.varOf x) ↔ _
  rw [h.grown_graph.view_eq h.built.sound.store (h.built.anchored.var_lt x hx)]

/-- The present frame shows a sight. -/
theorem shows (h : Parts s vars g c previous s₁ s₂ s') (options : Options) :
    (fresh options g c previous).Shows s' s'.trail.now := by
  have hmate := h.mate options
  have howner := h.owner options
  have hlimit := h.shown_limit options
  exact {
    has := fun _ hc => (h.fitted options).has hc
    vars_lt := fun x hx => by
      rw [h.grown.sound.vars_now]
      exact (h.fitted options).anchored.var_lt x hx
    intact := (h.built.sound.of_grown h.grown_graph).intact
    matched := ⟨fun x _ hv => (nomatch (hmate x).symm.trans hv),
      fun v _ hv => (nomatch (howner v).symm.trans hv),
      fun x _ hv => (nomatch (hmate x).symm.trans hv)⟩
    fits := fun x hx u => (h.mem_domains options hx u).1
    tags := fun x hx => by
      show -1 ≤ c.tagIn s'.trail.now x ∧ c.tagIn s'.trail.now x < (c.nextTag : Int)
      rw [h.tagIn_eq hx, h.labelled.nextTag_eq]
      decide
    limit_eq := by
      show s'.trail.now.get previous = (((fresh options g c previous).shown s').limit : Int)
      rw [hlimit]
      exact h.get_eq
    limit_le := Nat.le_of_eq hlimit }

/-- Nothing was deduced yet that could be wrong. -/
theorem trusted (h : Parts s vars g c previous s₁ s₂ s') (options : Options) :
    ((fresh options g c previous).shown s').Trusted := by
  have hactive := h.active options
  have hlt : ∀ {x}, x ∈ ((fresh options g c previous).shown s').graph.active → x < g.varTotal := by
    rw [h.shown_graph]
    exact fun hx => h.built.sound.within.active_lt _ hx
  refine ⟨fun φ _ x hx hxa => absurd (hactive x hx) hxa, ⟨∅, ⟨Finset.empty_subset _, by simp⟩, ?_⟩,
    fun x y _ hx hy => ?_, Or.inr fun x _ => h.mate options x⟩
  · rw [Finset.sdiff_empty, h.shown_limit, ← Finset.card_range g.varTotal]
    exact Finset.card_le_card fun x hx => Finset.mem_range.2 (hlt hx)
  · show c.tagIn s'.trail.now x = c.tagIn s'.trail.now y
    rw [h.tagIn_eq (hlt hx), h.tagIn_eq (hlt hy)]

/-- The live edges are no more than the values of the domains. -/
theorem tidy (h : Parts s vars g c previous s₁ s₂ s') (options : Options) :
    ((fresh options g c previous).shown s').Tidy fun _ => False := by
  have hactive := h.active options
  refine ⟨fun x hx => Or.inr fun v hv => ?_, fun x hx hxa => absurd (hactive x hx) hxa,
    fun x hx hxa => absurd (hactive x hx) hxa⟩
  exact (h.mem_domains options hx _).2 ⟨v, hv, rfl⟩

/-- All cells of the propagator are new. -/
theorem not_has (h : Parts s vars g c previous s₁ s₂ s') {options : Options} {d : Cell}
    (hd : (fresh options g c previous).Owns d) : ¬ s.trail.now.Has d := by
  intro hin
  have hin₁ := h.built.grown.has d hin
  obtain hd | hd | rfl := hd
  · exact h.built.new d hd hin
  · exact h.labelled.new d hd hin₁
  · exact h.new (h.labelled.grown.has _ hin₁)

end Parts

/-- A new propagator is put together from its parts. -/
theorem exists_parts (hs : s.Sound) (hvars : ∀ x ∈ vars, x.index < s.definitions.size)
    (hret : new s vars options = .ok (p, s')) :
    ∃ g c previous s₁ s₂, p = fresh options g c previous ∧ Parts s vars g c previous s₁ s₂ s' := by
  obtain ⟨⟨g, s₁⟩, hbuild, hret⟩ := bind_eq_ok_iff.1 hret
  have hb := build_eq hs hvars hbuild
  have ht := Tagging.new_eq hb.grown.sound g.varTotal
  obtain ⟨rfl, rfl⟩ : fresh options g (Tagging.new s₁ g.varTotal).1
        ((Tagging.new s₁ g.varTotal).2.newCell g.varTotal).1 = p ∧
      ((Tagging.new s₁ g.varTotal).2.newCell g.varTotal).2 = s' :=
    Prod.mk.inj (Except.ok.inj hret)
  obtain ⟨hgrown, hhas, hget, hfree, hnew, hdefs⟩ := Store.newCell_grown ht.grown.sound g.varTotal
  exact ⟨g, _, _, s₁, _, rfl, hb, ht, hgrown, hhas, hget, hfree, hnew, hdefs⟩

/-- A new propagator shows the domains of its variables, and nothing is matched or grounded. -/
theorem new_eq (hs : s.Sound) (hvars : ∀ x ∈ vars, x.index < s.definitions.size)
    (hret : new s vars options = .ok (p, s')) : Created s vars options p s' := by
  obtain ⟨g, c, previous, s₁, s₂, rfl, h⟩ := exists_parts hs hvars hret
  exact {
    grown := h.built.grown.trans h.grown_graph
    definitions_eq := by
      rw [h.definitions_eq, h.labelled.definitions_eq, h.built.definitions_eq]
    vars_eq := h.built.vars_eq
    options_eq := rfl
    ready_eq := rfl
    work_eq := rfl
    new := fun _ => h.not_has
    sound := ⟨h.fitted options, h.shows options⟩
    trusted := h.trusted options
    tidy := h.tidy options
    active := h.active options
    mate := h.mate options }

theorem Created.honest (h : Created s vars options p s') : (p.shown s').Honest := Or.inr h.trusted

/-- A new propagator has nothing to look at. -/
theorem Created.settled (h : Created s vars options p s') :
    (p.shown s').Settled fun _ => False := by
  have hunmatched : (p.shown s').Unmatched := fun x _ => h.mate x
  refine ⟨h.tidy, Or.inr hunmatched, Or.inr fun hcovered x hx => ?_⟩
  rw [hunmatched.active_eq hcovered] at hx
  exact absurd hx (Finset.notMem_empty x)

theorem Created.lasting (h : Created s vars options p s') : (p.shown s').Lasting :=
  ⟨h.tidy.kept, h.settled.tagged, h.trusted.bounded⟩

end FiniteDomain.AllDifferent
