import FiniteDomain.Proofs.AllDifferent.Creation
import FiniteDomain.Proofs.AllDifferent.Matching
import FiniteDomain.Proofs.Store.Reached
import Mathlib.Algebra.BigOperators.Group.Finset.Basic
import Mathlib.Algebra.Order.BigOperators.Group.Finset

/-!
# A value graph in use

A value graph is changed by forward checking, by searches for a matching and by giving up mates, while
domains are narrowed, others use the store, and levels are saved and restored.  Its arrays and cells
agree with each other all the time, and a restored level shows what it showed when it was saved.

* `ValueGraph.Coherent` is the agreement, and `Sound.coherent` derives it.
* `ValueGraph.InUse` is what a graph and its store come to, with what there was when the levels were
  saved.
* `ValueGraph.Orderly` is what the graph shows at each level.  As long as no variable has lost all
  values, a grounded one keeps its value for itself, unless it can be made to give up its mate.
* `ValueGraph.Upheld` is the invariant.  `Upheld.step` treats all changes of the graph alike, and
  `Upheld.carry` those of the rest of the store: they are not seen from the frames of the past.
* `ValueGraph.upkeep` collects the results.
-/

namespace FiniteDomain.AllDifferent.ValueGraph

variable {g g' : ValueGraph} {k k' : Matcher} {s s' : Store} {w : Frame} {ρ : Registers}
  {saved : List (ValueGraph × Store)} {loose : Prop}

/-! ## Agreement -/

/-- The arrays and the cells of a graph agree with each other and with the domains. -/
structure Coherent (g : ValueGraph) (s : Store) : Prop where
  size_adjacency : g.adjacency.size = g.edgeTotal ∧ g.slot.size = g.edgeTotal
  segment : ∀ v < g.valueTotal, (g.adjacency.extract (g.start v) (g.start (v + 1))).toList.Perm
    ((List.range g.edgeTotal).filter fun e => g.head e = v)
  slot : ∀ i e : Nat, g.adjacency[i]? = some e ↔ g.slot[e]? = some i
  size_active : g.active.size = g.varTotal ∧ g.activePlace.size = g.varTotal
  place : ∀ i x : Nat, g.active[i]? = some x ↔ g.activePlace[x]? = some i
  cursor : ∀ v < g.valueTotal, ∃ count, g.liveCount s v = .ok count ∧
    g.start v + count ≤ g.start (v + 1)
  activeCursor : ∃ count, g.activeCount s = .ok count ∧ count ≤ g.varTotal
  total : ∃ counts, (List.range g.valueTotal).mapM (g.liveCount s) = .ok counts ∧
    g.liveEdges s = .ok counts.sum
  matched : ∀ x < g.varTotal, ∀ v < g.valueTotal,
    g.owner? s v = .ok (some x) ↔ g.mate? s x = .ok (some v)
  live : ∀ x < g.varTotal, ∀ v, g.mate? s x = .ok (some v) →
    ∃ e, g.tail e = x ∧ g.head e = v ∧ g.isLive s e = .ok true
  fits : ∀ x < g.varTotal, ∀ u ∈ g.domains s x,
    ∃ e, g.tail e = x ∧ g.val (g.head e) = u ∧ g.isLive s e = .ok true

/-- An edge is live if the graph says so. -/
theorem Sound.isLive_iff (h : g.Sound s) {e : Nat} :
    g.isLive s e = .ok true ↔ g.Live (g.now s) e := by
  by_cases he : e < g.edgeTotal
  · rw [h.isLive_eq he, Except.ok.injEq, decide_eq_true_eq]
  · refine ⟨fun hlive => absurd ?_ he, fun hlive => absurd hlive.1 he⟩
    obtain ⟨v, hv, _⟩ := bind_eq_ok_iff.1 hlive
    rw [← h.layout.size_edgeValue]
    exact (Array.getElem?_eq_some_iff.1 (fetch_eq_ok_iff.1 hv)).1

/-- A variable is active if the graph says so. -/
theorem Sound.isActive_iff (h : g.Sound s) {x : Nat} :
    g.isActive s x = .ok true ↔ x ∈ (g.snapshot (g.now s)).active := by
  by_cases hx : x < g.varTotal
  · rw [h.isActive_eq hx, Except.ok.injEq, decide_eq_true_eq]
  · refine ⟨fun hactive => absurd ?_ hx, fun hactive => absurd (mem_active.1 hactive).1 hx⟩
    obtain ⟨i, hi, _⟩ := bind_eq_ok_iff.1 hactive
    rw [← h.layout.size_activePlace]
    exact (Array.getElem?_eq_some_iff.1 (fetch_eq_ok_iff.1 hi)).1

/-- The edges in the segment of a value are those that reach it. -/
theorem Layout.segment_perm (h : g.Layout) {v : Nat} (hv : v < g.valueTotal) :
    (g.adjacency.extract (g.start v) (g.start (v + 1))).toList.Perm
      ((List.range g.edgeTotal).filter fun e => g.head e = v) := by
  have hle := h.start_le v hv
  have hsize := h.size_adjacency
  have hget : ∀ {i : Nat} (hi : i < g.adjacency.size), g.adjacency[i] = g.edgeAt i := by
    intro i hi
    rw [edgeAt, Array.getD_eq_getD_getElem?, Array.getElem?_eq_getElem hi]
    rfl
  refine (List.perm_ext_iff_of_nodup ?_ (List.nodup_range.filter _)).2 fun e => ?_
  · rw [List.Nodup, List.pairwise_iff_getElem]
    intro i j hi hj hij heq
    simp only [Array.length_toList, Array.size_extract] at hi hj
    simp only [Array.getElem_toList, Array.getElem_extract] at heq
    rw [hget, hget] at heq
    have h1 := (h.edge_place (g.start v + i) (by omega)).2
    have h2 := (h.edge_place (g.start v + j) (by omega)).2
    rw [heq, h2] at h1
    omega
  · rw [Array.mem_toList_iff, Array.mem_extract_iff_getElem, List.mem_filter, List.mem_range,
      decide_eq_true_eq]
    constructor
    · rintro ⟨i, hi, rfl⟩
      rw [hget]
      obtain ⟨h1, h2⟩ := h.edge_place (g.start v + i) (by omega)
      exact ⟨h1, (h.head_eq_iff _ h1 v hv).2 (by rw [h2]; omega)⟩
    · rintro ⟨he, hhead⟩
      obtain ⟨h1, h2⟩ := h.place_edge e he
      have hin := (h.head_eq_iff e he v hv).1 hhead
      refine ⟨g.place e - g.start v, by omega, ?_⟩
      rw [hget]
      show g.edgeAt (g.start v + (g.place e - g.start v)) = e
      rw [Nat.add_sub_cancel' hin.1, h2]

/-- The live edges are those of the values. -/
theorem card_live (hl : g.Layout) (hi : g.Intact ρ) :
    ((Finset.range g.edgeTotal).filter (g.Live ρ)).card =
      ∑ v ∈ Finset.range g.valueTotal, count ρ v := by
  rw [Finset.card_eq_sum_card_fiberwise (f := g.head) (t := Finset.range g.valueTotal)
    fun e he => ?_]
  swap
  · exact Finset.mem_coe.2 (Finset.mem_range.2
      (hl.head_lt e (Finset.mem_filter.1 (Finset.mem_coe.1 he)).2.1))
  refine Finset.sum_congr rfl fun v hv => ?_
  have hv := Finset.mem_range.1 hv
  have hle := hi.count_le hl hv
  rw [← Finset.card_range (count ρ v)]
  refine (Finset.card_bij (fun j _ => g.edgeAt (g.start v + j)) (fun j hj => ?_)
    (fun j hj j' hj' heq => ?_) fun e he => ?_).symm
  · obtain ⟨hlive, hhead⟩ := live_edgeAt hl hi hv (Finset.mem_range.1 hj)
    exact Finset.mem_filter.2
      ⟨Finset.mem_filter.2 ⟨Finset.mem_range.2 hlive.1, hlive⟩, hhead⟩
  · have hj := Finset.mem_range.1 hj
    have hj' := Finset.mem_range.1 hj'
    have h1 := (hl.edge_place (g.start v + j) (by omega)).2
    have h2 := (hl.edge_place (g.start v + j') (by omega)).2
    rw [heq, h2] at h1
    omega
  · obtain ⟨hmem, rfl⟩ := Finset.mem_filter.1 he
    obtain ⟨hmem, hlive⟩ := Finset.mem_filter.1 hmem
    have he := Finset.mem_range.1 hmem
    have hin := (hl.head_eq_iff e he _ hv).1 rfl
    have hplace := hlive.2
    refine ⟨g.place e - g.start (g.head e), Finset.mem_range.2 (by omega), ?_⟩
    rw [Nat.add_sub_cancel' hin.1, (hl.place_edge e he).2]

theorem Sound.coherent (h : g.Sound s) (hm : (g.snapshot (g.now s)).Matched)
    (hfit : (g.snapshot (g.now s)).Fits g.val (g.domains s) g.varTotal) : g.Coherent s where
  size_adjacency := ⟨h.layout.size_adjacency, h.layout.size_slot⟩
  segment v hv := h.layout.segment_perm hv
  slot _ _ := h.layout.listed_edges.getElem?_iff
  size_active := ⟨h.layout.size_active, h.layout.size_activePlace⟩
  place _ _ := h.layout.listed_vars.getElem?_iff
  cursor v hv := ⟨_, h.liveCount_eq hv, h.intact.live_le v hv⟩
  activeCursor := ⟨_, h.activeCount_eq, by have := h.intact.active_le; omega⟩
  total := by
    refine ⟨(List.range g.valueTotal).map (count (g.now s)),
      mapM_eq_ok fun v hv => h.liveCount_eq (List.mem_range.1 hv), ?_⟩
    rw [h.liveEdges_eq, card_live h.layout h.intact]
    rfl
  matched x hx v hv := by
    rw [h.owner?_eq hv, h.mate?_eq hx, Except.ok.injEq, Except.ok.injEq]
    exact ⟨hm.mate_of_owner v x, hm.owner_of_mate x v⟩
  live x hx v hv := by
    rw [h.mate?_eq hx, Except.ok.injEq] at hv
    obtain ⟨e, hlive, htail, hhead⟩ := mem_live.1 (hm.live_of_mate x v hv)
    exact ⟨e, htail, hhead, h.isLive_iff.2 hlive⟩
  fits x hx u hu := by
    obtain ⟨v, hv, rfl⟩ := hfit x hx u hu
    obtain ⟨e, hlive, htail, rfl⟩ := mem_live.1 hv
    exact ⟨e, htail, rfl, h.isLive_iff.2 hlive⟩

/-! ## Calls -/

/-- What the graph of the variables `vars`, which was made in the store `s₀`, comes to with the working
memory of its searches and its store.  Others may use the store as long as they leave the cells of the
graph alone.  An active variable can be made to give up its mate, and if `loose` any other one as well.
The last argument has the graph and the store of every level that was saved since then and not
restored, the last one first. -/
inductive InUse (loose : Prop) (s₀ : Store) (vars : Array Var) :
    ValueGraph → Matcher → Store → List (ValueGraph × Store) → Prop
  | build {g : ValueGraph} {s : Store} (hret : build s₀ vars = .ok (g, s)) :
    InUse loose s₀ vars g (.new g.varTotal g.valueTotal) s []
  | attempt {g : ValueGraph} {k : Matcher} {s s' : Store} {saved : List (ValueGraph × Store)}
      {a : Attempt} {verdict : Verdict} (hret : s.attempt a = .ok (verdict, s')) :
    InUse loose s₀ vars g k s saved → InUse loose s₀ vars g k s' saved
  | evolve {g : ValueGraph} {k : Matcher} {s s' : Store} {saved : List (ValueGraph × Store)}
      {C : Cell → Prop} (hC : ∀ c, g.Owns c → ¬ C c) (he : Store.Evolves C s s') :
    InUse loose s₀ vars g k s saved → InUse loose s₀ vars g k s' saved
  | grow {g : ValueGraph} {k : Matcher} {s s' : Store} {saved : List (ValueGraph × Store)}
      (hg : Store.Grown s s') :
    InUse loose s₀ vars g k s saved → InUse loose s₀ vars g k s' saved
  | clearEvents {g : ValueGraph} {k : Matcher} {s : Store} {saved : List (ValueGraph × Store)} :
    InUse loose s₀ vars g k s saved → InUse loose s₀ vars g k s.clearEvents saved
  | forwardCheck {g : ValueGraph} {k : Matcher} {s : Store} {saved : List (ValueGraph × Store)}
      {work : Worklist} {changes : Changes} {verdict : Verdict} {y : Sync}
      (hnodup : work.waiting.Nodup) (hwork : ∀ x ∈ work.waiting, x < g.varTotal)
      (htouched : ∀ x ∈ changes.touched, x < g.varTotal)
      (hret : forwardCheck ⟨g, s, work, changes⟩ = .ok (verdict, y)) :
    InUse loose s₀ vars g k s saved → InUse loose s₀ vars y.graph k y.store saved
  | greedy {g : ValueGraph} {k : Matcher} {s s' : Store} {saved : List (ValueGraph × Store)}
      (hret : Matcher.greedy g s = .ok s') :
    InUse loose s₀ vars g k s saved → InUse loose s₀ vars g k s' saved
  | augment {g : ValueGraph} {k k' : Matcher} {s s' : Store} {saved : List (ValueGraph × Store)}
      {outcome : Matcher.Outcome} (hret : Matcher.augment g k s = .ok (outcome, k', s')) :
    InUse loose s₀ vars g k s saved → InUse loose s₀ vars g k' s' saved
  | release {g : ValueGraph} {k : Matcher} {s s' : Store} {saved : List (ValueGraph × Store)}
      {x : Nat} (hx : x < g.varTotal) (hmay : loose ∨ g.isActive s x = .ok true)
      (hret : g.releaseMate s x = .ok s') :
    InUse loose s₀ vars g k s saved → InUse loose s₀ vars g k s' saved
  | save {g : ValueGraph} {k : Matcher} {s : Store} {saved : List (ValueGraph × Store)} :
    InUse loose s₀ vars g k s saved → InUse loose s₀ vars g k s.save ((g, s) :: saved)
  | restore {g : ValueGraph} {k : Matcher} {s s' : Store} {level : ValueGraph × Store}
      {saved : List (ValueGraph × Store)} (hret : s.restore = .ok s') :
    InUse loose s₀ vars g k s (level :: saved) → InUse loose s₀ vars g k s' saved

/-! ## The invariant -/

/-- A grounded variable is matched to the only value that it has an edge to, and no other variable
has that value.  This is `Sync.Kept`, said of a snapshot and any domains. -/
def Firm (p : Snapshot) (val : Nat → Int) (D : Nat → Finset Int) (n : Nat) : Prop :=
  ∀ x < n, x ∉ p.active → ∃ a, p.mate x = some a ∧ (∀ v ∈ p.live x, v = a) ∧
    ∀ z < n, z ≠ x → val a ∉ D z

/-- What a graph shows of the domains. -/
structure Orderly (loose : Prop) (p : Snapshot) (val : Nat → Int) (D : Nat → Finset Int) (n : Nat) :
    Prop where
  matched : p.Matched
  fits : p.Fits val D n
  firm : loose ∨ (∃ x < n, D x = ∅) ∨ Firm p val D n

/-- What the cells of the graph hold in a frame makes sense there. -/
structure Holds (loose : Prop) (g : ValueGraph) (s : Store) (w : Frame) : Prop where
  has : ∀ c, g.Owns c → w.Has c
  vars_lt : ∀ x < g.varTotal, (g.varOf x).index < s.varsIn w
  intact : g.Intact (g.registers w)
  orderly : Orderly loose (g.snapshot (g.registers w)) g.val (g.views s (s.domainIn w)) g.varTotal

/-- In the frame `w` the graph shows what the graph of the level shows with its store. -/
structure Remembers (g : ValueGraph) (w : Frame) (level : ValueGraph × Store) : Prop where
  sound : level.1.Sound level.2
  alike : Alike level.1 g
  shows : g.snapshot (g.registers w) = level.1.snapshot (level.1.now level.2)

/-- The graph is in order now and in the frames of the levels that were saved, and there was more in
it in older frames. -/
structure Upheld (loose : Prop) (g : ValueGraph) (k : Matcher) (s : Store)
    (saved : List (ValueGraph × Store)) : Prop where
  sound : g.Sound s
  anchored : g.Anchored s
  matcher : k.Fit g
  holds : Holds loose g s s.trail.now
  levels : ∃ ws rest, s.trail.past = ws ++ rest ∧ (∀ w ∈ ws, Holds loose g s w) ∧
    (s.trail.now :: ws).Pairwise (fun newer older => Above (g.registers newer) (g.registers older)) ∧
    List.Forall₂ g.Remembers ws saved

/-- Fewer values, and mates that grounded variables keep, do no harm. -/
theorem Firm.keeps {p q : Snapshot} {val : Nat → Int} {D D' : Nat → Finset Int} {n : Nat}
    (h : Firm p val D n) (hk : Snapshot.Keeps p q) (hD : ∀ x < n, D' x ⊆ D x) :
    Firm q val D' n := by
  intro x hx hxa
  rw [hk.active_eq] at hxa
  obtain ⟨a, ha, honly, hdenied⟩ := h x hx hxa
  exact ⟨a, hk.mate_eq x a hxa ha, fun v hv => honly v (hk.live_subset x hv),
    fun z hz hzx hmem => hdenied z hz hzx (hD z hz hmem)⟩

theorem Orderly.narrow {p : Snapshot} {val : Nat → Int} {D D' : Nat → Finset Int} {n : Nat}
    (h : Orderly loose p val D n) (hD : ∀ x < n, D' x ⊆ D x) : Orderly loose p val D' n := by
  refine ⟨h.matched, h.fits.mono hD, h.firm.imp_right fun hfirm => ?_⟩
  obtain ⟨x, hx, hempty⟩ | hfirm := hfirm
  · exact Or.inl ⟨x, hx, Finset.subset_empty.1 (hempty ▸ hD x hx)⟩
  · exact Or.inr (hfirm.keeps (.refl p) hD)

/-- Mates were given to variables, or taken away, but not from grounded ones. -/
theorem Orderly.rematch {p q : Snapshot} {val : Nat → Int} {D : Nat → Finset Int} {n : Nat}
    (h : Orderly loose p val D n) (hm : q.Matched) (hlive : q.live = p.live)
    (hkeeps : loose ∨ Snapshot.Keeps p q) : Orderly loose q val D n := by
  refine ⟨hm, fun x hx u hu => hlive ▸ h.fits x hx u hu, ?_⟩
  obtain hloose | hkeeps := hkeeps
  · exact Or.inl hloose
  · exact h.firm.imp_right (Or.imp_right fun hfirm =>
      hfirm.keeps hkeeps fun _ _ => Finset.Subset.refl _)

/-- The store was replaced by one in which the frame has the same domains. -/
theorem Holds.congr (h : Holds loose g s w) (ha : g.Anchored s)
    (hpath : ∀ x < g.varTotal, s'.path (g.varOf x) = s.path (g.varOf x))
    (hvars : s.varsIn w ≤ s'.varsIn w)
    (hdom : ∀ x < g.varTotal, s'.domainIn w (g.sourceOf x) = s.domainIn w (g.sourceOf x)) :
    Holds loose g s' w := by
  refine ⟨h.has, fun x hx => Nat.lt_of_lt_of_le (h.vars_lt x hx) hvars, h.intact,
    h.orderly.narrow fun x hx => ?_⟩
  rw [← ha.views_congr hx (hdom x hx), views, views, Store.viewFrom_congr (hpath x hx)]

/-- A frame of the past does not see a change of the graph. -/
theorem Holds.past (h : Holds loose g s w) (hg : g.Sound s) (ha : g.Anchored s) (hs : Step g s g' s')
    (hw : w ∈ s.trail.past) (habove : Above (g.now s) (g.registers w)) :
    Holds loose g' s' w := by
  have hsnap : g'.snapshot (g'.registers w) = g.snapshot (g.registers w) := by
    rw [hs.alike.registers_eq, hs.snapshot_eq habove]
  obtain ⟨hhas, hlt, hintact, horderly⟩ := h.congr ha (fun _ _ => hs.evolves.path_eq _)
    (hs.evolves.varsIn_eq w).ge fun x hx => hs.evolves.domainIn_past hg.store hw
      (Nat.lt_of_le_of_lt (ha.source_le hg.store hx) (h.vars_lt x hx))
  refine ⟨fun c hc => hhas c (hs.alike.owns_iff.1 hc), fun x hx => ?_, ?_, ?_⟩
  · rw [hs.alike.varOf_eq]
    exact hlt x (hs.alike.varTotal_eq ▸ hx)
  · rw [hs.alike.registers_eq]
    exact hintact.congr hs.alike (hs.live_iff _ habove)
  · rw [hsnap, hs.alike.val_eq, hs.alike.varTotal_eq, views_congr hs.alike fun _ => rfl]
    exact horderly

theorem Remembers.past {level : ValueGraph × Store} (h : g.Remembers w level)
    (hs : Step g s g' s') (habove : Above (g.now s) (g.registers w)) : g'.Remembers w level := by
  refine ⟨h.sound, h.alike.trans hs.alike, ?_⟩
  rw [hs.alike.registers_eq, hs.snapshot_eq habove, h.shows]

/-- A graph still is about variables of the store when a level is restored in which there were its
variables. -/
theorem Anchored.restored (h : g.Anchored s) (hg : g.Sound s) {rest : List Frame}
    (hr : Store.Restored s s' w rest) (hw : w ∈ s.trail.frames) (hholds : Holds loose g s w) :
    g.Anchored s' := by
  have hle := (hg.store.counts w hw).vars_le
  have hpath : ∀ x < g.varTotal, s'.path (g.varOf x) = s.path (g.varOf x) :=
    fun x hx => hr.path_eq hg.store (hholds.vars_lt x hx) hle
  refine ⟨fun x hx => ?_, fun x hx => ?_, fun e he => ?_⟩
  · rw [hr.definitions_eq, Trail.size_shrink hle]
    exact hholds.vars_lt x hx
  · rw [hpath x hx]
    exact h.source_eq x hx
  · exact hr.reads (hpath _ (hg.layout.tail_lt e he)) (h.reads e he)

namespace Upheld

theorem coherent (h : Upheld loose g k s saved) : g.Coherent s :=
  h.sound.coherent h.holds.orderly.matched h.holds.orderly.fits

/-- A graph that was just made. -/
theorem of_built {s₀ : Store} {vars : Array Var} (hb : Built s₀ vars g s) :
    Upheld loose g (.new g.varTotal g.valueTotal) s [] := by
  refine ⟨hb.sound, hb.anchored, .new g, ⟨hb.sound.wired.has, fun x hx => ?_, hb.sound.intact,
    ⟨hb.matched, fun x hx u hu => ?_,
      Or.inr (Or.inr fun x hx hxa => absurd (hb.active x hx) hxa)⟩⟩,
    [], _, rfl, nofun, List.pairwise_singleton _ _, .nil⟩
  · rw [hb.sound.store.vars_now]
    exact hb.anchored.var_lt x hx
  · exact (hb.live x hx u).1 hu

/-- The graph was changed. -/
theorem step (h : Upheld loose g k s saved) (hs : Step g s g' s') (hk : k'.Fit g')
    (horderly : Orderly loose (g'.snapshot (g'.now s')) g'.val (g'.domains s') g'.varTotal) :
    Upheld loose g' k' s' saved := by
  obtain ⟨ws, rest, hpast, hholds, hnested, hremembers⟩ := h.levels
  obtain ⟨habove, hnested⟩ := List.pairwise_cons.1 hnested
  have hanchored := h.anchored.of_evolves hs.alike hs.evolves
  refine ⟨hs.sound, hanchored, hk, ⟨hs.sound.wired.has, fun x hx => ?_, hs.sound.intact, horderly⟩,
    ws, rest, hs.evolves.past_eq.trans hpast, fun w hw => ?_, List.pairwise_cons.2
      ⟨fun w hw => ?_, hs.alike.registers_eq ▸ hnested⟩, ?_⟩
  · rw [hs.sound.store.vars_now]
    exact hanchored.var_lt x hx
  · exact (hholds w hw).past h.sound h.anchored hs (hpast ▸ List.mem_append_left _ hw) (habove w hw)
  · have hbelow : Above (g'.now s') (g.now s) := hs.alike.now_eq s' ▸ hs.below
    have hbelow := hbelow.trans (habove w hw)
    rw [hs.alike.registers_eq]
    rw [now, hs.alike.registers_eq] at hbelow
    exact hbelow
  · exact ((List.forall₂_and_left _ _).2 ⟨habove, hremembers⟩).imp fun w level hand =>
      hand.2.past hs hand.1

/-- What forward checking begins with. -/
theorem sync (h : Upheld loose g k s saved) {work : Worklist} {changes : Changes}
    (hnodup : work.waiting.Nodup) (hwork : ∀ x ∈ work.waiting, x < g.varTotal)
    (htouched : ∀ x ∈ changes.touched, x < g.varTotal) :
    Sync.Sound ⟨g, s, work, changes⟩ :=
  ⟨h.sound, h.anchored, h.holds.orderly.matched, h.holds.orderly.fits, hnodup, hwork, htouched⟩

/-- Mates were given to variables, or taken away. -/
theorem of_becomes (h : Upheld loose g k s saved) {p : Snapshot} (hb : Becomes g s g s' p)
    (hm : p.Matched) (hlive : p.live = (g.snapshot (g.now s)).live)
    (hkeeps : loose ∨ Snapshot.Keeps (g.snapshot (g.now s)) p) : Upheld loose g k s' saved := by
  have hdom : g.domains s' = g.domains s :=
    domains_congr (.refl _) hb.evolves.path_eq hb.domain_eq
  refine h.step hb.toStep h.matcher ?_
  rw [hb.shows, hdom]
  exact h.holds.orderly.rematch hm hlive hkeeps

/-- The store was changed in a way that does not concern the cells of the graph, and no variable has
more values. -/
theorem carry (h : Upheld loose g k s saved) (hs : g.Sound s') (ha : g.Anchored s')
    (hnow : g.now s' = g.now s) (hpast : s'.trail.past = s.trail.past)
    (hvars : s'.varCount = s.varCount)
    (hpath : ∀ x < g.varTotal, s'.path (g.varOf x) = s.path (g.varOf x))
    (hsub : ∀ x < g.varTotal, g.domains s' x ⊆ g.domains s x)
    (hdom : ∀ w ∈ s.trail.past, ∀ p : Var, p.index < s.varsIn w →
      s'.domainIn w p = s.domainIn w p) : Upheld loose g k s' saved := by
  obtain ⟨ws, rest, hws, hholds, hnested, hremembers⟩ := h.levels
  have hnow : g.registers s'.trail.now = g.registers s.trail.now := hnow
  have hvarsIn : ∀ w, s'.varsIn w = s.varsIn w := fun w => by rw [Store.varsIn, Store.varsIn, hvars]
  refine ⟨hs, ha, h.matcher, ⟨hs.wired.has, fun x hx => ?_, hs.intact, ?_⟩, ws, rest,
    hpast.trans hws, fun w hw => ?_, ?_, hremembers⟩
  · rw [hs.store.vars_now]
    exact ha.var_lt x hx
  · rw [hnow]
    exact h.holds.orderly.narrow hsub
  · have hw' : w ∈ s.trail.past := hws ▸ List.mem_append_left _ hw
    exact (hholds w hw).congr h.anchored hpath (hvarsIn w).ge fun x hx => hdom w hw' _
      (Nat.lt_of_le_of_lt (h.anchored.source_le h.sound.store hx) ((hholds w hw).vars_lt x hx))
  · obtain ⟨habove, hnested⟩ := List.pairwise_cons.1 hnested
    exact List.pairwise_cons.2 ⟨fun w hw => hnow ▸ habove w hw, hnested⟩

/-- Domains were narrowed, and others wrote into their cells. -/
theorem evolve {C : Cell → Prop} (h : Upheld loose g k s saved) (hC : ∀ c, g.Owns c → ¬ C c)
    (he : Store.Evolves C s s') : Upheld loose g k s' saved := by
  obtain ⟨hs, hnow⟩ := h.sound.of_evolves he hC
  exact h.carry hs (h.anchored.of_evolves (.refl g) he) hnow he.past_eq he.varCount_eq
    (fun _ _ => he.path_eq _) (fun x _ => domains_subset (.refl g) he x)
    fun _ hw _ => he.domainIn_past h.sound.store hw

/-- Cells or variables were made. -/
theorem grow (h : Upheld loose g k s saved) (hg : Store.Grown s s') : Upheld loose g k s' saved :=
  h.carry (h.sound.of_grown hg) (h.anchored.of_grown h.sound.store h.sound.layout hg)
    (h.sound.now_of_grown hg) hg.past_eq hg.varCount_eq
    (fun _ hx => hg.path_eq h.sound.store (h.anchored.var_lt _ hx))
    (fun _ hx => (hg.view_eq h.sound.store (h.anchored.var_lt _ hx)).subset) hg.past_domain

theorem clearEvents (h : Upheld loose g k s saved) : Upheld loose g k s.clearEvents saved := by
  have hwired := h.sound.wired
  exact h.carry ⟨h.sound.store.clearEvents, h.sound.layout, ⟨hwired.distinct, hwired.has,
    fun c hc => ⟨(hwired.free c hc).not_isSetCell, (hwired.free c hc).ne_varCount,
      (hwired.free c hc).ne_eventCount⟩⟩, h.sound.intact⟩
    ⟨h.anchored.var_lt, h.anchored.source_eq, h.anchored.reads⟩ rfl rfl rfl (fun _ _ => rfl)
    (fun _ _ => Finset.Subset.refl _) fun _ _ _ _ => rfl

/-- A level is saved. -/
theorem save (h : Upheld loose g k s saved) : Upheld loose g k s.save ((g, s) :: saved) := by
  obtain ⟨ws, rest, hpast, hholds, hnested, hremembers⟩ := h.levels
  obtain ⟨hnow, hsaved, _⟩ := Trail.save_eq h.sound.store.trail.tracked
  have hnow : s.save.trail.now = s.trail.now := hnow
  have hsaved : s.save.trail.past = s.trail.now :: s.trail.past := hsaved
  have hkeep : ∀ {w}, Holds loose g s w → Holds loose g s.save w := fun hw =>
    ⟨hw.has, hw.vars_lt, hw.intact, hw.orderly⟩
  refine ⟨h.sound.save.1, ⟨h.anchored.var_lt, h.anchored.source_eq, h.anchored.reads⟩, h.matcher,
    hnow ▸ hkeep h.holds, s.trail.now :: ws, rest, by rw [hsaved, hpast, List.cons_append],
    fun w hw => ?_, ?_, .cons ⟨h.sound, .refl g, rfl⟩ hremembers⟩
  · obtain rfl | hw := List.mem_cons.1 hw
    · exact hkeep h.holds
    · exact hkeep (hholds w hw)
  · rw [hnow]
    refine List.pairwise_cons.2 ⟨fun w hw => ?_, hnested⟩
    obtain rfl | hw := List.mem_cons.1 hw
    · exact .refl _
    · exact (List.pairwise_cons.1 hnested).1 w hw

/-- A level is restored that was saved since the graph was made. -/
theorem restore {level : ValueGraph × Store} (h : Upheld loose g k s (level :: saved)) :
    ∃ s', s.restore = .ok s' ∧ Upheld loose g k s' saved ∧ Alike level.1 g ∧ level.1.Sound level.2 ∧
      g.snapshot (g.now s') = level.1.snapshot (level.1.now level.2) := by
  obtain ⟨ws, rest, hpast, hholds, hnested, hremembers⟩ := h.levels
  obtain ⟨w, ws, hlevel, hrest, rfl⟩ := List.forall₂_cons_right_iff.1 hremembers
  have hpast : s.trail.past = w :: (ws ++ rest) := hpast
  obtain ⟨s', hret, hr⟩ := h.sound.store.restore hpast
  have hw := hholds w (List.mem_cons_self ..)
  have hframes : w ∈ s.trail.frames := by
    rw [Trail.frames, hpast]
    exact List.mem_cons_of_mem _ (List.mem_cons_self ..)
  obtain ⟨hsound, hnow⟩ := h.sound.restored hr hw.has hw.intact
  have hle := (h.sound.store.counts w hframes).vars_le
  have hkeep : ∀ w' ∈ w :: ws, Holds loose g s' w' := fun w' hw' => by
    refine (hholds w' hw').congr h.anchored
      (fun x hx => hr.path_eq h.sound.store (hw.vars_lt x hx) hle) ?_ fun x hx => ?_
    · rw [Store.varsIn, Store.varsIn, hr.varCount_eq]
    · refine hr.domainIn_eq w' ?_ _
        (Nat.lt_of_le_of_lt (h.anchored.source_le h.sound.store hx) ((hholds w' hw').vars_lt x hx))
      rw [← List.cons_append]
      exact List.mem_append_left _ hw'
  refine ⟨s', hret, ⟨hsound, h.anchored.restored h.sound hr hframes hw, h.matcher,
    hr.now_eq ▸ hkeep w (List.mem_cons_self ..), ws, rest, hr.past_eq,
    fun w' hw' => hkeep w' (List.mem_cons_of_mem _ hw'), ?_, hrest⟩, hlevel.alike, hlevel.sound,
    hnow ▸ hlevel.shows⟩
  rw [hr.now_eq]
  exact (List.pairwise_cons.1 hnested).2

end Upheld

/-- Whatever a graph is used for, it is in order. -/
theorem InUse.upheld {s₀ : Store} {vars : Array Var} (h : InUse loose s₀ vars g k s saved)
    (hs : s₀.Sound) (hvars : ∀ x ∈ vars, x.index < s₀.definitions.size) : Upheld loose g k s saved := by
  induction h with
  | build hret => exact .of_built (build_eq hs hvars hret)
  | attempt hret _ ih =>
    obtain ⟨_, _, _, _, hshrinks, _⟩ := Store.attempt_spec ih.sound.store hret
    exact ih.evolve (fun _ _ => id) hshrinks.toEvolves
  | evolve hC he _ ih => exact ih.evolve hC he
  | grow hg _ ih => exact ih.grow hg
  | clearEvents _ ih => exact ih.clearEvents
  | @forwardCheck _ _ _ _ _ _ verdict _ hnodup hwork htouched hret _ ih =>
    obtain ⟨_, _, hret', hran⟩ := Sync.forwardCheck_eq (ih.sync hnodup hwork htouched)
    cases hret.symm.trans hret'
    refine ih.step hran.follows.step (ih.matcher.congr hran.follows.step.alike)
      ⟨hran.follows.sound.matched, hran.follows.sound.fits, ih.holds.orderly.firm.imp_right ?_⟩
    have hn := hran.follows.step.alike.varTotal_eq
    rintro (⟨x, hx, hempty⟩ | hfirm)
    · exact Or.inl ⟨x, hn ▸ hx, Finset.subset_empty.1 (hempty ▸ hran.follows.domains_subset x)⟩
    · cases verdict with
      | consistent => exact Or.inr (hran.kept rfl hfirm)
      | failed why => exact Or.inl (hran.wiped nofun).2
  | greedy hret _ ih =>
    obtain ⟨_, hret', hr⟩ := Matcher.greedy_eq ih.sound ih.holds.orderly.matched
    cases hret.symm.trans hret'
    exact ih.of_becomes ⟨hr.step, rfl, hr.domain_eq⟩ hr.matched hr.live_eq (Or.inr hr.keeps)
  | augment hret _ ih =>
    obtain ⟨_, _, _, hret', hk, hr, _⟩ :=
      Matcher.augment_eq ih.sound ih.holds.orderly.matched ih.matcher
    cases hret.symm.trans hret'
    have hafter := ih.of_becomes ⟨hr.step, rfl, hr.domain_eq⟩ hr.matched hr.live_eq
      (Or.inr hr.keeps)
    exact ⟨hafter.sound, hafter.anchored, hk, hafter.holds, hafter.levels⟩
  | @release _ _ _ _ _ x hx hmay hret _ ih =>
    obtain ⟨_, hret', hb⟩ := releaseMate_eq ih.sound hx
    cases hret.symm.trans hret'
    refine ih.of_becomes hb (ih.holds.orderly.matched.release _) (Snapshot.release_live ..)
      (hmay.imp_right fun hactive => ⟨Snapshot.release_active .., fun z => ?_, fun z v hz hv => ?_⟩)
    · rw [Snapshot.release_live]
    · have hzx : z ≠ x := fun heq => hz (heq ▸ ih.sound.isActive_iff.1 hactive)
      rw [Snapshot.release_mate, if_neg hzx]
      exact hv
  | save _ ih => exact ih.save
  | restore hret _ ih =>
    obtain ⟨_, hret', hafter, _⟩ := ih.restore
    cases hret.symm.trans hret'
    exact hafter

/-! ## Results -/

/-- The live edges are the pairs of a variable and a value of its domain, each once. -/
structure Fresh (g : ValueGraph) (s : Store) : Prop where
  sound : ∀ e, g.isLive s e = .ok true →
    g.tail e < g.varTotal ∧ g.val (g.head e) ∈ g.domains s (g.tail e)
  complete : ∀ x < g.varTotal, ∀ u ∈ g.domains s x,
    ∃ e, g.tail e = x ∧ g.val (g.head e) = u ∧ g.isLive s e = .ok true
  once : ∀ e e', g.isLive s e = .ok true → g.isLive s e' = .ok true → g.tail e = g.tail e' →
    g.val (g.head e) = g.val (g.head e') → e = e'

/-- All that a graph is used for can be done. -/
structure Serves (g : ValueGraph) (k : Matcher) (s : Store) : Prop where
  forwardCheck : ∀ work : Worklist, ∀ changes : Changes, work.waiting.Nodup →
    (∀ x ∈ work.waiting, x < g.varTotal) → (∀ x ∈ changes.touched, x < g.varTotal) →
      ∃ verdict y, forwardCheck ⟨g, s, work, changes⟩ = .ok (verdict, y)
  greedy : ∃ s', Matcher.greedy g s = .ok s'
  augment : ∃ outcome k' s', Matcher.augment g k s = .ok (outcome, k', s')
  release : ∀ x < g.varTotal, ∃ s', g.releaseMate s x = .ok s'

/-- The graph has the edges of the level, of which the same are live, and it has the same active
variables, mates and owners. -/
structure Recovers (g : ValueGraph) (s : Store) (level : ValueGraph × Store) : Prop where
  vars_eq : g.vars = level.1.vars
  values_eq : g.values = level.1.values
  edgeVar_eq : g.edgeVar = level.1.edgeVar
  edgeValue_eq : g.edgeValue = level.1.edgeValue
  live : ∀ e, g.isLive s e = .ok true ↔ level.1.isLive level.2 e = .ok true
  active : ∀ x, g.isActive s x = .ok true ↔ level.1.isActive level.2 x = .ok true
  mate : ∀ x < g.varTotal, ∃ v, g.mate? s x = .ok v ∧ level.1.mate? level.2 x = .ok v
  owner : ∀ v < g.valueTotal, ∃ x, g.owner? s v = .ok x ∧ level.1.owner? level.2 v = .ok x

/-- The live edges of a new graph are the values of its variables. -/
theorem Built.fresh {s₀ : Store} {vars : Array Var} (hb : Built s₀ vars g s) : g.Fresh s where
  sound e he := by
    have hlive := hb.sound.isLive_iff.1 he
    have hx := hb.sound.layout.tail_lt e hlive.1
    exact ⟨hx, (hb.live _ hx _).2 ⟨_, mem_live.2 ⟨e, hlive, rfl, rfl⟩, rfl⟩⟩
  complete x hx u hu := by
    obtain ⟨v, hv, rfl⟩ := (hb.live x hx u).1 hu
    obtain ⟨e, hlive, htail, rfl⟩ := mem_live.1 hv
    exact ⟨e, htail, rfl, hb.sound.isLive_iff.2 hlive⟩
  once e e' he he' htail hval := by
    have he := (hb.sound.isLive_iff.1 he).1
    have he' := (hb.sound.isLive_iff.1 he').1
    have hl := hb.sound.layout
    exact hl.simple e he e' he' htail (hb.sound.within.val_injective _ (hl.head_lt e he) _
      (hl.head_lt e' he') hval)

theorem Upheld.serves (h : Upheld loose g k s saved) : g.Serves k s where
  forwardCheck work changes hnodup hwork htouched := by
    obtain ⟨verdict, y, hret, _⟩ := Sync.forwardCheck_eq (h.sync hnodup hwork htouched)
    exact ⟨verdict, y, hret⟩
  greedy := by
    obtain ⟨s', hret, _⟩ := Matcher.greedy_eq h.sound h.holds.orderly.matched
    exact ⟨s', hret⟩
  augment := by
    obtain ⟨outcome, k', s', hret, _⟩ :=
      Matcher.augment_eq h.sound h.holds.orderly.matched h.matcher
    exact ⟨outcome, k', s', hret⟩
  release x hx := by
    obtain ⟨s', hret, _⟩ := releaseMate_eq h.sound hx
    exact ⟨s', hret⟩

/-- What shows the same has the same edges, active variables, mates and owners. -/
theorem Recovers.of_snapshot {level : ValueGraph × Store} (h : g.Sound s)
    (h' : level.1.Sound level.2) (ha : Alike level.1 g)
    (hsame : g.snapshot (g.now s) = level.1.snapshot (level.1.now level.2)) :
    g.Recovers s level := by
  -- An edge is live if its value is one of its variable, which the snapshot tells.
  have hlive : ∀ {g : ValueGraph} {s : Store}, g.Sound s → ∀ e, g.isLive s e = .ok true ↔
      e < g.edgeTotal ∧ g.head e ∈ (g.snapshot (g.now s)).live (g.tail e) := by
    intro g s h e
    rw [h.isLive_iff, mem_live]
    refine ⟨fun he => ⟨he.1, e, he, rfl, rfl⟩, fun ⟨he, e', he', htail, hhead⟩ => ?_⟩
    exact h.layout.simple e' he'.1 e he htail hhead ▸ he'
  refine ⟨ha.vars_eq, ha.values_eq, ha.edgeVar_eq, ha.edgeValue_eq, fun e => ?_, fun x => ?_,
    fun x hx => ⟨_, h.mate?_eq hx, ?_⟩, fun v hv => ⟨_, h.owner?_eq hv, ?_⟩⟩
  · rw [hlive h, hlive h', hsame, ha.edgeTotal_eq, ha.head_eq, ha.tail_eq]
  · rw [h.isActive_iff, h'.isActive_iff, hsame]
  · rw [h'.mate?_eq (ha.varTotal_eq ▸ hx), hsame]
  · rw [h'.owner?_eq (ha.valueTotal_eq ▸ hv), hsame]

/-- A new graph has an edge for each value of its variables.  Whatever is done with the graph, the
store and the levels, the graph stays coherent, all that it is used for can be done, and every
level that is restored gives back what the graph showed when it was saved. -/
theorem upkeep {s₀ : Store} {vars : Array Var} (hs : s₀.Reached)
    (hvars : ∀ x ∈ vars, x.index < s₀.definitions.size) :
    (∀ g s, build s₀ vars = .ok (g, s) → g.vars = vars ∧ g.Fresh s) ∧
      ∀ g k s saved, InUse True s₀ vars g k s saved → g.Coherent s ∧ g.Serves k s ∧
        ∀ level rest, saved = level :: rest →
          ∃ s', s.restore = .ok s' ∧ g.Recovers s' level := by
  refine ⟨fun g s hret => ?_, fun g k s saved h => ?_⟩
  · have hb := build_eq hs.sound hvars hret
    exact ⟨hb.vars_eq, hb.fresh⟩
  · have hupheld := h.upheld hs.sound hvars
    refine ⟨hupheld.coherent, hupheld.serves, fun level rest heq => ?_⟩
    subst heq
    obtain ⟨s', hret, hafter, halike, hlevel, hsame⟩ := hupheld.restore
    exact ⟨s', hret, .of_snapshot hafter.sound hlevel halike hsame⟩

/-- A level is restored after forward checking has failed in the middle of its work. -/
theorem upkeep_wipeout : ∃ s₀ g s₁ s t y s', s₀.Reached ∧ build s₀ #[⟨0⟩, ⟨1⟩, ⟨2⟩] = .ok (g, s₁) ∧
    Matcher.greedy g s₁ = .ok s ∧ s.save.attempt (.fix ⟨0⟩ 1) = .ok (.consistent, t) ∧
    forwardCheck ⟨g, t, ⟨[0]⟩, .nothing⟩ = .ok (.failed .domainWipeout, y) ∧
    g.Fresh s₁ ∧ y.graph.Coherent y.store ∧ y.graph.adjacency ≠ g.adjacency ∧
    (g.isLive s 0 = .ok true ∧ y.graph.isLive y.store 0 = .ok false) ∧
    (g.mate? s 0 = .ok (some 0) ∧ y.graph.mate? y.store 0 = .ok (some 1)) ∧
    y.store.restore = .ok s' ∧ y.graph.isLive s' 0 = .ok true ∧
    y.graph.mate? s' 0 = .ok (some 0) := by
  have hrun : ((Store.ofTrail Trail.empty).newPrimitive 0 1 >>= fun a =>
      a.2.newPrimitive 0 1 >>= fun b => b.2.newPrimitive 0 1 >>= fun c =>
      build c.2 #[⟨0⟩, ⟨1⟩, ⟨2⟩] >>= fun made => Matcher.greedy made.1 made.2 >>= fun s =>
      s.save.attempt (.fix ⟨0⟩ 1) >>= fun t =>
      forwardCheck ⟨made.1, t.2, ⟨[0]⟩, .nothing⟩ >>= fun r =>
      made.1.isLive s 0 >>= fun live => r.2.graph.isLive r.2.store 0 >>= fun live' =>
      made.1.mate? s 0 >>= fun mate => r.2.graph.mate? r.2.store 0 >>= fun mate' =>
      .ok ([t.1, r.1], c.2.definitions.size,
        [live, live', decide (r.2.graph.adjacency = made.1.adjacency)], [mate, mate'])) =
      .ok ([.consistent, .failed .domainWipeout], 3, [true, false, false], [some 0, some 1]) := by
    decide +kernel
  obtain ⟨⟨_, a⟩, ha, hrun⟩ := bind_eq_ok_iff.1 hrun
  obtain ⟨⟨_, b⟩, hb, hrun⟩ := bind_eq_ok_iff.1 hrun
  obtain ⟨⟨_, s₀⟩, hs₀, hrun⟩ := bind_eq_ok_iff.1 hrun
  obtain ⟨⟨g, s₁⟩, hbuild, hrun⟩ := bind_eq_ok_iff.1 hrun
  obtain ⟨s, hgreedy, hrun⟩ := bind_eq_ok_iff.1 hrun
  obtain ⟨⟨verdict, t⟩, hattempt, hrun⟩ := bind_eq_ok_iff.1 hrun
  obtain ⟨⟨verdict', y⟩, hforward, hrun⟩ := bind_eq_ok_iff.1 hrun
  obtain ⟨live, hlive, hrun⟩ := bind_eq_ok_iff.1 hrun
  obtain ⟨live', hlive', hrun⟩ := bind_eq_ok_iff.1 hrun
  obtain ⟨mate, hmate, hrun⟩ := bind_eq_ok_iff.1 hrun
  obtain ⟨mate', hmate', heq⟩ := bind_eq_ok_iff.1 hrun
  injection heq with heq
  simp only [Prod.mk.injEq, List.cons.injEq, and_true] at heq
  obtain ⟨⟨rfl, rfl⟩, hsize, ⟨rfl, rfl, hadjacency⟩, rfl, rfl⟩ := heq
  have hreached : s₀.Reached := .newPrimitive (by decide) (by decide) hs₀ (.newPrimitive (by decide)
    (by decide) hb (.newPrimitive (by decide) (by decide) ha (.start [])))
  have hvars : ∀ x ∈ (#[⟨0⟩, ⟨1⟩, ⟨2⟩] : Array Var), x.index < s₀.definitions.size := by
    rw [hsize]
    decide
  obtain ⟨hnew, hkept⟩ := upkeep hreached hvars
  have hfresh := (hnew g s₁ hbuild).2
  have hn : ∀ x ∈ [0], x < g.varTotal := by
    rw [varTotal, (hnew g s₁ hbuild).1]
    decide
  have hused : InUse True s₀ #[⟨0⟩, ⟨1⟩, ⟨2⟩] y.graph _ y.store [(g, s)] :=
    .forwardCheck (List.nodup_singleton 0) hn (fun x hx => absurd hx (Array.not_mem_empty x)) hforward
      (.attempt hattempt (.save (.greedy hgreedy (.build hbuild))))
  obtain ⟨hcoherent, _, hback⟩ := hkept _ _ _ _ hused
  obtain ⟨s', hrestore, hrecovers⟩ := hback _ _ rfl
  obtain ⟨v, hv, hv'⟩ := hrecovers.mate 0 (by
    rw [varTotal, hrecovers.vars_eq]
    exact hn 0 (List.mem_singleton_self 0))
  cases hv'.symm.trans hmate
  refine ⟨s₀, g, s₁, s, t, y, s', hreached, hbuild, hgreedy, hattempt, hforward, hfresh, hcoherent,
    of_decide_eq_false hadjacency, ⟨hlive, hlive'⟩, ⟨hmate, hmate'⟩, hrestore,
    (hrecovers.live 0).2 hlive, hv⟩

end FiniteDomain.AllDifferent.ValueGraph
