import FiniteDomain.Proofs.Loops
import FiniteDomain.Proofs.AllDifferent.Graph

/-!
# Questions to a value graph

Each question to a sound value graph has an answer, and the answer is read off the snapshot.  The
lists of live edges and of active variables are given by their places: `ValueGraph.nth` is the
variable at the end of the edge in a given place of a value.
-/

namespace FiniteDomain.AllDifferent.ValueGraph

variable {g : ValueGraph} {s : Store} {ρ : Registers}

/-! ## Cells of a layout -/

theorem Layout.cell_live (h : g.Layout) {v : Nat} (hv : v < g.valueTotal) :
    ∃ c, g.cell? (.live v) = some c ∧ fetch g.live v = .ok c := by
  have hlt : v < g.live.size := by rw [h.size_live]; exact hv
  exact ⟨g.live[v], Array.getElem?_eq_getElem hlt,
    fetch_eq_ok_iff.2 (Array.getElem?_eq_getElem hlt)⟩

theorem Layout.cell_mate (h : g.Layout) {x : Nat} (hx : x < g.varTotal) :
    ∃ c, g.cell? (.mate x) = some c ∧ fetch g.mates x = .ok c := by
  have hlt : x < g.mates.size := by rw [h.size_mates]; exact hx
  exact ⟨g.mates[x], Array.getElem?_eq_getElem hlt,
    fetch_eq_ok_iff.2 (Array.getElem?_eq_getElem hlt)⟩

theorem Layout.cell_owner (h : g.Layout) {v : Nat} (hv : v < g.valueTotal) :
    ∃ c, g.cell? (.owner v) = some c ∧ fetch g.owners v = .ok c := by
  have hlt : v < g.owners.size := by rw [h.size_owners]; exact hv
  exact ⟨g.owners[v], Array.getElem?_eq_getElem hlt,
    fetch_eq_ok_iff.2 (Array.getElem?_eq_getElem hlt)⟩

/-! ## Places -/

theorem Layout.fetch_edgeValue (h : g.Layout) {e : Nat} (he : e < g.edgeTotal) :
    fetch g.edgeValue e = .ok (g.head e) :=
  fetch_getD (by rw [h.size_edgeValue]; exact he) 0

theorem Layout.fetch_edgeVar {e : Nat} (he : e < g.edgeTotal) :
    fetch g.edgeVar e = .ok (g.tail e) :=
  fetch_getD he 0

theorem Layout.fetch_slot (h : g.Layout) {e : Nat} (he : e < g.edgeTotal) :
    fetch g.slot e = .ok (g.place e) :=
  fetch_getD (by rw [h.size_slot]; exact he) 0

theorem Layout.fetch_adjacency (h : g.Layout) {k : Nat} (hk : k < g.edgeTotal) :
    fetch g.adjacency k = .ok (g.edgeAt k) :=
  fetch_getD (by rw [h.size_adjacency]; exact hk) 0

theorem Layout.fetch_valueStart (h : g.Layout) {v : Nat} (hv : v < g.valueTotal) :
    fetch g.valueStart v = .ok (g.start v) :=
  fetch_getD (by rw [h.size_valueStart]; omega) 0

theorem Layout.fetch_edgeStart (h : g.Layout) {x : Nat} (hx : x ≤ g.varTotal) :
    fetch g.edgeStart x = .ok (g.firstEdge x) :=
  fetch_getD (by rw [h.size_edgeStart]; omega) 0

theorem Layout.fetch_activePlace (h : g.Layout) {x : Nat} (hx : x < g.varTotal) :
    fetch g.activePlace x = .ok (g.rank x) :=
  fetch_getD (by rw [h.size_activePlace]; exact hx) 0

theorem Layout.fetch_active (h : g.Layout) {k : Nat} (hk : k < g.varTotal) :
    fetch g.active k = .ok (g.varAt k) :=
  fetch_getD (by rw [h.size_active]; exact hk) 0

theorem Layout.edge_lt_bound (h : g.Layout) {k : Nat} (hk : k ≤ g.edgeTotal) :
    k < Word.countBound := by
  have hle := h.edgeTotal_le
  unfold Word.greatest at hle
  unfold Word.countBound
  omega

/-- Two edges stand in different places. -/
theorem Layout.place_injective (h : g.Layout) {e e' : Nat} (he : e < g.edgeTotal)
    (he' : e' < g.edgeTotal) (heq : g.place e = g.place e') : e = e' := by
  rw [← (h.place_edge e he).2, heq, (h.place_edge e' he').2]

theorem Layout.rank_injective (h : g.Layout) {x y : Nat} (hx : x < g.varTotal)
    (hy : y < g.varTotal) (heq : g.rank x = g.rank y) : x = y := by
  rw [← (h.rank_var x hx).2, heq, (h.rank_var y hy).2]

/-- The edges of a variable, in order. -/
theorem edgesOf_eq (h : g.Layout) {x : Nat} (hx : x < g.varTotal) :
    ∃ es, g.edgesOf x = .ok es ∧ es.Nodup ∧ ∀ e, e ∈ es ↔ e < g.edgeTotal ∧ g.tail e = x := by
  refine ⟨List.range' (g.firstEdge x) (g.firstEdge (x + 1) - g.firstEdge x), ?_,
    List.nodup_range', fun e => ?_⟩
  · rw [edgesOf, h.fetch_edgeStart (Nat.le_of_lt hx), ok_bind, h.fetch_edgeStart hx, ok_bind]
    rfl
  · have hle := h.firstEdge_le x hx
    rw [List.mem_range'_1]
    constructor
    · intro he
      have hlt : e < g.edgeTotal := by omega
      exact ⟨hlt, (h.tail_eq_iff e hlt x hx).2 (by omega)⟩
    · rintro ⟨hlt, htail⟩
      have := (h.tail_eq_iff e hlt x hx).1 htail
      omega

/-! ## Counts -/

theorem Intact.count_eq (h : g.Intact ρ) {v : Nat} (hv : v < g.valueTotal) :
    ρ (.live v) = (count ρ v : Int) :=
  (Int.toNat_of_nonneg (h.live_nonneg v hv)).symm

theorem Intact.count_le (h : g.Intact ρ) (hl : g.Layout) {v : Nat} (hv : v < g.valueTotal) :
    g.start v + count ρ v ≤ g.edgeTotal :=
  Nat.le_trans (h.live_le v hv) (hl.start_le v hv).2

namespace Sound

theorem count_bound (h : g.Sound s) {v : Nat} (hv : v < g.valueTotal) :
    g.start v + count (g.now s) v < Word.countBound :=
  h.layout.edge_lt_bound (h.intact.count_le h.layout hv)

/-- The number of live edges of a value. -/
theorem liveCount_eq (h : g.Sound s) {v : Nat} (hv : v < g.valueTotal) :
    g.liveCount s v = .ok (count (g.now s) v) := by
  obtain ⟨c, hc, hfetch⟩ := h.layout.cell_live hv
  have hpos := h.intact.live_nonneg v hv
  have hle := h.intact.count_le h.layout hv
  have hE := h.layout.edgeTotal_le
  have hcount := h.intact.count_eq hv
  rw [liveCount, hfetch, ok_bind, readCount_eq h.wired hc hpos (by omega)]
  rfl

/-- The number of all live edges. -/
theorem liveEdges_eq (h : g.Sound s) :
    g.liveEdges s = .ok ((Finset.range g.edgeTotal).filter (g.Live (g.now s))).card := by
  have htotal := h.intact.total_eq
  have hcard : ((Finset.range g.edgeTotal).filter (g.Live (g.now s))).card ≤ g.edgeTotal := by
    refine Nat.le_trans (Finset.card_filter_le _ _) ?_
    rw [Finset.card_range]
  have hE := h.layout.edgeTotal_le
  rw [liveEdges, readCount_eq h.wired (r := .liveTotal) rfl (by omega) (by omega), htotal]
  rfl

/-- The number of active variables. -/
theorem activeCount_eq (h : g.Sound s) :
    g.activeCount s = .ok (g.now s .activeTotal).toNat := by
  have hle := h.intact.active_le
  have hn := h.layout.varTotal_le
  exact readCount_eq h.wired (r := .activeTotal) rfl h.intact.active_nonneg (by omega)

end Sound

/-- As many variables are active as the count says. -/
theorem card_active (hl : g.Layout) (hi : g.Intact ρ) :
    (g.snapshot ρ).active.card = (ρ .activeTotal).toNat := by
  have hle := hi.active_le
  rw [← Finset.card_range (ρ .activeTotal).toNat]
  refine Finset.card_bij (fun x _ => g.rank x) ?_ ?_ ?_
  · intro x hx
    exact Finset.mem_range.2 (mem_active.1 hx).2
  · intro x hx y hy heq
    exact hl.rank_injective (mem_active.1 hx).1 (mem_active.1 hy).1 heq
  · intro k hk
    rw [Finset.mem_range] at hk
    obtain ⟨h1, h2⟩ := hl.var_rank k (by omega)
    exact ⟨g.varAt k, mem_active.2 ⟨h1, by rw [h2]; exact hk⟩, h2⟩

/-! ## Live edges -/

/-- The variable at the end of the edge in the `k`-th place of a value. -/
def nth (g : ValueGraph) (v k : Nat) : Nat := g.tail (g.edgeAt (g.start v + k))

/-- The edge in one of the first places of a value is live. -/
theorem live_edgeAt (hl : g.Layout) (hi : g.Intact ρ) {v k : Nat} (hv : v < g.valueTotal)
    (hk : k < count ρ v) :
    g.Live ρ (g.edgeAt (g.start v + k)) ∧ g.head (g.edgeAt (g.start v + k)) = v := by
  have hle := hi.live_le v hv
  have hE := (hl.start_le v hv).2
  obtain ⟨h1, h2⟩ := hl.edge_place (g.start v + k) (by omega)
  have hhead : g.head (g.edgeAt (g.start v + k)) = v :=
    (hl.head_eq_iff _ h1 v hv).2 (by rw [h2]; omega)
  refine ⟨⟨h1, ?_⟩, hhead⟩
  rw [h2, hhead]
  omega

/-- Who can take a value, by the places of its edges. -/
theorem mem_live_iff_nth (hl : g.Layout) (hi : g.Intact ρ) {x v : Nat} (hv : v < g.valueTotal) :
    v ∈ (g.snapshot ρ).live x ↔ ∃ k < count ρ v, g.nth v k = x := by
  rw [mem_live]
  constructor
  · rintro ⟨e, ⟨he, hplace⟩, rfl, rfl⟩
    have hstart := (hl.head_eq_iff e he _ hv).1 rfl
    refine ⟨g.place e - g.start (g.head e), by omega, ?_⟩
    rw [nth, Nat.add_sub_cancel' hstart.1, (hl.place_edge e he).2]
  · rintro ⟨k, hk, rfl⟩
    obtain ⟨hlive, hhead⟩ := live_edgeAt hl hi hv hk
    exact ⟨_, hlive, rfl, hhead⟩

/-- Only values with a number are on edges. -/
theorem lt_of_mem_live (hl : g.Layout) {x v : Nat} (h : v ∈ (g.snapshot ρ).live x) :
    x < g.varTotal ∧ v < g.valueTotal := by
  obtain ⟨e, hlive, rfl, rfl⟩ := mem_live.1 h
  exact ⟨hl.tail_lt e hlive.1, hl.head_lt e hlive.1⟩

/-- Different places of a value have different variables. -/
theorem nth_injective (hl : g.Layout) (hi : g.Intact ρ) {v k k' : Nat} (hv : v < g.valueTotal)
    (hk : k < count ρ v) (hk' : k' < count ρ v) (heq : g.nth v k = g.nth v k') : k = k' := by
  obtain ⟨hlive, hhead⟩ := live_edgeAt hl hi hv hk
  obtain ⟨hlive', hhead'⟩ := live_edgeAt hl hi hv hk'
  have hedge := hl.simple _ hlive.1 _ hlive'.1 heq (hhead.trans hhead'.symm)
  have hle := hi.count_le hl hv
  have h1 := (hl.edge_place (g.start v + k) (by omega)).2
  have h2 := (hl.edge_place (g.start v + k') (by omega)).2
  rw [hedge, h2] at h1
  omega

theorem nth_lt (hl : g.Layout) (hi : g.Intact ρ) {v k : Nat} (hv : v < g.valueTotal)
    (hk : k < count ρ v) : g.nth v k < g.varTotal :=
  hl.tail_lt _ (live_edgeAt hl hi hv hk).1.1

namespace Sound

theorem liveVar_eq (h : g.Sound s) {v k : Nat} (hv : v < g.valueTotal)
    (hk : k < count (g.now s) v) : g.liveVar v k = .ok (g.nth v k) := by
  have hle := h.intact.count_le h.layout hv
  have hlive := live_edgeAt h.layout h.intact hv hk
  rw [liveVar, h.layout.fetch_valueStart hv, ok_bind, h.layout.fetch_adjacency (by omega), ok_bind,
    Layout.fetch_edgeVar hlive.1.1]
  rfl

/-- The variables that may still take a value, each once. -/
theorem liveVars_eq (h : g.Sound s) {v : Nat} (hv : v < g.valueTotal) :
    ∃ ys, g.liveVars s v = .ok ys ∧ ys.Nodup ∧
      ∀ y, y ∈ ys ↔ v ∈ (g.snapshot (g.now s)).live y := by
  have hle := h.intact.count_le h.layout hv
  have hbound := h.count_bound hv
  refine ⟨(List.range (count (g.now s) v)).map (g.nth v), ?_, ?_, fun y => ?_⟩
  · have hlist : (g.adjacency.extract (g.start v) (g.start v + count (g.now s) v)).toList =
        (List.range (count (g.now s) v)).map fun k => g.edgeAt (g.start v + k) := by
      refine List.ext_getElem? fun k => ?_
      have hsize := h.layout.size_adjacency
      rw [Array.getElem?_toList, Array.getElem?_extract, List.getElem?_map]
      by_cases hk : k < count (g.now s) v
      · rw [if_pos (by omega), List.getElem?_range hk, Option.map_some, edgeAt,
          Array.getD_eq_getD_getElem?, Array.getElem?_eq_getElem (by omega)]
        rfl
      · rw [if_neg (by omega), List.getElem?_eq_none (by rw [List.length_range]; omega)]
        rfl
    rw [liveVars, h.layout.fetch_valueStart hv, ok_bind, h.liveCount_eq hv, ok_bind, Word.addCount,
      if_pos hbound, ok_bind, h.layout.size_adjacency, if_neg (by omega), hlist,
      mapM_eq_ok (g := g.tail), List.map_map]
    · rfl
    · intro e he
      obtain ⟨k, hk, rfl⟩ := List.mem_map.1 he
      exact Layout.fetch_edgeVar (live_edgeAt h.layout h.intact hv (List.mem_range.1 hk)).1.1
  · refine List.Nodup.map_on (fun k hk k' hk' heq => ?_) List.nodup_range
    exact nth_injective h.layout h.intact hv (List.mem_range.1 hk) (List.mem_range.1 hk') heq
  · rw [mem_live_iff_nth h.layout h.intact hv, List.mem_map]
    simp only [List.mem_range]

/-- Whether an edge is live. -/
theorem isLive_eq (h : g.Sound s) {e : Nat} (he : e < g.edgeTotal) :
    g.isLive s e = .ok (decide (g.Live (g.now s) e)) := by
  have hv := h.layout.head_lt e he
  rw [isLive, h.layout.fetch_edgeValue he, ok_bind, h.layout.fetch_slot he, ok_bind,
    h.layout.fetch_valueStart hv, ok_bind, h.liveCount_eq hv, ok_bind, Word.addCount,
    if_pos (h.count_bound hv), ok_bind, pure_eq_ok]
  congr 1
  rw [decide_eq_decide, Live]
  exact ⟨fun hp => ⟨he, hp⟩, fun hp => hp.2⟩

/-! ## Active variables -/

/-- Whether a variable is active. -/
theorem isActive_eq (h : g.Sound s) {x : Nat} (hx : x < g.varTotal) :
    g.isActive s x = .ok (decide (x ∈ (g.snapshot (g.now s)).active)) := by
  rw [isActive, h.layout.fetch_activePlace hx, ok_bind, h.activeCount_eq, ok_bind, pure_eq_ok]
  congr 1
  rw [decide_eq_decide, mem_active, Active]
  exact ⟨fun hp => ⟨hx, hp⟩, fun hp => hp.2⟩

/-- The active variables, each once. -/
theorem activeVars_eq (h : g.Sound s) :
    ∃ ys, g.activeVars s = .ok ys ∧ ys.Nodup ∧
      ∀ y, y ∈ ys ↔ y ∈ (g.snapshot (g.now s)).active := by
  have hle := h.intact.active_le
  have hsize := h.layout.size_active
  have hget : ∀ {k : Nat} (hk : k < g.active.size), g.active[k] = g.varAt k := by
    intro k hk
    rw [varAt, Array.getD_eq_getD_getElem?, Array.getElem?_eq_getElem hk]
    rfl
  refine ⟨(g.active.extract 0 (g.now s .activeTotal).toNat).toList, ?_, ?_, fun y => ?_⟩
  · rw [activeVars, h.activeCount_eq, ok_bind, hsize, if_neg (by omega)]
    rfl
  · rw [List.Nodup, List.pairwise_iff_getElem]
    intro i j hi hj hij heq
    simp only [Array.length_toList, Array.size_extract] at hi hj
    simp only [Array.getElem_toList, Array.getElem_extract, Nat.zero_add] at heq
    rw [hget, hget] at heq
    have h1 := (h.layout.var_rank i (by omega)).2
    have h2 := (h.layout.var_rank j (by omega)).2
    rw [heq, h2] at h1
    omega
  · rw [Array.mem_toList_iff, Array.mem_extract_iff_getElem, mem_active]
    constructor
    · rintro ⟨k, hk, rfl⟩
      simp only [Nat.zero_add]
      rw [hget]
      obtain ⟨h1, h2⟩ := h.layout.var_rank k (by omega)
      exact ⟨h1, by rw [h2]; omega⟩
    · rintro ⟨hy, hrank⟩
      obtain ⟨h1, h2⟩ := h.layout.rank_var y hy
      refine ⟨g.rank y, by omega, ?_⟩
      simp only [Nat.zero_add]
      exact (hget (by omega)).trans h2

/-! ## The matching -/

theorem mate?_eq (h : g.Sound s) {x : Nat} (hx : x < g.varTotal) :
    g.mate? s x = .ok ((g.snapshot (g.now s)).mate x) := by
  obtain ⟨c, hc, hfetch⟩ := h.layout.cell_mate hx
  rw [mate?, hfetch, ok_bind, partner?, read_eq h.wired hc, ok_bind]
  rfl

theorem owner?_eq (h : g.Sound s) {v : Nat} (hv : v < g.valueTotal) :
    g.owner? s v = .ok ((g.snapshot (g.now s)).owner v) := by
  obtain ⟨c, hc, hfetch⟩ := h.layout.cell_owner hv
  rw [owner?, hfetch, ok_bind, partner?, read_eq h.wired hc, ok_bind]
  rfl

/-- A value is free if it has no owner but a live edge. -/
theorem isFree_eq (h : g.Sound s) {v : Nat} (hv : v < g.valueTotal) :
    g.isFree s v =
      .ok (decide ((g.snapshot (g.now s)).owner v = none ∧ 0 < count (g.now s) v)) := by
  rw [isFree, h.owner?_eq hv, ok_bind]
  cases (g.snapshot (g.now s)).owner v with
  | none =>
    dsimp only
    rw [h.liveCount_eq hv, ok_bind, pure_eq_ok]
    simp
  | some x =>
    dsimp only
    rw [pure_eq_ok]
    simp

end Sound

/-- A matching cell holds the number of a partner, or none. -/
theorem partner_eq_some {v : Int} {n : Nat} : partner v = some n ↔ v = n := by
  rw [partner]
  split
  · rw [Option.some.injEq]
    omega
  · simp only [reduceCtorEq, false_iff]
    omega

/-- Mates are values with a number. -/
theorem Intact.mate_lt (h : g.Intact ρ) {x v : Nat} (hv : (g.snapshot ρ).mate x = some v) :
    x < g.varTotal ∧ v < g.valueTotal := by
  have hv' := partner_eq_some.1 hv
  obtain hnone | ⟨hx, v', hlt, hsome⟩ := h.mate_eq x
  · omega
  · exact ⟨hx, by omega⟩

/-- Owners are variables of the graph. -/
theorem Intact.owner_lt (h : g.Intact ρ) {v x : Nat} (hx : (g.snapshot ρ).owner v = some x) :
    x < g.varTotal ∧ v < g.valueTotal := by
  have hx' := partner_eq_some.1 hx
  obtain hnone | ⟨hv, x', hlt, hsome⟩ := h.owner_eq v
  · omega
  · exact ⟨by omega, hv⟩

namespace Sound

/-- Whether a live edge joins a variable and a value. -/
theorem hasLiveEdge_eq (h : g.Sound s) {x v : Nat} (hx : x < g.varTotal) :
    g.hasLiveEdge s x v = .ok (decide (v ∈ (g.snapshot (g.now s)).live x)) := by
  obtain ⟨es, hes, _, hmem⟩ := edgesOf_eq h.layout hx
  rw [hasLiveEdge, hes, ok_bind, anyM_eq_ok
    (g := fun e => decide (g.head e = v) && decide (g.Live (g.now s) e))]
  · congr 1
    rw [Bool.eq_iff_iff, List.any_eq_true, decide_eq_true_eq, mem_live]
    constructor
    · rintro ⟨e, he, hp⟩
      rw [Bool.and_eq_true, decide_eq_true_eq, decide_eq_true_eq] at hp
      exact ⟨e, hp.2, ((hmem e).1 he).2, hp.1⟩
    · rintro ⟨e, hlive, htail, hhead⟩
      refine ⟨e, (hmem e).2 ⟨hlive.1, htail⟩, ?_⟩
      rw [decide_eq_true hhead, decide_eq_true hlive]
      rfl
  · intro e he
    have hlt := ((hmem e).1 he).1
    rw [h.layout.fetch_edgeValue hlt, ok_bind]
    by_cases hv : g.head e = v
    · rw [if_pos hv, h.isLive_eq hlt, decide_eq_true hv, Bool.true_and]
    · rw [if_neg hv, decide_eq_false hv]
      rfl

open Classical in
/-- Whether the matching covers all variables along live edges. -/
theorem isCovered_eq (h : g.Sound s) :
    g.isCovered s = .ok (decide (∀ x < g.varTotal, ∃ v,
      (g.snapshot (g.now s)).mate x = some v ∧ (g.snapshot (g.now s)).owner v = some x ∧
        v ∈ (g.snapshot (g.now s)).live x)) := by
  rw [isCovered, allM_eq_ok (g := fun x => decide (∃ v,
      (g.snapshot (g.now s)).mate x = some v ∧ (g.snapshot (g.now s)).owner v = some x ∧
        v ∈ (g.snapshot (g.now s)).live x))]
  · congr 1
    rw [Bool.eq_iff_iff, List.all_eq_true, decide_eq_true_eq]
    simp only [List.mem_range, decide_eq_true_eq]
  · intro x hx
    rw [List.mem_range] at hx
    rw [h.mate?_eq hx, ok_bind]
    cases hmate : (g.snapshot (g.now s)).mate x with
    | none => simp
    | some v =>
      dsimp only
      rw [h.owner?_eq (h.intact.mate_lt hmate).2, ok_bind]
      by_cases howner : (g.snapshot (g.now s)).owner v = some x
      · rw [if_pos howner, h.hasLiveEdge_eq hx]
        congr 1
        rw [decide_eq_decide]
        constructor
        · exact fun hlive => ⟨v, rfl, howner, hlive⟩
        · rintro ⟨v', hv', _, hlive⟩
          exact Option.some.inj hv' ▸ hlive
      · rw [if_neg howner, pure_eq_ok]
        congr 1
        rw [eq_comm, decide_eq_false_iff_not]
        rintro ⟨v', hv', howner', _⟩
        exact howner (Option.some.inj hv' ▸ howner')

end Sound

/-! ## Values and variables that do not change -/

/-- The variable at a position. -/
def varOf (g : ValueGraph) (x : Nat) : Var := g.vars.getD x ⟨0⟩

/-- The value with a number. -/
def val (g : ValueGraph) (v : Nat) : Int := g.values.getD v 0

/-- The primitive variable of the variable at a position. -/
def sourceOf (g : ValueGraph) (x : Nat) : Var := g.sources.getD x ⟨0⟩

theorem value_eq {v : Nat} (hv : v < g.valueTotal) : g.value v = .ok (g.val v) :=
  fetch_getD hv 0

theorem var_eq {x : Nat} (hx : x < g.varTotal) : g.var x = .ok (g.varOf x) :=
  fetch_getD hx ⟨0⟩

theorem toList_vars (g : ValueGraph) : g.vars.toList = (List.range g.varTotal).map g.varOf := by
  refine List.ext_getElem (by simp [varTotal]) fun x hx _ => ?_
  rw [List.getElem_map, List.getElem_range, Array.getElem_toList]
  exact Array.getElem_eq_getD _

theorem mem_vars {y : Var} : y ∈ g.vars ↔ ∃ x < g.varTotal, g.varOf x = y := by
  rw [← Array.mem_toList_iff, toList_vars, List.mem_map]
  simp only [List.mem_range]

/-- The number of a value. -/
theorem Layout.valueId?_eq_some (h : g.Layout) {u : Int} {v : Nat} :
    g.valueId? u = some v ↔ v < g.valueTotal ∧ g.val v = u := by
  have hget : ∀ {k : Nat} (hk : k < g.values.size), g.values.getD k 0 = g.values[k] := by
    intro k hk
    rw [Array.getD_eq_getD_getElem?, Array.getElem?_eq_getElem hk]
    rfl
  rw [valueId?, Array.findIdx?_eq_some_iff_getElem]
  constructor
  · rintro ⟨hv, heq, _⟩
    exact ⟨hv, (hget hv).trans (beq_iff_eq.1 heq)⟩
  · rintro ⟨hv, rfl⟩
    refine ⟨hv, beq_iff_eq.2 (hget hv).symm, fun j hj heq => ?_⟩
    have hne := List.pairwise_iff_getElem.1 h.values_nodup j v
      (by rw [Array.length_toList]; exact Nat.lt_trans hj hv) (by rw [Array.length_toList]; exact hv)
      hj
    rw [Array.getElem_toList, Array.getElem_toList] at hne
    exact hne ((beq_iff_eq.1 heq).trans (hget hv))

/-- The positions of the variables with a given primitive variable. -/
theorem mem_route {p : Var} {x : Nat} :
    x ∈ g.route p ↔ x < g.sources.size ∧ g.sourceOf x = p := by
  rw [route, List.mem_filter, List.mem_range]
  refine and_congr_right fun hx => ?_
  rw [sourceOf, Array.getElem?_eq_getElem hx, Array.getD_eq_getD_getElem?,
    Array.getElem?_eq_getElem hx]
  simp

/-- The positions that share a primitive variable with `x`. -/
theorem Layout.sharers_eq (h : g.Layout) {x : Nat} (hx : x < g.varTotal) :
    ∃ zs, g.sharers x = .ok zs ∧ ∀ z, z ∈ zs ↔ z < g.varTotal ∧ g.sourceOf z = g.sourceOf x := by
  refine ⟨g.route (g.sourceOf x), ?_, fun z => ?_⟩
  · rw [sharers, fetch_getD (by rw [h.size_sources]; exact hx) ⟨0⟩]
    rfl
  · rw [mem_route, h.size_sources]

end FiniteDomain.AllDifferent.ValueGraph
