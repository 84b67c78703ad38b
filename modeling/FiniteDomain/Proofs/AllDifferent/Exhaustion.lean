import FiniteDomain.Proofs.AllDifferent.Upkeep

/-!
# What forward checking comes to

Forward checking denies single values until none is left to deny, in the order in which its worklist
happens to give the variables back.  For a graph in use, whose stale and fixed variables all wait, the
result does not depend on that order.

* `Sync.Ran.exhausts`: the domains that are left when no attempt has failed are those that the
  denials end with.
* `ValueGraph.Report`: what the graph and the changes tell then.  It is put together from what
  `Sync.Ran` says of the whole loop: the ledgers of edges and active variables, what grounded
  variables keep, and what untouched variables have.
* `ValueGraph.forwardCheck_exhausts`: forward checking fails if and only if the denials leave a
  variable without values, and reports the truth otherwise.
-/

namespace FiniteDomain.AllDifferent

namespace ValueGraph

variable {g g' : ValueGraph} {s s' : Store} {ρ : Registers}

/-- The live edges of a variable lead to the values of its domain. -/
def Shows (g : ValueGraph) (s : Store) (x : Nat) : Prop :=
  ∀ u, u ∈ g.domains s x ↔ ∃ e, g.tail e = x ∧ g.val (g.head e) = u ∧ g.isLive s e = .ok true

/-! ## Counts -/

/-- The live edges are those of the variables. -/
theorem card_live_tails (hl : g.Layout) :
    ((Finset.range g.edgeTotal).filter (g.Live ρ)).card =
      ∑ x ∈ Finset.range g.varTotal, ((g.snapshot ρ).live x).card := by
  rw [Finset.card_eq_sum_card_fiberwise (f := g.tail) (t := Finset.range g.varTotal)
    fun e he => ?_]
  swap
  · exact Finset.mem_coe.2 (Finset.mem_range.2
      (hl.tail_lt e (Finset.mem_filter.1 (Finset.mem_coe.1 he)).2.1))
  refine Finset.sum_congr rfl fun x _ => ?_
  rw [Finset.filter_filter, snapshot]
  refine (Finset.card_image_of_injOn fun e he e' he' heq => ?_).symm
  obtain ⟨hmem, _, htail⟩ := Finset.mem_filter.1 (Finset.mem_coe.1 he)
  obtain ⟨hmem', _, htail'⟩ := Finset.mem_filter.1 (Finset.mem_coe.1 he')
  exact hl.simple e (Finset.mem_range.1 hmem) e' (Finset.mem_range.1 hmem')
    (htail.trans htail'.symm) heq

end ValueGraph

namespace Sync

open Relation ValueGraph

variable {y y' : Sync} {x : Nat} {verdict : Verdict}

theorem Sound.liveEdges_eq (h : y.Sound) : y.graph.liveEdges y.store = .ok y.edges := by
  rw [h.graph.liveEdges_eq, card_live_tails h.graph.layout]
  rfl

theorem Sound.activeCount_eq (h : y.Sound) :
    y.graph.activeCount y.store = .ok y.snapshot.active.card := by
  rw [h.graph.activeCount_eq, snapshot, card_active h.graph.layout h.graph.intact]

/-- A variable has an edge to each value of its domain, so none of its edges is stale if these are
all. -/
theorem Sound.shows_iff (h : y.Sound) (hx : x < y.graph.varTotal) :
    y.graph.Shows y.store x ↔ y.Clean x := by
  constructor
  · intro hshows v hv
    obtain ⟨e, hlive, htail, rfl⟩ := mem_live.1 hv
    exact (hshows _).2 ⟨e, htail, rfl, h.graph.isLive_iff.2 hlive⟩
  · intro hclean u
    constructor
    · intro hu
      obtain ⟨v, hv, rfl⟩ := h.fits x hx u hu
      obtain ⟨e, hlive, htail, rfl⟩ := mem_live.1 hv
      exact ⟨e, htail, rfl, h.graph.isLive_iff.2 hlive⟩
    · rintro ⟨e, htail, rfl, hlive⟩
      exact hclean _ (mem_live.2 ⟨e, h.graph.isLive_iff.1 hlive, htail, rfl⟩)

/-- A grounded variable has one value, which is that of its mate. -/
theorem Sound.domain_of_kept (h : y.Sound) (hfilled : y.Filled) (hkept : y.Kept)
    (hx : x < y.graph.varTotal) (hxa : x ∉ y.snapshot.active) :
    ∃ a, y.snapshot.mate x = some a ∧ y.domains x = {y.graph.val a} ∧
      ∀ z < y.graph.varTotal, z ≠ x → y.graph.val a ∉ y.domains z := by
  obtain ⟨a, ha, honly, hdenied⟩ := hkept x hx hxa
  refine ⟨a, ha, ?_, hdenied⟩
  refine (Finset.subset_singleton_iff.1 fun u hu => ?_).resolve_left (hfilled x hx hxa)
  obtain ⟨v, hv, rfl⟩ := h.fits x hx u hu
  rw [honly v hv]
  exact Finset.mem_singleton_self _

namespace Ran

/-- When the work is done, no active variable has a single value. -/
theorem not_fixed (h : Ran y .consistent y') (halert : y.Alert) (hxa : x ∈ y'.snapshot.active) :
    (y'.domains x).card ≠ 1 := by
  intro hcard
  have hwaits := h.alert rfl halert x hxa hcard
  rw [h.done rfl] at hwaits
  cases hwaits

/-- When the work is done, no single value is left to deny: whoever has one is grounded, and nobody
else has it. -/
theorem exhausts (h : Ran y .consistent y') (halert : y.Alert) (hfilled : y.Filled)
    (hkept : y.Kept) : y.graph.Exhausts y.store y.store.domain y'.store.domain := by
  refine ⟨h.follows.denies, fun E' hstep => ?_⟩
  rw [← denies_congr h.follows.step.alike h.follows.step.evolves.path_eq] at hstep
  obtain ⟨x, hx, z, hz, a, hzx, hone, hmem, -⟩ := hstep
  have hxa : x ∉ y'.snapshot.active := fun hxa =>
    h.not_fixed halert hxa (Finset.card_eq_one.2 ⟨a, hone⟩)
  obtain ⟨b, _, hb, hdenied⟩ :=
    h.follows.sound.domain_of_kept (h.filled rfl hfilled) (h.kept rfl hkept) hx hxa
  obtain rfl := Finset.singleton_injective (hone.symm.trans hb)
  exact hdenied z hz hzx hmem

/-- Variables that had values have some. -/
theorem nonempty (h : Ran y .consistent y') (hne : y.domains x ≠ ∅) : y'.domains x ≠ ∅ := by
  rw [domains, ValueGraph.domains_eq, h.follows.step.alike.varOf_eq]
  exact (h.alive rfl).view (h.follows.step.evolves.path_eq _) hne

/-- When the work is done, the variables with one value are grounded, and they alone. -/
theorem mem_active_iff (h : Ran y .consistent y') (halert : y.Alert) (hfilled : y.Filled)
    (hkept : y.Kept) (hx : x < y.graph.varTotal) :
    x ∈ y'.snapshot.active ↔ (y'.domains x).card ≠ 1 := by
  refine ⟨h.not_fixed halert, fun hcard => ?_⟩
  by_contra hxa
  obtain ⟨a, _, ha, _⟩ := h.follows.sound.domain_of_kept (h.filled rfl hfilled)
    (h.kept rfl hkept) (h.follows.step.alike.varTotal_eq ▸ hx) hxa
  exact hcard (Finset.card_eq_one.2 ⟨_, ha⟩)

end Ran

end Sync

namespace ValueGraph

variable {g : ValueGraph} {k : Matcher} {s s₀ : Store} {y : Sync} {vars : Array Var}
  {saved : List (ValueGraph × Store)} {work : Worklist} {E : Var → Finset Int}

/-! ## The report -/

/-- What is known of the graph `g` in the store `s` after forward checking has come to `y`. -/
structure Report (g : ValueGraph) (s : Store) (y : Sync) : Prop where
  same : y.graph.vars = g.vars ∧ y.graph.values = g.values ∧ y.graph.edgeVar = g.edgeVar ∧
    y.graph.edgeValue = g.edgeValue
  work_eq : y.work = .empty
  shows : ∀ x < g.varTotal, y.graph.Shows y.store x
  fixed : ∀ x < g.varTotal,
    y.graph.isActive y.store x = .ok false ↔ (y.graph.domains y.store x).card = 1
  keeps : ∀ x < g.varTotal, y.graph.isActive y.store x = .ok false →
    ∃ v, y.graph.mate? y.store x = .ok (some v) ∧
      y.graph.domains y.store x = {y.graph.val v} ∧
      ∀ e, y.graph.isLive y.store e = .ok true → y.graph.head e = v → y.graph.tail e = x
  unlinked : ∃ n, y.graph.liveEdges y.store = .ok n ∧ g.liveEdges s = .ok (n + y.changes.unlinked)
  grounded : ∃ n, y.graph.activeCount y.store = .ok n ∧
    g.activeCount s = .ok (n + y.changes.grounded)
  touched_of_lost : ∀ e, g.isLive s e = .ok true → y.graph.isLive y.store e = .ok false →
    g.tail e ∈ y.changes.touched
  touched_of_grounded : ∀ x, g.isActive s x = .ok true → y.graph.isActive y.store x = .ok false →
    x ∈ y.changes.touched
  matching : y.changes.matchingChanged = false →
    (∀ x < g.varTotal, y.graph.mate? y.store x = g.mate? s x) ∧
      ∀ v < g.valueTotal, y.graph.owner? y.store v = g.owner? s v

theorem Report.of_ran (h : Sync.Sound ⟨g, s, work, .nothing⟩)
    (hran : Sync.Ran ⟨g, s, work, .nothing⟩ .consistent y) (halert : Sync.Alert ⟨g, s, work, .nothing⟩)
    (hclean : ∀ x ∈ (g.snapshot (g.now s)).active,
      Sync.Clean ⟨g, s, work, .nothing⟩ x ∨ x ∈ work.waiting)
    (hfilled : Sync.Filled ⟨g, s, work, .nothing⟩) (hkept : Sync.Kept ⟨g, s, work, .nothing⟩) :
    Report g s y := by
  have hs := hran.follows.sound
  have ha : Alike g y.graph := hran.follows.step.alike
  have hn : y.graph.varTotal = g.varTotal := ha.varTotal_eq
  have hclean' : ∀ x < g.varTotal, y.Clean x := by
    intro x hx
    refine hran.clean rfl x hx (Or.inl ⟨hfilled, hkept⟩) ?_
    by_cases hxa : x ∈ (g.snapshot (g.now s)).active
    · exact hclean x hxa
    · exact Or.inl (h.clean_of_kept hfilled hkept hx hxa)
  have hgrounded : ∀ x < g.varTotal,
      y.graph.isActive y.store x = .ok false ↔ x ∉ y.snapshot.active := by
    intro x hx
    rw [hs.graph.isActive_eq (hn.symm ▸ hx), Except.ok.injEq, decide_eq_false_iff_not]
    rfl
  have hkeeps := fun x (hx : x < g.varTotal) hxa =>
    hs.domain_of_kept (hran.filled rfl hfilled) (hran.kept rfl hkept) (hn.symm ▸ hx)
      ((hgrounded x hx).1 hxa)
  refine ⟨⟨ha.vars_eq, ha.values_eq, ha.edgeVar_eq, ha.edgeValue_eq⟩, hran.done rfl,
    fun x hx => (hs.shows_iff (hn.symm ▸ hx)).2 (hclean' x hx), fun x hx => ?_,
    fun x hx hxa => ?_, ⟨_, hs.liveEdges_eq, ?_⟩, ⟨_, hs.activeCount_eq, ?_⟩, fun e he he' => ?_,
    fun x hxa hxa' => ?_, fun hsame => ⟨fun x hx => ?_, fun v hv => ?_⟩⟩
  · rw [hgrounded x hx, hran.mem_active_iff halert hfilled hkept hx, not_not]
    rfl
  · obtain ⟨v, hv, hdomain, hdenied⟩ := hkeeps x hx hxa
    refine ⟨v, ?_, hdomain, fun e he hhead => ?_⟩
    · rw [hs.graph.mate?_eq (hn.symm ▸ hx)]
      exact congrArg Except.ok hv
    · have hlive := hs.graph.isLive_iff.1 he
      have htail := hs.graph.layout.tail_lt e hlive.1
      by_contra hne
      refine hdenied _ htail hne ?_
      rw [← hhead]
      exact hclean' _ (hn ▸ htail) _ (mem_live.2 ⟨e, hlive, rfl, rfl⟩)
  · have hadd : y.edges + y.changes.unlinked = Sync.edges ⟨g, s, work, .nothing⟩ := hran.edges_add
    rw [hadd]
    exact h.liveEdges_eq
  · have hadd : y.snapshot.active.card + y.changes.grounded =
        (g.snapshot (g.now s)).active.card := hran.active_add
    rw [hadd]
    exact h.activeCount_eq
  · -- An untouched variable has the live edges that it had.
    by_contra hnot
    have hlive := h.graph.isLive_iff.1 he
    have hmem : g.head e ∈ (g.snapshot (g.now s)).live (g.tail e) :=
      mem_live.2 ⟨e, hlive, rfl, rfl⟩
    have hmem' : g.head e ∈ y.snapshot.live (g.tail e) := by
      rw [(hran.untouched rfl _ hnot).1]
      exact hmem
    obtain ⟨e', hlive', htail, hhead⟩ := mem_live.1 hmem'
    rw [ha.tail_eq] at htail
    rw [ha.head_eq] at hhead
    have he'' : e' < g.edgeTotal := ha.edgeTotal_eq ▸ hlive'.1
    obtain rfl := h.graph.layout.simple e' he'' e hlive.1 htail hhead
    cases he'.symm.trans (hs.graph.isLive_iff.2 hlive')
  · by_contra hnot
    have hxa := h.graph.isActive_iff.1 hxa
    have hx := (mem_active.1 hxa).1
    exact (hgrounded x hx).1 hxa' ((hran.untouched rfl x hnot).2 hxa)
  · rw [hs.graph.mate?_eq (hn.symm ▸ hx), h.graph.mate?_eq hx]
    exact congrArg (fun f => Except.ok (f x)) (hran.follows.matching hsame).1
  · rw [hs.graph.owner?_eq (ha.valueTotal_eq.symm ▸ hv), h.graph.owner?_eq hv]
    exact congrArg (fun f => Except.ok (f v)) (hran.follows.matching hsame).2

/-- Forward checking of a graph in use, when each active variable waits that is fixed or whose live
edges are not the values of its domain.  The denials come to an end.  Forward checking returns, and it
fails if and only if they end without a value for some variable; so the order of the worklist does not
matter.  Otherwise it leaves the domains that they end with, and reports the truth. -/
theorem forwardCheck_exhausts (hs : s₀.Reached)
    (hvars : ∀ x ∈ vars, x.index < s₀.definitions.size) (h : InUse False s₀ vars g k s saved)
    (hne : ∀ x < g.varTotal, g.domains s x ≠ ∅) (hnodup : work.waiting.Nodup)
    (hwork : ∀ x ∈ work.waiting, x < g.varTotal)
    (hwaits : ∀ x < g.varTotal, g.isActive s x = .ok true →
      (g.domains s x).card = 1 ∨ ¬ g.Shows s x → x ∈ work.waiting) :
    (∃ E, g.Exhausts s s.domain E) ∧
      ∃ verdict y, forwardCheck ⟨g, s, work, .nothing⟩ = .ok (verdict, y) ∧
        (verdict = .consistent ∨ verdict = .failed .domainWipeout) ∧
        (verdict = .consistent → Report g s y) ∧
        ∀ E, g.Exhausts s s.domain E →
          (verdict = .failed .domainWipeout ↔ ∃ x < g.varTotal, g.views s E x = ∅) ∧
          (verdict = .consistent → y.store.domain = E) := by
  have hupheld := h.upheld hs.sound hvars
  have hsound : Sync.Sound ⟨g, s, work, .nothing⟩ :=
    hupheld.sync hnodup hwork fun x hx => absurd hx (Array.not_mem_empty x)
  have hactive : ∀ x ∈ (g.snapshot (g.now s)).active,
      x < g.varTotal ∧ g.isActive s x = .ok true :=
    fun x hx => ⟨(mem_active.1 hx).1, hupheld.sound.isActive_iff.2 hx⟩
  have hkept : Sync.Kept ⟨g, s, work, .nothing⟩ := by
    obtain hloose | ⟨x, hx, hempty⟩ | hfirm := hupheld.holds.orderly.firm
    · exact hloose.elim
    · exact absurd hempty (hne x hx)
    · exact hfirm
  have hfilled : Sync.Filled ⟨g, s, work, .nothing⟩ := fun x hx _ => hne x hx
  have halert : Sync.Alert ⟨g, s, work, .nothing⟩ := fun x hx hcard =>
    hwaits x (hactive x hx).1 (hactive x hx).2 (Or.inl hcard)
  have hclean : ∀ x ∈ (g.snapshot (g.now s)).active,
      Sync.Clean ⟨g, s, work, .nothing⟩ x ∨ x ∈ work.waiting := by
    intro x hx
    obtain ⟨hlt, hask⟩ := hactive x hx
    by_cases hshows : g.Shows s x
    · exact Or.inl ((hsound.shows_iff hlt).1 hshows)
    · exact Or.inr (hwaits x hlt hask (Or.inr hshows))
  obtain ⟨verdict, y, hret, hran⟩ := Sync.forwardCheck_eq hsound
  have ha : Alike g y.graph := hran.follows.step.alike
  have hpath : ∀ x, y.store.path x = s.path x := hran.follows.step.evolves.path_eq
  refine ⟨exists_exhausts hupheld.anchored _, verdict, y, hret, ?_⟩
  cases verdict with
  | consistent =>
    have hend := hran.exhausts halert hfilled hkept
    have hends : ∀ x < g.varTotal, g.views s y.store.domain x ≠ ∅ := fun x hx => by
      rw [← views_congr ha hpath]
      exact hran.nonempty (hne x hx)
    refine ⟨Or.inl rfl, fun _ => .of_ran hsound hran halert hclean hfilled hkept, fun E hE => ?_⟩
    obtain rfl := hend.unique hupheld.anchored hends hE
    exact ⟨⟨nofun, fun ⟨x, hx, hempty⟩ => absurd hempty (hends x hx)⟩, fun _ => rfl⟩
  | failed why =>
    obtain ⟨hwhy, z, hz, hempty⟩ := hran.wiped nofun
    refine ⟨Or.inr hwhy, nofun, fun E hE => ⟨⟨fun _ => ?_, fun _ => hwhy⟩, nofun⟩⟩
    refine hE.exists_empty hupheld.anchored hran.follows.denies (ha.varTotal_eq ▸ hz) ?_
    show g.views s y.store.domain z = ∅
    rw [← views_congr ha hpath]
    exact hempty

/-- Two of three variables share a primitive variable, which is fixed.  One takes its value from the
third one, for which a single value is left. -/
theorem forwardCheck_exhausts_shared : ∃ s₀ g k s y E, s₀.Reached ∧
    InUse False s₀ #[⟨0⟩, ⟨1⟩, ⟨2⟩] g k s [] ∧
    forwardCheck ⟨g, s, ⟨[1, 0, 2]⟩, .nothing⟩ = .ok (.consistent, y) ∧ g.Exhausts s s.domain E ∧
    y.store.domain = E ∧ (∀ x < g.varTotal, g.views s E x ≠ ∅) ∧ Report g s y ∧
    s.size ⟨1⟩ = .ok 3 ∧ y.store.size ⟨1⟩ = .ok 1 ∧ y.changes.grounded = 3 ∧
    y.changes.matchingChanged = true := by
  have hrun : ((Store.ofTrail Trail.empty).newPrimitive 0 1 >>= fun a =>
      a.2.newPrimitive 0 2 >>= fun b => b.2.plus ⟨0⟩ 1 >>= fun c =>
      build c.2 #[⟨0⟩, ⟨1⟩, ⟨2⟩] >>= fun made => Matcher.greedy made.1 made.2 >>= fun t =>
      t.attempt (.fix ⟨0⟩ 0) >>= fun s =>
      forwardCheck ⟨made.1, s.2, ⟨[1, 0, 2]⟩, .nothing⟩ >>= fun r =>
      s.2.size ⟨0⟩ >>= fun n₀ => s.2.size ⟨1⟩ >>= fun n₁ => s.2.size ⟨2⟩ >>= fun n₂ =>
      r.2.store.size ⟨1⟩ >>= fun n₁' =>
      .ok ([s.1, r.1], [a.2.definitions.size, b.2.definitions.size, c.2.definitions.size],
        [n₀, n₁, n₂, n₁', r.2.changes.grounded], r.2.changes.matchingChanged)) =
      .ok ([.consistent, .consistent], [1, 2, 3], [1, 3, 1, 1, 3], true) := by
    decide +kernel
  obtain ⟨⟨_, a⟩, ha, hrun⟩ := bind_eq_ok_iff.1 hrun
  obtain ⟨⟨_, b⟩, hb, hrun⟩ := bind_eq_ok_iff.1 hrun
  obtain ⟨⟨_, s₀⟩, hs₀, hrun⟩ := bind_eq_ok_iff.1 hrun
  obtain ⟨⟨g, s₁⟩, hbuild, hrun⟩ := bind_eq_ok_iff.1 hrun
  obtain ⟨t, hgreedy, hrun⟩ := bind_eq_ok_iff.1 hrun
  obtain ⟨⟨verdict, s⟩, hattempt, hrun⟩ := bind_eq_ok_iff.1 hrun
  obtain ⟨⟨verdict', y⟩, hforward, hrun⟩ := bind_eq_ok_iff.1 hrun
  obtain ⟨n₀, hn₀, hrun⟩ := bind_eq_ok_iff.1 hrun
  obtain ⟨n₁, hn₁, hrun⟩ := bind_eq_ok_iff.1 hrun
  obtain ⟨n₂, hn₂, hrun⟩ := bind_eq_ok_iff.1 hrun
  obtain ⟨n₁', hn₁', heq⟩ := bind_eq_ok_iff.1 hrun
  injection heq with heq
  simp only [Prod.mk.injEq, List.cons.injEq, and_true] at heq
  obtain ⟨⟨rfl, rfl⟩, ⟨hasize, hbsize, hsize⟩, ⟨rfl, rfl, rfl, rfl, hgrounded⟩, hmatching⟩ := heq
  have hreached : s₀.Reached := .plus (by rw [hbsize]; decide) hs₀ (.newPrimitive (by decide)
    (by decide) hb (.newPrimitive (by decide) (by decide) ha (.start [])))
  have hvars : ∀ x ∈ (#[⟨0⟩, ⟨1⟩, ⟨2⟩] : Array Var), x.index < s₀.definitions.size := by
    rw [hsize]
    decide
  have hused : InUse False s₀ #[⟨0⟩, ⟨1⟩, ⟨2⟩] g _ s [] :=
    .attempt hattempt (.greedy hgreedy (.build hbuild))
  have hg : g.vars = #[⟨0⟩, ⟨1⟩, ⟨2⟩] := (build_eq hreached.sound hvars hbuild).vars_eq
  have hn : g.varTotal = 3 := by
    rw [varTotal, hg]
    rfl
  have hupheld := hused.upheld hreached.sound hvars
  have hne : ∀ x < g.varTotal, g.domains s x ≠ ∅ := by
    intro x hx hempty
    have hcard := Store.size_eq hupheld.sound.store (hupheld.anchored.var_lt x hx)
    rw [← domains_eq, hempty, varOf, hg] at hcard
    obtain rfl | rfl | rfl : x = 0 ∨ x = 1 ∨ x = 2 := by omega
    · cases hcard.symm.trans hn₀
    · cases hcard.symm.trans hn₁
    · cases hcard.symm.trans hn₂
  have hnodup : (⟨[1, 0, 2]⟩ : Worklist).waiting.Nodup := by decide
  have hwork : ∀ x, x ∈ (⟨[1, 0, 2]⟩ : Worklist).waiting ↔ x < g.varTotal := by
    intro x
    rw [hn]
    simp only [List.mem_cons, List.not_mem_nil, or_false]
    omega
  obtain ⟨⟨E, hE⟩, _, _, hret, _, hreport, hall⟩ := forwardCheck_exhausts hreached hvars hused hne
    hnodup (fun x => (hwork x).1) fun x hx _ _ => (hwork x).2 hx
  cases hret.symm.trans hforward
  obtain ⟨hiff, hdomain⟩ := hall E hE
  refine ⟨s₀, g, _, s, y, E, hreached, hused, hforward, hE, hdomain rfl, fun x hx hempty => ?_,
    hreport rfl, hn₁, hn₁', hgrounded, hmatching⟩
  cases hiff.2 ⟨x, hx, hempty⟩

end ValueGraph

end FiniteDomain.AllDifferent
