import FiniteDomain.Proofs.AllDifferent.Invariant

/-!
# The steps of a run
-/

namespace FiniteDomain.AllDifferent

open ValueGraph

variable {p p' p'' : AllDifferent} {s s' s'' : Store} {verdict : Verdict}

/-! ## Changes of the graph -/

/-- The graph was changed, and the working memory of the other parts. -/
theorem Advance.of_step (p' : AllDifferent) (h : p.Sound s) (hs : Step p.graph s p'.graph s')
    (htagging : p'.tagging = p.tagging) (hreach : p'.reach = p.reach)
    (hoptions : p'.options = p.options) (hmatcher : p'.matcher.Fit p'.graph)
    (hmatched : (p'.graph.snapshot (p'.graph.now s')).Matched)
    (hfits : (p'.graph.snapshot (p'.graph.now s')).Fits p'.graph.val (p'.graph.domains s')
      p'.graph.varTotal)
    (hnodup : p'.work.waiting.Nodup) (hlt : ∀ x ∈ p'.work.waiting, x < p'.graph.varTotal)
    (hkeeps : ∀ F, p.graph.Supports s F → (∀ q, F q ⊆ s.domain q) → ∀ q, F q ⊆ s'.domain q) :
    Advance p s p' s' ∧ (p'.shown s').tag = (p.shown s).tag ∧
      (p'.shown s').limit = (p.shown s).limit := by
  have hn := hs.alike.varTotal_eq
  have htag : (p'.shown s').tag = (p.shown s).tag := by
    show p'.tagging.tagIn s'.trail.now = p.tagging.tagIn s.trail.now
    rw [htagging]
    exact tagIn_congr fun d hd => hs.evolves.get_eq d
      (h.free (Or.inr (Or.inl hd))).not_isSetCell fun ho => h.tags_apart d ho hd
  have hprevious : s'.trail.now.get p.reach.previous = s.trail.now.get p.reach.previous :=
    hs.evolves.get_eq _ h.previous_free.not_isSetCell h.previous_apart.1
  have hlimit : (p'.shown s').limit = (p.shown s).limit := by
    show (s'.trail.now.get p'.reach.previous).toNat = (s.trail.now.get p.reach.previous).toNat
    rw [hreach, hprevious]
  have hanchored := h.anchored.of_evolves hs.alike hs.evolves
  have hfitted : p'.Fitted s' := {
    store := hs.evolves.sound
    layout := hs.sound.layout
    wired := hs.sound.wired
    anchored := hanchored
    tags_fit := by rw [htagging, hn]; exact h.tags_fit
    tags_wired := h.tags_wired.of_evolves hs.evolves (by rw [htagging])
    tags_apart := by rw [htagging]; exact fun d hd => h.tags_apart d (hs.alike.owns_iff.1 hd)
    idle := by rw [htagging]; exact h.idle
    matcher := hmatcher
    reached := by rw [hreach, hn]; exact h.reached
    previous_has := by rw [hreach]; exact hs.evolves.has h.previous_has
    previous_free := by rw [hreach]; exact hs.evolves.free h.previous_free
    previous_apart := by rw [hreach, htagging, hs.alike.owns_iff]; exact h.previous_apart
    work_nodup := hnodup
    work_lt := hlt }
  have hshows : p'.Shows s' s'.trail.now := {
    has := fun c hc => hfitted.has hc
    vars_lt := fun x hx => by rw [hs.evolves.sound.vars_now]; exact hanchored.var_lt x hx
    intact := hs.sound.intact
    matched := hmatched
    fits := hfits.mono fun x hx => by rw [sight_domains hx]; exact Finset.Subset.refl _
    tags := fun x hx => by
      have htags := h.shows.tags x (hn ▸ hx)
      have heq : p'.tagging.tagIn s'.trail.now x = p.tagging.tagIn s.trail.now x := congrFun htag x
      rw [heq, htagging]
      exact htags
    limit_eq := by
      show s'.trail.now.get p'.reach.previous = (p'.shown s').limit
      rw [hreach, hprevious, hlimit]
      exact h.shows.limit_eq
    limit_le := by
      show (p'.shown s').limit ≤ p'.graph.varTotal
      rw [hlimit, hn]
      exact h.shows.limit_le }
  exact ⟨⟨⟨hfitted, hshows⟩, hs.evolves.mono fun _ hc => Or.inl hc, hs.alike,
    by rw [htagging], by rw [htagging], by rw [hreach], hoptions,
    by rw [hs.alike.now_eq]; exact hs.below, hs.live_iff,
    hs.active_iff, hkeeps⟩, htag, hlimit⟩

/-! ## Bringing the graph in line -/

/-- The graph, the store and the variables that wait. -/
def sync (p : AllDifferent) (s : Store) : Sync := ⟨p.graph, s, p.work, .nothing⟩

theorem Sound.sync (h : p.Sound s) : (p.sync s).Sound :=
  ⟨h.graph, h.anchored, h.shows.matched,
    h.shows.fits.mono fun x hx => by rw [sight_domains hx]; exact Finset.Subset.refl _,
    h.work_nodup, h.work_lt, fun _ hx => nomatch hx⟩

/-- Grounded variables keep what they have, in the graph and in the sight. -/
theorem grounded_iff : (p.shown s).Grounded ↔ (p.sync s).Kept := by
  constructor
  · intro h x hx hxa
    obtain ⟨a, ha, honly, hdenied⟩ := h x hx hxa
    refine ⟨a, ha, honly, fun z hz hzx hmem => hdenied z hz hzx ?_⟩
    rw [shown_domains hz]
    exact hmem
  · intro h x hx hxa
    obtain ⟨a, ha, honly, hdenied⟩ := h x hx hxa
    refine ⟨a, ha, honly, fun z hz hzx hmem => hdenied z hz hzx ?_⟩
    rw [shown_domains hz] at hmem
    exact hmem

/-- A sight is tidy when the graph and the domains are. -/
theorem tidy_iff {late : Nat → Prop} : (p.shown s).Tidy late ↔
    (∀ x < p.graph.varTotal, late x ∨ (p.sync s).Clean x) ∧ (p.sync s).Kept ∧
      (p.sync s).Filled := by
  constructor
  · intro h
    refine ⟨fun x hx => (h.clean x hx).imp_right fun hclean v hv => ?_, grounded_iff.1 h.kept,
      fun x hx hxa => ?_⟩
    · have hmem := hclean v hv
      rw [shown_domains hx] at hmem
      exact hmem
    · have hne := h.filled x hx hxa
      rw [shown_domains hx] at hne
      exact hne
  · rintro ⟨hclean, hkept, hfilled⟩
    refine ⟨fun x hx => (hclean x hx).imp_right fun hclean v hv => ?_, grounded_iff.2 hkept,
      fun x hx hxa => ?_⟩
    · rw [shown_domains hx]
      exact hclean v hv
    · rw [shown_domains hx]
      exact hfilled x hx hxa

/-- Without a choice from the domains, the sight is hopeless. -/
theorem hopeless_iff : (p.shown s).Hopeless ↔
    AllDifferent.Hopeless (p.graph.domains s) p.graph.varTotal := by
  constructor
  · exact fun h => AllDifferent.Hopeless.mono h fun x hx => by
      rw [shown_domains hx]
  · exact fun h => AllDifferent.Hopeless.mono h fun x hx => by
      rw [shown_domains hx]

/-- Grounded variables keep what they have in every choice, from the domains and in the sight. -/
theorem faithful_iff : (p.shown s).graph.Faithful p.graph.val (p.shown s).domains p.graph.varTotal ↔
    (p.sync s).Faithful := by
  constructor
  · exact fun h => h.mono fun x hx => by rw [shown_domains hx]; exact Finset.Subset.refl _
  · exact fun h => h.mono fun x hx => by rw [shown_domains hx]; exact Finset.Subset.refl _

/-- The graph was brought in line with the domains. -/
structure Synchronized (p : AllDifferent) (s : Store) (verdict : Verdict) (changes : Changes)
    (p' : AllDifferent) (s' : Store) : Prop where
  advance : Advance p s p' s'
  ran : Sync.Ran (p.sync s) verdict ⟨p'.graph, s', p'.work, changes⟩
  tag_eq : (p'.shown s').tag = (p.shown s).tag
  limit_eq : (p'.shown s').limit = (p.shown s).limit
  rest_eq : p' = { p with graph := p'.graph, work := p'.work }

theorem synchronize_eq (h : p.Sound s) :
    ∃ verdict changes p' s', p.synchronize s = .ok (verdict, changes, p', s') ∧
      Synchronized p s verdict changes p' s' := by
  obtain ⟨verdict, ⟨graph, store, work, changes⟩, hforward, hran⟩ := Sync.forwardCheck_eq h.sync
  have hsound := hran.follows.sound
  obtain ⟨hadvance, htag, hlimit⟩ := Advance.of_step { p with graph, work } h
    hran.follows.step rfl rfl rfl (h.matcher.congr hran.follows.step.alike) hsound.matched
    hsound.fits hsound.nodup hsound.work_lt hran.follows.keeps
  refine ⟨verdict, changes, _, _, ?_, hadvance, hran, htag, hlimit, rfl⟩
  have hforward : forwardCheck ⟨p.graph, s, p.work, .nothing⟩ =
      .ok (verdict, ⟨graph, store, work, changes⟩) := hforward
  rw [synchronize, hforward]
  rfl

namespace Synchronized

variable {changes : Changes}

theorem hopeless (h : Synchronized p s verdict changes p' s') (hv : verdict ≠ .consistent) :
    (p'.shown s').Hopeless :=
  hopeless_iff.2 (h.ran.hopeless hv)

theorem touched_lt (h : Synchronized p s verdict changes p' s') :
    ∀ x ∈ changes.touched, x < p'.graph.varTotal :=
  h.ran.follows.sound.touched_lt

/-- As long as no change of the matching was noted, edges were lost only. -/
theorem thins (h : Synchronized p s verdict changes p' s')
    (hsame : changes.matchingChanged = false) :
    Snapshot.Thins (p.shown s).graph (p'.shown s').graph :=
  ⟨h.ran.follows.step.active_subset, h.ran.follows.step.live_subset,
    (h.ran.follows.matching hsame).1⟩

/-- Active variables that had mates have them still. -/
theorem matching (h : Synchronized p s verdict changes p' s')
    (hsame : changes.matchingChanged = false) :
    ((p.shown s).graph.Covered → (p'.shown s').graph.Covered) ∧
      ((p.shown s).Unmatched → (p'.shown s').Unmatched) := by
  have hthins := h.thins hsame
  refine ⟨fun hc x hx => ?_, fun hu x hx => ?_⟩
  · rw [hthins.mate_eq]
    exact hc x (hthins.active_subset hx)
  · rw [hthins.mate_eq]
    exact hu x (hthins.active_subset hx)

/-- What is deduced will hold of every choice, once the matching is repaired and tagged. -/
theorem sane (h : Synchronized p s verdict changes p' s') (hhonest : (p.shown s).Honest) :
    (p'.shown s').Sane (changes.matchingChanged = false) := by
  obtain hhopeless | htrusted := hhonest
  · exact Or.inl (hopeless_iff.2 (h.advance.hopeless (hopeless_iff.1 hhopeless)))
  · obtain hhopeless | ⟨hfaithful, hbounded⟩ :=
      h.ran.follows.honest (faithful_iff.1 htrusted.faithful)
    · exact Or.inl (hopeless_iff.2 hhopeless)
    · refine Or.inr ⟨faithful_iff.2 hfaithful, ?_, fun hsame => ⟨?_, ?_⟩⟩
      · rw [h.limit_eq]
        exact hbounded _ htrusted.bounded
      · exact htrusted.coarse.thin (h.thins hsame) h.tag_eq
      · exact htrusted.matching.imp (h.matching hsame).1 (h.matching hsame).2

/-- Those who waited are not late any more. -/
theorem tidy (h : Synchronized p s .consistent changes p' s') {late : Nat → Prop}
    (htidy : (p.shown s).Tidy fun x => late x ∨ x ∈ p.work.waiting) :
    (p'.shown s').Tidy late := by
  obtain ⟨hclean, hkept, hfilled⟩ := tidy_iff.1 htidy
  refine tidy_iff.2 ⟨fun x hx => ?_, h.ran.kept rfl hkept, h.ran.filled rfl hfilled⟩
  rw [h.advance.alike.varTotal_eq] at hx
  obtain (hlate | hwaits) | hc := hclean x hx
  · exact Or.inl hlate
  · exact Or.inr (h.ran.clean rfl x hx (Or.inl ⟨hfilled, hkept⟩) (Or.inr hwaits))
  · exact Or.inr (h.ran.clean rfl x hx (Or.inl ⟨hfilled, hkept⟩) (Or.inl hc))

/-- Grounded variables keep what they have. -/
theorem grounded (h : Synchronized p s .consistent changes p' s') (hg : (p.shown s).Grounded) :
    (p'.shown s').Grounded :=
  grounded_iff.2 (h.ran.kept rfl (grounded_iff.1 hg))

/-- Not more variables can be reached than before. -/
theorem bounded (h : Synchronized p s verdict changes p' s') (hg : (p.shown s).Grounded)
    (hb : (p.shown s).graph.Bounded (p.shown s).limit) :
    (p'.shown s').graph.Bounded (p'.shown s').limit := by
  rw [h.limit_eq]
  exact h.ran.bounded (grounded_iff.1 hg) _ hb

/-- No domain was emptied. -/
theorem alive (h : Synchronized p s .consistent changes p' s') : s.Alive s' :=
  h.ran.alive rfl

/-- Tags of components can be traced. -/
theorem traceable (h : Synchronized p s .consistent changes p' s')
    (hsame : changes.matchingChanged = false) (hsharp : (p.shown s).Sharp) :
    (p'.shown s').Traceable changes.touched.toList :=
  hsharp.traceable (h.thins hsame) h.tag_eq fun z hz =>
    h.ran.untouched rfl z fun hmem => hz (Array.mem_toList_iff.2 hmem)

/-- If nothing was changed, the propagator and the store are what they were. -/
theorem same (h : Synchronized p s verdict changes p' s') (hempty : changes.isEmpty = true) :
    p'.graph = p.graph ∧ s' = s := by
  rw [Changes.isEmpty, Bool.and_eq_true, Bool.and_eq_true, Bool.and_eq_true] at hempty
  exact h.ran.same (beq_iff_eq.1 hempty.1.1.1) (beq_iff_eq.1 hempty.1.1.2)

end Synchronized

/-! ### Stale edges -/

/-- The number of live edges. -/
def edges (p : AllDifferent) (s : Store) : Nat :=
  ((Finset.range p.graph.edgeTotal).filter (p.graph.Live (p.graph.now s))).card

/-- An active variable that waits has an edge to a value that left its domain. -/
def Stale (p : AllDifferent) (s : Store) : Prop :=
  ∃ z ∈ p.work.waiting, z ∈ (p.shown s).graph.active ∧
    ∃ v ∈ (p.shown s).graph.live z, p.graph.val v ∉ p.graph.domains s z

theorem edges_le (p : AllDifferent) (s : Store) : p.edges s ≤ p.graph.edgeTotal :=
  Nat.le_trans (Finset.card_filter_le _ _) (Finset.card_range _).le

theorem Advance.edges_le (h : Advance p s p' s') : p'.edges s' ≤ p.edges s := by
  refine Finset.card_le_card fun e he => ?_
  obtain ⟨hlt, hl⟩ := Finset.mem_filter.1 he
  rw [h.alike.edgeTotal_eq] at hlt
  exact Finset.mem_filter.2 ⟨hlt, h.live_of_live hl⟩

namespace Synchronized

variable {changes : Changes}

/-- A stale edge is taken out. -/
theorem edges_lt (h : Synchronized p s .consistent changes p' s') (hstale : p.Stale s) :
    p'.edges s' < p.edges s := by
  obtain ⟨z, hz, hza, v, hv, hnot⟩ := hstale
  obtain ⟨e, hlive, rfl, rfl⟩ := mem_live.1 hv
  refine Finset.card_lt_card ((Finset.ssubset_iff_of_subset fun e' he' => ?_).2 ⟨e, ?_, fun he => ?_⟩)
  · obtain ⟨hlt, hl⟩ := Finset.mem_filter.1 he'
    rw [h.advance.alike.edgeTotal_eq] at hlt
    exact Finset.mem_filter.2 ⟨hlt, h.advance.live_of_live hl⟩
  · exact Finset.mem_filter.2 ⟨Finset.mem_range.2 hlive.1, hlive⟩
  · refine hnot (h.ran.fresh rfl _ hz hza _ (mem_live.2 ⟨e, (Finset.mem_filter.1 he).2, ?_, ?_⟩))
    · show p'.graph.tail e = p.graph.tail e
      rw [h.advance.alike.tail_eq]
    · show p'.graph.head e = p.graph.head e
      rw [h.advance.alike.head_eq]

theorem not_stale (h : Synchronized p s .consistent changes p' s')
    (hempty : changes.isEmpty = true) : ¬ p.Stale s := by
  intro hstale
  obtain ⟨hgraph, rfl⟩ := h.same hempty
  have hlt := h.edges_lt hstale
  rw [edges, edges, hgraph] at hlt
  exact Nat.lt_irrefl _ hlt

end Synchronized

/-! ## The matching -/

/-- What became of the matching, if changes of it were noted in `changes`. -/
structure Repaired (p : AllDifferent) (s : Store) (changes : Changes) (repair : Repair)
    (p' : AllDifferent) (s' : Store) : Prop where
  advance : Advance p s p' s'
  rematched : Rematched p.graph s s'
  tag_eq : (p'.shown s').tag = (p.shown s).tag
  limit_eq : (p'.shown s').limit = (p.shown s).limit
  rest_eq : p' = { p with matcher := p'.matcher, ready := p'.ready }
  unchanged_iff : repair = .unchanged ↔ p.ready = true ∧ changes.matchingChanged = false
  unchanged : repair = .unchanged → p' = p ∧ s' = s
  repaired : repair = .repaired → (p'.shown s').graph.Covered ∧ p'.ready = true
  stuck : repair = .impossible → ∃ u ∈ (p'.shown s').graph.active,
    (p'.shown s').graph.mate u = none ∧
      ∀ y, (p'.shown s').graph.Reached y → (p'.shown s').graph.mate y ≠ none

/-- A change of the matching. -/
theorem Advance.of_rematched (h : p.Sound s) (hr : Rematched p.graph s s') {k : Matcher}
    (hk : k.Fit p.graph) (ready : Bool) :
    Advance p s { p with matcher := k, ready := ready } s' ∧
      (shown { p with matcher := k, ready := ready } s').tag = (p.shown s).tag ∧
      (shown { p with matcher := k, ready := ready } s').limit = (p.shown s).limit := by
  refine Advance.of_step _ h hr.step rfl rfl rfl hk hr.matched ?_ h.work_nodup h.work_lt
    fun F _ hle q => by rw [hr.domain_eq]; exact hle q
  have hdom : p.graph.domains s' = p.graph.domains s :=
    domains_congr (.refl _) hr.step.evolves.path_eq hr.domain_eq
  rw [hdom]
  intro x hx u hu
  rw [hr.live_eq]
  exact h.sync.fits x hx u hu

/-- The matching is extended. -/
theorem extend_eq (h : p.Sound s) (hr : Rematched p.graph s s') (changes : Changes)
    (hchanged : ¬ (p.ready = true ∧ changes.matchingChanged = false)) :
    ∃ repair p' s'', p.extend s' = .ok (repair, p', s'') ∧
      Repaired p s changes repair p' s'' := by
  obtain ⟨outcome, k, s'', haugment, hk, hr', hsettles⟩ :=
    Matcher.augment_eq hr.step.sound hr.matched h.matcher
  cases outcome with
  | impossible =>
    obtain ⟨hadvance, htag, hlimit⟩ := Advance.of_rematched h (hr.trans hr') hk p.ready
    refine ⟨.impossible, _, _, by rw [extend, haugment]; rfl, hadvance, hr.trans hr', htag, hlimit,
      rfl, ⟨nofun, fun hkept => absurd hkept hchanged⟩, nofun,
      nofun, fun _ => hsettles⟩
  | covered paths =>
    obtain ⟨hadvance, htag, hlimit⟩ := Advance.of_rematched h (hr.trans hr') hk true
    refine ⟨.repaired, _, _, by rw [extend, haugment]; rfl, hadvance, hr.trans hr', htag, hlimit,
      rfl, ⟨nofun, fun hkept => absurd hkept hchanged⟩, nofun,
      fun _ => ⟨hsettles, rfl⟩, nofun⟩

/-- A first matching is looked for, or the present one is repaired if it was changed. -/
theorem repair_eq (h : p.Sound s) (changes : Changes) :
    ∃ repair p' s', p.repair changes s = .ok (repair, p', s') ∧
      Repaired p s changes repair p' s' := by
  have hrefl : Rematched p.graph s s := .refl h.graph h.shows.matched
  cases hready : p.ready with
  | false =>
    obtain ⟨s₁, hgreedy, hr⟩ := Matcher.greedy_eq h.graph h.shows.matched
    obtain ⟨repair, p', s', hextend, hrepaired⟩ := extend_eq h hr changes
      fun hkept => by rw [hready] at hkept; exact absurd hkept.1 Bool.false_ne_true
    refine ⟨repair, p', s', ?_, hrepaired⟩
    rw [AllDifferent.repair, hready, if_pos (show (!false) = true from rfl), hgreedy, ok_bind, hextend]
  | true =>
    cases hchanged : changes.matchingChanged with
    | true =>
      obtain ⟨repair, p', s', hextend, hrepaired⟩ := extend_eq h hrefl changes
        fun hkept => by rw [hchanged] at hkept; exact absurd hkept.2.symm Bool.false_ne_true
      refine ⟨repair, p', s', ?_, hrepaired⟩
      rw [AllDifferent.repair, hready, if_neg (by decide), hchanged, if_pos rfl, hextend]
    | false =>
      refine ⟨.unchanged, p, s, ?_, .refl h, hrefl, rfl, rfl, rfl, ⟨fun _ => ⟨hready, hchanged⟩,
        fun _ => rfl⟩, fun _ => ⟨rfl, rfl⟩, nofun, nofun⟩
      rw [AllDifferent.repair, hready, if_neg (by decide), hchanged, if_neg (by decide)]
      rfl

namespace Repaired

variable {changes : Changes} {repair : Repair}

/-- Only the matching has changed. -/
theorem shown_eq (h : Repaired p s changes repair p' s') :
    p'.shown s' = { p.shown s with graph := (p'.shown s').graph } := by
  have hgraph : p'.graph = p.graph := by rw [h.rest_eq]
  have hdom : p.graph.domains s' = p.graph.domains s :=
    domains_congr (.refl _) h.rematched.step.evolves.path_eq h.rematched.domain_eq
  exact Sight.ext (congrArg ValueGraph.varTotal hgraph) (congrArg ValueGraph.val hgraph) rfl
    (shown_domains_congr hgraph fun x _ => congrFun hdom x) h.tag_eq h.limit_eq

/-- Grounded variables keep their mates. -/
theorem keeps (h : Repaired p s changes repair p' s') :
    Snapshot.Keeps (p.shown s).graph (p'.shown s').graph := by
  have hk := h.rematched.keeps
  have hgraph : p'.graph = p.graph := by rw [h.rest_eq]
  show Snapshot.Keeps _ (p'.graph.snapshot (p'.graph.now s'))
  rw [hgraph]
  exact hk

/-- Not more variables can be reached than before. -/
theorem bounded (h : Repaired p s changes repair p' s') (hs : p.Sound s)
    (hb : (p.shown s).graph.Bounded (p.shown s).limit) :
    (p'.shown s').graph.Bounded (p'.shown s').limit := by
  rw [h.limit_eq]
  exact h.keeps.bounded hs.shows.matched h.advance.sound.shows.matched hb

/-- The matching covers the variables, unless none does or it did not and nobody noted it. -/
theorem covered (h : Repaired p s changes repair p' s') (hpossible : repair ≠ .impossible)
    (hwhy : p.ready = false ∨ changes.matchingChanged = true ∨ (p.shown s).graph.Covered) :
    (p'.shown s').graph.Covered := by
  cases hrepair : repair with
  | impossible => exact absurd hrepair hpossible
  | repaired => exact (h.repaired hrepair).1
  | unchanged =>
    obtain ⟨hready, hsame⟩ := h.unchanged_iff.1 hrepair
    obtain ⟨rfl, rfl⟩ := h.unchanged hrepair
    obtain hnot | hchanged | hc := hwhy
    · rw [hready] at hnot
      cases hnot
    · rw [hsame] at hchanged
      cases hchanged
    · exact hc

/-- What is deduced holds of every choice, once the components are tagged. -/
theorem mended (h : Repaired p s changes repair p' s') (hs : p.Sound s)
    (hsane : (p.shown s).Sane (changes.matchingChanged = false)) :
    (p'.shown s').Hopeless ∨ repair ≠ .impossible ∧
      (p'.shown s').graph.Faithful p'.graph.val (p'.shown s').domains p'.graph.varTotal ∧
      (p'.shown s').graph.Bounded (p'.shown s').limit ∧
      ((p'.shown s').graph.Covered ∨ (p'.shown s').Unmatched) ∧
      (repair = .unchanged → (p'.shown s').Coarse) := by
  have hgraph : p'.graph = p.graph := by rw [h.rest_eq]
  have hdomains : (p'.shown s').domains = (p.shown s).domains := by rw [h.shown_eq]
  have hsound := h.advance.sound
  obtain hhopeless | ⟨hfaithful, hbounded, hsame⟩ := hsane
  · refine Or.inl ?_
    rw [h.shown_eq]
    exact hhopeless
  have hfaithful' : (p'.shown s').graph.Faithful p'.graph.val (p'.shown s').domains
      p'.graph.varTotal := by
    rw [hdomains, hgraph]
    exact h.keeps.faithful hfaithful
  have hbounded' := h.bounded hs hbounded
  cases hrepair : repair with
  | impossible =>
    obtain ⟨u, hu, hnone, hstuck⟩ := h.stuck hrepair
    exact Or.inl (Snapshot.hopeless_of_stuck hsound.within hsound.shows.matched
      hsound.shows.fits hfaithful' hu hnone hstuck)
  | repaired =>
    exact Or.inr ⟨nofun, hfaithful', hbounded', Or.inl (h.repaired hrepair).1, nofun⟩
  | unchanged =>
    obtain ⟨rfl, rfl⟩ := h.unchanged hrepair
    obtain ⟨hcoarse, hmatching⟩ := hsame (h.unchanged_iff.1 hrepair).2
    exact Or.inr ⟨nofun, hfaithful', hbounded', hmatching, fun _ => hcoarse⟩

/-- Edges are the same. -/
theorem live_eq (h : Repaired p s changes repair p' s') :
    (p'.shown s').graph.live = (p.shown s).graph.live := by
  have hgraph : p'.graph = p.graph := by rw [h.rest_eq]
  show (p'.graph.snapshot (p'.graph.now s')).live = _
  rw [hgraph]
  exact h.rematched.live_eq

/-- Grounded variables keep their mates. -/
theorem grounded (h : Repaired p s changes repair p' s') (hg : (p.shown s).Grounded) :
    (p'.shown s').Grounded := by
  have hlive := h.live_eq
  rw [h.shown_eq] at hlive ⊢
  intro x hx hxa
  have hxa' : x ∉ (p.shown s).graph.active := by
    rw [← h.keeps.active_eq]
    exact hxa
  obtain ⟨a, ha, honly, hdenied⟩ := hg x hx hxa'
  refine ⟨a, h.keeps.mate_eq x a hxa' ha, ?_, hdenied⟩
  rw [hlive]
  exact honly

/-- Edges and domains are the same, and grounded variables keep their mates. -/
theorem tidy (h : Repaired p s changes repair p' s') {late : Nat → Prop}
    (htidy : (p.shown s).Tidy late) : (p'.shown s').Tidy late := by
  have hlive := h.live_eq
  have hgrounded := h.grounded htidy.kept
  rw [h.shown_eq] at hlive hgrounded ⊢
  refine ⟨fun x hx => ?_, hgrounded, fun x hx hxa => htidy.filled x hx ?_⟩
  · rw [hlive]
    exact htidy.clean x hx
  · rw [← h.keeps.active_eq]
    exact hxa

end Repaired

/-- The computation ends because a check failed that was asked for. -/
def CheckFails {α : Type} (x : Except Fault α) : Prop :=
  x = .error .brokenMatching ∨ x = .error .staleComponents

theorem CheckFails.bind {α β : Type} {x : Except Fault α} (h : CheckFails x)
    (f : α → Except Fault β) : CheckFails (x >>= f) := by
  obtain rfl | rfl := h
  · exact Or.inl rfl
  · exact Or.inr rfl

/-- The check of the matching fails only if some variable has no mate. -/
theorem checkMatching_cases (h : p.Sound s) :
    p.checkMatching s = .ok () ∨ p.options.checked = true ∧ CheckFails (p.checkMatching s) ∧
      ¬ ∀ x < p.graph.varTotal, ∃ a, (p.shown s).graph.mate x = some a := by
  classical
  rw [checkMatching]
  cases p.options.checked with
  | false => exact Or.inl rfl
  | true =>
    rw [if_pos rfl, h.graph.isCovered_eq, ok_bind]
    by_cases hall : ∀ x < p.graph.varTotal, ∃ a, (p.shown s).graph.mate x = some a
    · refine Or.inl ?_
      rw [decide_eq_true fun x hx => ?_]
      · rfl
      · obtain ⟨a, ha⟩ := hall x hx
        exact ⟨a, ha, h.shows.matched.owner_of_mate x a ha, h.shows.matched.live_of_mate x a ha⟩
    · refine Or.inr ⟨rfl, ?_, hall⟩
      rw [decide_eq_false fun hcovered => hall fun x hx => ?_]
      · exact Or.inl rfl
      · obtain ⟨a, ha, _⟩ := hcovered x hx
        exact ⟨a, ha⟩

/-! ## The tags -/

/-- The components were tagged. -/
structure Retagged (p : AllDifferent) (s : Store) (repair : Repair) (touched : List Nat)
    (p' : AllDifferent) (s' : Store) : Prop where
  advance : Advance p s p' s'
  shown_eq : p'.shown s' = { p.shown s with tag := (p'.shown s').tag }
  rest_eq : p' = { p with tagging := p'.tagging }
  coarse : (p.shown s).Coarse → (p'.shown s').Coarse
  sharp : repair ≠ .unchanged ∨ (p.shown s).Traceable touched → (p'.shown s').Sharp
  domain_eq : ∀ q, s'.domain q = s.domain q

/-- As many variables can be reached as before. -/
theorem Retagged.bounded {repair : Repair} {touched : List Nat}
    (h : Retagged p s repair touched p' s')
    (hb : (p.shown s).graph.Bounded (p.shown s).limit) :
    (p'.shown s').graph.Bounded (p'.shown s').limit := by
  rw [h.shown_eq]
  exact hb

/-- The matching and the domains are the same, and the tags and the limit are as they should. -/
theorem Fitted.sound_of_eq (hf : p'.Fitted s') (h : p.Sound s) (hgraph : p'.graph = p.graph)
    (hnow : p'.graph.now s' = p.graph.now s) (hdom : (p'.shown s').domains = (p.shown s).domains)
    (htags : ∀ x < p.graph.varTotal,
      -1 ≤ p'.tagging.tagNow s' x ∧ p'.tagging.tagNow s' x < p'.tagging.nextTag)
    (heq : s'.trail.now.get p'.reach.previous = (p'.shown s').limit)
    (hle : (p'.shown s').limit ≤ p.graph.varTotal) : p'.Sound s' := by
  have hshown : (p'.shown s').graph = (p.shown s).graph := by
    show p'.graph.snapshot (p'.graph.now s') = p.graph.snapshot (p.graph.now s)
    rw [hnow, hgraph]
  refine ⟨hf, fun d hd => hf.has hd, fun x hx => ?_, ?_, ?_, ?_, hgraph ▸ htags, heq, hgraph ▸ hle⟩
  · rw [hf.store.vars_now]
    exact hf.anchored.var_lt x hx
  · show p'.graph.Intact (p'.graph.now s')
    rw [hnow, hgraph]
    exact h.shows.intact
  · show (p'.shown s').graph.Matched
    rw [hshown]
    exact h.shows.matched
  · show (p'.shown s').graph.Fits _ (p'.shown s').domains _
    rw [hshown, hdom, hgraph]
    exact h.shows.fits

/-- A pass changes nothing but tags. -/
theorem Advance.of_tagged (h : p.Sound s) {c : Tagging}
    (ht : Tagging.Tagged p.graph p.tagging s c s') :
    Advance p s { p with tagging := c } s' ∧ shown { p with tagging := c } s' =
      { p.shown s with tag := c.tagNow s' } := by
  have hready := ht.ready
  have hprevious : s'.trail.now.get p.reach.previous = s.trail.now.get p.reach.previous :=
    ht.evolves.get_eq _ h.previous_free.not_isSetCell h.previous_apart.2
  have hdom : (shown { p with tagging := c } s').domains = (p.shown s).domains :=
    shown_domains_congr rfl fun x _ =>
      congrFun (domains_congr (.refl _) ht.evolves.path_eq ht.domain_eq) x
  have hlimit : (shown { p with tagging := c } s').limit = (p.shown s).limit :=
    congrArg Int.toNat hprevious
  have hfitted : Fitted { p with tagging := c } s' := {
    store := ht.evolves.sound
    layout := h.layout
    wired := h.wired.of_evolves ht.evolves
    anchored := h.anchored.of_evolves (.refl _) ht.evolves
    tags_fit := hready.fit
    tags_wired := hready.wired
    tags_apart := hready.apart
    idle := hready.idle
    matcher := h.matcher
    reached := h.reached
    previous_has := ht.evolves.has h.previous_has
    previous_free := ht.evolves.free h.previous_free
    previous_apart := ⟨h.previous_apart.1, by rw [ht.tags_eq]; exact h.previous_apart.2⟩
    work_nodup := h.work_nodup
    work_lt := h.work_lt }
  have hsound := hfitted.sound_of_eq h rfl ht.now_eq hdom hready.range
    (by rw [hlimit]; exact hprevious.trans h.shows.limit_eq) (by rw [hlimit]; exact h.shows.limit_le)
  refine ⟨⟨hsound, ht.evolves.mono fun _ hc => Or.inr (Or.inl hc), .refl _, ht.tags_eq,
    ht.nextTag_le, rfl, rfl, ?_, fun _ _ _ => Iff.rfl, fun _ _ _ => Iff.rfl, fun F _ hle q => ?_⟩,
    Sight.ext rfl rfl (congrArg p.graph.snapshot ht.now_eq) hdom rfl hlimit⟩
  · show Above (p.graph.now s') (p.graph.now s)
    rw [ht.now_eq]
    exact .refl _
  · rw [ht.domain_eq]
    exact hle q

/-- After a full pass the tags are those of the components. -/
theorem Retagged.of_sharp (h : p.Sound s) {c : Tagging}
    (ht : Tagging.Tagged p.graph p.tagging s c s')
    (hsharp : ∀ x ∈ (p.shown s).graph.active, ∀ y ∈ (p.shown s).graph.active,
      c.tagNow s' x = c.tagNow s' y ↔ (p.shown s).graph.Together x y)
    (repair : Repair) (touched : List Nat) :
    Retagged p s repair touched { p with tagging := c } s' := by
  obtain ⟨hadvance, hshown⟩ := Advance.of_tagged h ht
  have hsharp' : (shown { p with tagging := c } s').Sharp := by
    rw [hshown]
    exact hsharp
  exact ⟨hadvance, hshown, rfl, fun _ => hsharp'.coarse, fun _ => hsharp', ht.domain_eq⟩

/-- The components with a touched variable are tagged.  The tags are those of the components
afterwards if they were before the variables were touched. -/
theorem Retagged.of_touched (h : p.Sound s) {touched : List Nat}
    (htouched : ∀ x ∈ touched, x < p.graph.varTotal) :
    ∃ c s', Tagging.tagTouched p.graph touched p.tagging s = .ok (c, s') ∧
      Tagging.Pass p.graph p.tagging s (Tagging.Affected p.graph touched p.tagging s) c s' ∧
      Retagged p s .unchanged touched { p with tagging := c } s' := by
  obtain ⟨c, s', hpass, ht, htags⟩ := Tagging.tagTouched_eq h.ready htouched
  obtain ⟨hadvance, hshown⟩ := Advance.of_tagged h ht.toTagged
  refine ⟨c, s', hpass, ht, hadvance, hshown, rfl, fun hcoarse => ?_, fun hwhy => ?_,
    ht.domain_eq⟩
  · rw [hshown]
    exact fun x y hxy hx hy => (htags hcoarse x hx y hy).1 hxy
  · have htraceable := hwhy.resolve_left fun hne => hne rfl
    rw [hshown]
    intro x hx y hy
    refine ⟨fun heq => ?_, (htags htraceable.coarse x hx y hy).1⟩
    obtain htogether | ⟨hold, hnot⟩ := (htags htraceable.coarse x hx y hy).2 heq
    · exact htogether
    · exact htraceable.together x hx y hy hold hnot

/-- Tags that are checked agree with those of a full pass, if they are those of the components. -/
theorem checkTags_cases (h : p.Sound s) (touched : List Nat) :
    (∃ p' s', p.checkTags s = .ok (p', s') ∧ (p' = p ∧ s' = s ∨
      Retagged p s .repaired touched p' s')) ∨
    p.options.checked = true ∧ CheckFails (p.checkTags s) ∧ ¬ (p.shown s).Sharp := by
  rw [checkTags]
  cases p.options.checked with
  | false => exact Or.inl ⟨p, s, rfl, Or.inl ⟨rfl, rfl⟩⟩
  | true =>
    obtain ⟨same, c, s', hpass, ht, hsharp, hsame⟩ := Tagging.tagsAgree_eq h.ready
    rw [if_pos rfl, hpass, ok_bind]
    cases same with
    | true => exact Or.inl ⟨_, _, rfl, Or.inr (.of_sharp h ht hsharp .repaired touched)⟩
    | false => exact Or.inr ⟨rfl, Or.inr rfl, fun hsharp' => Bool.false_ne_true (hsame hsharp')⟩

/-- The tags are brought up to date, unless a check fails because they were not those of the
components before. -/
theorem retag_cases (h : p.Sound s) (repair : Repair) (touched : List Nat)
    (htouched : ∀ x ∈ touched, x < p.graph.varTotal) :
    (∃ p' s', p.retag repair touched s = .ok (p', s') ∧ Retagged p s repair touched p' s') ∨
    p.options.checked = true ∧ CheckFails (p.retag repair touched s) ∧
      repair = .unchanged ∧ ¬ (p.shown s).Traceable touched := by
  rw [retag]
  by_cases hreuse : (p.options.reuseComponents && repair == .unchanged) = true
  · obtain rfl : repair = .unchanged := by
      rw [Bool.and_eq_true] at hreuse
      cases repair with
      | unchanged => rfl
      | repaired => exact absurd hreuse.2 (by decide)
      | impossible => exact absurd hreuse.2 (by decide)
    obtain ⟨c, s₁, hpass, _, hr⟩ := Retagged.of_touched h htouched
    rw [if_pos hreuse, hpass, ok_bind]
    obtain ⟨p', s', hcheck, ⟨rfl, rfl⟩ | hr'⟩ | ⟨hchecked, hfault, hnot⟩ :=
      checkTags_cases hr.advance.sound touched
    · exact Or.inl ⟨_, _, hcheck, hr⟩
    · have hsharp := hr'.sharp (Or.inl nofun)
      refine Or.inl ⟨p', s', hcheck, hr.advance.trans hr'.advance, ?_, hr'.rest_eq,
        fun _ => hsharp.coarse, fun _ => hsharp, fun q => (hr'.domain_eq q).trans (hr.domain_eq q)⟩
      rw [hr'.shown_eq, hr.shown_eq]
    · exact Or.inr ⟨hchecked, hfault, rfl, fun htraceable => hnot (hr.sharp (Or.inr htraceable))⟩
  · obtain ⟨c, s', hpass, ht, hsharp⟩ := Tagging.tagAll_eq h.ready
    rw [if_neg hreuse, hpass, ok_bind]
    exact Or.inl ⟨_, _, rfl, .of_sharp h ht.toTagged hsharp repair touched⟩

/-! ## What is reached -/

/-- The variables that the free values reach were marked. -/
structure Marked (p : AllDifferent) (s : Store) (p' : AllDifferent) (s' : Store) : Prop where
  advance : Advance p s p' s'
  shown_eq : p'.shown s' = { p.shown s with limit := (p'.shown s').limit }
  rest_eq : p' = { p with reach := p'.reach }
  computed : Reach.Computed (p.shown s).graph p.graph.valueTotal (p.shown s).limit
    (p'.shown s').limit p'.reach
  domain_eq : ∀ q, s'.domain q = s.domain q

/-- Not more variables can be reached later than were reached now. -/
theorem Marked.bounded (h : Marked p s p' s') (hs : p.Sound s)
    (hb : (p.shown s).graph.Bounded (p.shown s).limit) :
    (p'.shown s').graph.Bounded (p'.shown s').limit := by
  have hgraph : (p'.shown s').graph = (p.shown s).graph := by rw [h.shown_eq]
  rw [hgraph]
  exact h.computed.bounded hs.shows.matched hb

/-- The variables that the free values reach are marked. -/
theorem compute_eq (h : p.Sound s) :
    ∃ count reach s', p.reach.compute p.graph s = .ok (count, reach, s') ∧
      Marked p s { p with reach } s' := by
  obtain ⟨count, reach, s', hcompute, hcomputed, hfit, hprevious, hwrote⟩ :=
    Reach.compute_eq h.graph h.reached h.previous_has h.previous_free h.shows.limit_eq
      h.shows.limit_le
  refine ⟨count, reach, s', hcompute, ?_⟩
  have hnow : p.graph.now s' = p.graph.now s :=
    now_of_evolves h.wired hwrote.toEvolves fun c hc heq => h.previous_apart.1 (heq ▸ hc)
  have htag : p.tagging.tagIn s'.trail.now = p.tagging.tagIn s.trail.now :=
    tagIn_congr fun d hd => hwrote.get_eq d (h.free (Or.inr (Or.inl hd))).not_isSetCell
      fun heq => h.previous_apart.2 (heq ▸ hd)
  have hread : s'.trail.now.get reach.previous = count := by
    rw [hprevious, hwrote.now_eq, Frame.get_put_self h.previous_has]
  have hdom : (shown { p with reach := reach } s').domains = (p.shown s).domains :=
    shown_domains_congr rfl fun x _ =>
      congrFun (domains_congr (.refl _) hwrote.path_eq hwrote.domain_eq) x
  have hlimit : (shown { p with reach := reach } s').limit = count := congrArg Int.toNat hread
  have hfitted : Fitted { p with reach := reach } s' := {
    store := hwrote.sound
    layout := h.layout
    wired := h.wired.of_evolves hwrote.toEvolves
    anchored := h.anchored.of_evolves (.refl _) hwrote.toEvolves
    tags_fit := h.tags_fit
    tags_wired := h.tags_wired.of_evolves hwrote.toEvolves rfl
    tags_apart := h.tags_apart
    idle := h.idle
    matcher := h.matcher
    reached := hfit
    previous_has := by rw [hprevious]; exact hwrote.has h.previous_has
    previous_free := by rw [hprevious]; exact hwrote.free h.previous_free
    previous_apart := by rw [hprevious]; exact h.previous_apart
    work_nodup := h.work_nodup
    work_lt := h.work_lt }
  have hsound := hfitted.sound_of_eq h rfl hnow hdom
    (fun x hx => by rw [Tagging.tagNow, htag]; exact h.shows.tags x hx)
    (by rw [hlimit]; exact hread)
    (by rw [hlimit]; exact Nat.le_trans hcomputed.count_le h.shows.limit_le)
  have hshown : shown { p with reach := reach } s' = { p.shown s with limit := count } :=
    Sight.ext rfl rfl (congrArg p.graph.snapshot hnow) hdom htag hlimit
  refine ⟨⟨hsound, hwrote.toEvolves.mono fun c hc => Or.inr (Or.inr hc), .refl _, rfl,
    Nat.le_refl _, hprevious, rfl, ?_, fun _ _ _ => Iff.rfl, fun _ _ _ => Iff.rfl,
    fun F _ hle q => ?_⟩, ?_, rfl, ?_, hwrote.domain_eq⟩
  · show Above (p.graph.now s') (p.graph.now s)
    rw [hnow]
    exact .refl _
  · rw [hwrote.domain_eq]
    exact hle q
  · rw [hshown]
  · rw [hshown]
    exact hcomputed

end FiniteDomain.AllDifferent
