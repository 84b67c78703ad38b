import FiniteDomain.Proofs.AllDifferent.Filtering

/-!
# What a propagator deduces

Two facts carry all deductions.  While all values are used, a value that one variable alone can take
belongs to it (`Forced`).  And a variable has to do without the mate of another one that is not
reached and has another tag (`Apart`).

* `shortcuts_eq` and `prunable_eq` say that the propagator collects these facts, and
  `Located.choice_of_forced` and `Located.choice_of_apart` that they hold of every choice.
* `carryOut_eq` says what carrying them out does: no value is lost that a choice needs, and the
  variables that share a primitive variable with a narrowed one wait afterwards.
-/

namespace FiniteDomain.AllDifferent

open ValueGraph

variable {p p' p'' : AllDifferent} {s s' s'' : Store} {verdict : Verdict}

/-! ## The two facts -/

/-- The variable `x` alone can take the value `a`, and all values are used. -/
structure Forced (p : AllDifferent) (s : Store) (x a : Nat) : Prop where
  active : x ∈ (p.shown s).graph.active
  owner : (p.shown s).graph.owner a = some x
  alone : count (p.graph.now s) a = 1
  full : p.reach.freeCount = 0
  wide : 1 < (p.graph.domains s x).card

/-- The variable `y` may take the mate `a` of a variable that is not reached and has another tag. -/
structure Apart (p : AllDifferent) (s : Store) (y a : Nat) : Prop where
  active : y ∈ (p.shown s).graph.active
  live : a ∈ (p.shown s).graph.live y
  owner : ∃ x ∈ (p.shown s).graph.active, ¬ p.reach.reached.Has x ∧
    (p.shown s).graph.mate x = some a ∧ y ≠ x ∧ (p.shown s).tag y ≠ (p.shown s).tag x

/-- The marks are those of the variables that are reached, and the number of free values is right. -/
structure Located (p : AllDifferent) (s : Store) : Prop where
  exact : (p.shown s).Hopeless ∨
    ((p.shown s).graph.Covered →
      ∀ x, p.reach.reached.Has x ↔ (p.shown s).graph.Reached x)
  full : p.reach.freeCount = 0 → ∀ v < p.graph.valueTotal, ∀ x,
    v ∈ (p.shown s).graph.live x → (p.shown s).graph.owner v ≠ none

/-- The only variable that can take a value. -/
theorem Forced.eq_of_live (h : p.Sound s) {x a y : Nat} (hf : p.Forced s x a)
    (hy : a ∈ (p.shown s).graph.live y) : y = x := by
  have hlive := h.shows.matched.live_of_mate x a (h.shows.matched.mate_of_owner a x hf.owner)
  have ha := (h.within.live_lt y a hy).2
  obtain ⟨k, hk, hky⟩ := (mem_live_iff_nth h.layout h.graph.intact ha).1 hy
  obtain ⟨k', hk', hkx⟩ := (mem_live_iff_nth h.layout h.graph.intact ha).1 hlive
  have hone : count (p.graph.now s) a = 1 := hf.alone
  have heq : k = k' := by omega
  rw [← hky, ← hkx, heq]

/-- In every choice the variable has the value that it alone can take. -/
theorem Located.choice_of_forced (hl : p.Located s) (h : p.Sound s) (hhonest : (p.shown s).Honest)
    {x a : Nat} (hf : p.Forced s x a) {φ : Nat → Int}
    (hφ : Choice (p.graph.domains s) p.graph.varTotal φ) : φ x = p.graph.val a := by
  obtain hhopeless | htrusted := hhonest
  · exact absurd hφ (hopeless_iff.1 hhopeless φ)
  · refine Snapshot.choice_eq_of_forced h.within h.shows.matched h.sync.fits
      (faithful_iff.1 htrusted.faithful) (fun y hy v hv => ?_) hf.active hf.owner
      (fun y _ hy => hf.eq_of_live h hy) hφ
    exact hl.full hf.full v (h.within.live_lt y v hv).2 y hv

/-- In no choice does the variable have the mate of the other one. -/
theorem Located.choice_of_apart (hl : p.Located s) (h : p.Sound s) (hhonest : (p.shown s).Honest)
    {y a : Nat} (hd : p.Apart s y a) {φ : Nat → Int}
    (hφ : Choice (p.graph.domains s) p.graph.varTotal φ) : φ y ≠ p.graph.val a := by
  obtain hhopeless | htrusted := hhonest
  · exact absurd hφ (hopeless_iff.1 hhopeless φ)
  obtain ⟨x, hx, hmark, ha, _, htag⟩ := hd.owner
  obtain hcovered | hunmatched := htrusted.matching
  · have hreached : ¬ (p.shown s).graph.Reached x := by
      obtain hhopeless | hexact := hl.exact
      · exact absurd hφ (hopeless_iff.1 hhopeless φ)
      · exact fun hr => hmark ((hexact hcovered x).2 hr)
    exact Snapshot.choice_ne_of_apart h.within h.shows.matched h.sync.fits
      (faithful_iff.1 htrusted.faithful) hx hreached ha hd.active hd.live
      (fun htogether => htag (htrusted.coarse x y htogether hx hd.active).symm) hφ
  · rw [hunmatched x hx] at ha
    cases ha

/-! ## Collecting them -/

/-- The marks of a search are right. -/
theorem Marked.located (h : Marked p s p' s') (hs : p.Sound s)
    (hbounded : (p.shown s).Hopeless ∨ (p.shown s).graph.Bounded (p.shown s).limit) :
    p'.Located s' := by
  have hgraph : (p'.shown s').graph = (p.shown s).graph := by rw [h.shown_eq]
  have htotal : p'.graph.valueTotal = p.graph.valueTotal := h.advance.alike.valueTotal_eq
  refine ⟨?_, ?_⟩
  · obtain hhopeless | hbounded := hbounded
    · refine Or.inl ?_
      rw [h.shown_eq]
      exact hhopeless
    · refine Or.inr fun hc => ?_
      rw [hgraph] at hc ⊢
      exact h.computed.exact hs.shows.matched hc hbounded
  · rw [hgraph, htotal]
    exact h.computed.free

/-- The values that one variable alone can take are collected. -/
theorem shortcuts_eq (h : p.Fitted s) (hi : p.graph.Intact (p.graph.now s)) :
    ∃ fixes, p.shortcuts s = .ok fixes ∧
      ∀ d ∈ fixes, ∃ a, p.Forced s d.1 a ∧ d.2 = p.graph.val a := by
  have hg := h.graph hi
  by_cases hskip : !p.options.permutationShortcut || 0 < p.reach.freeCount
  · exact ⟨[], by rw [shortcuts, if_pos hskip]; rfl, fun d hd => absurd hd List.not_mem_nil⟩
  have hfree : p.reach.freeCount = 0 := by
    rw [Bool.or_eq_true, decide_eq_true_iff, not_or] at hskip
    omega
  let answer : Nat → Option Deduction := fun v =>
    if count (p.graph.now s) v = 1 then
      ((p.shown s).graph.owner v).bind fun x =>
        if x ∈ (p.shown s).graph.active ∧ 1 < (p.graph.domains s x).card then
          some (x, p.graph.val v)
        else
          none
    else
      none
  refine ⟨(List.range p.graph.valueTotal).filterMap answer, ?_, fun d hd => ?_⟩
  · rw [shortcuts, if_neg hskip]
    refine filterMapM_eq_ok fun v hv => ?_
    have hv := List.mem_range.1 hv
    rw [hg.liveCount_eq hv, ok_bind]
    show _ = Except.ok (answer v)
    dsimp only [answer]
    split
    · have hshown : (p.graph.snapshot (p.graph.now s)).owner v = (p.shown s).graph.owner v := rfl
      rw [hg.owner?_eq hv, ok_bind, hshown]
      cases howner : (p.shown s).graph.owner v with
      | none => rfl
      | some x =>
        have hx := (hg.within.owner_lt v x howner).1
        have hsize : s.size (p.graph.varOf x) = .ok (p.graph.domains s x).card :=
          Store.size_eq h.store (h.anchored.var_lt x hx)
        dsimp only [Option.bind_some]
        rw [hg.isActive_eq hx, ok_bind]
        by_cases hxa : x ∈ (p.graph.snapshot (p.graph.now s)).active
        · rw [if_pos (decide_eq_true hxa), var_eq hx, ok_bind, hsize, ok_bind]
          by_cases hwide : 1 < (p.graph.domains s x).card
          · rw [if_pos hwide, if_pos ⟨hxa, hwide⟩, value_eq hv]
            rfl
          · rw [if_neg hwide, if_neg fun hand => hwide hand.2]
            rfl
        · rw [if_neg (by rw [decide_eq_false hxa]; exact Bool.false_ne_true),
            if_neg fun hand => hxa hand.1]
          rfl
    · rfl
  · obtain ⟨v, _, hanswer⟩ := List.mem_filterMap.1 hd
    dsimp only [answer] at hanswer
    split at hanswer
    · rename_i hone
      obtain ⟨x, howner, hanswer⟩ := Option.bind_eq_some_iff.1 hanswer
      split at hanswer
      · rename_i hwhy
        cases hanswer
        exact ⟨v, ⟨hwhy.1, howner, hone, hfree, hwhy.2⟩, rfl⟩
      · cases hanswer
    · cases hanswer

/-- The variables that have to do without the mate of `x`. -/
theorem outsiders_eq (h : p.Fitted s) (hi : p.graph.Intact (p.graph.now s)) {x a : Nat}
    (hx : x < p.graph.varTotal) (ha : a < p.graph.valueTotal) :
    ∃ ds, p.outsiders s x a = .ok ds ∧ ds.Nodup ∧ ∀ d, d ∈ ds ↔
      d.1 ≠ x ∧ a ∈ (p.shown s).graph.live d.1 ∧ d.1 ∈ (p.shown s).graph.active ∧
        (p.shown s).tag d.1 ≠ (p.shown s).tag x ∧ d.2 = p.graph.val a := by
  have hg := h.graph hi
  obtain ⟨ys, hys, hnodup, hmem⟩ := hg.liveVars_eq ha
  have htag : ∀ {z}, z < p.graph.varTotal → p.tagging.tag s z = .ok ((p.shown s).tag z) :=
    fun hz => Tagging.tag_eq h.tags_wired (h.tags_fit.size_tags ▸ hz)
  let answer : Nat → Option Deduction := fun y =>
    if y ≠ x ∧ y ∈ (p.shown s).graph.active ∧ (p.shown s).tag y ≠ (p.shown s).tag x then
      some (y, p.graph.val a)
    else
      none
  have hanswer : ∀ {y d}, answer y = some d → (y ≠ x ∧ y ∈ (p.shown s).graph.active ∧
      (p.shown s).tag y ≠ (p.shown s).tag x) ∧ d = (y, p.graph.val a) := by
    intro y d hd
    dsimp only [answer] at hd
    split at hd
    · rename_i hwhy
      exact ⟨hwhy, (Option.some.inj hd).symm⟩
    · cases hd
  refine ⟨ys.filterMap answer, ?_, hnodup.filterMap fun y y' d hy hy' => ?_, fun d => ?_⟩
  · rw [outsiders, htag hx, ok_bind, hys, ok_bind]
    refine filterMapM_eq_ok fun y hy => ?_
    have hy := (hg.within.live_lt y a ((hmem y).1 hy)).1
    dsimp only [answer]
    by_cases hyx : y = x
    · rw [if_pos hyx, if_neg fun hand => hand.1 hyx]
      rfl
    rw [if_neg hyx, hg.isActive_eq hy, ok_bind]
    by_cases hya : y ∈ (p.graph.snapshot (p.graph.now s)).active
    · rw [if_pos (decide_eq_true hya), htag hy, ok_bind]
      by_cases heq : (p.shown s).tag y = (p.shown s).tag x
      · rw [if_pos heq, if_neg fun hand => hand.2.2 heq]
        rfl
      · rw [if_neg heq, if_pos ⟨hyx, hya, heq⟩, value_eq ha]
        rfl
    · rw [if_neg (by rw [decide_eq_false hya]; exact Bool.false_ne_true),
        if_neg fun hand => hya hand.2.1]
      rfl
  · have heq := (hanswer hy).2.symm.trans (hanswer hy').2
    exact congrArg Prod.fst heq
  · rw [List.mem_filterMap]
    constructor
    · rintro ⟨y, hy, hd⟩
      obtain ⟨hwhy, rfl⟩ := hanswer hd
      exact ⟨hwhy.1, (hmem y).1 hy, hwhy.2.1, hwhy.2.2, rfl⟩
    · rintro ⟨hne, hlive, hactive, htag, hvalue⟩
      refine ⟨d.1, (hmem d.1).2 hlive, ?_⟩
      dsimp only [answer]
      rw [if_pos ⟨hne, hactive, htag⟩, ← hvalue]

/-- All edges are collected that lead to the mate of a variable that is not reached and has another
tag, each of them once if no two variables have the same mate. -/
theorem prunable_eq (h : p.Fitted s) (hi : p.graph.Intact (p.graph.now s)) :
    ∃ removals, p.prunable s = .ok removals ∧
      (∀ d, d ∈ removals ↔ ∃ a, p.Apart s d.1 a ∧ d.2 = p.graph.val a) ∧
      ((∀ x y v, (p.shown s).graph.mate x = some v → (p.shown s).graph.mate y = some v → x = y) →
        removals.Nodup) := by
  have hg := h.graph hi
  obtain ⟨xs, hxs, hnodup, hmem⟩ := hg.activeVars_eq
  have hmem : ∀ x, x ∈ xs ↔ x ∈ (p.shown s).graph.active := hmem
  rw [prunable, hxs, ok_bind]
  -- What is collected for one variable.
  refine exists_bind_mapM (P := fun x ds => ds.Nodup ∧ ∀ d, d ∈ ds ↔ ∃ a,
    ¬ p.reach.reached.Has x ∧ (p.shown s).graph.mate x = some a ∧ d.1 ≠ x ∧
    a ∈ (p.shown s).graph.live d.1 ∧ d.1 ∈ (p.shown s).graph.active ∧
    (p.shown s).tag d.1 ≠ (p.shown s).tag x ∧ d.2 = p.graph.val a) (fun x hx => ?_)
    fun collected hcollected => ?_
  · have hx := hg.within.active_lt x ((hmem x).1 hx)
    rw [Reach.isReached, h.reached.isMarked_eq hx, ok_bind]
    by_cases hmark : p.reach.reached.Has x
    · refine ⟨[], by rw [if_pos (decide_eq_true hmark)]; rfl, List.nodup_nil, fun d => ?_⟩
      exact ⟨fun hd => absurd hd List.not_mem_nil, fun hd => absurd hmark hd.choose_spec.1⟩
    rw [if_neg (by rw [decide_eq_false hmark]; exact Bool.false_ne_true), hg.mate?_eq hx, ok_bind]
    cases hmate : (p.graph.snapshot (p.graph.now s)).mate x with
    | none =>
      refine ⟨[], rfl, List.nodup_nil, fun d => ⟨fun hd => absurd hd List.not_mem_nil, ?_⟩⟩
      rintro ⟨a, _, ha, _⟩
      have ha : (p.graph.snapshot (p.graph.now s)).mate x = some a := ha
      rw [hmate] at ha
      cases ha
    | some a =>
      obtain ⟨ds, hds, hnodup, hmemds⟩ := outsiders_eq h hi hx (hg.within.mate_lt x a hmate).2
      refine ⟨ds, hds, hnodup, fun d =>
        (hmemds d).trans ⟨fun hd => ⟨a, hmark, hmate, hd⟩, ?_⟩⟩
      rintro ⟨a', _, ha', hd⟩
      have ha' : (p.graph.snapshot (p.graph.now s)).mate x = some a' := ha'
      obtain rfl := Option.some.inj (hmate.symm.trans ha')
      exact hd
  refine ⟨xs.flatMap collected, rfl, fun d => ?_, fun hinj => ?_⟩
  · rw [List.mem_flatMap]
    constructor
    · rintro ⟨x, hx, hd⟩
      obtain ⟨a, hmark, ha, hne, hlive, hactive, htag, hvalue⟩ := ((hcollected x hx).2 d).1 hd
      exact ⟨a, ⟨hactive, hlive, x, (hmem x).1 hx, hmark, ha, hne, htag⟩, hvalue⟩
    · rintro ⟨a, ⟨hactive, hlive, x, hx, hmark, ha, hne, htag⟩, hvalue⟩
      have hin := (hmem x).2 hx
      exact ⟨x, hin, ((hcollected x hin).2 d).2
        ⟨a, hmark, ha, hne, hlive, hactive, htag, hvalue⟩⟩
  · refine List.nodup_flatMap.2 ⟨fun x hx => (hcollected x hx).1,
      List.Nodup.pairwise_of_forall_ne hnodup fun x hx y hy hne => ?_⟩
    -- Distinct variables have distinct mates, whose values are distinct.
    refine List.disjoint_left.2 fun d hd hd' => hne ?_
    obtain ⟨a, _, ha, _, _, _, _, hvalue⟩ := ((hcollected x hx).2 d).1 hd
    obtain ⟨a', _, ha', _, _, _, _, hvalue'⟩ := ((hcollected y hy).2 d).1 hd'
    have heq := hg.within.val_injective a (hg.within.mate_lt x a ha).2 a'
      (hg.within.mate_lt y a' ha').2 (hvalue.symm.trans hvalue')
    exact hinj x y a ha (heq ▸ ha')

/-! ## Carrying them out -/

/-- A way to narrow the variables of a graph: by the value `u` it leaves the values with `P u`. -/
def NarrowsBy (g : ValueGraph) (narrow : Narrowing) (P : Int → Int → Prop) : Prop :=
  ∀ {s z u}, g.Sound s → g.Anchored s → z < g.varTotal → s.Reads (g.varOf z) u →
    ∃ verdict s', narrow s (g.varOf z) u = .ok (verdict, s') ∧ g.Narrows s z (P u) verdict s'

/-- Deductions were carried out, each of which leaves the values with the property `P`. -/
structure Carried (p : AllDifferent) (s : Store) (P : Int → Int → Prop) (ds : List Deduction)
    (verdict : Verdict) (p' : AllDifferent) (s' : Store) : Prop where
  advance : Advance p s p' s'
  shown_eq : p'.shown s' = (p.shown s).narrow (p'.shown s').domains
  rest_eq : p' = { p with work := p'.work }
  waiting : ∀ z ∈ p.work.waiting, z ∈ p'.work.waiting
  hopeless : verdict ≠ .consistent → (p'.shown s').Hopeless
  pushed : verdict = .consistent → ∀ d ∈ ds, d.1 ∈ p'.work.waiting
  moved : verdict = .consistent → ∀ z < p.graph.varTotal, z ∉ p'.work.waiting →
    (p'.shown s').domains z = (p.shown s).domains z
  done : verdict = .consistent → ∀ d ∈ ds, ∀ u ∈ p'.graph.domains s' d.1, P d.2 u
  alive : verdict = .consistent → s.Alive s'

/-- One variable was narrowed to values that all choices have. -/
theorem Advance.of_narrows (h : p.Sound s) {z : Nat} {P : Int → Prop}
    (hn : p.graph.Narrows s z P verdict s')
    (hP : ∀ φ, Choice (p.graph.domains s) p.graph.varTotal φ → P (φ z)) {work : Worklist}
    (hnodup : work.waiting.Nodup) (hlt : ∀ x ∈ work.waiting, x < p.graph.varTotal) :
    Advance p s { p with work } s' ∧
      shown { p with work } s' = (p.shown s).narrow (shown { p with work } s').domains := by
  have hdom : ∀ x, p.graph.domains s' x ⊆ p.graph.domains s x :=
    ValueGraph.domains_subset (.refl _) hn.step.evolves
  have hgraph : p.graph.snapshot (p.graph.now s') = p.graph.snapshot (p.graph.now s) := by
    rw [hn.now_eq]
  obtain ⟨hadvance, htag, hlimit⟩ := Advance.of_step { p with work } h hn.step rfl rfl rfl
    h.matcher (by rw [hgraph]; exact h.shows.matched)
    (by rw [hgraph]; exact h.sync.fits.mono fun x _ => hdom x) hnodup hlt (hn.keeps hP)
  exact ⟨hadvance, Sight.ext rfl rfl hgraph rfl htag hlimit⟩

/-- Deductions that hold of every choice are carried out one after the other. -/
theorem carryOut_eq {narrow : Narrowing} {P : Int → Int → Prop} (ds : List Deduction) :
    ∀ {p : AllDifferent} {s : Store}, NarrowsBy p.graph narrow P → p.Sound s →
      (∀ d ∈ ds, d.1 < p.graph.varTotal ∧ s.Reads (p.graph.varOf d.1) d.2) →
      (∀ φ, Choice (p.graph.domains s) p.graph.varTotal φ → ∀ d ∈ ds, P d.2 (φ d.1)) →
      ∃ verdict work s', carryOut p.graph narrow ds p.work s = .ok (verdict, work, s') ∧
        Carried p s P ds verdict { p with work } s' := by
  induction ds with
  | nil =>
    intro p s _ h _ _
    exact ⟨.consistent, p.work, s, rfl, .refl h, rfl, rfl, fun _ hz => hz,
      fun hv => absurd rfl hv, fun _ _ hd => (nomatch hd), fun _ _ _ _ => rfl,
      fun _ _ hd => (nomatch hd), fun _ => .refl _⟩
  | cons d rest ih =>
    intro p s hnarrow h hds hj
    obtain ⟨z, u⟩ := d
    obtain ⟨hz, hreads⟩ := hds _ (List.mem_cons_self ..)
    have hP : ∀ φ, Choice (p.graph.domains s) p.graph.varTotal φ → P u (φ z) :=
      fun φ hφ => hj φ hφ _ (List.mem_cons_self ..)
    obtain ⟨verdict, s₁, hret, hn⟩ := hnarrow h.graph h.anchored hz hreads
    have hvar := var_eq (g := p.graph) hz
    cases verdict with
    | failed why =>
      obtain ⟨hadvance, hshown⟩ := Advance.of_narrows h hn hP h.work_nodup h.work_lt
      refine ⟨.failed why, p.work, s₁, ?_, hadvance, hshown, rfl, fun _ hx => hx, fun _ => ?_,
        nofun, nofun, nofun, nofun⟩
      · rw [carryOut, hvar, ok_bind, hret]
        rfl
      · refine hopeless_iff.2 (hadvance.hopeless fun φ hφ => ?_)
        exact hn.empty nofun _ (hφ.mem z hz) (hP φ hφ)
    | consistent =>
      obtain ⟨sharing, hsharers, hmem⟩ := h.layout.sharers_eq hz
      obtain ⟨hadvance, hshown⟩ := Advance.of_narrows h hn hP
        (Worklist.nodup_pushAll h.work_nodup sharing) fun x hx => by
          obtain hx | hx := Worklist.mem_pushAll.1 hx
          · exact ((hmem x).1 hx).1
          · exact h.work_lt x hx
      obtain ⟨verdict, work, s₂, hrest, hc⟩ := ih (p := { p with work := p.work.pushAll sharing })
        hnarrow hadvance.sound
        (fun d hd => by
          have hold := hds d (List.mem_cons_of_mem _ hd)
          exact ⟨hold.1, hn.step.evolves.reads_iff.2 hold.2⟩)
        (fun φ hφ d hd => hj φ (hφ.mono fun x _ => hadvance.domains_subset x) d
          (List.mem_cons_of_mem _ hd))
      have hself : z ∈ work.waiting :=
        hc.waiting z (Worklist.mem_pushAll.2 (Or.inl ((hmem z).2 ⟨hz, rfl⟩)))
      refine ⟨verdict, work, s₂, ?_, hadvance.trans hc.advance, ?_, rfl,
        fun x hx => hc.waiting x (Worklist.mem_pushAll.2 (Or.inr hx)), hc.hopeless,
        fun hv d hd => ?_, fun hv x hx hnot => ?_, fun hv d hd => ?_,
        fun hv => (hn.alive rfl).trans (hc.alive hv)⟩
      · rw [carryOut, hvar, ok_bind, hret, ok_bind]
        dsimp only
        rw [hsharers, ok_bind]
        exact hrest
      · exact Sight.narrow_trans hshown hc.shown_eq
      · obtain rfl | hd := List.mem_cons.1 hd
        · exact hself
        · exact hc.pushed hv d hd
      · refine (hc.moved hv x hx hnot).trans ?_
        have hold : p.graph.domains s₁ x = p.graph.domains s x := hn.other x hx fun heq => hnot
          (hc.waiting x (Worklist.mem_pushAll.2 (Or.inl ((hmem x).2 ⟨hx, heq⟩))))
        exact (shown_domains hx).trans (hold.trans (shown_domains hx).symm)
      · obtain rfl | hd := List.mem_cons.1 hd
        · exact fun w hw => hn.self rfl w (hc.advance.domains_subset z hw)
        · exact hc.done hv d hd

theorem narrowsBy_fix (g : ValueGraph) : NarrowsBy g Store.fix fun u w => w = u :=
  fun h ha hz hu => narrows_fix h ha hz hu

theorem narrowsBy_remove (g : ValueGraph) : NarrowsBy g Store.remove fun u w => w ≠ u :=
  fun h ha hz hu => narrows_remove h ha hz hu

/-- What follows was done. -/
structure Concluded (p : AllDifferent) (s : Store) (fixes removals : List Deduction)
    (verdict : Verdict) (p' : AllDifferent) (s' : Store) : Prop where
  advance : Advance p s p' s'
  shown_eq : p'.shown s' = (p.shown s).narrow (p'.shown s').domains
  rest_eq : p' = { p with work := p'.work }
  hopeless : verdict ≠ .consistent → (p'.shown s').Hopeless
  moved : verdict = .consistent → ∀ z < p.graph.varTotal, z ∉ p'.work.waiting →
    (p'.shown s').domains z = (p.shown s).domains z
  alive : verdict = .consistent → s.Alive s'
  stale : verdict = .consistent → fixes ≠ [] ∨ removals ≠ [] → p'.Stale s'

/-- A forced variable that waits has a stale edge once it has its only value, since it had two. -/
theorem Forced.stale {x a : Nat} {work : Worklist} (hf : p.Forced s x a) (h : p.Sound s)
    (hgraph : (shown { p with work } s').graph = (p.shown s).graph) (hwaits : x ∈ work.waiting)
    (hdone : ∀ w ∈ p.graph.domains s' x, w = p.graph.val a) : Stale { p with work } s' := by
  obtain ⟨u, hu, hne⟩ := Finset.exists_mem_ne hf.wide (p.graph.val a)
  obtain ⟨v, hlive, rfl⟩ := h.sync.fits x (h.within.active_lt _ hf.active) u hu
  refine ⟨x, hwaits, ?_, v, ?_, fun hmem => hne (hdone _ hmem)⟩
  · rw [hgraph]
    exact hf.active
  · rw [hgraph]
    exact hlive

/-- A variable that waits has a stale edge once it has lost a value. -/
theorem Apart.stale {y a : Nat} {work : Worklist} (ha : p.Apart s y a)
    (hgraph : (shown { p with work } s').graph = (p.shown s).graph) (hwaits : y ∈ work.waiting)
    (hdone : ∀ w ∈ p.graph.domains s' y, w ≠ p.graph.val a) : Stale { p with work } s' := by
  refine ⟨y, hwaits, ?_, a, ?_, fun hmem => hdone _ hmem rfl⟩
  · rw [hgraph]
    exact ha.active
  · rw [hgraph]
    exact ha.live

/-- The deductions of a run are carried out.  Each of them leaves a stale edge behind. -/
theorem conclude_eq (h : p.Sound s) (hl : p.Located s) (hhonest : (p.shown s).Honest)
    {fixes removals : List Deduction}
    (hfixes : ∀ d ∈ fixes, ∃ a, p.Forced s d.1 a ∧ d.2 = p.graph.val a)
    (hremovals : ∀ d ∈ removals, ∃ a, p.Apart s d.1 a ∧ d.2 = p.graph.val a) :
    ∃ verdict p' s', p.conclude fixes removals s = .ok (verdict, p', s') ∧
      Concluded p s fixes removals verdict p' s' := by
  have hreads : ∀ {x a : Nat}, a ∈ (p.shown s).graph.live x →
      x < p.graph.varTotal ∧ s.Reads (p.graph.varOf x) (p.graph.val a) :=
    fun hlive => ⟨(h.within.live_lt _ _ hlive).1, h.sync.reads_of_live hlive⟩
  obtain ⟨verdict, work, s₁, hfix, hc⟩ := carryOut_eq fixes (narrowsBy_fix p.graph) h
    (fun d hd => by
      obtain ⟨a, hforced, hvalue⟩ := hfixes d hd
      rw [hvalue]
      exact hreads (h.shows.matched.live_of_mate _ a
        (h.shows.matched.mate_of_owner a _ hforced.owner)))
    (fun φ hφ d hd => by
      obtain ⟨a, hforced, hvalue⟩ := hfixes d hd
      rw [hvalue]
      exact hl.choice_of_forced h hhonest hforced hφ)
  cases verdict with
  | failed why =>
    refine ⟨.failed why, _, s₁, ?_, hc.advance, hc.shown_eq, rfl, hc.hopeless, nofun, nofun, nofun⟩
    rw [conclude, hfix]
    rfl
  | consistent =>
    obtain ⟨verdict, work', s₂, hremove, hc'⟩ := carryOut_eq (p := { p with work := work }) removals
      (narrowsBy_remove p.graph) hc.advance.sound
      (fun d hd => by
        obtain ⟨a, hapart, hvalue⟩ := hremovals d hd
        rw [hvalue]
        obtain ⟨hx, hr⟩ := hreads hapart.live
        exact ⟨hx, hc.advance.evolves.reads_iff.2 hr⟩)
      (fun φ hφ d hd => by
        obtain ⟨a, hapart, hvalue⟩ := hremovals d hd
        rw [hvalue]
        exact hl.choice_of_apart h hhonest hapart (hφ.mono fun x _ => hc.advance.domains_subset x))
    refine ⟨verdict, _, s₂, ?_, hc.advance.trans hc'.advance, ?_, rfl, hc'.hopeless,
      fun hv z hz hnot => ?_, fun hv => (hc.alive rfl).trans (hc'.alive hv), fun hv hsome => ?_⟩
    · rw [conclude, hfix, ok_bind]
      dsimp only
      rw [hremove]
      rfl
    · exact Sight.narrow_trans hc.shown_eq hc'.shown_eq
    · exact (hc'.moved hv z hz hnot).trans
        (hc.moved rfl z hz fun hmem => hnot (hc'.waiting z hmem))
    · have hgraph : (shown { p with work := work' } s₂).graph = (p.shown s).graph := by
        rw [hc'.shown_eq, hc.shown_eq, Sight.narrow_graph, Sight.narrow_graph]
      obtain hne | hne := hsome
      · obtain ⟨d, hd⟩ := List.exists_mem_of_ne_nil _ hne
        obtain ⟨a, hforced, hvalue⟩ := hfixes d hd
        exact hforced.stale h hgraph (hc'.waiting _ (hc.pushed rfl d hd)) fun w hw =>
          (hc.done rfl d hd w (hc'.advance.domains_subset d.1 hw)).trans hvalue
      · obtain ⟨d, hd⟩ := List.exists_mem_of_ne_nil _ hne
        obtain ⟨a, hapart, hvalue⟩ := hremovals d hd
        exact hapart.stale hgraph (hc'.pushed hv d hd) fun w hw heq =>
          hc'.done hv d hd w hw (heq.trans hvalue.symm)

end FiniteDomain.AllDifferent
