import FiniteDomain.Proofs.AllDifferent.Deductions

/-!
# The runs of a propagator

`Prepared` and `Deduced` are the two halves of a pass after the graph is in line with the domains,
`Outcome` is the rest of a run, and `Propagated` a whole run.

* A run always ends, and gives a verdict, unless a check fails that the options ask for.  This does
  not happen when nothing but domains has changed since the last run (`propagate_cases`).
* However the propagator was used, a run keeps all supported domains, and fails only if there is no
  choice.
* When nothing but domains of variables that wait has changed since the last run, the propagator is
  settled after the next one (`Propagated.settled`), so that exactly the values are left that belong
  to choices.
-/

namespace FiniteDomain.AllDifferent

open ValueGraph

variable {p p' p'' : AllDifferent} {s s' s'' : Store} {verdict : Verdict} {changes : Changes}

/-! ## One pass -/

/-- The matching is the same as before, and the tags can be traced. -/
def Kept (p : AllDifferent) (s : Store) (changes : Changes) : Prop :=
  p.ready = true → changes.matchingChanged = false →
    (p.shown s).graph.Covered ∧ (p.shown s).Traceable changes.touched.toList

/-- The matching covers the variables, unless there is none yet or a change of it was noted. -/
theorem Kept.covered (h : p.Kept s changes) :
    p.ready = false ∨ changes.matchingChanged = true ∨ (p.shown s).graph.Covered := by
  cases hready : p.ready with
  | false => exact Or.inl rfl
  | true =>
    cases hchanged : changes.matchingChanged with
    | true => exact Or.inr (Or.inl rfl)
    | false => exact Or.inr (Or.inr (h hready hchanged).1)

/-- The matching is repaired, the components are tagged, and what is reached is marked. -/
structure Prepared (p : AllDifferent) (s : Store) (changes : Changes) (p' : AllDifferent)
    (s' : Store) : Prop where
  advance : Advance p s p' s'
  located : p'.Located s'
  honest : (p'.shown s').Honest
  ready : p'.ready = true
  work_eq : p'.work = p.work
  domain_eq : ∀ q, s'.domain q = s.domain q
  bounded : (p.shown s).graph.Bounded (p.shown s).limit →
    (p'.shown s').graph.Bounded (p'.shown s').limit
  grounded : (p.shown s).Grounded → (p'.shown s').Grounded
  tidy : ∀ {late}, (p.shown s).Tidy late → (p'.shown s').Tidy late
  covered : p.ready = false ∨ changes.matchingChanged = true ∨ (p.shown s).graph.Covered →
    (p'.shown s').graph.Covered
  tagged : p.Kept s changes ∨ (p.shown s).Unmatched → (p'.shown s').Tagged

/-- Takes the deductions from what was prepared. -/
def deduce (p : AllDifferent) (s : Store) :
    Except Fault (Verdict × Bool × AllDifferent × Store) := do
  let fixes ← p.shortcuts s
  let removals ← p.prunable s
  if fixes.isEmpty && removals.isEmpty then
    return (.consistent, false, p, s)
  else
    let (verdict, p, s) ← p.conclude fixes removals s
    return (verdict, true, p, s)

section Repaired

variable {repair : Repair} {p₁ p₂ : AllDifferent} {s₁ s₂ : Store}

/-- Unless there is no matching of all variables, there is a matching now. -/
theorem Repaired.ready_eq (hr : Repaired p s changes repair p₁ s₁)
    (hpossible : repair ≠ .impossible) : p₁.ready = true := by
  cases hrepair : repair with
  | impossible => exact absurd hrepair hpossible
  | repaired => exact (hr.repaired hrepair).2
  | unchanged =>
    obtain ⟨rfl, _⟩ := hr.unchanged hrepair
    exact (hr.unchanged_iff.1 hrepair).1

/-- When the components are tagged after the matching was repaired, the propagator can be trusted. -/
theorem Repaired.honest (hr : Repaired p s changes repair p₁ s₁) (h : p.Sound s)
    (hsane : (p.shown s).Sane (changes.matchingChanged = false)) (hpossible : repair ≠ .impossible)
    (ht : Retagged p₁ s₁ repair changes.touched.toList p₂ s₂) : (p₂.shown s₂).Honest := by
  obtain hhopeless | ⟨_, hfaithful, hbounded, hmatching, hcoarse⟩ := hr.mended h hsane
  · refine Or.inl ?_
    rw [ht.shown_eq]
    exact hhopeless
  · have hcoarse₂ : (p₂.shown s₂).Coarse := by
      cases hrepair : repair with
      | unchanged => exact ht.coarse (hcoarse hrepair)
      | repaired => exact (ht.sharp (Or.inl (by rw [hrepair]; nofun))).coarse
      | impossible => exact absurd hrepair hpossible
    refine Or.inr ⟨?_, ht.bounded hbounded, hcoarse₂, ?_⟩
    · rw [ht.shown_eq]
      exact hfaithful
    · rw [ht.shown_eq]
      exact hmatching

/-- The tags are those of the components, if they were before and the matching was not lost. -/
theorem Repaired.tagged (hr : Repaired p s changes repair p₁ s₁) (hpossible : repair ≠ .impossible)
    (ht : Retagged p₁ s₁ repair changes.touched.toList p₂ s₂)
    (hwhy : p.Kept s changes ∨ (p.shown s).Unmatched) : (p₂.shown s₂).Tagged := by
  have hgraph : (p₂.shown s₂).graph = (p₁.shown s₁).graph := by rw [ht.shown_eq]
  cases hrepair : repair with
  | impossible => exact absurd hrepair hpossible
  | repaired =>
    refine Or.inl ⟨?_, ht.sharp (Or.inl (by rw [hrepair]; nofun))⟩
    rw [hgraph]
    exact (hr.repaired hrepair).1
  | unchanged =>
    obtain ⟨hready, hsame⟩ := hr.unchanged_iff.1 hrepair
    obtain ⟨rfl, rfl⟩ := hr.unchanged hrepair
    obtain hkept | hunmatched := hwhy
    · obtain ⟨hc, htraceable⟩ := hkept hready hsame
      refine Or.inl ⟨?_, ht.sharp (Or.inr htraceable)⟩
      rw [hgraph]
      exact hc
    · refine Or.inr ?_
      rw [ht.shown_eq]
      exact hunmatched

end Repaired

/-- Marking what is reached does no harm. -/
theorem Marked.honest (hm : Marked p s p' s') (h : p.Sound s) (hhonest : (p.shown s).Honest) :
    (p'.shown s').Honest := by
  refine hhonest.imp (fun hhopeless => ?_) fun ht =>
    ⟨?_, hm.bounded h ht.bounded, ?_, ?_⟩
  all_goals rw [hm.shown_eq]
  · exact hhopeless
  · exact ht.faithful
  · exact ht.coarse
  · exact ht.matching

/-- Everything is prepared when the matching was repaired. -/
theorem Prepared.of_marked {repair : Repair} {p₁ p₂ p₃ : AllDifferent} {s₁ s₂ s₃ : Store}
    (h : p.Sound s) (hsane : (p.shown s).Sane (changes.matchingChanged = false))
    (hr : Repaired p s changes repair p₁ s₁) (hpossible : repair ≠ .impossible)
    (ht : Retagged p₁ s₁ repair changes.touched.toList p₂ s₂) (hm : Marked p₂ s₂ p₃ s₃) :
    Prepared p s changes p₃ s₃ := by
  have hsound₂ := ht.advance.sound
  have hhonest := hr.honest h hsane hpossible ht
  have hready : p₃.ready = true := by
    rw [hm.rest_eq, ht.rest_eq]
    exact hr.ready_eq hpossible
  refine ⟨(hr.advance.trans ht.advance).trans hm.advance,
    hm.located hsound₂ (hhonest.imp_right Sight.Trusted.bounded), hm.honest hsound₂ hhonest, hready,
    ?_, fun q => (hm.domain_eq q).trans ((ht.domain_eq q).trans (hr.rematched.domain_eq q)),
    fun hb => hm.bounded hsound₂ (ht.bounded (hr.bounded h hb)), fun hg => ?_, fun htidy => ?_,
    fun hwhy => ?_, fun hwhy => ?_⟩
  · rw [hm.rest_eq, ht.rest_eq, hr.rest_eq]
  · have hg₁ := hr.grounded hg
    rw [hm.shown_eq, ht.shown_eq]
    exact hg₁
  · have htidy₁ := hr.tidy htidy
    rw [hm.shown_eq, ht.shown_eq]
    exact ⟨htidy₁.clean, htidy₁.kept, htidy₁.filled⟩
  · rw [hm.shown_eq, ht.shown_eq]
    exact hr.covered hpossible hwhy
  · rw [hm.shown_eq]
    exact hr.tagged hpossible ht hwhy

/-- What a pass does after the matching was repaired. -/
theorem filter_of_repair {repair : Repair} {p₁ : AllDifferent} {s₁ : Store}
    (hrepair : p.repair changes s = .ok (repair, p₁, s₁)) :
    p.filter changes s =
      if repair = .impossible then .ok (.failed .noMaximumMatching, false, p₁, s₁) else (do
        p₁.checkMatching s₁
        let retagged ← p₁.retag repair changes.touched.toList s₁
        let computed ← retagged.1.reach.compute retagged.1.graph retagged.2
        deduce { retagged.1 with reach := computed.2.1 } computed.2.2) := by
  rw [filter, hrepair, ok_bind]
  cases repair with
  | impossible => rfl
  | repaired => rfl
  | unchanged => rfl

/-- A pass either finds that there is no choice, or prepares the deductions, or fails in a check that
was asked for. -/
theorem filter_cases (h : p.Sound s) (changes : Changes)
    (htouched : ∀ x ∈ changes.touched, x < p.graph.varTotal)
    (hsane : (p.shown s).Sane (changes.matchingChanged = false)) :
    (∃ p' s', p.filter changes s = .ok (.failed .noMaximumMatching, false, p', s') ∧
      Advance p s p' s' ∧ (p'.shown s').Hopeless) ∨
    (∃ p' s', p.filter changes s = p'.deduce s' ∧ Prepared p s changes p' s') ∨
    p.options.checked = true ∧ CheckFails (p.filter changes s) ∧
      ¬ ((p.shown s).Grounded ∧ p.Kept s changes) := by
  obtain ⟨repair, p₁, s₁, hrepair, hr⟩ := repair_eq h changes
  have hfilter := filter_of_repair hrepair
  by_cases hpossible : repair = .impossible
  · refine Or.inl ⟨p₁, s₁, by rw [hfilter, if_pos hpossible], hr.advance, ?_⟩
    obtain hhopeless | ⟨hnot, _⟩ := hr.mended h hsane
    · exact hhopeless
    · exact absurd hpossible hnot
  rw [if_neg hpossible] at hfilter
  have hsound := hr.advance.sound
  have hchecked : p₁.options.checked = p.options.checked := by rw [hr.advance.options_eq]
  rw [hfilter]
  refine Or.inr ?_
  obtain hcheck | ⟨hc, hfails, hnot⟩ := checkMatching_cases hsound
  · rw [hcheck, ok_bind]
    obtain ⟨p₂, s₂, hretag, ht⟩ | ⟨hc, hfails, hsame, hnot⟩ :=
      retag_cases hsound repair changes.touched.toList fun x hx => by
        rw [hr.advance.alike.varTotal_eq]
        exact htouched x (Array.mem_toList_iff.1 hx)
    · obtain ⟨count, reach, s₃, hcompute, hm⟩ := compute_eq ht.advance.sound
      refine Or.inl ⟨{ p₂ with reach }, s₃, ?_, .of_marked h hsane hr hpossible ht hm⟩
      rw [hretag, ok_bind]
      dsimp only
      rw [hcompute, ok_bind]
    · refine Or.inr ⟨hchecked ▸ hc, hfails.bind _, fun hand => ?_⟩
      obtain ⟨hready, hunchanged⟩ := hr.unchanged_iff.1 hsame
      obtain ⟨rfl, rfl⟩ := hr.unchanged hsame
      exact hnot (hand.2 hready hunchanged).2
  · refine Or.inr ⟨hchecked ▸ hc, hfails.bind _, fun hand => hnot fun x hx => ?_⟩
    exact (hr.grounded hand.1).exists_mate (hr.covered hpossible hand.2.covered) hx

/-- What the deductions come to. -/
structure Deduced (p : AllDifferent) (s : Store) (verdict : Verdict) (more : Bool)
    (p' : AllDifferent) (s' : Store) : Prop where
  advance : Advance p s p' s'
  honest : (p'.shown s').Honest
  hopeless : verdict ≠ .consistent → (p'.shown s').Hopeless
  ready_eq : p'.ready = p.ready
  shown_eq : p'.shown s' = (p.shown s).narrow (p'.shown s').domains
  stale : verdict = .consistent → more = true → p'.Stale s'
  done : more = false → p'.work = p.work
  tidy : verdict = .consistent → ∀ {late}, (p.shown s).Tidy late →
    (p'.shown s').Tidy fun x => late x ∨ x ∈ p'.work.waiting
  filtered : more = false → ((p.shown s).graph.Covered → (p.shown s).Sharp) →
    (p'.shown s').Filtered
  alive : verdict = .consistent → s.Alive s'

/-- The deductions change nothing but domains. -/
theorem Deduced.bounded {more : Bool} (h : Deduced p s verdict more p' s')
    (hb : (p.shown s).graph.Bounded (p.shown s).limit) :
    (p'.shown s').graph.Bounded (p'.shown s').limit := by
  rw [h.shown_eq]
  exact hb

theorem Deduced.tagged {more : Bool} (h : Deduced p s verdict more p' s')
    (htagged : (p.shown s).Tagged) : (p'.shown s').Tagged := by
  rw [h.shown_eq]
  exact Sight.tagged_narrow.2 htagged

/-- The domains lose values only. -/
theorem Advance.shown_subset (h : Advance p s p' s') :
    ∀ x < (p.shown s).vars, (p'.shown s').domains x ⊆ (p.shown s).domains x := by
  intro x hx
  have hn := h.alike.varTotal_eq
  rw [shown_domains hx, shown_domains (hn ▸ hx)]
  exact h.domains_subset x

/-- The deductions do not touch grounded variables. -/
theorem Deduced.grounded {more : Bool} (h : Deduced p s verdict more p' s')
    (hg : (p.shown s).Grounded) : (p'.shown s').Grounded := by
  rw [h.shown_eq]
  exact hg.narrow h.advance.shown_subset

/-- When nothing follows, every edge belongs to a covering. -/
theorem filtered_of_no_removal (h : p.Sound s) (hl : p.Located s)
    (hsharp : (p.shown s).graph.Covered → (p.shown s).Sharp) (hnone : ∀ y a, ¬ p.Apart s y a) :
    (p.shown s).Filtered := by
  refine hl.exact.imp_right fun hexact hc => ?_
  refine h.shows.matched.exact hc fun y hy a hlive x hx ha => ?_
  by_contra hnot
  rw [not_or, not_or] at hnot
  obtain ⟨hne, hreached, htogether⟩ := hnot
  refine hnone y a ⟨hy, hlive, x, hx, fun hmark => hreached ((hexact hc x).1 hmark), ha,
    Ne.symm hne, fun heq => htogether ?_⟩
  exact (hsharp hc x hx y hy).1 heq.symm

/-- The deductions are found and carried out. -/
theorem deduce_eq (h : p.Sound s) (hl : p.Located s) (hhonest : (p.shown s).Honest) :
    ∃ verdict more p' s', p.deduce s = .ok (verdict, more, p', s') ∧
      Deduced p s verdict more p' s' := by
  obtain ⟨fixes, hfixes, hforced⟩ := shortcuts_eq h.toFitted h.shows.intact
  obtain ⟨removals, hremovals, hapart, _⟩ := prunable_eq h.toFitted h.shows.intact
  rw [deduce, hfixes, ok_bind, hremovals, ok_bind]
  by_cases hnone : (fixes.isEmpty && removals.isEmpty) = true
  · have hno : ∀ y a, ¬ p.Apart s y a := by
      intro y a hya
      rw [Bool.and_eq_true, List.isEmpty_iff, List.isEmpty_iff] at hnone
      have hmem := (hapart (y, p.graph.val a)).2 ⟨a, hya, rfl⟩
      rw [hnone.2] at hmem
      cases hmem
    rw [if_pos hnone]
    exact ⟨.consistent, false, p, s, rfl, .refl h, hhonest, fun hv => absurd rfl hv, rfl, rfl,
      nofun, fun _ => rfl, fun _ _ htidy => htidy.mono fun _ _ => Or.inl,
      fun _ hsharp => filtered_of_no_removal h hl hsharp hno, fun _ => .refl s⟩
  · rw [if_neg hnone]
    obtain ⟨verdict, p', s', hconclude, hc⟩ :=
      conclude_eq h hl hhonest hforced fun d hd => (hapart d).1 hd
    have hsub := hc.advance.shown_subset
    refine ⟨verdict, true, p', s', by rw [hconclude]; rfl, hc.advance, ?_, hc.hopeless,
      by rw [hc.rest_eq], hc.shown_eq, fun hv _ => hc.stale hv ?_, nofun,
      fun hv late htidy => ?_, nofun, hc.alive⟩
    · rw [hc.shown_eq]
      exact hhonest.narrow hsub
    · rw [Bool.and_eq_true, List.isEmpty_iff, List.isEmpty_iff, not_and_or] at hnone
      exact hnone
    · rw [hc.shown_eq]
      have hfilled := fun x hx => hc.advance.filled (hc.alive hv) (x := x) hx
      refine (htidy.narrow hsub hfilled).mono fun x hx hlate => hlate.imp_right fun hmoved => ?_
      by_contra hnot
      exact hmoved (hc.moved hv x hx hnot)

/-! ## Whole runs -/

/-- What a run comes to.  It began with all steps if it was `forced`, and after deductions if it is
`repeated`. -/
structure Outcome (forced repeated : Bool) (p : AllDifferent) (s : Store) (verdict : Verdict)
    (p' : AllDifferent) (s' : Store) : Prop where
  advance : Advance p s p' s'
  honest : (p'.shown s').Honest
  hopeless : verdict ≠ .consistent → (p'.shown s').Hopeless
  done : verdict = .consistent → p'.work = .empty
  ready : verdict = .consistent → p'.ready = true
  alive : verdict = .consistent → s.Alive s'
  grounded : verdict = .consistent → (p.shown s).Grounded → (p'.shown s').Grounded
  bounded : verdict = .consistent → (p.shown s).Grounded →
    (p.shown s).graph.Bounded (p.shown s).limit → (p'.shown s').graph.Bounded (p'.shown s').limit
  covered : verdict = .consistent → p.ready = false ∨ (p.shown s).graph.Covered →
    (p'.shown s').graph.Covered
  tagged : verdict = .consistent → p.ready = false ∨ (p.shown s).Tagged → (p'.shown s').Tagged
  settled : verdict = .consistent →
    ∀ {late}, (p.shown s).Tidy (fun x => late x ∨ x ∈ p.work.waiting) →
    p.ready = false ∨ (p.shown s).Tagged →
    (forced = false → repeated = false → (p.shown s).Filtered) → (p'.shown s').Settled late

/-- Nothing but domains has changed since the propagator was made or has run, and its matching was not
lost. -/
def Assured (p : AllDifferent) (s : Store) : Prop :=
  (p.shown s).Grounded ∧ (p.ready = false ∨ (p.shown s).graph.Covered ∧ (p.shown s).Sharp)

namespace Synchronized

/-- What is needed to tag the components in parts. -/
theorem kept (h : Synchronized p s .consistent changes p' s')
    (hwhy : p.ready = false ∨ (p.shown s).graph.Covered ∧ (p.shown s).Sharp) :
    p'.Kept s' changes := by
  intro hready hsame
  have hready' : p.ready = true := by rw [← hready, h.rest_eq]
  obtain hnot | ⟨hc, hsharp⟩ := hwhy
  · rw [hready'] at hnot
    cases hnot
  · exact ⟨(h.matching hsame).1 hc, h.traceable hsame hsharp⟩

/-- Tags that describe the components go on doing so, once they are brought up to date. -/
theorem kept_or_unmatched (h : Synchronized p s .consistent changes p' s')
    (hwhy : p.ready = false ∨ (p.shown s).Tagged) :
    p'.Kept s' changes ∨ (p'.shown s').Unmatched := by
  obtain hready | hsharp | hunmatched := hwhy
  · exact Or.inl (h.kept (Or.inl hready))
  · exact Or.inl (h.kept (Or.inr hsharp))
  · cases hchanged : changes.matchingChanged with
    | true => exact Or.inl fun _ hsame => by rw [hchanged] at hsame; cases hsame
    | false => exact Or.inr ((h.matching hchanged).2 hunmatched)

/-- The matching goes on covering the variables, unless a change of it was noted. -/
theorem covered (h : Synchronized p s verdict changes p' s')
    (hwhy : p.ready = false ∨ (p.shown s).graph.Covered) :
    p'.ready = false ∨ changes.matchingChanged = true ∨ (p'.shown s').graph.Covered := by
  obtain hready | hc := hwhy
  · exact Or.inl (by rw [h.rest_eq]; exact hready)
  · cases hchanged : changes.matchingChanged with
    | true => exact Or.inr (Or.inl rfl)
    | false => exact Or.inr (Or.inr ((h.matching hchanged).1 hc))

end Synchronized

/-- A run that fails. -/
theorem Outcome.of_failed {forced repeated : Bool} {why : Inconsistency} (h : Advance p s p' s')
    (hhopeless : (p'.shown s').Hopeless) : Outcome forced repeated p s (.failed why) p' s' :=
  ⟨h, Or.inl hhopeless, fun _ => hhopeless, nofun, nofun, nofun, nofun, nofun, nofun, nofun, nofun⟩

/-- A run in which nothing changed when the graph was brought in line. -/
theorem Outcome.of_same {repeated : Bool} (h : p.Sound s) (hhonest : (p.shown s).Honest)
    (hready : p.ready = true) (hstale : repeated = true → p.Stale s)
    (hsync : Synchronized p s .consistent changes p' s') (hempty : changes.isEmpty = true) :
    Outcome false repeated p s .consistent p' s' := by
  obtain ⟨hgraph, rfl⟩ := hsync.same hempty
  have hp' : p' = { p with work := p'.work } := by
    rw [hsync.rest_eq, hgraph]
  have hshown : p'.shown s' = p.shown s' := by rw [hp']; rfl
  have hran : ∀ {P : Prop}, p.ready = false ∨ P → P := fun hwhy =>
    hwhy.resolve_left fun hnot => by rw [hready] at hnot; cases hnot
  refine ⟨hsync.advance, by rw [hshown]; exact hhonest, fun hv => absurd rfl hv,
    fun _ => hsync.ran.done rfl, fun _ => by rw [hp']; exact hready,
    fun _ => hsync.alive, fun _ hg => by rw [hshown]; exact hg,
    fun _ _ hb => by rw [hshown]; exact hb, fun _ hwhy => by rw [hshown]; exact hran hwhy,
    fun _ hwhy => by rw [hshown]; exact hran hwhy, fun _ late htidy hwhy hfiltered => ?_⟩
  · have htidy' := hsync.tidy htidy
    rw [hshown] at htidy' ⊢
    refine ⟨htidy', hran hwhy, hfiltered rfl ?_⟩
    cases repeated with
    | false => rfl
    | true => exact absurd (hstale rfl) (hsync.not_stale hempty)

/-- A run in which the deductions are followed by the rest of the run, if there is one. -/
theorem Outcome.of_deduced {forced repeated more : Bool} {p₁ p₂ p₃ : AllDifferent}
    {s₁ s₂ s₃ : Store} (hsync : Synchronized p s .consistent changes p₁ s₁)
    (hprepared : Prepared p₁ s₁ changes p₂ s₂) (hdeduced : Deduced p₂ s₂ verdict more p₃ s₃)
    (hlast : verdict = .consistent → more = false) :
    Outcome forced repeated p s verdict p₃ s₃ := by
  have hgraph : (p₃.shown s₃).graph = (p₂.shown s₂).graph := by
    rw [hdeduced.shown_eq, Sight.narrow_graph]
  refine ⟨(hsync.advance.trans hprepared.advance).trans hdeduced.advance, hdeduced.honest,
    hdeduced.hopeless, fun hv => ?_, fun _ => hdeduced.ready_eq.trans hprepared.ready,
    fun hv => (hsync.alive.trans (.of_eq hprepared.domain_eq)).trans (hdeduced.alive hv),
    fun _ hg => hdeduced.grounded (hprepared.grounded (hsync.grounded hg)),
    fun _ hg hb => hdeduced.bounded (hprepared.bounded (hsync.bounded hg hb)),
    fun hv hwhy => ?_,
    fun _ hwhy => hdeduced.tagged (hprepared.tagged (hsync.kept_or_unmatched hwhy)),
    fun hv late htidy hwhy _ => ?_⟩
  · rw [hdeduced.done (hlast hv), hprepared.work_eq]
    exact hsync.ran.done rfl
  · rw [hgraph]
    exact hprepared.covered (hsync.covered hwhy)
  · have htagged := hprepared.tagged (hsync.kept_or_unmatched hwhy)
    have htidy₂ := hprepared.tidy (hsync.tidy htidy)
    have hwork : p₃.work = .empty := by
      rw [hdeduced.done (hlast hv), hprepared.work_eq]
      exact hsync.ran.done rfl
    refine ⟨(hdeduced.tidy hv htidy₂).mono fun x _ hx => hx.resolve_right fun hmem => ?_,
      hdeduced.tagged htagged, hdeduced.filtered (hlast hv) htagged.sharp⟩
    rw [hwork] at hmem
    cases hmem

/-- The rest of a run follows deductions that went well. -/
theorem Outcome.of_rest {forced repeated : Bool} {p₁ p₂ p₃ : AllDifferent} {s₁ s₂ s₃ : Store}
    (hsync : Synchronized p s .consistent changes p₁ s₁)
    (hprepared : Prepared p₁ s₁ changes p₂ s₂)
    (hdeduced : Deduced p₂ s₂ .consistent true p₃ s₃)
    (hrest : Outcome false true p₃ s₃ verdict p' s') :
    Outcome forced repeated p s verdict p' s' := by
  have hgraph : (p₃.shown s₃).graph = (p₂.shown s₂).graph := by
    rw [hdeduced.shown_eq, Sight.narrow_graph]
  have hgrounded : (p.shown s).Grounded → (p₃.shown s₃).Grounded := fun hg =>
    hdeduced.grounded (hprepared.grounded (hsync.grounded hg))
  have htagged : p.ready = false ∨ (p.shown s).Tagged → (p₃.shown s₃).Tagged := fun hwhy =>
    hdeduced.tagged (hprepared.tagged (hsync.kept_or_unmatched hwhy))
  refine ⟨((hsync.advance.trans hprepared.advance).trans hdeduced.advance).trans hrest.advance,
    hrest.honest, hrest.hopeless, hrest.done, hrest.ready,
    fun hv => ((hsync.alive.trans (.of_eq hprepared.domain_eq)).trans (hdeduced.alive rfl)).trans
      (hrest.alive hv), fun hv hg => hrest.grounded hv (hgrounded hg),
    fun hv hg hb => hrest.bounded hv (hgrounded hg)
      (hdeduced.bounded (hprepared.bounded (hsync.bounded hg hb))),
    fun hv hwhy => ?_, fun hv hwhy => hrest.tagged hv (Or.inr (htagged hwhy)),
    fun hv late htidy hwhy _ => hrest.settled hv
      (hdeduced.tidy rfl (hprepared.tidy (hsync.tidy htidy))) (Or.inr (htagged hwhy)) nofun⟩
  refine hrest.covered hv (Or.inr ?_)
  rw [hgraph]
  exact hprepared.covered (hsync.covered hwhy)

/-- What a run can rely on, the rest of it can. -/
theorem Assured.rest {p₁ p₂ p₃ : AllDifferent} {s₁ s₂ s₃ : Store} (h : p.Assured s)
    (hsync : Synchronized p s .consistent changes p₁ s₁)
    (hprepared : Prepared p₁ s₁ changes p₂ s₂)
    (hdeduced : Deduced p₂ s₂ .consistent true p₃ s₃) : p₃.Assured s₃ := by
  have hcovered := hprepared.covered (hsync.covered (h.2.imp_right And.left))
  have htagged := hprepared.tagged (Or.inl (hsync.kept h.2))
  refine ⟨hdeduced.grounded (hprepared.grounded (hsync.grounded h.1)), Or.inr ?_⟩
  rw [hdeduced.shown_eq]
  exact ⟨hcovered, Sight.sharp_narrow.2 (htagged.sharp hcovered)⟩

/-- A run ends, and if it does not end with a verdict, a check failed that was asked for.  Each
repetition costs an edge. -/
theorem run_cases : ∀ (fuel : Nat) (forced repeated : Bool) {p : AllDifferent} {s : Store},
    p.Sound s → (p.shown s).Honest → (forced = false → p.ready = true) →
    (repeated = true → p.Stale s) → p.edges s + (if repeated then 1 else 2) ≤ fuel →
    (∃ verdict p' s', run fuel forced repeated p s = .ok (verdict, p', s') ∧
      Outcome forced repeated p s verdict p' s') ∨
    p.options.checked = true ∧ CheckFails (run fuel forced repeated p s) ∧
      ¬ p.Assured s := by
  intro fuel
  induction fuel with
  | zero =>
    intro forced repeated p s _ _ _ _ hfuel
    cases repeated <;> simp at hfuel
  | succ fuel ih =>
    intro forced repeated p s h hhonest hforced hstale hfuel
    obtain ⟨verdict, changes, p₁, s₁, hsynchronize, hsync⟩ := synchronize_eq h
    have hsound₁ := hsync.advance.sound
    rw [run, h.graph.liveEdges_eq, ok_bind, hsynchronize, ok_bind]
    cases verdict with
    | failed why =>
      exact Or.inl ⟨_, p₁, s₁, rfl, .of_failed hsync.advance (hsync.hopeless nofun)⟩
    | consistent =>
      by_cases hsame : (!forced && changes.isEmpty) = true
      · rw [Bool.and_eq_true, Bool.not_eq_true'] at hsame
        obtain ⟨rfl, hempty⟩ := hsame
        refine Or.inl ⟨_, p₁, s₁, by simp only [hempty]; rfl, ?_⟩
        exact Outcome.of_same h hhonest (hforced rfl) hstale hsync hempty
      have hlt : repeated = true → p₁.edges s₁ < p.edges s :=
        fun hrepeated => hsync.edges_lt (hstale hrepeated)
      have hprogress : ¬ (repeated && decide (p.edges s ≤ p₁.edges s₁)) = true := by
        rw [Bool.and_eq_true, decide_eq_true_eq]
        rintro ⟨hrepeated, hle⟩
        exact absurd (hlt hrepeated) (Nat.not_lt.2 hle)
      dsimp only
      rw [if_neg hsame, hsound₁.graph.liveEdges_eq, ok_bind]
      rw [edges, edges] at hprogress
      rw [if_neg hprogress]
      have hoptions : p₁.options = p.options := hsync.advance.options_eq
      obtain ⟨p₂, s₂, hfilter, hadvance, hhopeless⟩ | ⟨p₂, s₂, hfilter, hprepared⟩ |
          ⟨hchecked, hfails, hnot⟩ :=
        filter_cases hsound₁ changes hsync.touched_lt (hsync.sane hhonest)
      · exact Or.inl ⟨.failed .noMaximumMatching, p₂, s₂, by rw [hfilter]; rfl,
          .of_failed (hsync.advance.trans hadvance) hhopeless⟩
      · obtain ⟨verdict, more, p₃, s₃, hdeduce, hdeduced⟩ :=
          deduce_eq hprepared.advance.sound hprepared.located hprepared.honest
        rw [hfilter, hdeduce, ok_bind]
        cases verdict with
        | failed why =>
          exact Or.inl ⟨_, p₃, s₃, rfl, .of_deduced hsync hprepared hdeduced (by simp)⟩
        | consistent =>
          cases more with
          | false =>
            exact Or.inl ⟨_, p₃, s₃, rfl, .of_deduced hsync hprepared hdeduced fun _ => rfl⟩
          | true =>
            have hle : p₃.edges s₃ ≤ p₁.edges s₁ :=
              (hprepared.advance.trans hdeduced.advance).edges_le
            have hle₁ := hsync.advance.edges_le
            have hleft : p₃.edges s₃ + (if true then 1 else 2) ≤ fuel := by
              cases repeated with
              | false => simp at hfuel ⊢; omega
              | true => have := hlt rfl; simp at hfuel ⊢; omega
            have hready : p₃.ready = true := hdeduced.ready_eq.trans hprepared.ready
            obtain ⟨verdict, p', s', hrest, houtcome⟩ | ⟨hchecked, hfails, hnot⟩ :=
              ih false true hdeduced.advance.sound hdeduced.honest
                (fun _ => hready) (fun _ => hdeduced.stale rfl rfl) hleft
            · exact Or.inl ⟨verdict, p', s', hrest, .of_rest hsync hprepared hdeduced houtcome⟩
            · refine Or.inr ⟨?_, hfails, fun hassured => ?_⟩
              · rw [← hchecked, (hprepared.advance.trans hdeduced.advance).options_eq, hoptions]
              · exact hnot (hassured.rest hsync hprepared hdeduced)
      · exact Or.inr ⟨hoptions ▸ hchecked, hfails.bind _, fun hassured =>
          hnot ⟨hsync.grounded hassured.1, hsync.kept hassured.2⟩⟩

/-! ## A propagator that is run -/

/-- The variable will be looked at in the next run. -/
def Late (p : AllDifferent) (x : Nat) : Prop := p.ready = false ∨ x ∈ p.work.waiting

/-- What a run of the propagator comes to. -/
structure Propagated (p : AllDifferent) (s : Store) (verdict : Verdict) (p' : AllDifferent)
    (s' : Store) : Prop where
  advance : Advance p s p' s'
  honest : (p'.shown s').Honest
  hopeless : verdict ≠ .consistent → (p'.shown s').Hopeless
  done : verdict = .consistent → p'.work = .empty
  ready : verdict = .consistent → p'.ready = true
  alive : verdict = .consistent → s.Alive s'
  grounded : verdict = .consistent → (p.shown s).Grounded → (p'.shown s').Grounded
  bounded : verdict = .consistent → (p.shown s).Grounded →
    (p.shown s).graph.Bounded (p.shown s).limit → (p'.shown s').graph.Bounded (p'.shown s').limit
  covered : verdict = .consistent → p.ready = false ∨ (p.shown s).graph.Covered →
    (p'.shown s').graph.Covered
  tagged : verdict = .consistent → p.ready = false ∨ (p.shown s).Tagged → (p'.shown s').Tagged
  settled : verdict = .consistent →
    ∀ {late}, (p.shown s).Tidy (fun x => late x ∨ p.Late x) →
    (p.ready = true → (p.shown s).Tagged ∧ (p.shown s).Filtered) → (p'.shown s').Settled late

/-- Other variables may wait. -/
theorem Advance.of_work (h : p.Sound s) {work : Worklist} (hnodup : work.waiting.Nodup)
    (hlt : ∀ x ∈ work.waiting, x < p.graph.varTotal) : Advance p s { p with work } s :=
  { Advance.refl h with
    sound := ⟨{ h.toFitted with work_nodup := hnodup, work_lt := hlt },
      { h.shows with }⟩ }

/-- Who waits when a run begins. -/
def alarm (p : AllDifferent) : Worklist :=
  if p.ready then p.work else p.work.pushAll (List.range p.graph.varTotal)

theorem propagate_eq_run (p : AllDifferent) (s : Store) :
    p.propagate s = run (Word.countBound + 2) (!p.ready) false { p with work := p.alarm } s := by
  obtain ⟨options, graph, matcher, tagging, reach, work, ready⟩ := p
  cases ready <;> rfl

theorem mem_alarm {x : Nat} (hx : x < p.graph.varTotal) : x ∈ p.alarm.waiting ↔ p.Late x := by
  rw [alarm, Late]
  cases hready : p.ready with
  | false => simp [Worklist.mem_pushAll, hx]
  | true => simp

theorem Advance.alarm (h : p.Sound s) : Advance p s { p with work := p.alarm } s := by
  rw [AllDifferent.alarm]
  split
  · exact .refl h
  · refine .of_work h (Worklist.nodup_pushAll h.work_nodup _) fun x hx => ?_
    obtain hx | hx := Worklist.mem_pushAll.1 hx
    · exact List.mem_range.1 hx
    · exact h.work_lt x hx

/-- The number of live edges is a count. -/
theorem Sound.edges_lt_countBound (h : p.Sound s) : p.edges s < Word.countBound := by
  have hle := edges_le p s
  have htotal := h.layout.edgeTotal_le
  unfold Word.greatest at htotal
  unfold Word.countBound
  omega

/-- A run of a propagator gives a verdict, unless a check fails that was asked for. -/
theorem propagate_cases (h : p.Sound s) (hhonest : (p.shown s).Honest) :
    (∃ verdict p' s', p.propagate s = .ok (verdict, p', s') ∧ Propagated p s verdict p' s') ∨
    p.options.checked = true ∧ CheckFails (p.propagate s) ∧ ¬ p.Assured s := by
  have hadvance := Advance.alarm h
  have hfuel : p.edges s + 2 ≤ Word.countBound + 2 :=
    Nat.add_le_add_right h.edges_lt_countBound.le 2
  rw [propagate_eq_run]
  obtain ⟨verdict, p', s', hrun, houtcome⟩ | ⟨hchecked, hfails, hnot⟩ :=
    run_cases _ (!p.ready) false hadvance.sound hhonest (fun hforced => by simpa using hforced)
      nofun hfuel
  · refine Or.inl ⟨verdict, p', s', hrun, hadvance.trans houtcome.advance, houtcome.honest,
      houtcome.hopeless, houtcome.done, houtcome.ready, houtcome.alive, houtcome.grounded,
      houtcome.bounded, houtcome.covered, houtcome.tagged, fun hv late htidy hwhy => ?_⟩
    refine houtcome.settled hv (htidy.mono fun x hx => Or.imp_right (mem_alarm hx).2) ?_
      fun hforced _ => ?_
    · cases hready : p.ready with
      | false => exact Or.inl rfl
      | true => exact Or.inr (hwhy hready).1
    · exact (hwhy (by simpa using hforced)).2
  · exact Or.inr ⟨hchecked, hfails, hnot⟩

end FiniteDomain.AllDifferent
