import FiniteDomain.Proofs.AllDifferent.Creation

/-!
# A propagator through all levels

`Guarded` holds of a propagator from the moment it is made, whatever happens to its store: it is sound
and honest now and in the frames of the past in which there was the propagator, those that are
`seen`.  What the propagator showed in such a frame it shows until the level is restored.

* What the propagator does itself: `Guarded.advance`, `Guarded.notify`.
* What others do: `Guarded.of_evolves`, `Guarded.of_grown`.
* Levels: `Guarded.save`, `Guarded.restored`.  At first there is no frame that is seen:
  `Created.guarded`.
-/

namespace FiniteDomain.AllDifferent

open ValueGraph

variable {p p' : AllDifferent} {s s' : Store} {w : Frame} {seen : Frame → Prop}

/-- The propagator is sound and honest, now and in the frames that are `seen`, and there was more in
the graph in older frames. -/
structure Guarded (p : AllDifferent) (s : Store) (seen : Frame → Prop) : Prop
    extends Sound p s where
  honest : (p.shown s).Honest
  past : ∀ w ∈ s.trail.past, seen w → p.Shows s w ∧ (p.sight s w).Honest
  above : ∀ w ∈ s.trail.past, seen w → Above (p.graph.now s) (p.graph.registers w)
  nested : s.trail.past.Pairwise fun newer older => seen newer → seen older →
    Above (p.graph.registers newer) (p.graph.registers older)

/-- In the frames of the past that are seen the propagators show the same. -/
def Recalls (p : AllDifferent) (s : Store) (p' : AllDifferent) (s' : Store)
    (seen : Frame → Prop) : Prop :=
  ∀ w ∈ s'.trail.past, seen w → p'.sight s' w = p.sight s w

/-- A propagator that ran has looked at all that waited.  The rest is still pending. -/
theorem Propagated.settled_pending (h : Propagated p s .consistent p' s')
    (hsettled : (p.shown s).Settled fun x =>
      x ∈ p.work.waiting ∨ s.Pending (p.graph.sourceOf x)) :
    (p'.shown s').Settled fun x => s'.Pending (p'.graph.sourceOf x) := by
  have htidy : (p.shown s).Tidy fun x => s.Pending (p.graph.sourceOf x) ∨ p.Late x :=
    hsettled.toTidy.mono fun x _ hlate => hlate.symm.imp_right Or.inr
  refine (h.settled rfl htidy fun _ => ⟨hsettled.tagged, hsettled.filtered⟩).mono
    fun x _ hpending => ?_
  rw [h.advance.alike.sourceOf_eq]
  exact (h.advance.evolves.pending_iff _).2 (Or.inl hpending)

namespace Guarded

/-! ## What the propagator does -/

/-- A run of the propagator. -/
theorem advance (h : p.Guarded s seen) (ha : Advance p s p' s') (hhonest : (p'.shown s').Honest) :
    p'.Guarded s' seen ∧ Recalls p s p' s' seen := by
  have hpast : s'.trail.past = s.trail.past := ha.evolves.past_eq
  have hsame : ∀ w ∈ s.trail.past, seen w → p'.sight s' w = p.sight s w ∧ p'.Shows s' w :=
    fun w hw hseen => ha.past h.toFitted hw (h.above w hw hseen) (h.past w hw hseen).1
  refine ⟨⟨ha.sound, hhonest, fun w hw hseen => ?_, fun w hw hseen => ?_, ?_⟩,
    fun w hw hseen => (hsame w (hpast ▸ hw) hseen).1⟩
  · rw [hpast] at hw
    refine ⟨(hsame w hw hseen).2, ?_⟩
    rw [(hsame w hw hseen).1]
    exact (h.past w hw hseen).2
  · rw [hpast] at hw
    rw [ha.alike.registers_eq]
    exact ha.below.trans (h.above w hw hseen)
  · rw [hpast, ha.alike.registers_eq]
    exact h.nested

/-- Other variables wait. -/
theorem of_work (h : p.Guarded s seen) {work : Worklist} (hnodup : work.waiting.Nodup)
    (hlt : ∀ x ∈ work.waiting, x < p.graph.varTotal) :
    ({ p with work } : AllDifferent).Guarded s seen :=
  (h.advance (.of_work h.toSound hnodup hlt) h.honest).1

/-! ## What others do -/

/-- The store was replaced, and the frames of the past are those that there were. -/
theorem of_carries (h : p.Guarded s seen) (hc : Carries p s s') (hsound : p.Sound s')
    (hhonest : (p.shown s').Honest) (hpast : s'.trail.past = s.trail.past)
    (hnow : p.graph.now s' = p.graph.now s) (hvars : ∀ w, s'.varsIn w = s.varsIn w)
    (hdom : ∀ w ∈ s.trail.past, ∀ q : Var, q.index < s.varsIn w →
      s'.domainIn w q = s.domainIn w q) : p.Guarded s' seen ∧ Recalls p s p s' seen := by
  have hsame : ∀ w ∈ s.trail.past, seen w → p.sight s' w = p.sight s w := by
    intro w hw hseen
    refine h.toFitted.sight_eq hc fun x hx => hdom w hw _ ?_
    exact h.toFitted.source_lt hx ((h.past w hw hseen).1.vars_lt x hx)
  refine ⟨⟨hsound, hhonest, fun w hw hseen => ?_, fun w hw hseen => ?_, hpast ▸ h.nested⟩,
    fun w hw hseen => hsame w (hpast ▸ hw) hseen⟩
  · rw [hpast] at hw
    obtain ⟨hshows, hold⟩ := h.past w hw hseen
    refine ⟨hshows.congr (hsame w hw hseen) (hvars w).ge, ?_⟩
    rw [hsame w hw hseen]
    exact hold
  · rw [hpast] at hw
    rw [hnow]
    exact h.above w hw hseen

/-- Others narrow domains and write cells of their own. -/
theorem of_evolves {C : Cell → Prop} (h : p.Guarded s seen) (he : Store.Evolves C s s')
    (hC : ∀ c, p.Owns c → ¬ C c) :
    p.Guarded s' seen ∧ Recalls p s p s' seen ∧
      p.shown s' = (p.shown s).narrow (p.shown s').domains := by
  obtain ⟨hsound, hshown⟩ := h.toSound.of_evolves he hC
  have hget : ∀ c, p.Owns c → s'.trail.now.get c = s.trail.now.get c :=
    fun c hc => he.get_eq c (h.free hc).not_isSetCell (hC c hc)
  have hhonest : (p.shown s').Honest := by
    rw [hshown]
    exact h.honest.narrow fun x hx => domains_subset_of_evolves he hx
  obtain ⟨hguarded, hrecalls⟩ := h.of_carries (.of_evolves h.toFitted he) hsound hhonest he.past_eq
    (registers_congr hget) he.varsIn_eq fun w hw q hq => he.domainIn_past h.store hw hq
  exact ⟨hguarded, hrecalls, hshown⟩

/-- Where the view of a variable changed, its primitive variable did. -/
theorem domain_ne (h : p.Guarded s seen) {x : Nat} (hx : x < p.graph.varTotal)
    (hpath : s'.path (p.graph.varOf x) = s.path (p.graph.varOf x))
    (hne : (p.shown s').domains x ≠ (p.shown s).domains x) :
    s'.domain (p.graph.sourceOf x) ≠ s.domain (p.graph.sourceOf x) := by
  intro heq
  obtain ⟨b, hsource, hb⟩ := h.anchored.source_eq x hx
  refine hne ?_
  have hsource' : (s'.path (p.graph.varOf x)).source = .ok b := by
    rw [hpath]
    exact hsource
  rw [shown_domains hx, shown_domains hx, domains_eq, domains_eq, Store.view, Store.view,
    Store.viewIn_eq hsource, Store.viewIn_eq hsource', hpath, hb]
  show (s'.domain _).image _ = (s.domain _).image _
  rw [heq]

/-- A settled propagator has to look at the variables whose primitive variables lost values. -/
theorem settled_narrow {C : Cell → Prop} (h : p.Guarded s seen) (he : s.Evolves C s')
    (hC : ∀ c, p.Owns c → ¬ C c) (halive : s.Alive s') {late : Nat → Prop}
    (hsettled : (p.shown s).Settled late) :
    (p.shown s').Settled fun x =>
      late x ∨ s'.domain (p.graph.sourceOf x) ≠ s.domain (p.graph.sourceOf x) := by
  have hshown := (h.of_evolves he hC).2.2
  have hnarrow := hsettled.narrow (D := (p.shown s').domains)
    (fun x hx => domains_subset_of_evolves he hx) fun x hx hne => by
      rw [shown_domains hx, domains_eq] at hne ⊢
      exact halive.view (he.path_eq _) hne
  rw [← hshown] at hnarrow
  exact hnarrow.mono fun x hx => Or.imp_right (h.domain_ne hx (he.path_eq _))

/-- Others write a cell of their own. -/
theorem of_wrote (h : p.Guarded s seen) {c : Cell} {v : Int} (hw : s.Wrote s' c v)
    (hc : ¬ p.Owns c) : p.Guarded s' seen ∧ Recalls p s p s' seen ∧ p.shown s' = p.shown s := by
  obtain ⟨hguarded, hrecalls, hshown⟩ :=
    h.of_evolves hw.toEvolves fun d ho (heq : d = c) => hc (heq ▸ ho)
  have hdom : p.graph.domains s' = p.graph.domains s :=
    domains_congr (.refl _) hw.path_eq hw.domain_eq
  refine ⟨hguarded, hrecalls, hshown.trans (Sight.ext rfl rfl rfl ?_ rfl rfl)⟩
  funext x
  show (if x < p.graph.varTotal then p.graph.domains s' x else ∅) = _
  rw [hdom]
  rfl

/-- Others add variables and cells. -/
theorem of_grown (h : p.Guarded s seen) (hg : Store.Grown s s') :
    p.Guarded s' seen ∧ Recalls p s p s' seen ∧ p.shown s' = p.shown s := by
  obtain ⟨hsound, hshown⟩ := h.toSound.of_grown hg
  have hget : ∀ c, p.Owns c → s'.trail.now.get c = s.trail.now.get c :=
    fun c hc => hg.get_eq c (h.has hc) (h.free hc)
  obtain ⟨hguarded, hrecalls⟩ := h.of_carries (.of_grown h.toFitted hg) hsound
    (by rw [hshown]; exact h.honest) hg.past_eq (registers_congr hget) hg.varsIn_eq hg.past_domain
  exact ⟨hguarded, hrecalls, hshown⟩

/-- The events are cleared. -/
theorem clearEvents (h : p.Guarded s seen) :
    p.Guarded s.clearEvents seen ∧ ∀ w, p.sight s.clearEvents w = p.sight s w := by
  have hcarries : Carries p s s.clearEvents :=
    ⟨h.store.clearEvents, fun _ hc => h.has hc,
      fun c hc => ⟨(h.free hc).not_isSetCell, (h.free hc).ne_varCount, (h.free hc).ne_eventCount⟩,
      h.anchored.var_lt, fun _ _ => rfl, fun _ _ _ hv => hv⟩
  have hsame : ∀ w, p.sight s.clearEvents w = p.sight s w :=
    fun w => h.toFitted.sight_eq hcarries fun _ _ => rfl
  have hsound : p.Sound s.clearEvents :=
    ⟨h.toFitted.carry hcarries, h.shows.congr (hsame _) (Nat.le_refl _)⟩
  exact ⟨(h.of_carries hcarries hsound (by rw [shown, hsame]; exact h.honest) rfl rfl
    (fun _ => rfl) fun _ _ _ _ => rfl).1, hsame⟩

/-! ## Levels -/

/-- A level is saved.  The present becomes a frame of the past. -/
theorem save (h : p.Guarded s seen) :
    p.Guarded s.save seen ∧ (∀ w, p.sight s.save w = p.sight s w) ∧
      s.save.trail.past = s.trail.now :: s.trail.past ∧ s.save.trail.now = s.trail.now := by
  obtain ⟨hnow, hpast, _⟩ := Trail.save_eq h.store.trail.tracked
  have hnow : s.save.trail.now = s.trail.now := hnow
  have hpast : s.save.trail.past = s.trail.now :: s.trail.past := hpast
  have hcarries := Carries.of_save h.toFitted
  have hsame : ∀ w, p.sight s.save w = p.sight s w :=
    fun w => h.toFitted.sight_eq hcarries fun _ _ => rfl
  have hshows : ∀ {w}, p.Shows s w → p.Shows s.save w :=
    fun hshows => hshows.congr (hsame _) (Nat.le_refl _)
  have habove : Above (p.graph.now s) (p.graph.now s) := .refl _
  refine ⟨⟨⟨h.toFitted.carry hcarries, ?_⟩, ?_, fun w hw hseen => ?_, fun w hw hseen => ?_, ?_⟩,
    hsame, hpast, hnow⟩
  · rw [hnow]
    exact hshows h.shows
  · rw [shown, hsame, hnow]
    exact h.honest
  · rw [hsame]
    rw [hpast] at hw
    obtain rfl | hw := List.mem_cons.1 hw
    · exact ⟨hshows h.shows, h.honest⟩
    · exact ⟨hshows (h.past w hw hseen).1, (h.past w hw hseen).2⟩
  · rw [now, hnow]
    rw [hpast] at hw
    obtain rfl | hw := List.mem_cons.1 hw
    · exact .refl _
    · exact h.above w hw hseen
  · rw [hpast, List.pairwise_cons]
    exact ⟨fun w hw _ hseen => h.above w hw hseen, h.nested⟩

/-- A level is restored in which there was the propagator. -/
theorem restored (h : p.Guarded s seen) {rest : List Frame} (hpast : s.trail.past = w :: rest)
    (hr : Store.Restored s s' w rest) (hseen : seen w) :
    p.onRestore.Guarded s' seen ∧ p.onRestore.shown s' = p.sight s w ∧
      Recalls p s p.onRestore s' seen := by
  have hmem : ∀ {w'}, w' ∈ w :: rest → w' ∈ s.trail.past := fun hw => hpast ▸ hw
  obtain ⟨hshows, hhonest⟩ := h.past w (hmem (List.mem_cons_self ..)) hseen
  have hframes : w ∈ s.trail.frames := List.mem_cons_of_mem _ (hmem (List.mem_cons_self ..))
  have hcarries := Carries.of_restored h.toFitted hr hframes hshows
  have hsame : ∀ w' ∈ w :: rest, seen w' → p.sight s' w' = p.sight s w' := by
    intro w' hw' hseen'
    refine h.toFitted.sight_eq hcarries fun x hx => hr.domainIn_eq w' hw' _ ?_
    exact h.toFitted.source_lt hx ((h.past w' (hmem hw') hseen').1.vars_lt x hx)
  have hvars : ∀ w', s'.varsIn w' = s.varsIn w' := fun w' => by
    rw [Store.varsIn, Store.varsIn, hr.varCount_eq]
  have hshown : p.shown s' = p.sight s w := by
    rw [shown, hr.now_eq]
    exact hsame w (List.mem_cons_self ..) hseen
  have hkeep : ∀ w' ∈ w :: rest, seen w' → p.Shows s' w' := fun w' hw' hseen' =>
    (h.past w' (hmem hw') hseen').1.congr (hsame w' hw' hseen') (hvars w').ge
  have hnested := h.nested
  rw [hpast, List.pairwise_cons] at hnested
  have hguarded : p.Guarded s' seen := by
    refine ⟨⟨h.toFitted.carry hcarries, ?_⟩, ?_, fun w' hw' hseen' => ?_, fun w' hw' hseen' => ?_, ?_⟩
    · rw [hr.now_eq]
      exact hkeep w (List.mem_cons_self ..) hseen
    · rw [hshown]
      exact hhonest
    · rw [hr.past_eq] at hw'
      have hw' := List.mem_cons_of_mem w hw'
      refine ⟨hkeep w' hw' hseen', ?_⟩
      rw [hsame w' hw' hseen']
      exact (h.past w' (hmem hw') hseen').2
    · rw [hr.past_eq] at hw'
      rw [now, hr.now_eq]
      exact hnested.1 w' hw' hseen hseen'
    · rw [hr.past_eq]
      exact hnested.2
  refine ⟨hguarded.of_work List.nodup_nil fun _ hx => absurd hx List.not_mem_nil, hshown,
    fun w' hw' hseen' => ?_⟩
  rw [hr.past_eq] at hw'
  exact hsame w' (List.mem_cons_of_mem w hw') hseen'

end Guarded

/-- A propagator that was just made was not there in the past. -/
theorem Created.guarded {vars : Array Var} {options : Options} (h : Created s vars options p s')
    (hseen : ∀ w ∈ s.trail.past, ¬ seen w) : p.Guarded s' seen := by
  have hpast := h.grown.past_eq
  refine ⟨h.sound, h.honest, fun w hw hw' => ?_, fun w hw hw' => ?_, ?_⟩
  · exact absurd hw' (hseen w (hpast ▸ hw))
  · exact absurd hw' (hseen w (hpast ▸ hw))
  · rw [hpast]
    exact List.pairwise_of_forall_mem_list fun w hw _ _ hw' => absurd hw' (hseen w hw)

end FiniteDomain.AllDifferent
