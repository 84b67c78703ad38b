import FiniteDomain.Proofs.AllDifferent.Nodes
import FiniteDomain.Proofs.AllDifferent.Room
import FiniteDomain.Proofs.Store.Twins

/-!
# Models that answer alike

Two models are twins if their stores are, and the same constraints were posted, listen to the same
conditions and are going to run.  The options of the constraints may differ, what the propagators
remember, and the order in which they run.

* `Model.Twins` relates the models.
* `Twins.listen` and `Twins.enlist`: what can be added to one can be added to the other.
* `Twins.fixpoint` is the confluence of one run: both fail, or both come to the same domains.  A
  run leaves the largest domains below those it began with that all constraints support, and these
  depend on nothing in which twins differ.
-/

namespace FiniteDomain

open AllDifferent ValueGraph

namespace AllDifferent

variable {s s' s₁ : Store} {vars : List Var} {options : Options} {p : AllDifferent}

/-! ## A propagator is made -/

/-- Nothing but cells was added. -/
structure MoreCells (s s' : Store) : Prop where
  definitions_eq : s'.definitions = s.definitions
  sets_eq : s'.trail.sets = s.trail.sets
  dense_eq : s'.trail.dense = s.trail.dense

theorem MoreCells.trans (h : MoreCells s s') (h' : MoreCells s' s₁) : MoreCells s s₁ :=
  ⟨h'.definitions_eq.trans h.definitions_eq, h'.sets_eq.trans h.sets_eq,
    h'.dense_eq.trans h.dense_eq⟩

theorem moreCells_newCell (s : Store) (v : Int) : MoreCells s (s.newCell v).2 := ⟨rfl, rfl, rfl⟩

theorem moreCells_newCells (s : Store) (values : List Int) :
    MoreCells s (s.newCells values).2 := by
  have main : ∀ (add : Array Cell × Store → Int → Array Cell × Store),
      (∀ cells s v, add (cells, s) v = (cells.push (s.newCell v).1, (s.newCell v).2)) →
      ∀ (cells : Array Cell) (s : Store), MoreCells s (values.foldl add (cells, s)).2 := by
    intro add hadd
    induction values with
    | nil => exact fun _ _ => ⟨rfl, rfl, rfl⟩
    | cons v rest ih =>
      intro cells s
      rw [List.foldl_cons, hadd]
      exact (moreCells_newCell s v).trans (ih _ _)
  exact main _ (fun _ _ _ => rfl) #[] s

theorem moreCells_new {vars : Array Var} (hret : new s vars options = .ok (p, s')) :
    MoreCells s s' := by
  obtain ⟨⟨g, s₁⟩, hbuild, hret⟩ := bind_eq_ok_iff.1 hret
  obtain ⟨d, _, hbuild⟩ := bind_eq_ok_iff.1 hbuild
  obtain ⟨edges, _, hbuild⟩ := bind_eq_ok_iff.1 hbuild
  obtain ⟨count, _, hbuild⟩ := bind_eq_ok_iff.1 hbuild
  cases hbuild
  cases hret
  exact (moreCells_newCells _ _).trans ((moreCells_newCell _ _).trans
    ((moreCells_newCell _ _).trans ((moreCells_newCells _ _).trans ((moreCells_newCells _ _).trans
      ((moreCells_newCells _ _).trans (moreCells_newCell _ _))))))

/-- What has to fit for a propagator. -/
structure Fits (s : Store) (vars : List Var) : Prop where
  readable : ∀ x ∈ vars, s.Readable x
  edges_le : ((vars.map fun x => (s.view x).card).sum : Int) ≤ Word.greatest
  vars_le : (vars.length : Int) ≤ Word.greatest

/-- The variables whose edges were added have their values in range. -/
theorem ValueGraph.Draft.readable_of_foldlM (hs : s.Sound)
    (hvars : ∀ x ∈ vars, x.index < s.definitions.size) {d d' : Draft}
    (hret : vars.foldlM (Draft.addVar s) d = .ok d') : ∀ x ∈ vars, s.Readable x := by
  induction vars generalizing d with
  | nil => exact fun x hx => absurd hx List.not_mem_nil
  | cons y rest ih =>
    rw [List.foldlM_cons] at hret
    obtain ⟨d₁, hadd, hret⟩ := bind_eq_ok_iff.1 hret
    rw [Draft.addVar] at hadd
    obtain ⟨_, _, hadd⟩ := bind_eq_ok_iff.1 hadd
    obtain ⟨_, hrow, _⟩ := bind_eq_ok_iff.1 hadd
    exact List.forall_mem_cons.2
      ⟨Store.readable_of_values hs (hvars y (List.mem_cons_self ..)) hrow,
        ih (fun x hx => hvars x (List.mem_cons_of_mem _ hx)) hret⟩

theorem new_fits (hs : s.Sound) (hvars : ∀ x ∈ vars, x.index < s.definitions.size)
    (hret : new s vars.toArray options = .ok (p, s')) : Fits s vars := by
  obtain ⟨⟨g, s₁⟩, hbuild, _⟩ := bind_eq_ok_iff.1 hret
  obtain ⟨d, hread, hbuild⟩ := bind_eq_ok_iff.1 hbuild
  obtain ⟨edges, hedges, hbuild⟩ := bind_eq_ok_iff.1 hbuild
  obtain ⟨count, hcount, _⟩ := bind_eq_ok_iff.1 hbuild
  rw [List.foldlM_toArray] at hread
  have hreadable := ValueGraph.Draft.readable_of_foldlM hs hvars hread
  obtain ⟨d', hread', hsize⟩ := Draft.exists_foldlM hs hvars hreadable Draft.empty
  cases hread.symm.trans hread'
  obtain ⟨hedges, _⟩ := Word.check_eq_ok_iff.1 hedges
  obtain ⟨hcount, _⟩ := Word.check_eq_ok_iff.1 hcount
  refine ⟨hreadable, ?_, ?_⟩
  · have hle := hedges.2
    rw [hsize, show Draft.empty.edgeVar.size = 0 from rfl, Nat.zero_add] at hle
    exact hle
  · simpa using hcount.2

end AllDifferent

variable {s s' s₁ s₁' : Store}

namespace Store.Twins

/-- A propagator can be made in both stores, whatever the options are. -/
theorem new {vars : List Var} {options : Options} {p : AllDifferent} (h : s.Twins s')
    (hs : s.Sound) (hs' : s'.Sound) (hvars : ∀ x ∈ vars, x.index < s.definitions.size)
    (hret : AllDifferent.new s vars.toArray options = .ok (p, s₁)) (options' : Options) :
    ∃ p' s₁', AllDifferent.new s' vars.toArray options' = .ok (p', s₁') ∧ s₁.Twins s₁' := by
  obtain ⟨hreadable, hedges, hlength⟩ := new_fits hs hvars hret
  have hvars' : ∀ x ∈ vars, x.index < s'.definitions.size := by
    rw [h.definitions_eq]
    exact hvars
  have hcards : vars.map (fun x => (s'.view x).card) = vars.map fun x => (s.view x).card := by
    simp only [h.view_eq]
  obtain ⟨p', s₁', hret'⟩ := exists_new options' hs' hvars'
    (fun x hx => h.readable_iff.2 (hreadable x hx)) (by rw [hcards]; exact hedges) hlength
  have hmore := moreCells_new hret
  have hmore' := moreCells_new hret'
  have hdefinitions : s₁'.definitions = s₁.definitions := by
    rw [hmore'.definitions_eq, hmore.definitions_eq, h.definitions_eq]
  refine ⟨p', s₁', hret', h.grown (new_eq hs (by simpa using hvars) hret).grown
    (new_eq hs' (by simpa using hvars') hret').grown hdefinitions ?_ ?_ fun q hq => ?_⟩
  · rw [hmore'.sets_eq, hmore.sets_eq, h.offsets_eq]
  · rw [hmore'.dense_eq, hmore.dense_eq, h.dense_size]
  · rw [← hmore.definitions_eq] at hq
    rw [domain_eq_empty hq, domain_eq_empty (hdefinitions ▸ hq)]

/-- A cell is written in each. -/
theorem wrote (h : s.Twins s') {c c' : Cell} {v v' : Int} (hw : s.Wrote s₁ c v)
    (hw' : s'.Wrote s₁' c' v') : s₁.Twins s₁' where
  definitions_eq := by rw [hw'.definitions_eq, hw.definitions_eq, h.definitions_eq]
  offsets_eq := by rw [hw'.sets_eq, hw.sets_eq, h.offsets_eq]
  dense_size := by rw [hw'.dense_size, hw.dense_size, h.dense_size]
  domain_eq q := by rw [hw'.domain_eq, hw.domain_eq, h.domain_eq]

end Store.Twins

theorem Store.Wrote.pending_iff' {c : Cell} {v : Int} (h : s.Wrote s₁ c v) (q : Var) :
    s₁.Pending q ↔ s.Pending q := by
  rw [h.pending_iff, h.domain_eq]
  exact or_iff_left fun hne => hne rfl

namespace Model

variable {m m' m₁ m₁' : Model AllDifferent} {c : Constraint} {vars : List Var}
  {options options' : Options}

/-! ## Twins -/

/-- The models answer alike. -/
structure Twins (m m' : Model AllDifferent) : Prop where
  store : m.store.Twins m'.store
  posted_eq : m'.posted = m.posted
  conditions_eq : m'.conditions = m.conditions
  pending_iff : ∀ q, m'.store.Pending q ↔ m.store.Pending q
  scheduled_iff : ∀ c, c ∈ m'.scheduled ↔ c ∈ m.scheduled

theorem mem_posted : vars ∈ m.posted ↔ ∃ p ∈ m.propagators, p.graph.vars.toList = vars := by
  simp [posted]

theorem posted_push {m m' : Model AllDifferent} {p : AllDifferent}
    (h : m'.propagators = m.propagators.push p) :
    m'.posted = m.posted ++ [p.graph.vars.toList] := by
  simp [posted, h]

/-- What supports what depends on the variables of the constraints alone. -/
theorem supports_of_posted (hposted : m'.posted = m.posted)
    (hpath : ∀ x, m'.store.path x = m.store.path x) {F : Var → Finset Int} (h : m.Supports F) :
    m'.Supports F := by
  intro p' hp'
  obtain ⟨p, hp, hvars⟩ := mem_posted.1 (hposted ▸ mem_posted.2 ⟨p', hp', rfl⟩)
  have hvars : p'.graph.vars = p.graph.vars := (Array.toList_inj.1 hvars).symm
  have hsupports := h p hp
  rw [ValueGraph.Supports, varTotal, hvars]
  refine Supported.congr hsupports fun x _ => ?_
  rw [views, views, varOf, varOf, hvars, Store.viewFrom, Store.viewFrom, hpath]

namespace Twins

theorem symm (h : Twins m m') : Twins m' m :=
  ⟨h.store.symm, h.posted_eq.symm, h.conditions_eq.symm, fun q => (h.pending_iff q).symm,
    fun c => (h.scheduled_iff c).symm⟩

theorem size_eq (h : Twins m m') : m'.propagators.size = m.propagators.size := by
  rw [← length_posted, h.posted_eq, length_posted]

theorem quiet (h : Twins m m') (hs : m.store.Sound) (hs' : m'.store.Sound) (hquiet : m.Quiet) :
    m'.Quiet := by
  refine ⟨Store.news_eq_nil hs' fun q hq => ?_, List.eq_nil_iff_forall_not_mem.2 fun c hc => ?_⟩
  · exact hquiet.not_pending hs q ((h.pending_iff q).1 hq)
  · have hc := (h.scheduled_iff c).1 hc
    rw [hquiet.2] at hc
    exact absurd hc List.not_mem_nil

theorem supports_iff (h : Twins m m') {F : Var → Finset Int} : m'.Supports F ↔ m.Supports F :=
  ⟨supports_of_posted h.symm.posted_eq h.symm.store.path_eq,
    supports_of_posted h.posted_eq h.store.path_eq⟩

theorem save (h : Twins m m') : Twins m.save m'.save where
  store := ⟨h.store.definitions_eq, h.store.offsets_eq, h.store.dense_size, h.store.domain_eq⟩
  posted_eq := h.posted_eq
  conditions_eq := h.conditions_eq
  pending_iff := h.pending_iff
  scheduled_iff := h.scheduled_iff

theorem schedule (h : Twins m m') (c : Constraint) : Twins (m.schedule c) (m'.schedule c) := by
  have hrest : ∀ m : Model AllDifferent,
      m.schedule c = { m with scheduled := (m.schedule c).scheduled } := by
    intro m
    rw [Model.schedule]
    split <;> rfl
  have hscheduled : ∀ d, d ∈ (m'.schedule c).scheduled ↔ d ∈ (m.schedule c).scheduled := by
    intro d
    rw [mem_schedule, mem_schedule, h.scheduled_iff]
  rw [hrest m, hrest m']
  exact ⟨h.store, h.posted_eq, h.conditions_eq, h.pending_iff, hscheduled⟩

/-- The stores grow. -/
theorem grow (h : Twins m m') (hg : m.store.Grown s) (hg' : m'.store.Grown s')
    (htwins : s.Twins s') : Twins { m with store := s } { m' with store := s' } where
  store := htwins
  posted_eq := h.posted_eq
  conditions_eq := h.conditions_eq
  pending_iff q := by rw [hg'.pending_iff, hg.pending_iff, h.pending_iff]
  scheduled_iff := h.scheduled_iff

/-- A variable can be added to the other. -/
theorem declare (h : Twins m m') (hs : m.store.Sound) (hs' : m'.store.Sound) {d : Declaration}
    (hd : d.Valid m.store) {x : Var} (hret : m.onStore (·.declare d) = .ok (x, m₁)) :
    ∃ m₁', m'.onStore (·.declare d) = .ok (x, m₁') ∧ Twins m₁ m₁' := by
  obtain ⟨s, hdeclare, rfl⟩ := onStore_eq_ok_iff.1 hret
  obtain ⟨s', hdeclare', htwins⟩ := h.store.declare hs hs' hd hdeclare
  exact ⟨_, onStore_eq_ok_iff.2 ⟨s', hdeclare', rfl⟩,
    h.grow (Declaration.declare_grown hs hd hdeclare)
      (Declaration.declare_grown hs' (h.store.valid hd) hdeclare') htwins⟩

/-- A domain can be narrowed in the other, with the same answer. -/
theorem attempt (h : Twins m m') (hs : m.store.Sound) (hs' : m'.store.Sound) {a : Attempt}
    {verdict : Verdict} (hret : m.onStore (·.attempt a) = .ok (verdict, m₁)) :
    ∃ m₁', m'.onStore (·.attempt a) = .ok (verdict, m₁') ∧ Twins m₁ m₁' := by
  obtain ⟨s, hattempt, rfl⟩ := onStore_eq_ok_iff.1 hret
  obtain ⟨s', hattempt', htwins⟩ := h.store.attempt hs hs' hattempt
  obtain ⟨_, _, _, _, hshrinks, _⟩ := Store.attempt_spec hs hattempt
  obtain ⟨_, _, _, _, hshrinks', _⟩ := Store.attempt_spec hs' hattempt'
  refine ⟨_, onStore_eq_ok_iff.2 ⟨s', hattempt', rfl⟩, htwins, h.posted_eq, h.conditions_eq,
    fun q => ?_, h.scheduled_iff⟩
  dsimp only
  rw [hshrinks'.pending_iff, hshrinks.pending_iff, h.pending_iff, htwins.domain_eq,
    h.store.domain_eq]

/-! ## Constraints are added -/

/-- A propagator can be posted to the other. -/
theorem post (h : Twins m m') (hm : m.Tallied) (hm' : m'.Tallied) {p p' : AllDifferent}
    (hvars : p'.graph.vars = p.graph.vars) (hret : m.post p = .ok (c, m₁)) :
    ∃ m₁', m'.post p' = .ok (c, m₁') ∧ Twins m₁ m₁' := by
  obtain ⟨s, hwrote, rfl, rfl, htallied⟩ := hm.post_eq hret
  have hle := htallied.propagators_le
  rw [Array.size_push] at hle
  obtain ⟨⟨c', m₁'⟩, hret'⟩ := hm'.exists_post (by rw [h.size_eq]; omega) p'
  obtain ⟨s', hwrote', rfl, rfl, _⟩ := hm'.post_eq hret'
  rw [h.size_eq] at hret'
  refine ⟨_, hret', h.store.wrote hwrote hwrote', ?_, h.conditions_eq, fun q => ?_,
    h.scheduled_iff⟩
  · refine (posted_push (m := m') rfl).trans (Eq.trans ?_ (posted_push (m := m) rfl).symm)
    rw [h.posted_eq, hvars]
  · dsimp only
    rw [hwrote'.pending_iff', hwrote.pending_iff', h.pending_iff]

/-- A constraint can be made to listen in the other. -/
theorem listen (h : Twins m m') (hm : m.Tallied) (hm' : m'.Tallied)
    (hc : c.index < m.propagators.size) {kind : Condition.Kind} {x : Var}
    (hx : x.index < m.store.definitions.size) (hret : m.listen c kind x = .ok m₁) :
    ∃ m₁', m'.listen c kind x = .ok m₁' ∧ Twins m₁ m₁' := by
  obtain ⟨y, hy, htallied, hcases⟩ := hm.listen_cases hc hret
  have hy' : m'.store.source x = .ok y := by rw [h.store.source_eq, hy]
  obtain ⟨hmem, rfl⟩ | ⟨s, hwrote, rfl⟩ := hcases
  · have hmem' : c ∈ m'.listening ⟨kind, y⟩ := by
      rw [hm'.listening_iff, h.conditions_eq]
      exact hmem
    refine ⟨m', ?_, h⟩
    rw [Model.listen, hy', ok_bind, if_pos hmem']
    rfl
  · have hle := htallied.conditions_le
    rw [Array.size_push] at hle
    obtain ⟨m₁', hret', _⟩ := hm'.exists_listen c kind (x := x)
      (by rw [h.store.definitions_eq]; exact hx) (by rw [h.conditions_eq]; omega)
    refine ⟨m₁', hret', ?_⟩
    obtain ⟨y', hy'', _, hcases⟩ := hm'.listen_cases (by rw [h.size_eq]; exact hc) hret'
    cases hy'.symm.trans hy''
    obtain ⟨hmem, _⟩ | ⟨s', hwrote', rfl⟩ := hcases
    · have hnodup := htallied.conditions_nodup
      rw [Array.toList_push] at hnodup
      rw [h.conditions_eq] at hmem
      exact absurd hmem fun hmem => (List.nodup_append.1 hnodup).2.2 _ hmem.val _
        (List.mem_singleton.2 rfl) rfl
    · refine ⟨h.store.wrote hwrote hwrote', h.posted_eq, ?_, fun q => ?_, h.scheduled_iff⟩
      · dsimp only
        rw [h.conditions_eq]
      · dsimp only
        rw [hwrote'.pending_iff', hwrote.pending_iff', h.pending_iff]

theorem listenAll (h : Twins m m') (hm : m.Guarded) (hm' : m'.Guarded)
    (hc : c.index < m.propagators.size) (hvars : ∀ x ∈ vars, x.index < m.store.definitions.size)
    (hret : listenAll c vars m = .ok m₁) :
    ∃ m₁', Model.listenAll c vars m' = .ok m₁' ∧ Twins m₁ m₁' := by
  induction vars generalizing m m' with
  | nil =>
    cases hret
    exact ⟨m', rfl, h⟩
  | cons x rest ih =>
    rw [Model.listenAll] at hret
    obtain ⟨m₂, hlisten, hret⟩ := bind_eq_ok_iff.1 hret
    obtain ⟨m₂', hlisten', htwins⟩ := h.listen hm.toTallied hm'.toTallied hc
      (hvars x (List.mem_cons_self ..)) hlisten
    obtain ⟨hextends, hsame, _⟩ := hm.listen_eq hc hlisten
    have hc' : c.index < m'.propagators.size := by rw [h.size_eq]; exact hc
    obtain ⟨m₁', hret', htwins'⟩ := ih htwins hextends.guarded (hm'.listen hc' hlisten')
      (by rw [hsame]; exact hc)
      (fun y hy => Nat.lt_of_lt_of_le (hvars y (List.mem_cons_of_mem _ hy)) hextends.definitions_le)
      hret
    refine ⟨m₁', ?_, htwins'⟩
    rw [Model.listenAll, hlisten', ok_bind]
    exact hret'

/-- A constraint on the same variables can be added to the other. -/
theorem add (h : Twins m m') (hm : m.Guarded) (hm' : m'.Guarded)
    (hvars : ∀ x ∈ vars, x.index < m.store.definitions.size)
    (hret : m.add vars options = .ok (c, m₁)) (options' : Options) :
    ∃ m₁', m'.add vars options' = .ok (c, m₁') ∧ Twins m₁ m₁' := by
  obtain ⟨⟨p, m₂⟩, hnew, hpost⟩ := bind_eq_ok_iff.1 hret
  obtain ⟨s, hmade, rfl⟩ := onStore_eq_ok_iff.1 hnew
  obtain ⟨p', s', hnew', htwins⟩ := h.store.new hm.store hm'.store hvars hmade options'
  have hvars' : ∀ x ∈ vars, x.index < m'.store.definitions.size := by
    rw [h.store.definitions_eq]
    exact hvars
  have hcreated := new_eq hm.store (by simpa using hvars) hmade
  have hcreated' := new_eq hm'.store (by simpa using hvars') hnew'
  have hgrow := h.grow hcreated.grown hcreated'.grown htwins
  obtain ⟨m₁', hpost', htwins'⟩ := hgrow.post (hm.toTallied.of_grown hcreated.grown)
    (hm'.toTallied.of_grown hcreated'.grown) (hcreated'.vars_eq.trans hcreated.vars_eq.symm) hpost
  refine ⟨m₁', ?_, htwins'⟩
  rw [Model.add, onStore_eq_ok_iff.2 ⟨s', hnew', rfl⟩, ok_bind]
  exact hpost'

theorem attach (h : Twins m m') (hm : m.Guarded) (hm' : m'.Guarded)
    (hvars : ∀ x ∈ vars, x.index < m.store.definitions.size)
    (hret : m.attach vars options = .ok (c, m₁)) (options' : Options) :
    ∃ m₁', m'.attach vars options' = .ok (c, m₁') ∧ Twins m₁ m₁' := by
  obtain ⟨⟨c', m₂⟩, hadd, hret⟩ := bind_eq_ok_iff.1 hret
  obtain ⟨m₃, hlisten, hret⟩ := bind_eq_ok_iff.1 hret
  cases hret
  obtain ⟨m₂', hadd', htwins⟩ := h.add hm hm' hvars hadd options'
  obtain ⟨p, s, hadded⟩ := hm.add_eq hvars hadd
  have hvars' : ∀ x ∈ vars, x.index < m'.store.definitions.size := by
    rw [h.store.definitions_eq]
    exact hvars
  obtain ⟨p', s', hadded'⟩ := hm'.add_eq hvars' hadd'
  obtain ⟨m₁', hlisten', htwins'⟩ := htwins.listenAll hadded.guarded hadded'.guarded
    (by rw [hadded.constraint_eq, hadded.model_eq, Array.size_push]; exact Nat.lt_succ_self _)
    (fun x hx => by
      rw [hadded.wrote.definitions_eq, hadded.created.definitions_eq]
      exact hvars x hx) hlisten
  refine ⟨m₁', ?_, htwins'⟩
  rw [Model.attach, hadd', ok_bind]
  dsimp only
  rw [hlisten', ok_bind]
  rfl

/-- A constraint on the same variables can be added to the other and scheduled. -/
theorem enlist (h : Twins m m') (hm : m.Guarded) (hm' : m'.Guarded)
    (hvars : ∀ x ∈ vars, x.index < m.store.definitions.size)
    (hret : m.enlist id vars options = .ok m₁) (options' : Options) :
    ∃ m₁', m'.enlist id vars options' = .ok m₁' ∧ Twins m₁ m₁' := by
  rw [enlist_eq] at hret
  obtain ⟨⟨c, m₂⟩, hattach, hret⟩ := bind_eq_ok_iff.1 hret
  cases hret
  obtain ⟨m₂', hattach', htwins⟩ := h.attach hm hm' hvars hattach options'
  refine ⟨_, ?_, htwins.schedule c⟩
  rw [enlist_eq, hattach', ok_bind]

/-! ## Runs -/

/-- A run that does not fail leaves no more than the run of the other does. -/
theorem domain_subset (h : Twins m m') (hm : m.Poised (fun _ => False) m.scheduled)
    (hm' : m'.Poised (fun _ => False) m'.scheduled) (hret : m.fixpoint = .ok (.consistent, m₁)) :
    ∃ m₁', m'.fixpoint = .ok (.consistent, m₁') ∧
      ∀ q, m₁.store.domain q ⊆ m₁'.store.domain q := by
  have hfollows := (hm.toGuarded.fixpoint_obeys hret).toFollows
  obtain ⟨m₂, hret₂, hpoised, hquiet⟩ | ⟨why, m₂, hret₂⟩ := hm.fixpoint_cases
  swap
  · cases hret.symm.trans hret₂
  cases hret.symm.trans hret₂
  -- All constraints support the domains that the run leaves, those of the other model too.
  have hsupports : m'.Supports m₁.store.domain :=
    h.supports_iff.2 (hfollows.supports_iff.1 (hpoised.supports hquiet))
  have hsub : ∀ q, m₁.store.domain q ⊆ m'.store.domain q := by
    intro q
    rw [h.store.domain_eq]
    exact hfollows.narrowed.subset q
  obtain ⟨m₁', hret', _⟩ | ⟨why, m₁', hret'⟩ := hm'.fixpoint_cases
  · exact ⟨m₁', hret', (hm'.toGuarded.fixpoint_obeys hret').keeps _ hsupports hsub⟩
  · have hobeys := hm'.toGuarded.fixpoint_obeys hret'
    obtain ⟨p, hp, hhopeless⟩ := hobeys.hopeless (by simp)
    obtain ⟨φ, hφ⟩ := (hobeys.supports_iff.2 hsupports p hp).exists_choice
    refine absurd (hφ.mono fun x hx => ?_) (hhopeless φ)
    rw [shown_domains hx]
    exact views_mono (hobeys.keeps _ hsupports hsub) x

/-- Runs of twins both fail, or leave the same domains. -/
theorem fixpoint (h : Twins m m') (hm : m.Poised (fun _ => False) m.scheduled)
    (hm' : m'.Poised (fun _ => False) m'.scheduled) :
    (∃ m₁ m₁', m.fixpoint = .ok (.consistent, m₁) ∧ m'.fixpoint = .ok (.consistent, m₁') ∧
      Twins m₁ m₁') ∨
    ∃ why why' m₁ m₁', m.fixpoint = .ok (.failed why, m₁) ∧
      m'.fixpoint = .ok (.failed why', m₁') := by
  obtain ⟨m₁, hret, _, hquiet⟩ | ⟨why, m₁, hret⟩ := hm.fixpoint_cases
  · obtain ⟨m₁', hret', hsub⟩ := h.domain_subset hm hm' hret
    obtain ⟨_, hret₂, hsub'⟩ := h.symm.domain_subset hm' hm hret'
    cases hret.symm.trans hret₂
    have hfollows := (hm.toGuarded.fixpoint_obeys hret).toFollows
    have hfollows' := (hm'.toGuarded.fixpoint_obeys hret').toFollows
    obtain ⟨_, hret₂, _, hquiet'⟩ | ⟨_, _, hret₂⟩ := hm'.fixpoint_cases
    swap
    · cases hret'.symm.trans hret₂
    cases hret'.symm.trans hret₂
    refine Or.inl ⟨m₁, m₁', hret, hret', ?_, ?_, ?_, fun q => ?_, fun c => ?_⟩
    · exact h.store.narrowed hfollows.narrowed hfollows'.narrowed fun q =>
        Finset.Subset.antisymm (hsub' q) (hsub q)
    · rw [hfollows'.posted_eq, hfollows.posted_eq, h.posted_eq]
    · rw [hfollows'.rest_eq, hfollows.rest_eq]
      exact h.conditions_eq
    · exact iff_of_false (hquiet'.not_pending hfollows'.guarded.store q)
        (hquiet.not_pending hfollows.guarded.store q)
    · rw [hquiet.2, hquiet'.2]
  · obtain ⟨m₁', hret', _⟩ | ⟨why', m₁', hret'⟩ := hm'.fixpoint_cases
    · obtain ⟨_, hret₂, _⟩ := h.symm.domain_subset hm' hm hret'
      cases hret.symm.trans hret₂
    · exact Or.inr ⟨why, why', m₁, m₁', hret, hret'⟩

end Twins

end Model

end FiniteDomain
