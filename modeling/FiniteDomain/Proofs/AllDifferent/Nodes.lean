import FiniteDomain.Proofs.AllDifferent.Driving
import FiniteDomain.Proofs.AllDifferent.Hints
import FiniteDomain.Proofs.Model.Decisions
import FiniteDomain.Proofs.Model.Searching

/-!
# The nodes of a search with all different constraints

At every node of a search the propagators are settled and nothing happens, whichever levels were saved
and restored before.

* `Calm` says so.  `Calm.enters_cases` leads from a node to its branches, and `Calm.restored` back.
* `Poised.supports` and `Poised.domain_eq_of_free` say which domains a run leaves, and
  `Poised.alive_of_fixpoint` that none of them is empty that was not so before.
* `Search.Node` is what is known of a node, and `Search.Node.nodes` that it is enough for a search.
-/

namespace FiniteDomain

open AllDifferent ValueGraph

namespace Model

variable {m m' m₁ : Model AllDifferent} {s : Store} {late : Nat → Prop} {verdict : Verdict}

/-! ## Constraints -/

/-- The variables of the constraints. -/
def posted (m : Model AllDifferent) : List (List Var) :=
  m.propagators.toList.map fun p => p.graph.vars.toList

theorem length_posted (m : Model AllDifferent) : m.posted.length = m.propagators.size := by
  rw [posted, List.length_map, Array.length_toList]

theorem posted_congr (hsize : m'.propagators.size = m.propagators.size)
    (hvars : ∀ (i : Nat) (p' : AllDifferent), m'.propagators[i]? = some p' →
      ∃ p, m.propagators[i]? = some p ∧ p'.graph.vars = p.graph.vars) : m'.posted = m.posted := by
  refine List.ext_getElem? fun i => ?_
  rw [posted, posted, List.getElem?_map, List.getElem?_map, Array.getElem?_toList,
    Array.getElem?_toList]
  cases hp' : m'.propagators[i]? with
  | none => rw [Array.getElem?_eq_none (hsize ▸ Array.getElem?_eq_none_iff.1 hp')]
  | some p' =>
    obtain ⟨p, hp, hsame⟩ := hvars i p' hp'
    rw [hp, Option.map_some, Option.map_some, hsame]

theorem Follows.posted_eq (h : Follows m m') : m'.posted = m.posted :=
  posted_congr h.size_eq fun _ _ hp' => by
    obtain ⟨p, hp, halike, _⟩ := h.back hp'
    exact ⟨p, hp, halike.vars_eq⟩

theorem Guarded.posted_restore (h : m.Guarded) (hret : m.restore = .ok m')
    (hsize : m'.propagators.size = m.propagators.size) : m'.posted = m.posted := by
  obtain ⟨_, _, _, _, _, _, _, _, _, _, _, hback⟩ := h.restore_eq hret
  refine posted_congr hsize fun i p' hp' => ?_
  obtain ⟨_, p, hp, rfl, _⟩ := hback i p' hp'
  exact ⟨p, hp, rfl⟩

theorem Follows.sameBelow (h : Follows m m') : SameBelow m m' :=
  ⟨.of_narrowed h.narrowed, by rw [h.rest_eq], by rw [h.rest_eq], by rw [h.rest_eq], h.size_eq,
    by rw [h.rest_eq]⟩

/-! ## What a run leaves -/

namespace Poised

/-- The domains that a run leaves are supported. -/
theorem supports (h : m.Poised (fun _ => False) []) (hquiet : m.Quiet) :
    m.Supports m.store.domain := by
  intro p hp
  obtain ⟨i, hi, rfl⟩ := Array.mem_iff_getElem.1 hp
  exact h.supported hquiet (Array.getElem?_eq_getElem hi) id

/-- The domain of a variable that no constraint is about stays as it is. -/
theorem domain_eq_of_free (h : m'.Poised (fun _ => False) []) (hquiet : m'.Quiet)
    (hfollows : Follows m m') {q : Var} (hfree : ∀ p ∈ m'.propagators, ∀ x < p.graph.varTotal,
      p.graph.sourceOf x ≠ q) : m'.store.domain q = m.store.domain q := by
  classical
  let F : Var → Finset Int := Function.update m'.store.domain q (m.store.domain q)
  have hsub : ∀ r, F r ⊆ m.store.domain r := by
    intro r
    by_cases hr : r = q
    · subst hr
      exact (Function.update_self ..).subset
    · exact (Function.update_of_ne hr ..).subset.trans (hfollows.narrowed.subset r)
  have hsupports : m'.Supports F := by
    intro p hp
    obtain ⟨i, hi, rfl⟩ := Array.mem_iff_getElem.1 hp
    have hanchored := (h.guarded i _ (Array.getElem?_eq_getElem hi)).anchored
    exact (h.supports hquiet _ hp).congr fun x hx =>
      hanchored.views_congr hx (Function.update_of_ne (hfree _ hp x hx) ..)
  have hkept : F q ⊆ m'.store.domain q :=
    hfollows.keeps F (hfollows.supports_iff.1 hsupports) hsub q
  have hself : F q = m.store.domain q := Function.update_self ..
  exact (hfollows.narrowed.subset q).antisymm (hself ▸ hkept)

/-- A run that does not fail leaves no domain empty that was not so before. -/
theorem alive_of_fixpoint (h : m.Poised (fun _ => False) m.scheduled)
    (hret : m.fixpoint = .ok (.consistent, m')) : m.store.Alive m'.store := by
  intro q hq
  obtain ⟨m₁, hret', hm', hquiet⟩ | ⟨why, m₁, hret'⟩ := h.fixpoint_cases
  swap
  · cases hret.symm.trans hret'
  cases hret.symm.trans hret'
  by_cases hfree : ∀ p ∈ m'.propagators, ∀ x < p.graph.varTotal, p.graph.sourceOf x ≠ q
  · rwa [hm'.domain_eq_of_free hquiet (h.toGuarded.fixpoint_obeys hret).toFollows hfree]
  · simp only [not_forall, not_not] at hfree
    obtain ⟨p, hp, x, hx, rfl⟩ := hfree
    obtain ⟨φ, hφ⟩ := (hm'.supports hquiet p hp).exists_choice
    obtain ⟨i, hi, rfl⟩ := Array.mem_iff_getElem.1 hp
    have hanchored := (hm'.guarded i _ (Array.getElem?_eq_getElem hi)).anchored
    obtain ⟨r, hr, _⟩ := (hanchored.mem_views hx).1 (hφ.mem x hx)
    exact Finset.ne_empty_of_mem hr

end Poised

/-! ## Calm models -/

/-- The propagators are settled, now and on the levels below, and nothing happens. -/
structure Calm (m : Model AllDifferent) : Prop extends Poised (fun _ => False) [] m where
  secured : m.Secured fun _ _ => False
  quiet : m.Quiet

namespace Calm

theorem save (h : m.Calm) : m.save.Calm where
  toTended := h.toTended.save h.quiet
  firm := h.firm.save h.toGuarded
  secured := h.secured.save h.toGuarded fun _ _ hp => Or.inl (h.firm.covered hp)
  quiet := h.quiet

/-- After a run that did not fail, a model is calm. -/
theorem of_fixpoint (h : m.Poised (fun _ => False) m.scheduled)
    (hsecured : m.Secured fun _ _ => False) (hret : m.fixpoint = .ok (.consistent, m')) :
    m'.Calm := by
  obtain ⟨m₁, hret', hm', hquiet⟩ | ⟨why, m₁, hret'⟩ := h.fixpoint_cases
  · cases hret.symm.trans hret'
    exact ⟨hm', (Kept.fixpoint hsecured h hret).secured, hquiet⟩
  · cases hret.symm.trans hret'

/-- A calm model stays calm when a level is restored that was changed after it was saved. -/
theorem restored (hm₁ : m₁.Recoverable) (hsecured : m₁.Secured fun _ _ => False)
    (hret : m₁.restore = .ok m') : m'.Calm := by
  obtain ⟨htended, hquiet⟩ := hm₁.restore hret
  obtain ⟨hsecured, hfirm⟩ := hsecured.restore hm₁.toGuarded (fun _ _ _ => False.elim) hret
  exact ⟨⟨htended, hfirm⟩, hsecured, hquiet⟩

variable {x : Var} {P : Int → Prop} {b : Base}

/-- The values of a variable are limited on a level of its own, and the propagators are about to
run. -/
theorem limited (h : m.Calm) (hl : m.save.store.Limits x P b s) :
    ∀ m₁ : Model AllDifferent, m₁ = { m.save with store := s } →
      m₁.Poised (fun _ => False) m₁.scheduled ∧ m₁.Secured fun _ _ => False := by
  rintro _ rfl
  have hsave := h.save
  have hscheduled : ({ m.save with store := s } : Model AllDifferent).scheduled = [] := h.quiet.2
  rw [hscheduled]
  exact ⟨⟨hsave.toTended.narrow hl.evolves hl.alive, hsave.firm.narrow hsave.toGuarded hl.evolves⟩,
    hsave.secured.continue hsave.toTallied (hsave.continues_of_evolves hl.evolves)⟩

/-- What becomes of a branch. -/
theorem enters_cases (h : m.Calm)
    {narrow : Model AllDifferent → Except Fault (Verdict × Model AllDifferent)}
    (henters : Search.Enters narrow x P m) : ∃ b s, m.save.store.Limits x P b s ∧
      ∃ verdict m₁, Search.attempt narrow m.save = .ok (verdict, m₁) ∧
        Obeys { m.save with store := s } verdict m₁ ∧ m.save.SameBelow m₁ ∧
        m₁.Recoverable ∧ (m₁.Secured fun _ _ => False) ∧
        (verdict = .consistent → m₁.Calm ∧ s.Alive m₁.store) := by
  obtain ⟨b, s, hl, hattempt⟩ := henters
  obtain ⟨hpoised, hsecured⟩ := h.limited hl _ rfl
  refine ⟨b, s, hl, ?_⟩
  rw [hattempt]
  have hanswer : ∃ verdict m₁,
      ({ m.save with store := s } : Model AllDifferent).fixpoint = .ok (verdict, m₁) := by
    obtain ⟨m₁, hret, _⟩ | ⟨why, m₁, hret⟩ := hpoised.fixpoint_cases
    · exact ⟨_, _, hret⟩
    · exact ⟨_, _, hret⟩
  obtain ⟨verdict, m₁, hret⟩ := hanswer
  have hobeys := hpoised.toGuarded.fixpoint_obeys hret
  have hbelow : m.save.SameBelow { m.save with store := s } :=
    .of_narrowed (.of_evolves h.save.store hl.evolves)
  refine ⟨verdict, m₁, hret, hobeys, hbelow.trans hobeys.sameBelow,
    hpoised.recoverable_of_fixpoint hret, (Kept.fixpoint hsecured hpoised hret).secured, ?_⟩
  rintro rfl
  exact ⟨.of_fixpoint hpoised hsecured hret, hpoised.alive_of_fixpoint hret⟩

/-- What is known of a decision. -/
theorem decide?_spec {q : Search} {v : Int} (h : m.Calm)
    (hvars : ∀ x ∈ q.vars, x.index < m.store.definitions.size)
    (hret : q.decide? m = .ok (some (x, v))) :
    m.store.Splits x v ∧ m.store.Reads x v ∧
      (x ∈ q.vars ∨ ∃ p ∈ m.propagators, x ∈ p.graph.vars) := by
  obtain ⟨hnone, _⟩ | ⟨y, w, heq, hsplits, hwhy⟩ := Search.decide?_spec h.store hvars hret
  · cases hnone
  cases heq
  obtain ⟨hmem, hreads⟩ | ⟨hint, hhint, rfl, rfl⟩ := hwhy
  · exact ⟨hsplits, hreads, Or.inl hmem⟩
  · obtain ⟨answer, hanswer, hapt⟩ := h.toGuarded.hint?_eq
    obtain rfl := Except.ok.inj (hhint.symm.trans hanswer)
    have hapt := hapt hint rfl
    exact ⟨hsplits, hapt.reads, Or.inr hapt.named⟩

end Calm

end Model

/-! ## Nodes -/

namespace Search

variable {q : Search} {root m m' m₁ : Model AllDifferent}

/-- The variables that a search decides on exist, and have values. -/
structure Suits (q : Search) (m : Model AllDifferent) : Prop where
  vars_lt : ∀ x ∈ q.vars, x.index < m.store.definitions.size
  nonempty : ∀ x ∈ q.vars, m.store.view x ≠ ∅

/-- The sizes tell that variables exist and have values. -/
theorem suits_of_sizes {sizes : List Nat} (h : m.store.Sound)
    (hret : q.vars.mapM m.store.size = .ok sizes) (hpos : 0 ∉ sizes) : q.Suits m := by
  have hlt : ∀ x ∈ q.vars, x.index < m.store.definitions.size := by
    intro x hx
    obtain ⟨_, _, hn⟩ := exists_of_mapM_eq_ok hret hx
    exact Store.lt_of_size hn
  refine ⟨hlt, fun x hx => ?_⟩
  obtain ⟨n, hmem, hn⟩ := exists_of_mapM_eq_ok hret hx
  obtain rfl := Except.ok.inj ((Store.size_eq h (hlt x hx)).symm.trans hn)
  intro hempty
  rw [hempty, Finset.card_empty] at hmem
  exact hpos hmem

/-- The values of the decision variables can be carried along their paths. -/
def Reads (q : Search) (m : Model AllDifferent) : Prop := ∀ x ∈ q.vars, m.store.Readable x

/-- What is known of a node of a search that began with the model `root`. -/
structure Node (q : Search) (root m : Model AllDifferent) : Prop extends Model.Calm m, Suits q m where
  posted_eq : m.posted = root.posted
  definitions_eq : m.store.definitions = root.store.definitions
  reads : q.Reads root → q.Reads m

/-- What is known wherever a level can be restored. -/
structure Open (root m : Model AllDifferent) : Prop extends Model.Recoverable m where
  secured : m.Secured fun _ _ => False
  posted_eq : m.posted = root.posted

namespace Node

/-- A branch is entered, and comes to a lighter node or fails. -/
theorem opens (h : q.Node root m) {x : Var} {P : Int → Prop}
    {narrow : Model AllDifferent → Except Fault (Verdict × Model AllDifferent)}
    (henters : Enters narrow x P m) :
    Opens (q.Node root) (Open root) (fun _ => ¬ q.Reads root) narrow m := by
  obtain ⟨b, s, hl, verdict, m₁, hret, hobeys, hbelow, hrecoverable, hsecured, hcalm⟩ :=
    h.toCalm.enters_cases henters
  have hposted : m₁.posted = root.posted := hobeys.posted_eq.trans h.posted_eq
  have hsub : ∀ q, m₁.store.domain q ⊆ m.save.store.domain q := fun q =>
    (hobeys.narrowed.subset q).trans (hl.evolves.subset q)
  cases verdict with
  | failed why =>
    exact Or.inr (Or.inl ⟨why, m₁, hret, ⟨hrecoverable, hsecured, hposted⟩, hbelow.keeps⟩)
  | consistent =>
    obtain ⟨hcalm, halive⟩ := hcalm rfl
    refine Or.inl ⟨m₁, hret, ⟨hcalm, ⟨fun y hy => ?_, fun y hy => ?_⟩, hposted,
      hbelow.store.definitions_eq.trans h.definitions_eq, fun hroot y hy => ?_⟩, hbelow.keeps, ?_⟩
    · rw [hbelow.store.definitions_eq]
      exact h.vars_lt y hy
    · exact (hl.alive.trans halive).view (hbelow.store.path_eq y) (h.nonempty y hy)
    · exact hbelow.store.readable hsub (h.reads hroot y hy)
    · exact Nat.lt_of_le_of_lt (Store.weight_le (by rw [hobeys.narrowed.definitions_eq])
        hobeys.narrowed.subset) hl.weight_lt

/-- A node is taken up again. -/
theorem restored (h : q.Node root m) (hm₁ : Open root m₁) (hkeeps : m.save.Keeps m₁)
    (hret : m₁.restore = .ok m') : q.Node root m' := by
  obtain ⟨m₂, hret', _, hresumed⟩ := h.toTallied.resumes hm₁.toTallied hkeeps
  cases hret.symm.trans hret'
  have hsize : m'.propagators.size = m₁.propagators.size := by
    rw [hresumed.size_eq, ← Model.length_posted, ← Model.length_posted, h.posted_eq, hm₁.posted_eq]
  refine ⟨.restored hm₁.toRecoverable hm₁.secured hret, ⟨fun x hx => ?_, fun x hx => ?_⟩,
    (hm₁.posted_restore hret hsize).trans hm₁.posted_eq,
    hresumed.store.definitions_eq.trans h.definitions_eq,
    fun hroot x hx => hresumed.resumed.readable_iff.2 (h.reads hroot x hx)⟩
  · rw [hresumed.store.definitions_eq]
    exact h.vars_lt x hx
  · rw [hresumed.resumed.view_eq]
    exact h.nonempty x hx

/-- This is all a search needs to know of its nodes. -/
theorem nodes {ρ : Type} (q : Search) (root : Model AllDifferent) (observe : Model AllDifferent → ρ) :
    Nodes q (fun m => .ok (observe m)) (q.Node root) (Open root) fun _ => ¬ q.Reads root where
  tallied h := h.toTallied
  node h := ⟨h.toRecoverable, h.secured, h.posted_eq⟩
  saves h := ⟨h.toCalm.save, ⟨h.vars_lt, h.nonempty⟩, h.posted_eq, h.definitions_eq, h.reads⟩
  decides {m} h := by
    cases hdecide : q.decide? m with
    | error fault =>
      refine Or.inl ⟨fault, rfl, fun hroot => ?_⟩
      obtain ⟨hint, hhint, hapt⟩ := h.toGuarded.hint?_eq
      obtain ⟨decision, hdecide'⟩ := exists_decide? h.store
        (fun x hx => ⟨h.vars_lt x hx, h.reads hroot x hx⟩) hhint
        fun hint' heq => ⟨(hapt hint' heq).index_lt, (hapt hint' heq).reads⟩
      cases hdecide.symm.trans hdecide'
    | ok decision =>
      cases decision with
      | none => exact Or.inr (Or.inl rfl)
      | some pair =>
        obtain ⟨x, v⟩ := pair
        obtain ⟨hsplits, hreads, _⟩ := h.toCalm.decide?_spec h.vars_lt hdecide
        refine Or.inr (Or.inr ⟨x, v, rfl, fun m' hresumed hm' => ?_⟩)
        obtain ⟨hleft, hright⟩ := enters hm'.store (hsplits.resumed hresumed.resumed)
          (hresumed.store.reads_iff.2 hreads)
        exact ⟨hm'.opens hleft, hm'.opens hright⟩
  observes _ := Or.inl ⟨_, rfl⟩
  restores h hm₁ hkeeps hret := h.restored hm₁ hkeeps hret

/-- The first run leads to the first node, if it does not fail. -/
theorem of_fixpoint (h : m.Poised (fun _ => False) m.scheduled)
    (hsecured : m.Secured fun _ _ => False) (hsuits : q.Suits m)
    (hret : m.fixpoint = .ok (.consistent, m')) : q.Node m m' := by
  have hfollows := (h.toGuarded.fixpoint_obeys hret).toFollows
  have hbelow := hfollows.sameBelow.store
  refine ⟨.of_fixpoint h hsecured hret, ⟨fun x hx => ?_, fun x hx => ?_⟩, hfollows.posted_eq,
    hbelow.definitions_eq, fun hreads x hx => hbelow.readable hfollows.narrowed.subset (hreads x hx)⟩
  · rw [hbelow.definitions_eq]
    exact hsuits.vars_lt x hx
  · exact (h.alive_of_fixpoint hret).view (hbelow.path_eq x) (hsuits.nonempty x hx)

end Node

/-- A search gets a tally if the values of the decision variables can be carried along their paths.
Either the first run failed, or the tally is what the nodes come to. -/
theorem solve_cases {ρ : Type} {observe : Model AllDifferent → ρ}
    {P : Model AllDifferent → Tally ρ → Bool → Tally ρ → Prop}
    (h : m.Poised (fun _ => False) m.scheduled) (hsecured : m.Secured fun _ _ => False)
    (hsuits : q.Suits m) (hP : Recounts q (fun m => .ok (observe m)) (q.Node m) P) :
    (q.Reads m → ∃ answer, q.solve (fun m => .ok (observe m)) m = .ok answer) ∧
      ∀ t m'', q.solve (fun m => .ok (observe m)) m = .ok (t, m'') →
        (∃ why m', m.fixpoint = .ok (.failed why, m') ∧ t = Tally.zero.failed) ∨
        ∃ m' stop, m.fixpoint = .ok (.consistent, m') ∧ P m'.save .zero stop t ∧
          m'.Resumed m'' := by
  obtain ⟨m', hret, _⟩ | ⟨why, m', hret⟩ := h.fixpoint_cases
  · obtain ⟨t, m'', stop, hsolve, hrecount, hresumed, _⟩ | ⟨fault, hsolve, hunread⟩ :=
      (Node.nodes q m observe).solve_cases hP hret (.of_fixpoint h hsecured hsuits hret)
    · refine ⟨fun _ => ⟨_, hsolve⟩, fun t' m₂ hsolve' => Or.inr ?_⟩
      cases hsolve.symm.trans hsolve'
      exact ⟨m', stop, hret, hrecount, hresumed⟩
    · exact ⟨fun hreads => absurd hreads hunread, fun t' m₂ hsolve' =>
        nomatch hsolve.symm.trans hsolve'⟩
  · have hsolve : q.solve (fun m => .ok (observe m)) m = .ok (Tally.zero.failed, m') := by
      rw [solve, hret, ok_bind]
      rfl
    refine ⟨fun _ => ⟨_, hsolve⟩, fun t' m₂ hsolve' => Or.inl ?_⟩
    cases hsolve.symm.trans hsolve'
    exact ⟨why, m', hret, rfl⟩

end Search

end FiniteDomain
