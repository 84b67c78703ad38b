import FiniteDomain.Proofs.Trail.Restoration
import FiniteDomain.Proofs.Model.Traces

/-!
# A search gives the model back

A search saves a level before each decision and restores it after the branch, however the branch
ends: at a solution, with a failure of the decision or of the propagators, or because enough
solutions are found.

* `Search.survey` is a search with the nodes of its trace: the decisions that lead to a node, and the
  number of levels there.
* `Model.Back` relates the models before and after a part of a search; `Model.Orderly.back` is about
  one level, and `Search.traceNode_walked` about all that is explored below a node.
* `Model.Reachable.gives_back` is the result.
-/

namespace FiniteDomain

variable {π ρ : Type}

/-- What a search comes to, and the nodes that it enters on the way. -/
def Search.survey [Propagator π] (q : Search) (observe : Model π → Except Fault ρ) (m : Model π) :
    Except Fault ((Tally ρ × Model π) × List Search.Visit) :=
  (fun r => (r, (q.trace observe m).moments.filterMap Moment.visit?)) <$>
    (q.trace observe m).outcome

/-! ## Levels are restored -/

namespace Trail

variable {t t' : Trail}

theorem read_congr (h : t'.now = t.now) (c : Cell) : t'.read c = t.read c := by
  have hvalue : ∀ t : Trail, t.read c = fetch t.now.values c.index := by
    intro t
    rw [read, fetch, fetch, now, Array.getElem?_map]
    cases t.cells[c.index]? <;> rfl
  rw [hvalue, hvalue, h]

/-- The size and the bounds of a set are read in cells. -/
theorem card_congr (h : t'.now = t.now) (hsets : t'.sets = t.sets) (id : SetId) :
    t'.card id = t.card id := by
  unfold card describe readCount
  simp only [hsets, read_congr h]

theorem bound?_congr (h : t'.now = t.now) (hsets : t'.sets = t.sets) (side : Side) (id : SetId) :
    t'.bound? side id = t.bound? side id := by
  cases side <;> simp only [bound?, least?, greatest?, describe, hsets, read_congr h]

end Trail

namespace Store

variable {s s' : Store}

theorem Keeps.depth_eq (h : s.Keeps s') : s'.trail.depth = s.trail.depth := by
  rw [← Trail.length_past, ← Trail.length_past, h.past_eq]

namespace Resumed

theorem size_eq (h : s.Resumed s') (x : Var) : s'.size x = s.size x := by
  unfold size
  simp only [h.path_eq, Trail.card_congr h.now_eq h.sets_eq]

theorem bound?_eq (h : s.Resumed s') (side : Side) (x : Var) :
    s'.bound? side x = s.bound? side x := by
  unfold bound?
  simp only [h.path_eq, Trail.bound?_congr h.now_eq h.sets_eq]

end Resumed

end Store

open Tame

namespace Model

variable [Propagator π] {m m₀ m₁ m₂ m' m'' : Model π} {n k : Nat}

theorem Told.trans (h : Told m n m') (h' : Told m' k m'') : Told m (n + k) m'' := by
  intro i p hp
  obtain ⟨p', hp', hlived⟩ := h i p hp
  obtain ⟨p'', hp'', hlived'⟩ := h' i p' hp'
  exact ⟨p'', hp'', hlived.trans hlived'⟩

variable [Tame π]

/-- The model is in the state in which it was, and the propagators were told of `n` restored
levels. -/
structure Back (n : Nat) (m m' : Model π) : Prop where
  orderly : m'.Orderly
  resumed : m.Resumed m'
  told : Told m n m'

theorem Back.refl (h : m.Orderly) : Back 0 m m := ⟨h, .refl m, fun _ p hp => ⟨p, hp, .now⟩⟩

theorem Back.trans (h : Back n m m') (h' : Back k m' m'') : Back (n + k) m m'' :=
  ⟨h'.orderly, h.resumed.trans h'.resumed, h.told.trans h'.told⟩

theorem Stays.told (h : Stays m m') : Told m 0 m' := h.lived

/-- What was done on a level of its own is undone. -/
theorem Orderly.back (h : m.Orderly) (hstays : Stays m.save m₁) (hback : Back n m₁ m₂)
    (hret : m₂.restore = .ok m') : m'.Quiet ∧ Back (n + 1) m m' := by
  obtain ⟨m'', hret', _, hresumed⟩ := h.toTallied.resumes hback.orderly.toTallied
    (hstays.keeps.trans hback.resumed.toSameBelow.keeps)
  cases hret.symm.trans hret'
  obtain ⟨horderly, hquiet, _⟩ := hback.orderly.restore hret
  have htold : Told m n m₂ := by
    have := hstays.told.trans hback.told
    rwa [Nat.zero_add] at this
  exact ⟨hquiet, horderly, hresumed,
    htold.restore hback.orderly hret (Nat.le_of_eq hresumed.size_eq.symm)⟩

/-- A domain is narrowed, and the propagators run. -/
theorem Orderly.stays_attempt (h : m.Orderly) {a : Attempt} {verdict : Verdict}
    (hret : Search.attempt (·.apply (.attempt a)) m = .ok (verdict, m')) : Stays m m' := by
  obtain ⟨⟨first, m₁⟩, hattempt, hret⟩ := bind_eq_ok_iff.1 hret
  have hattempt : m.onStore (·.attempt a) = .ok (first, m₁) := hattempt
  obtain ⟨s, hs, _⟩ := onStore_eq_ok_iff.1 hattempt
  have hallows : m.Allows (.attempt a) :=
    ⟨Store.lt_of_attempt hs, fun make hmake => by cases hmake⟩
  have hstays : Stays m m₁ := by
    refine h.stays_apply hallows ?_ ?_ hattempt
    · rintro ⟨⟩
    · rintro ⟨⟩
  cases first with
  | consistent => exact hstays.trans (hstays.orderly.fixpoint hret)
  | failed why =>
    cases hret
    exact hstays

end Model

/-! ## Exploring -/

namespace Search

variable [Propagator π] [Tame π] {q : Search} {observe : Model π → Except Fault ρ}
  {m m₁ : Model π} {t t₁ : Tally ρ} {chain : List Attempt} {r : Bool × Model π × Tally ρ}
  {moments others : List (Moment ρ)} {own own' : Nat} {stop : Bool}

/-- What is known of a part of a search that began at the model `m`, after the decisions in `chain`,
and came to the answer `r`.  The tally counts the moments, and a restored level for each of its nodes
and failures, but `own` of them.  A node has one level more for each decision that leads to it.  Only
a search with a limit stops. -/
structure Walked (q : Search) (own : Nat) (chain : List Attempt) (m : Model π) (t : Tally ρ)
    (moments : List (Moment ρ)) (r : Bool × Model π × Tally ρ) : Prop where
  back : ∃ n, m.Back n r.2.1 ∧
    r.2.2.nodes + r.2.2.failures = t.nodes + t.failures + n + own
  tally_eq : r.2.2 = t.after moments
  depth_eq : ∀ visit, .node visit ∈ moments → ∃ more, visit.chain = more ++ chain ∧
    visit.depth = m.store.depth + more.length
  limit_ne : r.1 = true → q.limit ≠ none

/-- One part of a search comes after another one. -/
theorem Walked.trans (h : q.Walked own chain m t moments (stop, m₁, t₁))
    (h' : q.Walked own' chain m₁ t₁ others r) :
    q.Walked (own + own') chain m t (moments ++ others) r := by
  obtain ⟨n, hback, hcount⟩ := h.back
  obtain ⟨n', hback', hcount'⟩ := h'.back
  dsimp only at hcount hback
  refine ⟨⟨n + n', hback.trans hback', by omega⟩, ?_, fun visit hvisit => ?_, h'.limit_ne⟩
  · rw [Tally.after_append, ← h.tally_eq]
    exact h'.tally_eq
  · obtain hvisit | hvisit := List.mem_append.1 hvisit
    · exact h.depth_eq visit hvisit
    · obtain ⟨more, hchain, hdepth⟩ := h'.depth_eq visit hvisit
      have hdepths : m₁.store.depth = m.store.depth :=
        hback.resumed.toSameBelow.keeps.store.depth_eq
      exact ⟨more, hchain, hdepths ▸ hdepth⟩

/-- A node is entered before its branches are. -/
theorem Walked.enter (hm : m.Orderly) (chain : List Attempt) (t : Tally ρ) :
    q.Walked 1 chain m t [.node ⟨chain, m.store.depth⟩] (false, m, t.visited) := by
  refine ⟨⟨0, .refl hm, ?_⟩, rfl, fun visit hvisit => ?_, nofun⟩
  · dsimp only [Tally.visited]
    omega
  · cases List.mem_singleton.1 hvisit
    exact ⟨[], rfl, rfl⟩

/-- A solution is shown to the observer. -/
theorem Walked.solution (hm : m.Orderly) (q : Search) (chain : List Attempt) (t : Tally ρ)
    (report : ρ) : q.Walked 0 chain m t [.solution report]
      (q.isEnough (t.solved report), m, t.solved report) := by
  refine ⟨⟨0, .refl hm, rfl⟩, rfl, fun visit hvisit => ?_, fun henough hlimit => ?_⟩
  · cases List.mem_singleton.1 hvisit
  · rw [isEnough, hlimit] at henough
    cases henough

/-- Without limit no part of a search stops. -/
theorem Walked.goes_on (h : q.Walked own chain m t moments r) (hq : q.limit = none) :
    r.1 = false ∧ r.2.2 = t.after moments ∧ ∃ n, m.Back n r.2.1 := by
  obtain ⟨n, hback, _⟩ := h.back
  exact ⟨Bool.eq_false_iff.2 fun hstop => h.limit_ne hstop hq, h.tally_eq, n, hback⟩

/-- A branch is explored one level above the node. -/
theorem traceBranch_walked (hm : m.Orderly)
    {go : Model π → Tally ρ → Traced ρ (Bool × Model π × Tally ρ)} {a : Attempt}
    (hgo : ∀ {m₁ : Model π} {t : Tally ρ} {moments r}, m₁.Orderly → go m₁ t = ⟨moments, .ok r⟩ →
      q.Walked 1 (a :: chain) m₁ t moments r)
    (hret : traceBranch go a m t = ⟨moments, .ok r⟩) : q.Walked 0 chain m t moments r := by
  obtain ⟨⟨verdict, m₁⟩, hattempt, hret⟩ := Traced.of_bind_eq_ok_iff.1 hret
  have hstays := hm.save.stays_attempt hattempt
  cases verdict with
  | consistent =>
    obtain ⟨below, ⟨stop, m₂, t'⟩, _, hwalk, hrest, rfl⟩ := Traced.bind_eq_ok_iff.1 hret
    obtain ⟨m', hrestore, heq⟩ := Traced.of_bind_eq_ok_iff.1 hrest
    cases heq
    rw [List.append_nil]
    have hwalked := hgo hstays.orderly hwalk
    obtain ⟨n, hback, hcount⟩ := hwalked.back
    refine ⟨⟨n + 1, (hm.back hstays hback hrestore).2, hcount⟩, hwalked.tally_eq,
      fun visit hvisit => ?_, hwalked.limit_ne⟩
    obtain ⟨more, hchain, hdepth⟩ := hwalked.depth_eq visit hvisit
    refine ⟨more ++ [a], ?_, ?_⟩
    · rw [hchain, List.append_assoc, List.singleton_append]
    · have hdepths : m₁.store.depth = m.save.store.depth := hstays.keeps.store.depth_eq
      have hsave : m.save.store.depth = m.store.depth + 1 := rfl
      rw [hdepth, hdepths, hsave, List.length_append, List.length_singleton]
      omega
  | failed why =>
    obtain ⟨_, hrest, rfl⟩ := Traced.tell_bind_eq_ok_iff.1 hret
    obtain ⟨m', hrestore, heq⟩ := Traced.of_bind_eq_ok_iff.1 hrest
    cases heq
    refine ⟨⟨1, (hm.back hstays (.refl hstays.orderly) hrestore).2, rfl⟩, rfl, ?_, nofun⟩
    exact fun visit hvisit => nomatch List.mem_singleton.1 hvisit

/-- A node is explored with all that is below it.  The induction is on the turns. -/
theorem traceNode_walked {fuel : Nat} (hm : m.Orderly)
    (hret : q.traceNode observe fuel chain m t = ⟨moments, .ok r⟩) :
    q.Walked 1 chain m t moments r := by
  induction fuel generalizing chain m t moments r with
  | zero => cases hret
  | succ fuel ih =>
    obtain ⟨_, hbelow, rfl⟩ := Traced.tell_bind_eq_ok_iff.1 hret
    obtain ⟨decision, hdecide, hbelow⟩ := Traced.of_bind_eq_ok_iff.1 hbelow
    have henter := Walked.enter (q := q) hm chain t
    cases decision with
    | none =>
      obtain ⟨report, hobserve, hbelow⟩ := Traced.of_bind_eq_ok_iff.1 hbelow
      obtain ⟨_, heq, rfl⟩ := Traced.tell_bind_eq_ok_iff.1 hbelow
      cases heq
      exact henter.trans (.solution hm q chain t.visited report)
    | some decision =>
      obtain ⟨x, v⟩ := decision
      obtain ⟨left, ⟨stop, m₁, t₁⟩, _, hleft, hright, rfl⟩ :=
        Traced.bind_eq_ok_iff.1 hbelow
      have hwalked := henter.trans (traceBranch_walked hm ih hleft)
      cases stop with
      | true =>
        cases hright
        rwa [List.append_nil]
      | false =>
        obtain ⟨n, hback, _⟩ := hwalked.back
        exact hwalked.trans (traceBranch_walked hback.orderly ih hright)

/-- A branch of a search gives the model back. -/
theorem branch_back {fuel : Nat} {a : Attempt} (hm : m.Orderly)
    (hret : branch (q.explore observe fuel) (·.apply (.attempt a)) m t = .ok r) :
    ∃ n, m.Back n r.2.1 := by
  rw [branch_eq (q.explore_eq observe fuel [a])] at hret
  obtain ⟨n, hback, _⟩ := (traceBranch_walked hm traceNode_walked (Traced.eq_mk hret)).back
  exact ⟨n, hback⟩

/-- The root is explored one level above the model that is given back. -/
theorem traceRoot_walked {fuel : Nat} {m' : Model π} (hm : m.Orderly)
    (hret : q.traceRoot observe fuel m = ⟨moments, .ok (t, m')⟩) :
    m'.Quiet ∧ m.Back (t.nodes + t.failures) m' ∧ t = Tally.zero.after moments ∧
      ∀ visit, .node visit ∈ moments →
        visit.depth = m.store.depth + (1 + visit.chain.length) := by
  obtain ⟨below, ⟨stop, m₂, t'⟩, _, hnode, hrest, rfl⟩ := Traced.bind_eq_ok_iff.1 hret
  obtain ⟨m', hrestore, heq⟩ := Traced.of_bind_eq_ok_iff.1 hrest
  cases heq
  rw [List.append_nil]
  have hwalked := traceNode_walked hm.save hnode
  obtain ⟨n, hback, hcount⟩ := hwalked.back
  obtain ⟨hquiet, hback⟩ := hm.back (.of_same hm.save (.refl _) fun _ _ hp => hp) hback hrestore
  have htold : n + 1 = t'.nodes + t'.failures := by
    dsimp only [Tally.zero] at hcount
    omega
  refine ⟨hquiet, htold ▸ hback, hwalked.tally_eq, fun visit hvisit => ?_⟩
  obtain ⟨more, hchain, hdepth⟩ := hwalked.depth_eq visit hvisit
  have hsave : m.save.store.depth = m.store.depth + 1 := rfl
  rw [hdepth, hsave, hchain, List.append_nil, Nat.add_assoc]

end Search

/-! ## The result -/

namespace Model

variable [Propagator π] [Tame π] {m m₁ m' : Model π}

/-- The model `m'` is the model `m` again, after `n` levels were restored. -/
structure GivenBack (n : Nat) (m m' : Model π) : Prop where
  depth_eq : m'.store.depth = m.store.depth
  read_eq : ∀ c, m'.store.read c = m.store.read c
  definitions_eq : m'.store.definitions = m.store.definitions
  domain_eq : ∀ q, m'.store.domain q = m.store.domain q
  view_eq : ∀ x, m'.store.view x = m.store.view x
  size_eq : ∀ x, m'.store.size x = m.store.size x
  min_eq : ∀ x, m'.store.min? x = m.store.min? x
  max_eq : ∀ x, m'.store.max? x = m.store.max? x
  propagators_size : m'.propagators.size = m.propagators.size
  told : Told m n m'
  conditions_eq : m'.conditions = m.conditions
  listening_iff : ∀ condition c, c ∈ m'.listening condition ↔ c ∈ m.listening condition
  quiet : m'.Quiet

theorem Back.givenBack {n : Nat} (h : Back n m m') (hm : m.Orderly) (hquiet : m'.Quiet) :
    GivenBack n m m' where
  depth_eq := h.resumed.toSameBelow.keeps.store.depth_eq
  read_eq := Trail.read_congr h.resumed.resumed.now_eq
  definitions_eq := h.resumed.resumed.definitions_eq
  domain_eq := h.resumed.resumed.domain_eq
  view_eq := h.resumed.resumed.view_eq
  size_eq := h.resumed.resumed.size_eq
  min_eq := h.resumed.resumed.bound?_eq .lower
  max_eq := h.resumed.resumed.bound?_eq .upper
  propagators_size := h.resumed.size_eq
  told := h.told
  conditions_eq := h.resumed.conditions_eq
  listening_iff condition c := by
    rw [h.orderly.listening_iff, hm.listening_iff, h.resumed.conditions_eq]
  quiet := hquiet

/-- A search whose first run of the propagators did not fail gives the model back as it was after
that run, with nothing pending and nothing scheduled.  The propagators were told of a restored level
for each node and each failure.  Wherever a node was entered, there was one level more than before
the search, and one for each decision that led to the node. -/
theorem Reachable.gives_back (h : m.Reachable) (q : Search) (observe : Model π → Except Fault ρ)
    {t : Tally ρ} (hfixpoint : m.fixpoint = .ok (.consistent, m₁))
    (hret : q.solve observe m = .ok (t, m')) :
    GivenBack (t.nodes + t.failures) m₁ m' ∧
      ∃ visits, q.survey observe m = .ok ((t, m'), visits) ∧ visits.length = t.nodes ∧
        ∀ visit ∈ visits, visit.depth = m.store.depth + (1 + visit.chain.length) := by
  have hstays := h.orderly.fixpoint hfixpoint
  have hm₁ := hstays.orderly
  have htrace := Traced.eq_mk ((q.solve_eq observe m).symm.trans hret)
  obtain ⟨hquiet, hback, htally, hdepth⟩ :=
    Search.traceRoot_walked hm₁ ((Search.trace_of_fixpoint hfixpoint).symm.trans htrace)
  refine ⟨hback.givenBack hm₁ hquiet, (q.trace observe m).moments.filterMap Moment.visit?, ?_, ?_,
    fun visit hvisit => ?_⟩
  · rw [Search.survey, ← Search.solve_eq, hret, Except.map_ok]
  · rw [htally, Tally.nodes_after]
    exact (Nat.zero_add _).symm
  · obtain ⟨moment, hmoment, hvisit⟩ := List.mem_filterMap.1 hvisit
    obtain rfl := Moment.visit?_eq_some_iff.1 hvisit
    have hdepths : m₁.store.depth = m.store.depth := hstays.keeps.store.depth_eq
    rw [hdepth visit hmoment, hdepths]

/-- Two variables that must differ on a level of their own, and a script that refuses the greater
value of the first one. -/
def contested : List (Operation Rule) :=
  [.declare (.primitive 1 2), .declare (.primitive 1 3), .save] ++
    Operation.installing .allDifferent [⟨0⟩, ⟨1⟩] .usual ⟨0⟩ ++
    [posting (.new [.whenMin ⟨0⟩ 2, .fail .domainWipeout] none), .listen ⟨1⟩ .fixed ⟨0⟩]

theorem welcome_contested : ∀ op ∈ contested, Welcome op := Welcome.of_posts <| List.forall_mem_cons.2
  ⟨.making Rule.wraps_allDifferent _ _, List.forall_mem_singleton.2 (.posting (by simp [Script.new]))⟩

theorem Reachable.gives_back_contested : ∃ m m₁ t m',
    (Model.empty .lastFirst).applyAll contested = .ok m ∧
    m.fixpoint = .ok (.consistent, m₁) ∧
    Search.solve ⟨[⟨0⟩, ⟨1⟩], .hinted, some 5⟩ (·.store.values ⟨1⟩) m = .ok (t, m') ∧
    t.reports = #[[2], [3]] ∧ GivenBack 5 m₁ m' := by
  have hrun : ((Model.empty .lastFirst).applyAll contested >>= fun m => m.fixpoint >>= fun r =>
      Search.solve ⟨[⟨0⟩, ⟨1⟩], .hinted, some 5⟩ (·.store.values ⟨1⟩) m >>= fun found =>
        .ok (r.1, found.1.nodes, found.1.failures, found.1.reports)) =
      .ok (.consistent, 4, 1, #[[2], [3]]) := by decide +kernel
  obtain ⟨m, hm, hrun⟩ := bind_eq_ok_iff.1 hrun
  obtain ⟨⟨verdict, m₁⟩, hfixpoint, hrun⟩ := bind_eq_ok_iff.1 hrun
  obtain ⟨⟨t, m'⟩, hret, heq⟩ := bind_eq_ok_iff.1 hrun
  injection heq with heq
  simp only [Prod.mk.injEq] at heq
  obtain ⟨rfl, hnodes, hfailures, hreports⟩ := heq
  have hreachable := Reachable.of_applyAll welcome_contested hm
  have hback := (hreachable.gives_back _ _ hfixpoint hret).1
  rw [hnodes, hfailures] at hback
  exact ⟨m, m₁, t, m', hm, hfixpoint, hret, hreports, hback⟩

end Model

end FiniteDomain
