import FiniteDomain.Proofs.AllDifferent.Propagation

/-!
# The searches from the free values

Each pass of a propagator searches from the free values, and the search stops as soon as it has
reached as many variables as the last time.  To speak of all searches of a run, the run is given a
record of them.

* `Sweep` is the moment of a search, and `Sweep.Exact` says that the search marks and counts exactly
  the variables that are reached, like `Reach.computeAll`, which has no limit.
* `filterSwept`, `runSwept` and `propagateSwept` are the passes and runs with a record of their
  searches, which changes nothing else: `filter_eq`, `run_eq`, `propagate_eq`.
* All searches are exact as long as the limit bounds what can be reached and the matching covers the
  variables when it is searched: `filterSwept_exact` for one pass, `runSwept_exact` for all of them.
-/

namespace FiniteDomain.AllDifferent

open ValueGraph

/-! ## The moments of a search -/

/-- The search from the free values that marks all variables that are reached.  There are fewer than
the limit it is given. -/
def Reach.computeAll (g : ValueGraph) (r : Reach) (s : Store) : Except Fault (Nat × Marks) := do
  let free ← (List.range g.valueTotal).filterM (g.isFree s)
  let fuel := g.valueTotal + g.varTotal + 1
  let w ← spread g s (g.varTotal + 1) fuel 0 ⟨r.reached.forget, 0, free.toArray⟩
  return (w.count, w.reached)

/-- The moment of a search: the graph and the store, and what the last search left. -/
structure Sweep where
  graph : ValueGraph
  reach : Reach
  store : Store
  deriving DecidableEq, Repr

namespace Sweep

/-- What the graph shows at that moment. -/
def snapshot (w : Sweep) : Snapshot := w.graph.snapshot (w.graph.now w.store)

open Classical in
/-- The search has counted `count` variables and left the marks of `r`: those of the variables that
are reached, which a search without a limit marks as well. -/
structure Finds (w : Sweep) (count : Nat) (r : Reach) : Prop where
  marked : ∀ x, r.isReached x = .ok true ↔ w.snapshot.Reached x
  count_eq : count = (w.snapshot.active.filter w.snapshot.Reached).card
  unlimited : ∃ marks, Reach.computeAll w.graph w.reach w.store = .ok (count, marks) ∧
    ∀ x, marks.isMarked x = r.isReached x

/-- The search finds exactly the variables that are reached. -/
def Exact (w : Sweep) : Prop :=
  ∃ count r s, Reach.compute w.graph w.reach w.store = .ok (count, r, s) ∧ w.Finds count r

end Sweep

/-- A search without a limit marks all variables that are reached. -/
theorem Reach.computeAll_eq {g : ValueGraph} {s : Store} (hg : g.Sound s) {r : Reach}
    (hfit : r.reached.Fit g.varTotal) :
    ∃ marks, computeAll g r s = .ok ((marked g marks).card, marks) ∧ marks.Fit g.varTotal ∧
      ∀ x, marks.Has x ↔ (g.snapshot (g.now s)).Reached x := by
  obtain ⟨free, w, hlist, hspread, hs, hend, _⟩ := search_eq hg hfit (g.varTotal + 1)
  refine ⟨w.reached, ?_, hs.fit, fun x => ⟨hs.reached x, hend.resolve_left ?_ x⟩⟩
  · rw [computeAll, hlist, ok_bind]
    dsimp only
    rw [hspread, ← hs.count_eq]
    rfl
  · have := hs.count_le_vars
    omega

variable {p p' : AllDifferent} {s s' : Store} {changes : Changes} {verdict : Verdict}
  {sweeps : List Sweep}

/-- A search is exact if the matching covers the variables and no more of them can be reached than
the last time. -/
theorem Sound.sweep_exact (h : p.Sound s) (hc : (p.shown s).graph.Covered)
    (hb : (p.shown s).graph.Bounded (p.shown s).limit) : Sweep.Exact ⟨p.graph, p.reach, s⟩ := by
  classical
  obtain ⟨count, r, s', hcompute, hcomputed, hfit, _⟩ := Reach.compute_eq h.graph h.reached
    h.previous_has h.previous_free h.shows.limit_eq h.shows.limit_le
  obtain ⟨marks, hall, hfit', hmarks⟩ := Reach.computeAll_eq h.graph h.reached
  have hexact := hcomputed.exact h.shows.matched hc hb
  have hcount : (Reach.marked p.graph marks).card = count := by
    refine hcomputed.count_eq _ fun x => ?_
    rw [Reach.mem_marked hfit', hmarks, hexact]
  refine ⟨count, r, s', hcompute, fun x => Marks.isMarked_iff.trans (hexact x), ?_, marks, ?_, ?_⟩
  · refine (hcomputed.count_eq _ fun x => ?_).symm
    rw [Finset.mem_filter, hexact]
    exact ⟨And.right, fun hx => ⟨hx.mem_active, hx⟩⟩
  · rw [← hcount]
    exact hall
  · exact hfit'.isMarked_congr hfit fun x => (hmarks x).trans (hexact x).symm

/-! ## Runs with a record of their searches -/

/-- The steps of `filter`, and the moment of the search. -/
def filterSwept (p : AllDifferent) (changes : Changes) (s : Store) :
    Except Fault ((Verdict × Bool × AllDifferent × Store) × List Sweep) := do
  match ← p.repair changes s with
  | (.impossible, p, s) => return ((.failed .noMaximumMatching, false, p, s), [])
  | (repair, p, s) =>
    p.checkMatching s
    let (p, s) ← p.retag repair changes.touched.toList s
    let (_, reach, s') ← p.reach.compute p.graph s
    let answer ← deduce { p with reach } s'
    return (answer, [⟨p.graph, p.reach, s⟩])

/-- The steps of `run`, and the moments of the searches in order. -/
def runSwept : Nat → Bool → Bool → AllDifferent → Store →
    Except Fault ((Verdict × AllDifferent × Store) × List Sweep)
  | 0, _, _, _, _ => .error .outOfFuel
  | fuel + 1, forced, repeated, p, s => do
    let before ← p.graph.liveEdges s
    match ← p.synchronize s with
    | (.failed why, _, p, s) => return ((.failed why, p, s), [])
    | (.consistent, changes, p, s) =>
      if !forced && changes.isEmpty then
        return ((.consistent, p, s), [])
      else
        let after ← p.graph.liveEdges s
        if repeated && before ≤ after then
          throw .idleDeduction
        else
          match ← p.filterSwept changes s with
          | ((.failed why, _, p, s), sweeps) => return ((.failed why, p, s), sweeps)
          | ((.consistent, false, p, s), sweeps) => return ((.consistent, p, s), sweeps)
          | ((.consistent, true, p, s), sweeps) =>
            let (answer, later) ← runSwept fuel false true p s
            return (answer, sweeps ++ later)

/-- A run of the propagator, and the moments of its searches in order. -/
def propagateSwept (p : AllDifferent) (s : Store) :
    Except Fault ((Verdict × AllDifferent × Store) × List Sweep) :=
  runSwept (Word.countBound + 2) (!p.ready) false { p with work := p.alarm } s

/-- The record changes nothing in a pass. -/
theorem filter_eq (p : AllDifferent) (changes : Changes) (s : Store) :
    p.filter changes s = Prod.fst <$> p.filterSwept changes s := by
  rw [filter, filterSwept]
  obtain fault | ⟨repair, p, s⟩ := p.repair changes s
  · rfl
  · cases repair with
    | impossible => rfl
    | _ =>
      dsimp only [ok_bind]
      obtain fault | _ := p.checkMatching s
      · rfl
      · dsimp only [ok_bind]
        obtain fault | ⟨p, s⟩ := p.retag _ changes.touched.toList s
        · rfl
        · dsimp only [ok_bind]
          obtain fault | ⟨count, reach, s'⟩ := p.reach.compute p.graph s
          · rfl
          · show deduce _ _ = Prod.fst <$> (deduce _ _ >>= _)
            cases deduce { p with reach } s' <;> rfl

/-- The record changes nothing in the repetitions. -/
theorem run_eq (fuel : Nat) (forced repeated : Bool) (p : AllDifferent) (s : Store) :
    run fuel forced repeated p s = Prod.fst <$> runSwept fuel forced repeated p s := by
  induction fuel generalizing forced repeated p s with
  | zero => rw [run, runSwept, Except.map_error]
  | succ fuel ih =>
    rw [run, runSwept]
    obtain fault | before := p.graph.liveEdges s
    · rw [error_bind, error_bind, Except.map_error]
    rw [ok_bind, ok_bind]
    obtain fault | ⟨_ | why, changes, p, s⟩ := p.synchronize s
    · rw [error_bind, error_bind, Except.map_error]
    · rw [ok_bind, ok_bind]
      dsimp only
      by_cases hsame : (!forced && changes.isEmpty) = true
      · rw [if_pos hsame, if_pos hsame]
        rfl
      rw [if_neg hsame, if_neg hsame]
      obtain fault | after := p.graph.liveEdges s
      · rw [error_bind, error_bind, Except.map_error]
      rw [ok_bind, ok_bind]
      by_cases hidle : (repeated && decide (before ≤ after)) = true
      · rw [if_pos hidle, if_pos hidle]
        rfl
      rw [if_neg hidle, if_neg hidle, filter_eq]
      obtain fault | ⟨⟨_ | why, _ | _, p, s⟩, sweeps⟩ := p.filterSwept changes s
      · rw [Except.map_error, error_bind, error_bind, Except.map_error]
      · rfl
      · rw [Except.map_ok, ok_bind, ok_bind]
        dsimp only
        rw [ih]
        obtain fault | ⟨answer, later⟩ := runSwept fuel false true p s
        · rw [error_bind, Except.map_error]
        · rfl
      · rfl
      · rfl
    · rfl

/-- The record changes nothing in a run. -/
theorem propagate_eq (p : AllDifferent) (s : Store) :
    p.propagate s = Prod.fst <$> p.propagateSwept s := by
  rw [propagate_eq_run, run_eq, propagateSwept]

/-! ## All searches are exact -/

/-- The search of a pass is exact. -/
theorem filterSwept_exact (h : p.Sound s) (htouched : ∀ x ∈ changes.touched, x < p.graph.varTotal)
    (hwhy : p.ready = false ∨ changes.matchingChanged = true ∨ (p.shown s).graph.Covered)
    (hb : (p.shown s).graph.Bounded (p.shown s).limit)
    {answer : Verdict × Bool × AllDifferent × Store}
    (hret : p.filterSwept changes s = .ok (answer, sweeps)) : ∀ w ∈ sweeps, w.Exact := by
  obtain ⟨repair, p₁, s₁, hrepair, hr⟩ := repair_eq h changes
  have hsound := hr.advance.sound
  rw [filterSwept, hrepair, ok_bind] at hret
  by_cases hpossible : repair = .impossible
  · subst hpossible
    cases hret
    exact fun _ hw => absurd hw List.not_mem_nil
  have hcovered := hr.covered hpossible hwhy
  have hrest : (p₁.checkMatching s₁ >>= fun _ =>
      p₁.retag repair changes.touched.toList s₁ >>= fun retagged =>
      retagged.1.reach.compute retagged.1.graph retagged.2 >>= fun computed =>
      deduce { retagged.1 with reach := computed.2.1 } computed.2.2 >>= fun answer =>
      .ok (answer, [⟨retagged.1.graph, retagged.1.reach, retagged.2⟩])) = .ok (answer, sweeps) := by
    cases repair with
    | impossible => exact absurd rfl hpossible
    | _ => exact hret
  obtain ⟨_, _, hrest⟩ := bind_eq_ok_iff.1 hrest
  obtain ⟨⟨p₂, s₂⟩, hretag, hrest⟩ := bind_eq_ok_iff.1 hrest
  obtain ⟨_, _, hrest⟩ := bind_eq_ok_iff.1 hrest
  obtain ⟨_, _, hrest⟩ := bind_eq_ok_iff.1 hrest
  cases hrest
  obtain ⟨p₃, s₃, hretag', ht⟩ | ⟨_, hfails, _⟩ :=
    retag_cases hsound repair changes.touched.toList fun x hx => by
      rw [hr.advance.alike.varTotal_eq]
      exact htouched x (Array.mem_toList_iff.1 hx)
  · cases hretag.symm.trans hretag'
    refine List.forall_mem_singleton.2 (ht.advance.sound.sweep_exact ?_ ?_)
    · rw [ht.shown_eq]
      exact hcovered
    · exact ht.bounded (hr.bounded h hb)
  · rw [hretag] at hfails
    exact hfails.elim nofun nofun

/-- The searches of all repetitions are exact.  What a search needs, the pass before it has left. -/
theorem runSwept_exact (fuel : Nat) (forced repeated : Bool) (h : p.Sound s)
    (hhonest : (p.shown s).Honest) (hassured : p.Assured s)
    (hb : (p.shown s).graph.Bounded (p.shown s).limit) {answer : Verdict × AllDifferent × Store}
    (hret : runSwept fuel forced repeated p s = .ok (answer, sweeps)) : ∀ w ∈ sweeps, w.Exact := by
  induction fuel generalizing forced repeated p s answer sweeps with
  | zero =>
    rw [runSwept] at hret
    cases hret
  | succ fuel ih =>
    rw [runSwept] at hret
    obtain ⟨before, _, hret⟩ := bind_eq_ok_iff.1 hret
    obtain ⟨verdict, changes, p₁, s₁, hsynchronize, hsync⟩ := synchronize_eq h
    rw [hsynchronize, ok_bind] at hret
    cases verdict with
    | failed why =>
      cases hret
      exact fun _ hw => absurd hw List.not_mem_nil
    | consistent =>
      dsimp only at hret
      split at hret
      · cases hret
        exact fun _ hw => absurd hw List.not_mem_nil
      obtain ⟨after, _, hret⟩ := bind_eq_ok_iff.1 hret
      split at hret
      · cases hret
      have hb₁ := hsync.bounded hassured.1 hb
      obtain ⟨⟨answer₁, sweeps₁⟩, hfilter, hret⟩ := bind_eq_ok_iff.1 hret
      have hexact := filterSwept_exact hsync.advance.sound hsync.touched_lt
        (hsync.covered (hassured.2.imp_right And.left)) hb₁ hfilter
      have hpass : p₁.filter changes s₁ = .ok answer₁ := by
        rw [filter_eq, hfilter, Except.map_ok]
      obtain ⟨_ | why, _ | _, p₃, s₃⟩ := answer₁
      · cases hret
        exact hexact
      · obtain ⟨⟨answer', later⟩, hlater, hret⟩ := bind_eq_ok_iff.1 hret
        cases hret
        obtain ⟨p₂, s₂, hpass', _⟩ | ⟨p₂, s₂, hpass', hprepared⟩ | ⟨_, hfails, _⟩ :=
          filter_cases hsync.advance.sound changes hsync.touched_lt (hsync.sane hhonest)
        · cases hpass.symm.trans hpass'
        · obtain ⟨verdict, more, p', s', hdeduce, hdeduced⟩ :=
            deduce_eq hprepared.advance.sound hprepared.located hprepared.honest
          cases (hpass.symm.trans hpass').trans hdeduce
          refine List.forall_mem_append.2 ⟨hexact, ih false true hdeduced.advance.sound
            hdeduced.honest (hassured.rest hsync hprepared hdeduced) ?_ hlater⟩
          exact hdeduced.bounded (hprepared.bounded hb₁)
        · rw [hpass] at hfails
          exact hfails.elim nofun nofun
      · cases hret
        exact hexact
      · cases hret
        exact hexact

/-- All searches of a run are exact, if nothing but domains has changed since the last one. -/
theorem propagateSwept_exact (h : p.Sound s) (hhonest : (p.shown s).Honest)
    (hassured : p.Assured s) (hb : (p.shown s).graph.Bounded (p.shown s).limit)
    {answer : Verdict × AllDifferent × Store}
    (hret : p.propagateSwept s = .ok (answer, sweeps)) : ∀ w ∈ sweeps, w.Exact :=
  runSwept_exact _ _ _ (Advance.alarm h).sound hhonest hassured hb hret

end FiniteDomain.AllDifferent
