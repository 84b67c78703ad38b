import FiniteDomain.Proofs.AllDifferent.Consistency
import FiniteDomain.Proofs.AllDifferent.Nodes

/-!
# A search that never fails

With a single constraint on variables that are pairwise independent, every value that is left belongs
to a choice.  A decision keeps one of these choices on either of its branches, so that no branch
fails, and the nodes form a binary tree whose leaves are the solutions.

* `Node.branch_consistent` is about one branch.
* `recounts_binary` counts the nodes, and `Driven.searches_without_failures` is about whole searches.
-/

namespace FiniteDomain

open AllDifferent ValueGraph

/-- If a variable keeps some value, then a choice is kept among those that use all values. -/
theorem AllDifferent.ValueGraph.Independent.exists_choice {g : ValueGraph} {s s' : Store}
    (h : g.Independent) (ha : g.Anchored s) (ha' : g.Anchored s') {x : Var} {P : Int → Prop}
    {b : Base} (hl : s.Limits x P b s') (hsupported : Supported (g.domains s) g.varTotal) :
    ∃ φ, Choice (g.domains s') g.varTotal φ := by
  have hsame : ∀ j < g.varTotal, g.sourceOf j ≠ b.var → g.domains s' j = g.domains s j := by
    intro j hj hne
    rw [domains_eq, domains_eq, Store.view, Store.view, Store.viewIn, Store.viewIn,
      Store.viewFrom_congr (hl.evolves.path_eq _)]
    exact ha.views_congr hj (hl.other _ hne)
  by_cases hfree : ∀ j < g.varTotal, g.sourceOf j ≠ b.var
  · obtain ⟨φ, hφ⟩ := hsupported.exists_choice
    exact ⟨φ, hφ.mono fun j hj => (hsame j hj (hfree j hj)).symm.subset⟩
  · simp only [not_forall, not_not] at hfree
    obtain ⟨j, hj, hsource⟩ := hfree
    obtain ⟨r, hr, hP⟩ := hl.kept
    obtain ⟨φ, hφ, heq⟩ := hsupported.used j hj _ ((ha.mem_views hj).2 ⟨r, hsource ▸ hr, rfl⟩)
    refine ⟨φ, fun i hi => ?_, hφ.distinct⟩
    by_cases hij : i = j
    · subst hij
      rw [heq]
      refine (ha'.mem_views hi).2 ⟨r, hsource ▸ (hl.mem_iff r).2 ⟨hr, hP⟩, ?_⟩
      rw [hl.evolves.path_eq]
    · rw [hsame i hi fun hib => hij (h i hi j hj (hib.trans hsource.symm))]
      exact hφ.mem i hi

namespace Search

variable {q : Search} {root m : Model AllDifferent} {vars : List Var}

/-- No branch fails of a search with a single constraint on independent variables. -/
theorem Node.branch_consistent (h : q.Node root m) (hposted : root.posted = [vars])
    (hnodup : (vars.map root.store.source).Nodup) {x : Var} {P : Int → Prop}
    {narrow : Model AllDifferent → Except Fault (Verdict × Model AllDifferent)}
    (henters : Enters narrow x P m) {verdict : Verdict} {m₁ : Model AllDifferent}
    (hret : attempt narrow m.save = .ok (verdict, m₁)) : verdict = .consistent := by
  obtain ⟨b, s, hl, hattempt⟩ := henters
  obtain ⟨hpoised, _⟩ := h.toCalm.limited hl _ rfl
  obtain ⟨p, hlist, hvars⟩ := List.map_eq_singleton_iff.1 (h.posted_eq.trans hposted)
  have hp : m.propagators = #[p] := by rw [← m.propagators.toArray_toList, hlist]
  have hsource : ∀ y, s.source y = root.store.source y := by
    intro y
    rw [Store.source, Store.path, hl.evolves.definitions_eq, Store.source, Store.path,
      ← h.definitions_eq]
    rfl
  have hindependent : (p.graph.vars.toList.map s.source).Nodup := by
    rw [hvars, funext hsource]
    exact hnodup
  obtain ⟨verdict', m₂, hfixpoint, hfilters⟩ := hpoised.filters_choices hp hindependent
  cases (hret.symm.trans hattempt).trans hfixpoint
  by_contra hne
  -- The choice that is kept contradicts the failure.
  have hsave := h.toCalm.save
  have hhere : m.save.propagators[0]? = some p := congrArg (·[0]?) hp
  have hanchored : p.graph.Anchored s :=
    (hpoised.guarded 0 p hhere).anchored
  obtain ⟨φ, hφ⟩ := (hanchored.independent hindependent).exists_choice
    (hsave.guarded 0 p hhere).anchored hanchored hl (hsave.supported hsave.quiet hhere id)
  exact hfilters.fails_iff.1 hne _ hφ.chooses

/-- Without failures the nodes form a binary tree.  Its leaves are the solutions. -/
theorem recounts_binary {ρ : Type} (observe : Model AllDifferent → ρ)
    (hposted : root.posted = [vars]) (hnodup : (vars.map root.store.source).Nodup) :
    Recounts q (fun m => .ok (observe m)) (q.Node root) fun _ t stop t' =>
      t'.failures = t.failures ∧ (q.limit = none → stop = false ∧
        t'.nodes + 2 * t.solutions + 1 = t.nodes + 2 * t'.solutions) where
  solution {m t r} _ _ _ := by
    refine ⟨rfl, fun hlimit => ⟨by rw [isEnough, hlimit], ?_⟩⟩
    simp only [Tally.solved, Tally.visited]
    omega
  stopped {m t t' x v} h hdecide hleft := by
    obtain ⟨_, _, _, hstop, _⟩ | ⟨_, _, _, hfailures, hrest⟩ := hleft
    · cases hstop
    · exact ⟨hfailures, fun hlimit => nomatch (hrest hlimit).1⟩
  branched {m m₁ t t₁ t' x v stop} h hdecide hleft hresumed hm₁ hright := by
    obtain ⟨hsplits, hreads, _⟩ := h.toCalm.decide?_spec h.vars_lt hdecide
    obtain ⟨hfix, _⟩ := enters h.store hsplits hreads
    obtain ⟨_, hremove⟩ := enters hm₁.store (hsplits.resumed hresumed.resumed)
      (hresumed.store.reads_iff.2 hreads)
    obtain ⟨_, _, hret, _⟩ | ⟨_, _, _, hfailures, hrest⟩ := hleft
    · cases h.branch_consistent hposted hnodup hfix hret
    obtain ⟨_, _, hret, _⟩ | ⟨_, _, _, hfailures', hrest'⟩ := hright
    · cases hm₁.branch_consistent hposted hnodup hremove hret
    refine ⟨hfailures'.trans hfailures, fun hlimit => ⟨(hrest' hlimit).1, ?_⟩⟩
    have hcount := (hrest hlimit).2
    have hcount' := (hrest' hlimit).2
    simp only [Tally.visited] at hcount
    omega

end Search

namespace Model

variable {m : Model AllDifferent}

/-- A search in a model with a single constraint, which is installed on variables with pairwise
distinct primitive variables, never fails once its first run did not.  Without a limit it visits one
node less than twice the number of solutions.  The search gets a tally if the values of the decision
variables fit. -/
theorem Driven.searches_without_failures (h : Driven Call.Installs m .consistent)
    {p : AllDifferent} (hp : m.propagators = #[p])
    (hnodup : (p.graph.vars.toList.map m.store.source).Nodup) {q : Search} (hsuits : q.Suits m)
    {ρ : Type} (observe : Model AllDifferent → ρ) :
    (q.Reads m → ∃ answer, q.solve (fun m => .ok (observe m)) m = .ok answer) ∧
      ∀ t m' m₁, q.solve (fun m => .ok (observe m)) m = .ok (t, m') →
        m.fixpoint = .ok (.consistent, m₁) →
        t.failures = 0 ∧ (q.limit = none → t.nodes + 1 = 2 * t.solutions) := by
  have hkept := h.kept
  have hposted : m.posted = [p.graph.vars.toList] := by rw [posted, hp]; rfl
  obtain ⟨htotal, hcases⟩ := Search.solve_cases (hkept.poised rfl) hkept.secured hsuits
    (Search.recounts_binary observe hposted hnodup)
  refine ⟨htotal, fun t m' m₁ hsolve hfirst => ?_⟩
  obtain ⟨why, m₂, hfailed, _⟩ | ⟨m₂, stop, _, ⟨hfailures, hcount⟩, _⟩ := hcases t m' hsolve
  · cases hfirst.symm.trans hfailed
  · refine ⟨hfailures, fun hlimit => ?_⟩
    have hcount := (hcount hlimit).2
    simp only [Tally.zero] at hcount
    omega

/-- Three variables are decided on, one of them by a view and two with the help of hints. -/
theorem Driven.searches_without_failures_shifted : ∃ m p t m₁ m',
    (Model.empty .lastFirst).driveAll Call.Installs .consistent
      (shifted ++ [.install [⟨0⟩, ⟨3⟩, ⟨2⟩] .usual]) = .ok (.consistent, m) ∧
    m.propagators = #[p] ∧ m.fixpoint = .ok (.consistent, m₁) ∧
    (⟨[⟨0⟩, ⟨3⟩], .hinted, none⟩ : Search).solve (fun m => .ok (m.store.size ⟨1⟩)) m =
      .ok (t, m') ∧ t.failures = 0 ∧ t.nodes + 1 = 2 * t.solutions := by
  have hrun : ((Model.empty .lastFirst).driveAll Call.Installs .consistent
      (shifted ++ [.install [⟨0⟩, ⟨3⟩, ⟨2⟩] .usual]) >>= fun r =>
        (⟨[⟨0⟩, ⟨3⟩], .hinted, none⟩ : Search).solve (fun m => .ok (m.store.size ⟨1⟩)) r.2 >>=
        fun _ => r.2.fixpoint >>= fun answer => [⟨0⟩, ⟨3⟩].mapM r.2.store.size >>=
        fun sizes => .ok (r.1, answer.1, sizes, decide (r.2.propagators.size = 1 ∧
          (r.2.propagators.all fun p =>
            decide (p.graph.vars.toList.map r.2.store.source).Nodup) = true))) =
      .ok (.consistent, .consistent, [2, 2], true) := by decide +kernel
  obtain ⟨⟨last, m⟩, hm, hrun⟩ := bind_eq_ok_iff.1 hrun
  obtain ⟨⟨t, m'⟩, hsolve, hrun⟩ := bind_eq_ok_iff.1 hrun
  obtain ⟨⟨v, m₁⟩, hret, hrun⟩ := bind_eq_ok_iff.1 hrun
  obtain ⟨sizes, hsizes, heq⟩ := bind_eq_ok_iff.1 hrun
  injection heq with heq
  simp only [Prod.mk.injEq, decide_eq_true_eq, Array.all_eq_true] at heq
  obtain ⟨rfl, rfl, rfl, hsize, hnodup⟩ := heq
  obtain ⟨p, hp⟩ := Array.size_eq_one_iff.1 hsize
  have hnodup : (p.graph.vars.toList.map m.store.source).Nodup := by
    have hfirst := hnodup 0 (by omega)
    simp only [hp] at hfirst
    exact hfirst
  have hdriven : Driven Call.Installs m .consistent := (Driven.start .lastFirst).driveAll hm
  have hsuits : (⟨[⟨0⟩, ⟨3⟩], .hinted, none⟩ : Search).Suits m :=
    Search.suits_of_sizes hdriven.reached.guarded.store hsizes (by decide)
  obtain ⟨hfailures, hcount⟩ := (Driven.searches_without_failures hdriven hp hnodup hsuits
    fun m => m.store.size ⟨1⟩).2 t m' m₁ hsolve hret
  exact ⟨m, p, t, m₁, m', hm, hp, hret, hsolve, hfailures, hcount rfl⟩

end Model

end FiniteDomain
