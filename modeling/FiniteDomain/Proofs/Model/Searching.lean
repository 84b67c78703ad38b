import FiniteDomain.Search
import FiniteDomain.Proofs.Model.Resuming

/-!
# Walking through the nodes of a search

A search comes back from every node with the model as it was, and what it finds at a node depends on
what it finds on its branches.

* `Nodes` gathers what has to be known of the nodes: `I` holds at every node, `J` wherever a level is
  restored, and `E` of the faults that can happen.
* `Recounts` is what has to be shown of a relation `P` between a node, the tally before it, whether
  the search has to stop after it, and the tally then.
* `Nodes.explore_cases` and `Nodes.solve_cases` lift that to the whole search.  The domains weigh less
  on each branch than at the node, so that the turns suffice.
-/

namespace FiniteDomain.Search

variable {π ρ : Type} {m m' : Model π} {E : Fault → Prop} {I J : Model π → Prop}
  {q : Search} {observe : Model π → Except Fault ρ} {t t' : Tally ρ}

/-- A part of a search ends with the model where it stood, or with a fault. -/
def Ends (I : Model π → Prop) (E : Fault → Prop) (m : Model π) (P : Bool → Tally ρ → Prop)
    (result : Except Fault (Bool × Model π × Tally ρ)) : Prop :=
  (∃ stop m' t', result = .ok (stop, m', t') ∧ P stop t' ∧ m.Resumed m' ∧ I m') ∨
    ∃ fault, result = .error fault ∧ E fault

variable [Propagator π]

/-! ## What is known of the nodes -/

/-- What becomes of a branch: it is a lighter node, or it has failed, or there was a fault. -/
def Opens (I J : Model π → Prop) (E : Fault → Prop)
    (narrow : Model π → Except Fault (Verdict × Model π)) (m : Model π) : Prop :=
  (∃ m₁, attempt narrow m.save = .ok (.consistent, m₁) ∧ I m₁ ∧ m.save.Keeps m₁ ∧
    m₁.store.weight < m.store.weight) ∨
  (∃ why m₁, attempt narrow m.save = .ok (.failed why, m₁) ∧ J m₁ ∧ m.save.Keeps m₁) ∨
  ∃ fault, attempt narrow m.save = .error fault ∧ E fault

/-- What is known of the nodes of a search. -/
structure Nodes (q : Search) (observe : Model π → Except Fault ρ) (I J : Model π → Prop)
    (E : Fault → Prop) : Prop where
  tallied : ∀ {m : Model π}, J m → m.Tallied
  node : ∀ {m : Model π}, I m → J m
  saves : ∀ {m : Model π}, I m → I m.save
  decides : ∀ {m : Model π}, I m →
    (∃ fault, q.decide? m = .error fault ∧ E fault) ∨ q.decide? m = .ok none ∨
    ∃ x v, q.decide? m = .ok (some (x, v)) ∧ ∀ m', m.Resumed m' → I m' →
      Opens I J E (·.fix x v) m' ∧ Opens I J E (·.remove x v) m'
  observes : ∀ {m : Model π}, I m → (∃ r, observe m = .ok r) ∨
    ∃ fault, observe m = .error fault ∧ E fault
  restores : ∀ {m m₁ m' : Model π}, I m → J m₁ → m.save.Keeps m₁ → m₁.restore = .ok m' → I m'

/-! ## What is shown of them -/

/-- A branch failed and is counted, or it was explored as a node. -/
def Branched (I : Model π → Prop) (P : Model π → Tally ρ → Bool → Tally ρ → Prop)
    (narrow : Model π → Except Fault (Verdict × Model π)) (m : Model π) (t : Tally ρ) (stop : Bool)
    (t' : Tally ρ) : Prop :=
  (∃ why m₁, attempt narrow m.save = .ok (.failed why, m₁) ∧ stop = false ∧ t' = t.failed) ∨
    ∃ m₁, attempt narrow m.save = .ok (.consistent, m₁) ∧ I m₁ ∧ P m₁ t stop t'

/-- The relation `P` holds at a solution, and at a node if it holds on its branches. -/
structure Recounts (q : Search) (observe : Model π → Except Fault ρ) (I : Model π → Prop)
    (P : Model π → Tally ρ → Bool → Tally ρ → Prop) : Prop where
  solution : ∀ {m : Model π} {t : Tally ρ} {r : ρ}, I m → q.decide? m = .ok none →
    observe m = .ok r → P m t (q.isEnough (t.visited.solved r)) (t.visited.solved r)
  stopped : ∀ {m : Model π} {t t' : Tally ρ} {x : Var} {v : Int}, I m →
    q.decide? m = .ok (some (x, v)) → Branched I P (·.fix x v) m t.visited true t' → P m t true t'
  branched : ∀ {m m₁ : Model π} {t t₁ t' : Tally ρ} {x : Var} {v : Int} {stop : Bool}, I m →
    q.decide? m = .ok (some (x, v)) → Branched I P (·.fix x v) m t.visited false t₁ →
    m.Resumed m₁ → I m₁ → Branched I P (·.remove x v) m₁ t₁ stop t' → P m t stop t'

/-! ## The search -/

namespace Nodes

variable {P : Model π → Tally ρ → Bool → Tally ρ → Prop}

/-- A branch is explored on a level of its own. -/
theorem branch_cases (h : Nodes q observe I J E)
    {go : Model π → Tally ρ → Except Fault (Bool × Model π × Tally ρ)}
    {narrow : Model π → Except Fault (Verdict × Model π)} (hm : I m) (hopens : Opens I J E narrow m)
    (hgo : ∀ m₁ t, I m₁ → m₁.store.weight < m.store.weight → Ends I E m₁ (P m₁ t) (go m₁ t))
    (t : Tally ρ) : Ends I E m (Branched I P narrow m t) (branch go narrow m t) := by
  have hback : ∀ {m₁ : Model π}, J m₁ → m.save.Keeps m₁ →
      ∃ m', m₁.restore = .ok m' ∧ m.Resumed m' ∧ I m' := by
    intro m₁ hm₁ hkeeps
    obtain ⟨m', hret, _, hresumed⟩ := (h.tallied (h.node hm)).resumes (h.tallied hm₁) hkeeps
    exact ⟨m', hret, hresumed, h.restores hm hm₁ hkeeps hret⟩
  unfold branch
  obtain ⟨m₁, hret, hm₁, hkeeps, hlt⟩ | ⟨why, m₁, hret, hm₁, hkeeps⟩ | ⟨fault, hret, hfault⟩ := hopens
  · rw [hret, ok_bind]
    obtain ⟨stop, m₂, t', hexplore, hP, hresumed, hm₂⟩ | ⟨fault, hexplore, hfault⟩ := hgo m₁ t hm₁ hlt
    · obtain ⟨m', hrestore, hback⟩ :=
        hback (h.node hm₂) (hkeeps.trans hresumed.toSameBelow.keeps)
      dsimp only
      rw [hexplore, ok_bind]
      dsimp only
      rw [hrestore]
      exact Or.inl ⟨stop, m', t', rfl, Or.inr ⟨m₁, hret, hm₁, hP⟩, hback⟩
    · dsimp only
      rw [hexplore]
      exact Or.inr ⟨fault, rfl, hfault⟩
  · obtain ⟨m', hrestore, hback⟩ := hback hm₁ hkeeps
    rw [hret, ok_bind]
    dsimp only
    rw [hrestore]
    exact Or.inl ⟨false, m', t.failed, rfl, Or.inl ⟨why, m₁, hret, rfl, rfl⟩, hback⟩
  · rw [hret]
    exact Or.inr ⟨fault, rfl, hfault⟩

/-- A node is explored.  The induction is on the turns, of which there are more than the weight of
the domains. -/
theorem explore_cases (h : Nodes q observe I J E) (hP : Recounts q observe I P) {fuel : Nat}
    (hm : I m) (hfuel : m.store.weight < fuel) (t : Tally ρ) :
    Ends I E m (P m t) (q.explore observe fuel m t) := by
  induction fuel generalizing m t with
  | zero => exact absurd hfuel (Nat.not_lt_zero _)
  | succ fuel ih =>
    rw [explore]
    obtain ⟨fault, hdecide, hfault⟩ | hdecide | ⟨x, v, hdecide, hopens⟩ := h.decides hm
    · rw [hdecide]
      exact Or.inr ⟨fault, rfl, hfault⟩
    · rw [hdecide, ok_bind]
      obtain ⟨r, hobserve⟩ | ⟨fault, hobserve, hfault⟩ := h.observes hm
      · dsimp only
        rw [hobserve]
        exact Or.inl ⟨_, m, _, rfl, hP.solution hm hdecide hobserve, .refl m, hm⟩
      · dsimp only
        rw [hobserve]
        exact Or.inr ⟨fault, rfl, hfault⟩
    · have hgo : ∀ m₁ t, I m₁ → m₁.store.weight < m.store.weight →
          Ends I E m₁ (P m₁ t) (q.explore observe fuel m₁ t) :=
        fun m₁ t hm₁ hlt => ih hm₁ (by omega) t
      rw [hdecide, ok_bind]
      dsimp only
      obtain ⟨stop, m₁, t₁, hleft, hP₁, hresumed, hm₁⟩ | ⟨fault, hleft, hfault⟩ :=
        h.branch_cases hm (hopens m (.refl m) hm).1 hgo t.visited
      · rw [hleft, ok_bind]
        cases stop with
        | true => exact Or.inl ⟨true, m₁, t₁, rfl, hP.stopped hm hdecide hP₁, hresumed, hm₁⟩
        | false =>
          obtain ⟨stop, m₂, t', hright, hP₂, hresumed', hm₂⟩ | ⟨fault, hright, hfault⟩ :=
            h.branch_cases hm₁ (hopens m₁ hresumed hm₁).2
              (fun m₂ t hm₂ hlt => hgo m₂ t hm₂ (hresumed.resumed.weight_eq ▸ hlt)) t₁
          · exact Or.inl ⟨stop, m₂, t', hright, hP.branched hm hdecide hP₁ hresumed hm₁ hP₂,
              hresumed.trans hresumed', hm₂⟩
          · exact Or.inr ⟨fault, hright, hfault⟩
      · rw [hleft]
        exact Or.inr ⟨fault, rfl, hfault⟩

/-- A search whose first run did not fail gets a tally, with the model as it was after that run. -/
theorem solve_cases (h : Nodes q observe I J E) (hP : Recounts q observe I P)
    (hret : m.fixpoint = .ok (.consistent, m')) (hm' : I m') :
    (∃ t m'' stop, q.solve observe m = .ok (t, m'') ∧ P m'.save .zero stop t ∧ m'.Resumed m'' ∧
      I m'') ∨ ∃ fault, q.solve observe m = .error fault ∧ E fault := by
  rw [solve, hret, ok_bind]
  have hweight := (h.tallied (h.node hm')).store.weight_le_capacity
  have hbound : 0 < Word.countBound := by decide
  have hfuel : m'.save.store.weight < m'.capacity + Word.countBound :=
    Nat.lt_of_le_of_lt hweight (Nat.lt_add_of_pos_right hbound)
  obtain ⟨stop, m₁, t, hexplore, hP, hresumed, hm₁⟩ | ⟨fault, hexplore, hfault⟩ :=
    h.explore_cases hP (h.saves hm') hfuel .zero
  · obtain ⟨m'', hrestore, _, hresumed'⟩ :=
      (h.tallied (h.node hm')).resumes (h.tallied (h.node hm₁)) hresumed.toSameBelow.keeps
    refine Or.inl ⟨t, m'', stop, ?_, hP, hresumed',
      h.restores hm' (h.node hm₁) hresumed.toSameBelow.keeps hrestore⟩
    dsimp only
    rw [hexplore, ok_bind]
    dsimp only
    rw [hrestore]
    rfl
  · dsimp only
    rw [hexplore]
    exact Or.inr ⟨fault, rfl, hfault⟩

end Nodes

end FiniteDomain.Search
