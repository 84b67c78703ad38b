import FiniteDomain.Proofs.AllDifferent.Attachment
import Mathlib.Algebra.GroupWithZero.Nat

/-!
# Room for a constraint

A constraint can be added unless a number is too large: the values of its variables have to fit into
a word, and so have the numbers of its edges, of all constraints and of all conditions.

* `new_total` makes a propagator, and `Guarded.exists_enlist` adds it to a model.
* `Model.HasRoom` gathers what has to fit: `HasRoom.exists_enlist`.
-/

namespace FiniteDomain

/-- A count that fits can be raised. -/
theorem Store.increment_total {s : Store} (h : s.Sound) {c : Cell} (hhas : s.trail.now.Has c)
    (hfree : s.Free c) {n : Nat} (hn : s.trail.now.get c = n) (hle : (n : Int) < Word.greatest) :
    ∃ s', s.increment c = .ok ((n : Int) + 1, s') := by
  obtain ⟨t, hinc⟩ := exists_increment h.trail hhas hfree.not_isSetCell hn hle
  exact ⟨{ s with trail := t }, by rw [increment, onTrail_eq, hinc]; rfl⟩

namespace AllDifferent

open ValueGraph

variable {s : Store} {vars : List Var} {options : Options}

/-! ## The value graph -/

namespace ValueGraph

theorem Draft.size_addEdge (x : Nat) (d : Draft) (u : Int) :
    (d.addEdge x u).edgeVar.size = d.edgeVar.size + 1 := by
  rw [Draft.addEdge]
  split
  · exact Array.size_push ..
  · exact Array.size_push ..

theorem Draft.size_foldl_addEdge (x : Nat) (row : List Int) (d : Draft) :
    (row.foldl (Draft.addEdge x) d).edgeVar.size = d.edgeVar.size + row.length := by
  induction row generalizing d with
  | nil => rfl
  | cons u row ih =>
    rw [List.foldl_cons, ih, Draft.size_addEdge, List.length_cons]
    omega

/-- A variable whose values fit can be read. -/
theorem Draft.exists_addVar (hs : s.Sound) {x : Var} (hx : x.index < s.definitions.size)
    (hread : s.Readable x) (d : Draft) :
    ∃ d', Draft.addVar s d x = .ok d' ∧ d'.edgeVar.size = d.edgeVar.size + (s.view x).card := by
  obtain ⟨b, _, hsource, _⟩ := hs.exists_base hx
  obtain ⟨row, hvalues, hnodup, hmem⟩ := Store.values_eq hs hx hread
  have hcard : (s.view x).card = row.length := by
    rw [← List.toFinset_card_of_nodup hnodup]
    refine congrArg Finset.card (Finset.ext fun u => ?_)
    rw [List.mem_toFinset, hmem]
  have hsource' : s.source x = .ok b.var := by
    rw [Store.source, hsource]
    rfl
  rw [Draft.addVar, hsource', ok_bind, hvalues, ok_bind, hcard]
  exact ⟨_, rfl, Draft.size_foldl_addEdge ..⟩

/-- All variables can be read if their values fit. -/
theorem Draft.exists_foldlM (hs : s.Sound) (hvars : ∀ x ∈ vars, x.index < s.definitions.size)
    (hread : ∀ x ∈ vars, s.Readable x) (d : Draft) :
    ∃ d', vars.foldlM (Draft.addVar s) d = .ok d' ∧
      d'.edgeVar.size = d.edgeVar.size + (vars.map fun x => (s.view x).card).sum := by
  induction vars generalizing d with
  | nil => exact ⟨d, rfl, rfl⟩
  | cons x rest ih =>
    obtain ⟨d₁, hadd, hsize⟩ := Draft.exists_addVar hs (hvars x (List.mem_cons_self ..))
      (hread x (List.mem_cons_self ..)) d
    obtain ⟨d', hrest, hsize'⟩ := ih (fun y hy => hvars y (List.mem_cons_of_mem _ hy))
      (fun y hy => hread y (List.mem_cons_of_mem _ hy)) d₁
    refine ⟨d', ?_, ?_⟩
    · rw [List.foldlM_cons, hadd, ok_bind]
      exact hrest
    · rw [hsize', hsize, List.map_cons, List.sum_cons]
      omega

end ValueGraph

/-- A propagator can be made if the values of its variables fit, and the numbers of its edges and
variables. -/
theorem exists_new (options : Options) (hs : s.Sound)
    (hvars : ∀ x ∈ vars, x.index < s.definitions.size)
    (hread : ∀ x ∈ vars, s.Readable x)
    (hedges : ((vars.map fun x => (s.view x).card).sum : Int) ≤ Word.greatest)
    (hlength : (vars.length : Int) ≤ Word.greatest) :
    ∃ p s', AllDifferent.new s vars.toArray options = .ok (p, s') := by
  have hcheck : ∀ n : Nat, (n : Int) ≤ Word.greatest → Word.check n = .ok (n : Int) := by
    intro n hn
    refine Word.check_of_inRange ⟨?_, hn⟩
    unfold Word.least
    omega
  obtain ⟨d, hread, hsize⟩ := Draft.exists_foldlM hs hvars hread Draft.empty
  have hsize : d.edgeVar.size = (vars.map fun x => (s.view x).card).sum := by
    rw [hsize]
    exact Nat.zero_add _
  have hbuild : ∃ g s', ValueGraph.build s vars.toArray = .ok (g, s') := by
    rw [ValueGraph.build, List.foldlM_toArray, hread, ok_bind, hsize, hcheck _ hedges, ok_bind,
      List.size_toArray, hcheck _ hlength, ok_bind]
    exact ⟨_, _, rfl⟩
  obtain ⟨g, s', hg⟩ := hbuild
  rw [AllDifferent.new, hg, ok_bind]
  exact ⟨_, _, rfl⟩

end AllDifferent

/-! ## Models -/

namespace Model

open AllDifferent

variable {π : Type} {m : Model π} {c : Constraint}

namespace Tallied

/-- A propagator can be posted while their number fits. -/
theorem exists_post (h : m.Tallied) (hle : (m.propagators.size : Int) < Word.greatest) (p : π) :
    ∃ answer, m.post p = .ok answer := by
  obtain ⟨s, hs⟩ := Store.increment_total h.store h.now.has_propagators h.propagatorCount_free
    h.get_propagators hle
  have hcount : m.onStore (·.increment m.propagatorCount) =
      .ok ((m.propagators.size : Int) + 1, { m with store := s }) :=
    onStore_eq_ok_iff.2 ⟨s, hs, rfl⟩
  rw [post, hcount, ok_bind]
  dsimp only
  rw [Word.sub_one_of_lt_greatest hle, ok_bind]
  exact ⟨_, rfl⟩

/-- A constraint can be made to listen while the number of conditions fits. -/
theorem exists_listen (h : m.Tallied) (c : Constraint) (kind : Condition.Kind) {x : Var}
    (hx : x.index < m.store.definitions.size)
    (hle : (m.conditions.size : Int) < Word.greatest) :
    ∃ m', m.listen c kind x = .ok m' ∧ m'.conditions.size ≤ m.conditions.size + 1 := by
  obtain ⟨b, _, hsource, _⟩ := h.store.exists_base hx
  have hsource' : m.store.source x = .ok b.var := by
    rw [Store.source, hsource]
    rfl
  by_cases hlistens : c ∈ m.listening ⟨kind, b.var⟩
  · refine ⟨m, ?_, Nat.le_succ _⟩
    rw [listen, hsource', ok_bind]
    exact if_pos hlistens
  · obtain ⟨s, hs⟩ := Store.increment_total h.store h.now.has_conditions h.conditionCount_free
      h.get_conditions hle
    have hcount : m.onStore (·.increment m.conditionCount) =
        .ok ((m.conditions.size : Int) + 1, { m with store := s }) :=
      onStore_eq_ok_iff.2 ⟨s, hs, rfl⟩
    refine ⟨{ m with
      store := s
      listeners := Listeners.add m.listeners ⟨kind, b.var⟩ c
      conditions := m.conditions.push (⟨kind, b.var⟩, c) }, ?_, ?_⟩
    · rw [listen, hsource', ok_bind]
      dsimp only
      rw [if_neg hlistens, hcount]
      rfl
    · exact (Array.size_push ..).le

end Tallied

namespace Guarded

variable {m : Model AllDifferent} {vars : List Var} {options : Options}

/-- A constraint can be made to listen to several variables while the number of conditions fits. -/
theorem exists_listenAll (h : m.Guarded) (hc : c.index < m.propagators.size)
    (hvars : ∀ x ∈ vars, x.index < m.store.definitions.size)
    (hle : (m.conditions.size : Int) + vars.length ≤ Word.greatest) :
    ∃ m', listenAll c vars m = .ok m' := by
  induction vars generalizing m with
  | nil => exact ⟨m, rfl⟩
  | cons x rest ih =>
    rw [List.length_cons] at hle
    obtain ⟨m₁, hlisten, hsize⟩ := h.toTallied.exists_listen c .domainChanged
      (hvars x (List.mem_cons_self ..)) (by omega)
    obtain ⟨hextends, hsame, _⟩ := h.listen_eq hc hlisten
    obtain ⟨m', hrest⟩ := ih hextends.guarded (by rw [hsame]; exact hc)
      (fun y hy => Nat.lt_of_lt_of_le (hvars y (List.mem_cons_of_mem _ hy))
        hextends.definitions_le) (by omega)
    refine ⟨m', ?_⟩
    rw [listenAll, hlisten, ok_bind]
    exact hrest

/-- A propagator that was made can be added to the model while the numbers of constraints and
conditions fit. -/
theorem exists_enlist (h : m.Guarded) (hvars : ∀ x ∈ vars, x.index < m.store.definitions.size)
    {p : AllDifferent} {s : Store} (hnew : AllDifferent.new m.store vars.toArray options = .ok (p, s))
    (hpropagators : (m.propagators.size : Int) < Word.greatest)
    (hconditions : (m.conditions.size : Int) + vars.length ≤ Word.greatest) :
    ∃ m', m.enlist id vars options = .ok m' := by
  have hmade : m.onStore (fun s => AllDifferent.new s vars.toArray options) =
      .ok (p, { m with store := s }) := onStore_eq_ok_iff.2 ⟨s, hnew, rfl⟩
  have hcreated := AllDifferent.new_eq h.store (fun x hx => hvars x (List.mem_toArray.1 hx)) hnew
  have hgrown := h.of_grown hcreated.grown
  obtain ⟨⟨c, m₁⟩, hpost⟩ := hgrown.toTallied.exists_post hpropagators p
  have hadd : m.add vars options = .ok (c, m₁) := by
    rw [add, hmade, ok_bind]
    exact hpost
  obtain ⟨q, s₁, hadded⟩ := h.add_eq hvars hadd
  have hdefinitions : s₁.definitions.size ≤ m₁.store.definitions.size := by
    rw [hadded.wrote.definitions_eq]
  obtain ⟨m₂, hlisten⟩ := hadded.guarded.exists_listenAll (c := c)
    (by
      rw [hadded.constraint_eq, hadded.model_eq]
      exact (Array.size_push ..).symm ▸ Nat.lt_succ_self _)
    (fun x hx => Nat.lt_of_lt_of_le (hvars x hx)
      (Nat.le_trans hadded.created.grown.definitions_le hdefinitions))
    (by
      rw [hadded.model_eq]
      exact hconditions)
  refine ⟨m₂.schedule c, ?_⟩
  rw [enlist_eq, attach, hadd, ok_bind]
  dsimp only
  rw [hlisten]
  rfl

end Guarded

/-- What has to fit into a word for a constraint on the variables. -/
structure HasRoom (m : Model AllDifferent) (vars : List Var) : Prop where
  readable : ∀ x ∈ vars, m.store.Readable x
  edges_le : ((vars.map fun x => (m.store.view x).card).sum : Int) ≤ Word.greatest
  vars_le : (vars.length : Int) ≤ Word.greatest
  propagators_lt : (m.propagators.size : Int) < Word.greatest
  conditions_le : (m.conditions.size : Int) + vars.length ≤ Word.greatest

/-- A constraint for which there is room can be added. -/
theorem HasRoom.exists_enlist {m : Model AllDifferent} {vars : List Var} (h : m.HasRoom vars)
    (hm : m.Guarded) (hvars : ∀ x ∈ vars, x.index < m.store.definitions.size) (options : Options) :
    ∃ m', m.enlist id vars options = .ok m' := by
  obtain ⟨p, s, hnew⟩ := exists_new options hm.store hvars h.readable h.edges_le
    h.vars_le
  exact hm.exists_enlist hvars hnew h.propagators_lt h.conditions_le

end Model

end FiniteDomain
