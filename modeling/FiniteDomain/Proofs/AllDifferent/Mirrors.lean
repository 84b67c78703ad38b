import FiniteDomain.AllDifferent.Propagation
import FiniteDomain.Proofs.AllDifferent.Graph
import FiniteDomain.Proofs.Store.Mirrors

/-!
# Working in step on one value graph

The steps of a run that do not look at the tags do the same in two stores that mirror each other: the
cells of the value graph are not hidden, so they see the same graph and the same matching.

* `ValueGraph.Shown` says that no cell of a graph is hidden.  Questions about the graph are answered in
  step, and its cells are written in step.
* `Sync.Mirrors` relates two states of the forward check, and `Shown.forwardCheck` is the whole of it.
* `Shown.greedy` and `Shown.augment` find the same matching, and `Shown.compute` reaches the same
  variables.
-/

namespace FiniteDomain.AllDifferent

variable {hidden hidden' : Cell → Prop} {s s' : Store} {g : ValueGraph}

namespace ValueGraph

/-- No cell of the graph is hidden. -/
structure Shown (hidden : Cell → Prop) (g : ValueGraph) : Prop where
  live : ∀ c ∈ g.live, ¬ hidden c
  liveTotal : ¬ hidden g.liveTotal
  activeTotal : ¬ hidden g.activeTotal
  mates : ∀ c ∈ g.mates, ¬ hidden c
  owners : ∀ c ∈ g.owners, ¬ hidden c

theorem Shown.of_owns (h : ∀ c, g.Owns c → ¬ hidden c) : g.Shown hidden where
  live c hc := by
    obtain ⟨v, hv⟩ := Array.mem_iff_getElem?.1 hc
    exact h c ⟨.live v, hv⟩
  liveTotal := h _ ⟨.liveTotal, rfl⟩
  activeTotal := h _ ⟨.activeTotal, rfl⟩
  mates c hc := by
    obtain ⟨x, hx⟩ := Array.mem_iff_getElem?.1 hc
    exact h c ⟨.mate x, hx⟩
  owners c hc := by
    obtain ⟨v, hv⟩ := Array.mem_iff_getElem?.1 hc
    exact h c ⟨.owner v, hv⟩

theorem Shown.not_hidden (hg : g.Shown hidden) {c : Cell} (hc : g.Owns c) : ¬ hidden c := by
  obtain ⟨r, hr⟩ := hc
  cases r with
  | live v => exact hg.live c (Array.mem_of_getElem? hr)
  | liveTotal =>
    cases hr
    exact hg.liveTotal
  | activeTotal =>
    cases hr
    exact hg.activeTotal
  | mate x => exact hg.mates c (Array.mem_of_getElem? hr)
  | owner v => exact hg.owners c (Array.mem_of_getElem? hr)

/-- Something is done with one of several cells that are not hidden. -/
theorem on_cell {α β : Type} {R : α → β → Prop} {f : Cell → Except Fault α}
    {f' : Cell → Except Fault β} {cells : Array Cell} (hcells : ∀ c ∈ cells, ¬ hidden c) (i : Nat)
    (hf : ∀ c, ¬ hidden c → InStep R (f c) (f' c)) :
    InStep R (fetch cells i >>= f) (fetch cells i >>= f') := by
  refine (InStep.fetch cells i).bind_of_eq fun c _ hc _ hsame => ?_
  subst hsame
  exact hf c (hcells c (Array.mem_of_getElem? (fetch_eq_ok_iff.1 hc)))

/-! ## Questions about the graph alone -/

theorem sharers_inStep (g : ValueGraph) (x : Nat) : InStep Eq (g.sharers x) (g.sharers x) :=
  (InStep.fetch _ _).andThen fun _ => .ok rfl

theorem edgesOf_inStep (g : ValueGraph) (x : Nat) : InStep Eq (g.edgesOf x) (g.edgesOf x) :=
  (InStep.fetch _ _).andThen fun _ => (InStep.fetch _ _).andThen fun _ => .ok rfl

theorem liveVar_inStep (g : ValueGraph) (v k : Nat) : InStep Eq (g.liveVar v k) (g.liveVar v k) :=
  (InStep.fetch _ _).andThen fun _ => (InStep.fetch _ _).andThen fun _ => .fetch _ _

namespace Shown

/-! ## Questions about the cells -/

theorem liveEdges (hg : g.Shown hidden) (h : s.Mirrors hidden s') :
    InStep Eq (g.liveEdges s) (g.liveEdges s') :=
  h.readCount hg.liveTotal

theorem liveCount (hg : g.Shown hidden) (h : s.Mirrors hidden s') (v : Nat) :
    InStep Eq (g.liveCount s v) (g.liveCount s' v) :=
  on_cell hg.live v fun _ => h.readCount

theorem liveVars (hg : g.Shown hidden) (h : s.Mirrors hidden s') (v : Nat) :
    InStep Eq (g.liveVars s v) (g.liveVars s' v) :=
  (InStep.fetch _ _).andThen fun _ => (hg.liveCount h v).andThen fun _ =>
    (InStep.addCount _ _).andThen fun _ =>
      .ite (fun _ => .error (by decide)) fun _ => .mapM fun _ _ => .fetch _ _

theorem isLive (hg : g.Shown hidden) (h : s.Mirrors hidden s') (e : Nat) :
    InStep Eq (g.isLive s e) (g.isLive s' e) :=
  (InStep.fetch _ _).andThen fun v => (InStep.fetch _ _).andThen fun _ =>
    (InStep.fetch _ _).andThen fun _ => (hg.liveCount h v).andThen fun _ =>
      (InStep.addCount _ _).andThen fun _ => .ok rfl

theorem activeCount (hg : g.Shown hidden) (h : s.Mirrors hidden s') :
    InStep Eq (g.activeCount s) (g.activeCount s') :=
  h.readCount hg.activeTotal

theorem isActive (hg : g.Shown hidden) (h : s.Mirrors hidden s') (x : Nat) :
    InStep Eq (g.isActive s x) (g.isActive s' x) :=
  (InStep.fetch _ _).andThen fun _ => (hg.activeCount h).andThen fun _ => .ok rfl

theorem activeVars (hg : g.Shown hidden) (h : s.Mirrors hidden s') :
    InStep Eq (g.activeVars s) (g.activeVars s') :=
  (hg.activeCount h).andThen fun _ => .ite (fun _ => .error (by decide)) fun _ => .ok rfl

theorem mate? (hg : g.Shown hidden) (h : s.Mirrors hidden s') (x : Nat) :
    InStep Eq (g.mate? s x) (g.mate? s' x) :=
  on_cell hg.mates x fun _ hc => (h.read hc).andThen fun _ => .ok rfl

theorem owner? (hg : g.Shown hidden) (h : s.Mirrors hidden s') (v : Nat) :
    InStep Eq (g.owner? s v) (g.owner? s' v) :=
  on_cell hg.owners v fun _ hc => (h.read hc).andThen fun _ => .ok rfl

theorem isFree (hg : g.Shown hidden) (h : s.Mirrors hidden s') (v : Nat) :
    InStep Eq (g.isFree s v) (g.isFree s' v) := by
  refine (hg.owner? h v).andThen fun owner => ?_
  cases owner with
  | none => exact (hg.liveCount h v).andThen fun _ => .ok rfl
  | some x => exact .ok rfl

/-! ## Changes of the graph -/

theorem assignMate (h : s.Mirrors hidden s') (g : ValueGraph) (x v : Nat) :
    InStep (Store.Mirrors hidden) (g.assignMate s x v) (g.assignMate s' x v) :=
  (InStep.fetch _ _).andThen fun _ => (h.write _ _).bind fun _ _ h₁ =>
    (InStep.fetch _ _).andThen fun _ => h₁.write _ _

theorem releaseMate (hg : g.Shown hidden) (h : s.Mirrors hidden s') (x : Nat) :
    InStep (Store.Mirrors hidden) (g.releaseMate s x) (g.releaseMate s' x) := by
  refine (hg.mate? h x).andThen fun mate => ?_
  cases mate with
  | none => exact .ok h
  | some v =>
    exact (InStep.fetch _ _).andThen fun _ => (h.write _ _).bind fun _ _ h₁ =>
      (hg.owner? h₁ v).andThen fun _ =>
        .ite (fun _ => (InStep.fetch _ _).andThen fun _ => h₁.write _ _) fun _ => .ok h₁

/-- The two sides have the same graph, none of whose cells is hidden, and stores that mirror each
other. -/
def Paired (hidden : Cell → Prop) (r r' : ValueGraph × Store) : Prop :=
  r.1 = r'.1 ∧ r.1.Shown hidden ∧ r.2.Mirrors hidden r'.2

theorem unlink (hg : g.Shown hidden) (h : s.Mirrors hidden s') (e : Nat) :
    InStep (Paired hidden) (g.unlink s e) (g.unlink s' e) :=
  (InStep.fetch _ _).andThen fun v => (InStep.fetch _ _).andThen fun _ =>
    (hg.liveCount h v).andThen fun _ => (InStep.addCount _ _).andThen fun _ =>
      (InStep.subCount _ _).andThen fun _ => (InStep.fetch _ _).andThen fun _ =>
        (InStep.fetch _ _).andThen fun _ => on_cell hg.live v fun _ hc =>
          (h.decrement hc).bind fun _ _ h₁ => (h₁.2.decrement hg.liveTotal).bind fun _ _ h₂ =>
            .ok ⟨rfl, ⟨hg.live, hg.liveTotal, hg.activeTotal, hg.mates, hg.owners⟩, h₂.2⟩

theorem ground (hg : g.Shown hidden) (h : s.Mirrors hidden s') (x : Nat) :
    InStep (Paired hidden) (g.ground s x) (g.ground s' x) :=
  (hg.activeCount h).andThen fun _ => (InStep.subCount _ _).andThen fun _ =>
    (InStep.fetch _ _).andThen fun _ => (InStep.fetch _ _).andThen fun _ =>
      (h.decrement hg.activeTotal).bind fun _ _ h₁ =>
        .ok ⟨rfl, ⟨hg.live, hg.liveTotal, hg.activeTotal, hg.mates, hg.owners⟩, h₁.2⟩

end Shown

end ValueGraph

/-! ## New graphs -/

namespace ValueGraph

theorem addVar_inStep (h : s.Mirrors hidden s') (d : Draft) (x : Var) :
    InStep Eq (d.addVar s x) (d.addVar s' x) :=
  (h.source x).andThen fun _ => (h.values x).andThen fun _ => .ok rfl

/-- The same graph is built.  No cell of it is hidden. -/
theorem build_inStep (h : s.Mirrors hidden s') (vars : Array Var) :
    InStep (Shown.Paired hidden) (build s vars) (build s' vars) := by
  have hdraft : InStep Eq (vars.foldlM (Draft.addVar s) Draft.empty)
      (vars.foldlM (Draft.addVar s') Draft.empty) := by
    rw [← Array.foldlM_toList, ← Array.foldlM_toList]
    refine .foldlM rfl fun x _ d _ hsame => ?_
    subst hsame
    exact addVar_inStep h d x
  refine hdraft.andThen fun d => (InStep.check _).andThen fun edgeTotal =>
    (InStep.check _).andThen fun varTotal => ?_
  obtain ⟨⟨hlive, h₁⟩, live⟩ :=
    h.newCells (d.byValue.toList.map fun segment => (segment.size : Int))
  obtain ⟨hliveTotal, h₂⟩ := h₁.newCell edgeTotal
  obtain ⟨hactiveTotal, h₃⟩ := h₂.newCell varTotal
  obtain ⟨⟨hmates, h₄⟩, mates⟩ := h₃.newCells (List.replicate vars.size (-1))
  obtain ⟨⟨howners, h₅⟩, owners⟩ := h₄.newCells (List.replicate d.values.size (-1))
  have liveTotal := h₁.not_hidden_newCell edgeTotal
  have activeTotal := h₂.not_hidden_newCell varTotal
  -- The cells of both graphs are the same.
  dsimp only
  rw [← hlive, ← hliveTotal, ← hactiveTotal, ← hmates, ← howners]
  exact .ok ⟨rfl, ⟨live, liveTotal, activeTotal, mates, owners⟩, h₅⟩

end ValueGraph

/-! ## Forward checking -/

namespace Sync

/-- The two sides have the same graph, whose cells are not hidden, the same work and the same changes,
and stores that mirror each other. -/
inductive Mirrors (hidden : Cell → Prop) : Sync → Sync → Prop
  | intro {graph : ValueGraph} {store store' : Store} {work : Worklist} {changes : Changes}
      (hg : graph.Shown hidden) (h : store.Mirrors hidden store') :
      Mirrors hidden ⟨graph, store, work, changes⟩ ⟨graph, store', work, changes⟩

/-- The two sides give the same answer and states that mirror each other. -/
def Paired {α : Type} (hidden : Cell → Prop) (r r' : α × Sync) : Prop :=
  r.1 = r'.1 ∧ Mirrors hidden r.2 r'.2

namespace Mirrors

variable {y y' : Sync}

theorem graph_eq (h : Mirrors hidden y y') : y'.graph = y.graph := by
  obtain ⟨_, _⟩ := h
  rfl

theorem shown (h : Mirrors hidden y y') : y.graph.Shown hidden := by
  obtain ⟨hg, _⟩ := h
  exact hg

theorem store (h : Mirrors hidden y y') : y.store.Mirrors hidden y'.store := by
  obtain ⟨_, h⟩ := h
  exact h

theorem dropIfStale (h : Mirrors hidden y y') (x : Nat) (var : Var) (e : Nat) :
    InStep (Paired hidden) (y.dropIfStale x var e) (y'.dropIfStale x var e) := by
  obtain ⟨hg, h⟩ := h
  refine (InStep.fetch _ _).andThen fun v => (hg.isLive h e).andThen fun _ =>
    .ite (fun _ => .ok ⟨rfl, .intro hg h⟩) fun _ => (InStep.fetch _ _).andThen fun _ =>
      (h.contains _ _).andThen fun _ => .ite (fun _ => .ok ⟨rfl, .intro hg h⟩) fun _ =>
        (hg.unlink h e).bind ?_
  rintro ⟨graph, store⟩ ⟨_, store'⟩ ⟨rfl, hg₁, h₁⟩
  exact (hg₁.mate? h₁ x).andThen fun _ =>
    .ite (fun _ => (hg₁.releaseMate h₁ x).bind fun _ _ h₂ => .ok ⟨rfl, .intro hg₁ h₂⟩) fun _ =>
      .ok ⟨rfl, .intro hg₁ h₁⟩

theorem dropStale (h : Mirrors hidden y y') (x : Nat) (var : Var) (edges : List Nat) :
    InStep (Paired hidden) (dropStale x var edges y) (dropStale x var edges y') := by
  induction edges generalizing y y' with
  | nil => exact .ok ⟨rfl, h⟩
  | cons e rest ih =>
    rw [Sync.dropStale, Sync.dropStale]
    refine (h.dropIfStale x var e).bind ?_
    rintro ⟨dropped, y₁⟩ ⟨_, y₁'⟩ ⟨rfl, h₁⟩
    refine (ih h₁).bind ?_
    rintro ⟨more, y₂⟩ ⟨_, y₂'⟩ ⟨rfl, h₂⟩
    exact .ok ⟨rfl, h₂⟩

theorem takeValue (h : Mirrors hidden y y') (x a : Nat) :
    InStep (Mirrors hidden) (y.takeValue x a) (y'.takeValue x a) := by
  obtain ⟨hg, h⟩ := h
  refine (hg.mate? h x).andThen fun _ => .ite (fun _ => .ok (.intro hg h)) fun _ =>
    (hg.owner? h a).andThen fun owner => ?_
  cases owner with
  | none =>
    exact (hg.releaseMate h x).bind fun _ _ h₁ =>
      (ValueGraph.Shown.assignMate h₁ _ x a).bind fun _ _ h₂ => .ok (.intro hg h₂)
  | some owner =>
    exact (hg.releaseMate h owner).bind fun _ _ h₁ => (hg.releaseMate h₁ x).bind fun _ _ h₂ =>
      (ValueGraph.Shown.assignMate h₂ _ x a).bind fun _ _ h₃ => .ok (.intro hg h₃)

theorem retire (h : Mirrors hidden y y') (x : Nat) :
    InStep (Mirrors hidden) (y.retire x) (y'.retire x) := by
  obtain ⟨hg, h⟩ := h
  refine (hg.ground h x).bind ?_
  rintro ⟨graph, store⟩ ⟨_, store'⟩ ⟨rfl, hg₁, h₁⟩
  exact .ok (.intro hg₁ h₁)

theorem denyAll (h : Mirrors hidden y y') (value : Int) (others : List Nat) :
    InStep (Paired hidden) (denyAll value others y) (denyAll value others y') := by
  induction others generalizing y y' with
  | nil => exact .ok ⟨rfl, h⟩
  | cons z rest ih =>
    obtain ⟨hg, h⟩ := h
    rw [Sync.denyAll, Sync.denyAll]
    refine (InStep.fetch _ _).andThen fun var => (h.remove var value).bind ?_
    rintro ⟨verdict, store⟩ ⟨_, store'⟩ ⟨rfl, h₁⟩
    cases verdict with
    | failed why => exact .ok ⟨rfl, .intro hg h₁⟩
    | consistent => exact (ValueGraph.sharers_inStep _ z).andThen fun _ => ih (.intro hg h₁)

theorem settle (h : Mirrors hidden y y') (x : Nat) (var : Var) :
    InStep (Paired hidden) (y.settle x var) (y'.settle x var) := by
  rw [Sync.settle, Sync.settle, h.graph_eq]
  refine (h.store.min? var).andThen fun least => ?_
  cases least with
  | none => exact .ok ⟨rfl, h⟩
  | some value =>
    dsimp only
    cases y.graph.valueId? value with
    | none => exact .error (by decide)
    | some a =>
      refine (h.takeValue x a).bind fun y₁ y₁' h₁ => (h₁.retire x).bind fun y₂ y₂' h₂ => ?_
      rw [h₂.graph_eq]
      exact (h₂.shown.liveVars h₂.store a).andThen fun _ => h₂.denyAll value _

theorem touch (h : Mirrors hidden y y') (x : Nat) : Mirrors hidden (y.touch x) (y'.touch x) := by
  obtain ⟨hg, h⟩ := h
  exact .intro hg h

theorem visit (h : Mirrors hidden y y') (x : Nat) :
    InStep (Paired hidden) (y.visit x) (y'.visit x) := by
  rw [Sync.visit, Sync.visit, h.graph_eq]
  refine (h.shown.isActive h.store x).andThen fun _ => .ite (fun _ => .ok ⟨rfl, h⟩) fun _ =>
    (InStep.fetch _ _).andThen fun var => (ValueGraph.edgesOf_inStep _ x).andThen fun edges =>
      (h.dropStale x var edges).bind ?_
  rintro ⟨touched, y₁⟩ ⟨_, y₁'⟩ ⟨rfl, h₁⟩
  refine (h₁.store.size var).andThen fun size => .ite (fun _ => (h₁.settle x var).bind ?_)
    fun _ => .ok ⟨rfl, ?_⟩
  · rintro ⟨verdict, y₂⟩ ⟨_, y₂'⟩ ⟨rfl, h₂⟩
    cases verdict with
    | failed why => exact .ok ⟨rfl, h₂⟩
    | consistent => exact .ok ⟨rfl, h₂.touch x⟩
  · cases touched with
    | false => exact h₁
    | true => exact h₁.touch x

theorem run (h : Mirrors hidden y y') (fuel : Nat) :
    InStep (Paired hidden) (run fuel y) (run fuel y') := by
  induction fuel generalizing y y' with
  | zero => exact .error (by decide)
  | succ fuel ih =>
    obtain ⟨hg, h⟩ := h
    rename_i graph store store' work changes
    rw [Sync.run, Sync.run]
    cases work.pop? with
    | none => exact .ok ⟨rfl, .intro hg h⟩
    | some next =>
      refine ((Mirrors.intro hg h).visit next.1).bind ?_
      rintro ⟨verdict, y₁⟩ ⟨_, y₁'⟩ ⟨rfl, h₁⟩
      cases verdict with
      | failed why => exact .ok ⟨rfl, h₁⟩
      | consistent => exact ih h₁

end Mirrors

end Sync

/-- The graph is brought in line in step. -/
theorem Sync.Mirrors.forwardCheck {y y' : Sync} (h : Mirrors hidden y y') :
    InStep (Paired hidden) (forwardCheck y) (forwardCheck y') := by
  obtain ⟨hg, h⟩ := h
  exact (Mirrors.intro hg h).run _

/-! ## The matching -/

theorem isMarked_inStep (marks : Marks) (x : Nat) :
    InStep Eq (marks.isMarked x) (marks.isMarked x) :=
  (InStep.fetch _ _).andThen fun _ => .ok rfl

namespace ValueGraph.Shown

open Matcher

theorem firstFree (hg : g.Shown hidden) (h : s.Mirrors hidden s') (edges : List Nat) :
    InStep Eq (firstFree g s edges) (firstFree g s' edges) := by
  induction edges with
  | nil => exact .ok rfl
  | cons e rest ih =>
    refine (hg.isLive h e).andThen fun _ => .ite (fun _ => (InStep.fetch _ _).andThen fun v =>
      (hg.owner? h v).andThen fun owner => ?_) fun _ => ih
    cases owner with
    | none => exact .ok rfl
    | some _ => exact ih

theorem greedyAll (hg : g.Shown hidden) (h : s.Mirrors hidden s') (xs : List Nat) :
    InStep (Store.Mirrors hidden) (greedyAll g xs s) (greedyAll g xs s') := by
  induction xs generalizing s s' with
  | nil => exact .ok h
  | cons x rest ih =>
    refine (hg.mate? h x).andThen fun mate => ?_
    cases mate with
    | some _ => exact ih h
    | none =>
      refine (edgesOf_inStep g x).andThen fun edges => (hg.firstFree h edges).andThen fun free => ?_
      cases free with
      | none => exact ih h
      | some v => exact (assignMate h g x v).bind fun _ _ h₁ => ih h₁

theorem greedy (hg : g.Shown hidden) (h : s.Mirrors hidden s') :
    InStep (Store.Mirrors hidden) (greedy g s) (greedy g s') :=
  (hg.activeVars h).andThen fun _ => hg.greedyAll h _

theorem expand_inStep (k : Matcher) (v : Nat) : InStep Eq (k.expand v) (k.expand v) :=
  (isMarked_inStep _ _).andThen fun _ => .ite (fun _ => .ok rfl) fun _ => .ok rfl

theorem nextVar (hg : g.Shown hidden) (h : s.Mirrors hidden s') (v count : Nat) (k : Matcher) :
    InStep Eq (nextVar g s v count k) (nextVar g s' v count k) := by
  induction count generalizing k with
  | zero => exact .ok rfl
  | succ count ih =>
    exact (InStep.fetch _ _).andThen fun _ => (liveVar_inStep g v _).andThen fun y =>
      (isMarked_inStep _ y).andThen fun _ => .ite (fun _ => ih _) fun _ =>
        (hg.isActive h y).andThen fun _ => .ite (fun _ => .ok rfl) fun _ => ih _

theorem step (hg : g.Shown hidden) (h : s.Mirrors hidden s') (p : PathSearch) :
    InStep Eq (p.step g s) (p.step g s') := by
  obtain ⟨k, values, vars⟩ := p
  cases values with
  | nil => exact .ok rfl
  | cons v earlier =>
    refine (hg.liveCount h v).andThen fun _ => (InStep.fetch _ _).andThen fun _ =>
      (hg.nextVar h v _ k).andThen fun next => ?_
    obtain ⟨_ | y, k⟩ := next
    · exact .ok rfl
    · refine (hg.mate? h y).andThen fun mate => ?_
      cases mate with
      | none => exact .ok rfl
      | some w => exact (expand_inStep k w).andThen fun _ => .ok rfl

theorem runPath (hg : g.Shown hidden) (h : s.Mirrors hidden s') (fuel : Nat) (p : PathSearch) :
    InStep Eq (PathSearch.run g s fuel p) (PathSearch.run g s' fuel p) := by
  induction fuel generalizing p with
  | zero => exact .error (by decide)
  | succ fuel ih =>
    refine (hg.step h p).andThen fun result => ?_
    cases result with
    | found flips k => exact .ok rfl
    | exhausted k => exact .ok rfl
    | goOn p => exact ih p

theorem findPath? (hg : g.Shown hidden) (h : s.Mirrors hidden s') (k : Matcher) (root : Nat) :
    InStep Eq (findPath? g s k root) (findPath? g s' k root) :=
  (expand_inStep k root).andThen fun _ => hg.runPath h _ _

theorem searchPaths (hg : g.Shown hidden) (h : s.Mirrors hidden s') (wanted : Nat) (vs : List Nat)
    (found : Nat) (flips : List (Nat × Nat)) (k : Matcher) :
    InStep Eq (searchAll g s wanted vs found flips k) (searchAll g s' wanted vs found flips k) := by
  induction vs generalizing found flips k with
  | nil => exact .ok rfl
  | cons v rest ih =>
    refine .ite (fun _ => .ok rfl) fun _ => (hg.isFree h v).andThen fun _ =>
      .ite (fun _ => (hg.findPath? h k v).andThen fun path => ?_) fun _ => ih _ _ _
    obtain ⟨_ | path, k⟩ := path
    · exact ih _ _ _
    · exact ih _ _ _

/-- The two sides give the same answer, the same matcher and stores that mirror each other. -/
def Matched {α : Type} (hidden : Cell → Prop) (r r' : α × Matcher × Store) : Prop :=
  r.1 = r'.1 ∧ r.2.1 = r'.2.1 ∧ r.2.2.Mirrors hidden r'.2.2

theorem rounds (hg : g.Shown hidden) (h : s.Mirrors hidden s') (fuel unmatched total : Nat)
    (k : Matcher) :
    InStep (Matched hidden) (rounds g fuel unmatched total k s)
      (rounds g fuel unmatched total k s') := by
  induction fuel generalizing unmatched total k s s' with
  | zero =>
    cases unmatched with
    | zero => exact .ok ⟨rfl, rfl, h⟩
    | succ _ => exact .error (by decide)
  | succ fuel ih =>
    cases unmatched with
    | zero => exact .ok ⟨rfl, rfl, h⟩
    | succ unmatched =>
      refine (hg.searchPaths h _ _ _ _ _).andThen fun r =>
        .ite (fun _ => .ok ⟨rfl, rfl, h⟩) fun _ => ?_
      have hflips : InStep (Store.Mirrors hidden) (applyFlips g s r.2.1) (applyFlips g s' r.2.1) :=
        .foldlM h fun flip _ _ _ h => assignMate h g flip.1 flip.2
      exact hflips.bind fun _ _ h₁ => ih h₁ _ _ _

/-- The matching is repaired in step. -/
theorem augment (hg : g.Shown hidden) (h : s.Mirrors hidden s') (k : Matcher) :
    InStep (Matched hidden) (augment g k s) (augment g k s') := by
  have hcount : InStep Eq (unmatchedCount g s) (unmatchedCount g s') :=
    (hg.activeVars h).andThen fun _ =>
      (InStep.filterM fun x => (hg.mate? h x).andThen fun _ => .ok rfl).andThen fun _ => .ok rfl
  exact hcount.andThen fun unmatched => hg.rounds h unmatched unmatched 0 k

/-! ## What is reached -/

theorem expandWave (hg : g.Shown hidden) (h : s.Mirrors hidden s') (limit v left k : Nat)
    (w : Reach.Wave) :
    InStep Eq (Reach.expand g s limit v left k w) (Reach.expand g s' limit v left k w) := by
  induction left generalizing k w with
  | zero => exact .ok rfl
  | succ left ih =>
    refine (liveVar_inStep g v k).andThen fun y => (isMarked_inStep _ y).andThen fun _ =>
      .ite (fun _ => ih _ _) fun _ => (hg.isActive h y).andThen fun _ =>
        .ite (fun _ => .ite (fun _ => .ok rfl) fun _ => (hg.mate? h y).andThen fun mate => ?_)
          fun _ => ih _ _
    cases mate with
    | none => exact ih _ _
    | some a => exact ih _ _

theorem spread (hg : g.Shown hidden) (h : s.Mirrors hidden s') (limit fuel head : Nat)
    (w : Reach.Wave) :
    InStep Eq (Reach.spread g s limit fuel head w) (Reach.spread g s' limit fuel head w) := by
  induction fuel generalizing head w with
  | zero => exact .error (by decide)
  | succ fuel ih =>
    rw [Reach.spread, Reach.spread]
    cases w.queue[head]? with
    | none => exact .ok rfl
    | some v =>
      refine .ite (fun _ => (hg.liveCount h v).andThen fun _ =>
        (hg.expandWave h limit v _ 0 w).andThen fun r => ?_) fun _ => .ok rfl
      obtain ⟨_ | _, w⟩ := r
      · exact ih _ _
      · exact .ok rfl

/-- The variables that are reached are marked in step. -/
theorem compute (hg : g.Shown hidden) (h : s.Mirrors hidden s') {r : Reach}
    (hprevious : ¬ hidden r.previous) :
    InStep (fun a a' => a.2.1 = a'.2.1 ∧ a.2.1.previous = r.previous ∧
      a.2.2.Mirrors hidden a'.2.2) (r.compute g s) (r.compute g s') :=
  (InStep.filterM (hg.isFree h)).andThen fun _ => (h.readCount hprevious).andThen fun _ =>
    (hg.activeCount h).andThen fun _ => (hg.spread h _ _ _ _).andThen fun _ =>
      .ite (fun _ => .error (by decide)) fun _ =>
        (h.write _ _).bind fun _ _ h₁ => .ok ⟨rfl, rfl, h₁⟩

end ValueGraph.Shown

end FiniteDomain.AllDifferent
