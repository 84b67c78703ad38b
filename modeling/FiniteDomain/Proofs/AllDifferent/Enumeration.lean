import FiniteDomain.Proofs.AllDifferent.Consistency
import FiniteDomain.Proofs.AllDifferent.Nodes
import FiniteDomain.Proofs.AllDifferent.Solutions

/-!
# A search reports every assignment once

The decision variables stand for the primitive variables below them.  If these include the primitive
variables of all constraints, a search reports each assignment to them that satisfies the constraints,
and each only once.

* `Model.Assigns` is such an assignment.  It is zero on all other variables.
* `Obeys.assigns` says that a run keeps the assignments, and `Calm.assigns_branch` that a decision
  splits them.
* `Search.Lists` is what is reported between two tallies.
* `Driven.enumerates` is about whole searches.
-/

namespace FiniteDomain

open AllDifferent ValueGraph

/-- The primitive variable `r` is below one of the variables. -/
def Store.Below (s : Store) (xs : List Var) (r : Var) : Prop := ∃ x ∈ xs, s.source x = .ok r

namespace Model

variable {m m' m₁ : Model AllDifferent} {xs : List Var} {α β : Var → Int} {verdict : Verdict}

/-! ## Assignments -/

/-- The primitive variables below `xs` have values in their domains that satisfy all constraints, and
all other variables are zero. -/
structure Assigns (m : Model AllDifferent) (xs : List Var) (α : Var → Int) : Prop where
  mem : ∀ r, m.store.Below xs r → α r ∈ m.store.domain r
  zero : ∀ r, ¬ m.store.Below xs r → α r = 0
  distinct : ∀ vars ∈ m.posted, (vars.map (m.store.valueAt α)).Nodup

/-- All constraints are about primitive variables below `xs`. -/
def Covers (m : Model AllDifferent) (xs : List Var) : Prop :=
  ∀ vars ∈ m.posted, ∀ x ∈ vars, ∃ y ∈ xs, m.store.source y = m.store.source x

theorem valueAt_congr {s s' : Store} (h : s'.definitions = s.definitions) (α : Var → Int) :
    s'.valueAt α = s.valueAt α := by
  funext x
  rw [Store.valueAt, Store.valueAt, Store.path, Store.path, h]

theorem below_congr {s s' : Store} (h : s'.definitions = s.definitions) (xs : List Var) :
    s'.Below xs = s.Below xs := by
  funext r
  rw [Store.Below, Store.Below]
  simp only [Store.source, Store.path, h]

/-- Assignments to the same variables under the same constraints differ by the domains. -/
theorem Assigns.of_domains (h : m.Assigns xs α)
    (hdefinitions : m'.store.definitions = m.store.definitions) (hposted : m'.posted = m.posted)
    (hmem : ∀ r, m.store.Below xs r → α r ∈ m'.store.domain r) : m'.Assigns xs α := by
  refine ⟨fun r hr => hmem r ?_, fun r hr => h.zero r ?_, fun vars hvars => ?_⟩
  · rwa [below_congr hdefinitions] at hr
  · rwa [below_congr hdefinitions] at hr
  · rw [valueAt_congr hdefinitions]
    exact h.distinct vars (hposted ▸ hvars)

theorem Covers.congr (h : m.Covers xs) (hdefinitions : m'.store.definitions = m.store.definitions)
    (hposted : m'.posted = m.posted) : m'.Covers xs := by
  intro vars hvars x hx
  rw [hposted] at hvars
  simp only [Store.source, Store.path, hdefinitions]
  exact h vars hvars x hx

theorem posted_mem {p : AllDifferent} (hp : p ∈ m.propagators) : p.graph.vars.toList ∈ m.posted :=
  List.mem_map_of_mem (Array.mem_toList_iff.2 hp)

/-- The primitive variables of a constraint are below `xs`. -/
theorem Covers.below (h : m.Covers xs) (hm : m.Guarded) {p : AllDifferent} (hp : p ∈ m.propagators)
    {x : Nat} (hx : x < p.graph.varTotal) : m.store.Below xs (p.graph.sourceOf x) := by
  obtain ⟨y, hy, hsame⟩ := h _ (posted_mem hp) (p.graph.varOf x)
    (Array.mem_toList_iff.2 (mem_vars.2 ⟨x, hx, rfl⟩))
  obtain ⟨i, hi, rfl⟩ := Array.mem_iff_getElem.1 hp
  obtain ⟨b, hsource, hb⟩ :=
    (hm.guarded i _ (Array.getElem?_eq_getElem hi)).anchored.source_eq x hx
  refine ⟨y, hy, ?_⟩
  rw [hsame, Store.source, hsource]
  exact congrArg Except.ok hb

/-! ## Runs -/

/-- The domains that leave one value to each variable below `xs`. -/
noncomputable def pinned (m : Model AllDifferent) (xs : List Var) (α : Var → Int) (r : Var) :
    Finset Int :=
  haveI := Classical.dec
  if m.store.Below xs r then {α r} else m.store.domain r

theorem pinned_eq {r : Var} (hr : m.store.Below xs r) : m.pinned xs α r = {α r} := if_pos hr

theorem Assigns.pinned_subset (h : m.Assigns xs α) (r : Var) :
    m.pinned xs α r ⊆ m.store.domain r := by
  by_cases hr : m.store.Below xs r
  · rw [pinned_eq hr]
    exact Finset.singleton_subset_iff.2 (h.mem r hr)
  · exact (if_neg hr : m.pinned xs α r = m.store.domain r).subset

/-- With one value for each variable, that value belongs to a choice. -/
theorem Assigns.supports_pinned (h : m.Assigns xs α) (hm : m.Guarded) (hcovers : m.Covers xs) :
    m.Supports (m.pinned xs α) := by
  intro p hp
  have hbelow : ∀ x < p.graph.varTotal, m.store.Below xs (p.graph.sourceOf x) :=
    fun x hx => hcovers.below hm hp hx
  have hchoice : Choice (p.graph.views m.store (m.pinned xs α)) p.graph.varTotal
      fun x => m.store.valueAt α (p.graph.varOf x) := by
    refine hm.choice_valueAt hp (fun x hx => ?_) (h.distinct _ (posted_mem hp))
    rw [pinned_eq (hbelow x hx)]
    exact Finset.mem_singleton_self _
  refine ⟨⟨_, hchoice⟩, fun x hx u hu => ⟨_, hchoice, ?_⟩⟩
  obtain ⟨i, hi, rfl⟩ := Array.mem_iff_getElem.1 hp
  have hanchored := (hm.guarded i _ (Array.getElem?_eq_getElem hi)).anchored
  obtain ⟨b, hsource, hb⟩ := hanchored.source_eq x hx
  obtain ⟨r, hr, rfl⟩ := (hanchored.mem_views hx).1 hu
  rw [pinned_eq (hbelow x hx), Finset.mem_singleton] at hr
  rw [Store.valueAt_eq hsource, hb, hr]

/-- A run keeps all assignments, and does not fail if there is one. -/
theorem Obeys.assigns (h : Obeys m verdict m') (hm : m.Guarded) (hcovers : m.Covers xs) :
    (m.Assigns xs α → verdict = .consistent) ∧ (m'.Assigns xs α ↔ m.Assigns xs α) := by
  refine ⟨fun hα => ?_, fun hα => ?_, fun hα => ?_⟩
  · by_contra hv
    obtain ⟨p, hp, hhopeless⟩ := h.hopeless hv
    have hsupports := hα.supports_pinned hm hcovers
    obtain ⟨φ, hφ⟩ := (h.supports_iff.2 hsupports p hp).exists_choice
    refine hhopeless φ (hφ.mono fun x hx => ?_)
    rw [shown_domains hx]
    exact views_mono (h.keeps _ hsupports hα.pinned_subset) x
  · exact hα.of_domains h.narrowed.definitions_eq.symm h.posted_eq.symm
      fun r hr => h.narrowed.subset r (hα.mem r (below_congr h.narrowed.definitions_eq xs ▸ hr))
  · refine hα.of_domains h.narrowed.definitions_eq h.posted_eq fun r hr => ?_
    refine h.keeps _ (hα.supports_pinned hm hcovers) hα.pinned_subset r ?_
    rw [pinned_eq hr]
    exact Finset.mem_singleton_self _

/-- A branch keeps the assignments that agree with its decision, and fails only if there are none. -/
theorem Calm.assigns_branch (h : m.Calm) (hcovers : m.Covers xs) {x : Var} {P : Int → Prop}
    {narrow : Model AllDifferent → Except Fault (Verdict × Model AllDifferent)}
    (henters : Search.Enters narrow x P m)
    (hbelow : ∃ y ∈ xs, m.store.source y = m.store.source x)
    (hret : Search.attempt narrow m.save = .ok (verdict, m₁)) :
    ((m.Assigns xs α ∧ P (m.store.valueAt α x)) → verdict = .consistent) ∧
      (m₁.Assigns xs α ↔ m.Assigns xs α ∧ P (m.store.valueAt α x)) := by
  obtain ⟨b, s, hl, verdict', m₁', hret', hobeys, _⟩ := h.enters_cases henters
  cases hret.symm.trans hret'
  have hdefinitions : s.definitions = m.store.definitions := hl.evolves.definitions_eq
  have hsource : (m.store.path x).source = .ok b := hl.source_eq
  have hsplit : ({ m.save with store := s } : Model AllDifferent).Assigns xs α ↔
      m.Assigns xs α ∧ P (m.store.valueAt α x) := by
    rw [Store.valueAt_eq hsource]
    constructor
    · intro hα
      refine ⟨hα.of_domains hdefinitions.symm rfl fun r hr =>
        hl.evolves.subset r (hα.mem r hr), ?_⟩
      obtain ⟨y, hy, hsame⟩ := hbelow
      have hb : m.store.Below xs b.var := by
        refine ⟨y, hy, ?_⟩
        rw [hsame, Store.source, hsource]
        rfl
      exact ((hl.mem_iff _).1 (hα.mem b.var (by rwa [below_congr hdefinitions]))).2
    · rintro ⟨hα, hP⟩
      refine hα.of_domains hdefinitions rfl fun r hr => ?_
      by_cases hb : r = b.var
      · subst hb
        exact (hl.mem_iff _).2 ⟨hα.mem _ hr, hP⟩
      · exact (hl.other r hb).symm ▸ hα.mem r hr
  obtain ⟨hpoised, _⟩ := h.limited hl _ rfl
  obtain ⟨hfails, hiff⟩ := hobeys.assigns (α := α) hpoised.toGuarded (hcovers.congr hdefinitions rfl)
  rw [hsplit] at hfails hiff
  exact ⟨hfails, hiff⟩

/-! ## Solutions -/

/-- When all variables in `xs` are fixed there is one assignment left. -/
theorem Calm.assigns_fixed (h : m.Calm) (hcovers : m.Covers xs)
    (hlt : ∀ x ∈ xs, x.index < m.store.definitions.size)
    (hfixed : ∀ x ∈ xs, (m.store.view x).card = 1) :
    ∃ α, (∀ β, m.Assigns xs β ↔ β = α) ∧ ∀ x ∈ xs, m.store.view x = {m.store.valueAt α x} := by
  have hsingle : ∀ r, ∃ a, (m.store.Below xs r → m.store.domain r = {a}) ∧
      (¬ m.store.Below xs r → a = 0) := by
    intro r
    by_cases hr : m.store.Below xs r
    · obtain ⟨x, hx, hsource⟩ := hr
      obtain ⟨b, hb, _, hpath, _⟩ := h.store.base_of_source hsource
      have hcard := hfixed x hx
      rw [Store.card_view h.store (hlt x hx) hpath, hb] at hcard
      obtain ⟨a, ha⟩ := Finset.card_eq_one.1 hcard
      exact ⟨a, fun _ => ha, fun hnot => absurd ⟨x, hx, hsource⟩ hnot⟩
    · exact ⟨0, fun hr' => absurd hr' hr, fun _ => rfl⟩
  choose α hα using hsingle
  have hdistinct : ∀ vars ∈ m.posted, (vars.map (m.store.valueAt α)).Nodup := by
    intro vars hvars
    obtain ⟨p, hp, rfl⟩ := List.mem_map.1 hvars
    have hp := Array.mem_toList_iff.1 hp
    obtain ⟨φ, hφ⟩ := (h.supports h.quiet p hp).exists_choice
    -- The choice that is left takes the only values there are.
    have hvalue : ∀ x < p.graph.varTotal, φ x = m.store.valueAt α (p.graph.varOf x) := by
      intro x hx
      have hbelow := hcovers.below h.toGuarded hp hx
      obtain ⟨i, hi, rfl⟩ := Array.mem_iff_getElem.1 hp
      have hanchored := (h.guarded i _ (Array.getElem?_eq_getElem hi)).anchored
      obtain ⟨b, hsource, hb⟩ := hanchored.source_eq x hx
      obtain ⟨r, hr, heq⟩ := (hanchored.mem_views hx).1 (hφ.mem x hx)
      rw [(hα _).1 hbelow, Finset.mem_singleton] at hr
      rw [Store.valueAt_eq hsource, ← heq, hr, hb]
    rw [toList_vars, List.map_map]
    refine List.Nodup.map_on (fun x hx y hy heq => ?_) List.nodup_range
    have hx := List.mem_range.1 hx
    have hy := List.mem_range.1 hy
    exact hφ.distinct x hx y hy ((hvalue x hx).trans (heq.trans (hvalue y hy).symm))
  refine ⟨α, fun β => ⟨fun hβ => funext fun r => ?_, ?_⟩, fun x hx => ?_⟩
  · by_cases hr : m.store.Below xs r
    · have hmem := hβ.mem r hr
      rwa [(hα r).1 hr, Finset.mem_singleton] at hmem
    · rw [hβ.zero r hr, (hα r).2 hr]
  · rintro rfl
    exact ⟨fun r hr => (hα r).1 hr ▸ Finset.mem_singleton_self _, fun r => (hα r).2, hdistinct⟩
  · obtain ⟨b, _, hsource, _⟩ := h.store.exists_base (hlt x hx)
    have hb : m.store.Below xs b.var := by
      refine ⟨x, hx, ?_⟩
      rw [Store.source, hsource]
      rfl
    rw [Store.view, Store.viewIn_eq hsource, Store.valueAt_eq hsource]
    exact (congrArg (Finset.image _) ((hα _).1 hb)).trans (Finset.image_singleton ..)

end Model

/-! ## What a search reports -/

namespace Search

variable {q : Search} {root m : Model AllDifferent} {S S₁ S₂ : (Var → Int) → Prop}
  {t t₁ t' : Tally (Model AllDifferent)}

/-- Between two tallies the assignments in `S` are reported and counted, each once, and each in a
state in which the decision variables are fixed to their values. -/
def Lists (q : Search) (root : Model AllDifferent) (S : (Var → Int) → Prop)
    (t t' : Tally (Model AllDifferent)) : Prop :=
  ∃ (αs : List (Var → Int)) (seen : List (Model AllDifferent)), αs.Nodup ∧ (∀ α, α ∈ αs ↔ S α) ∧
    List.Forall₂ (fun α m => ∀ x ∈ q.vars, m.store.view x = {root.store.valueAt α x}) αs seen ∧
    t'.reports.toList = t.reports.toList ++ seen ∧ t'.solutions = t.solutions + αs.length

theorem Lists.nil (h : ∀ α, ¬ S α) (hreports : t'.reports = t.reports)
    (hsolutions : t'.solutions = t.solutions) : Lists q root S t t' :=
  ⟨[], [], List.nodup_nil, fun α => ⟨fun hα => absurd hα List.not_mem_nil, fun hα => absurd hα (h α)⟩,
    .nil, by rw [hreports, List.append_nil], hsolutions⟩

theorem Lists.append (h₁ : Lists q root S₁ t t₁) (h₂ : Lists q root S₂ t₁ t')
    (hdisjoint : ∀ α, S₁ α → ¬ S₂ α) (hS : ∀ α, S α ↔ S₁ α ∨ S₂ α) : Lists q root S t t' := by
  obtain ⟨αs, seen, hnodup, hmem, hseen, hreports, hsolutions⟩ := h₁
  obtain ⟨βs, seen', hnodup', hmem', hseen', hreports', hsolutions'⟩ := h₂
  refine ⟨αs ++ βs, seen ++ seen', ?_, fun α => ?_, List.rel_append hseen hseen', ?_, ?_⟩
  · refine List.nodup_append.2 ⟨hnodup, hnodup', fun α hα β hβ heq => ?_⟩
    exact hdisjoint α ((hmem α).1 hα) ((hmem' α).1 (heq ▸ hβ))
  · rw [List.mem_append, hmem, hmem', hS]
  · rw [hreports', hreports, List.append_assoc]
  · rw [hsolutions', hsolutions, List.length_append]
    omega

theorem Lists.congr (h : Lists q root S t t') (hS : ∀ α, S₁ α ↔ S α) : Lists q root S₁ t t' := by
  obtain ⟨αs, seen, hnodup, hmem, hrest⟩ := h
  exact ⟨αs, seen, hnodup, fun α => (hmem α).trans (hS α).symm, hrest⟩

/-- What is recounted of a node: the search goes on, and the assignments at the node were reported. -/
def Enumerates (q : Search) (root m : Model AllDifferent) (t : Tally (Model AllDifferent))
    (stop : Bool) (t' : Tally (Model AllDifferent)) : Prop :=
  stop = false ∧ Lists q root (m.Assigns q.vars) t t'

/-- On a branch the assignments are reported that agree with its decision. -/
theorem Node.lists_branch (h : q.Node root m) (hcovers : root.Covers q.vars) {x : Var}
    {P : Int → Prop} {narrow : Model AllDifferent → Except Fault (Verdict × Model AllDifferent)}
    (henters : Enters narrow x P m)
    (hwhy : x ∈ q.vars ∨ ∃ p ∈ m.propagators, x ∈ p.graph.vars) {stop : Bool}
    (hbranched : Branched (q.Node root) (Enumerates q root) narrow m t stop t') :
    stop = false ∧
      Lists q root (fun α => m.Assigns q.vars α ∧ P (m.store.valueAt α x)) t t' := by
  have hcovers := hcovers.congr h.definitions_eq h.posted_eq
  have hbelow : ∃ y ∈ q.vars, m.store.source y = m.store.source x := by
    obtain hx | ⟨p, hp, hx⟩ := hwhy
    · exact ⟨x, hx, rfl⟩
    · exact hcovers _ (Model.posted_mem hp) x (Array.mem_toList_iff.2 hx)
  obtain ⟨why, m₁, hret, rfl, rfl⟩ | ⟨m₁, hret, _, rfl, hlists⟩ := hbranched
  · refine ⟨rfl, .nil (fun α hα => ?_) rfl rfl⟩
    cases (h.toCalm.assigns_branch hcovers henters hbelow hret).1 hα
  · exact ⟨rfl, hlists.congr fun α =>
      (h.toCalm.assigns_branch hcovers henters hbelow hret).2.symm⟩

/-- The assignments at a node are those on its branches. -/
theorem recounts_assignments (hcovers : root.Covers q.vars) (hlimit : q.limit = none) :
    Recounts q (fun m => .ok m) (q.Node root) (Enumerates q root) where
  solution {m t r} h hdecide hr := by
    cases hr
    refine ⟨by rw [isEnough, hlimit], ?_⟩
    obtain ⟨_, hfixed | ⟨x, hx, hempty⟩⟩ | ⟨_, _, hsome, _⟩ :=
      decide?_spec h.store h.vars_lt hdecide
    · obtain ⟨α, hα, hviews⟩ := h.toCalm.assigns_fixed
        (hcovers.congr h.definitions_eq h.posted_eq) h.vars_lt hfixed
      refine ⟨[α], [m], List.nodup_singleton α, fun β => ?_, .cons ?_ .nil, ?_, rfl⟩
      · rw [List.mem_singleton]
        exact (hα β).symm
      · rw [← Model.valueAt_congr h.definitions_eq]
        exact hviews
      · exact Array.toList_push
    · exact absurd hempty (h.nonempty x hx)
    · cases hsome
  stopped {m t t' x v} h hdecide hleft := by
    obtain ⟨hsplits, hreads, hwhy⟩ := h.toCalm.decide?_spec h.vars_lt hdecide
    cases (h.lists_branch hcovers (enters h.store hsplits hreads).1 hwhy hleft).1
  branched {m m₁ t t₁ t' x v stop} h hdecide hleft hresumed hm₁ hright := by
    obtain ⟨hsplits, hreads, hwhy⟩ := h.toCalm.decide?_spec h.vars_lt hdecide
    have hwhy₁ : x ∈ q.vars ∨ ∃ p ∈ m₁.propagators, x ∈ p.graph.vars := by
      refine hwhy.imp_right fun ⟨p, hp, hx⟩ => ?_
      have hmem : p.graph.vars.toList ∈ m₁.posted :=
        (hm₁.posted_eq.trans h.posted_eq.symm) ▸ Model.posted_mem hp
      obtain ⟨p₁, hp₁, heq⟩ := List.mem_map.1 hmem
      exact ⟨p₁, Array.mem_toList_iff.1 hp₁, Array.mem_toList_iff.1 (heq ▸ Array.mem_toList_iff.2 hx)⟩
    have hsame : m₁.store.definitions = m.store.definitions := hresumed.store.definitions_eq
    have hassigns : ∀ α, m₁.Assigns q.vars α ↔ m.Assigns q.vars α := by
      intro α
      refine ⟨fun hα => hα.of_domains hsame.symm (h.posted_eq.trans hm₁.posted_eq.symm) fun r hr => ?_,
        fun hα => hα.of_domains hsame (hm₁.posted_eq.trans h.posted_eq.symm) fun r hr => ?_⟩
      · exact hresumed.resumed.domain_eq r ▸ hα.mem r hr
      · exact (hresumed.resumed.domain_eq r).symm ▸ hα.mem r hr
    obtain ⟨_, hlists₁⟩ := h.lists_branch hcovers (enters h.store hsplits hreads).1 hwhy hleft
    obtain ⟨hstop, hlists₂⟩ := hm₁.lists_branch hcovers (enters hm₁.store
      (hsplits.resumed hresumed.resumed) (hresumed.store.reads_iff.2 hreads)).2 hwhy₁ hright
    have hlists₁ : Lists q root (fun α => m.Assigns q.vars α ∧ m.store.valueAt α x = v) t t₁ := hlists₁
    refine ⟨hstop, hlists₁.append hlists₂ (fun α hα hα' => hα'.2 ?_) fun α => ?_⟩
    · rw [Model.valueAt_congr hsame]
      exact hα.2
    · rw [hassigns, Model.valueAt_congr hsame]
      by_cases hv : m.store.valueAt α x = v
      · simp [hv]
      · simp [hv]

end Search

namespace Model

variable {m : Model AllDifferent}

/-- If the decision variables cover all constraints, a search without a limit reports each assignment
to the primitive variables below them that satisfies the constraints, once and in a state in which
the decision variables are fixed to their values, and nothing else.  It counts these assignments.  The
search gets a tally if the values of the decision variables fit. -/
theorem Driven.enumerates (h : Driven Call.Installs m .consistent) {q : Search} (hsuits : q.Suits m)
    (hcovers : m.Covers q.vars) (hlimit : q.limit = none) :
    (q.Reads m → ∃ answer, q.solve (fun m => .ok m) m = .ok answer) ∧
      ∀ t m', q.solve (fun m => .ok m) m = .ok (t, m') →
        ∃ αs : List (Var → Int), αs.Nodup ∧ (∀ α, α ∈ αs ↔ m.Assigns q.vars α) ∧
          List.Forall₂ (fun α seen => ∀ x ∈ q.vars, seen.store.view x = {m.store.valueAt α x}) αs
            t.reports.toList ∧
          t.solutions = αs.length := by
  have hkept := h.kept
  have hpoised := hkept.poised rfl
  obtain ⟨htotal, hcases⟩ := Search.solve_cases hpoised hkept.secured hsuits
    (Search.recounts_assignments hcovers hlimit)
  refine ⟨htotal, fun t m' hsolve => ?_⟩
  obtain ⟨why, m₁, hfailed, rfl⟩ | ⟨m₁, stop, hret, ⟨_, hlists⟩, _⟩ := hcases t m' hsolve
  · have hobeys := hpoised.toGuarded.fixpoint_obeys hfailed
    refine ⟨[], List.nodup_nil, fun α => ⟨fun hα => absurd hα List.not_mem_nil, fun hα => ?_⟩,
      .nil, rfl⟩
    cases (hobeys.assigns hpoised.toGuarded hcovers).1 hα
  · have hobeys := hpoised.toGuarded.fixpoint_obeys hret
    obtain ⟨αs, seen, hnodup, hmem, hseen, hreports, hsolutions⟩ := hlists
    refine ⟨αs, hnodup, fun α => ?_, ?_, ?_⟩
    · rw [hmem, ← (hobeys.assigns hpoised.toGuarded hcovers).2]
      exact ⟨fun hα => hα.of_domains rfl rfl hα.mem, fun hα => hα.of_domains rfl rfl hα.mem⟩
    · rw [hreports]
      exact hseen
    · rw [hsolutions]
      exact Nat.zero_add _

/-- Two constraints share a variable, and one of their variables is a view. -/
theorem Driven.enumerates_shifted : ∃ m t m' αs,
    (Model.empty .lastFirst).driveAll Call.Installs .consistent
      (shifted ++ [.install [⟨0⟩, ⟨3⟩] .usual, .install [⟨2⟩, ⟨3⟩] .usual]) = .ok (.consistent, m) ∧
    (⟨[⟨0⟩, ⟨3⟩, ⟨2⟩], .hinted, none⟩ : Search).solve (fun m => .ok m) m = .ok (t, m') ∧
    t.solutions = 4 ∧ αs.length = 4 ∧ αs.Nodup ∧
    (∀ α, α ∈ αs ↔ m.Assigns [⟨0⟩, ⟨3⟩, ⟨2⟩] α) ∧
    List.Forall₂ (fun α seen => ∀ x ∈ ([⟨0⟩, ⟨3⟩, ⟨2⟩] : List Var),
      seen.store.view x = {m.store.valueAt α x}) αs t.reports.toList := by
  have hrun : ((Model.empty .lastFirst).driveAll Call.Installs .consistent
      (shifted ++ [.install [⟨0⟩, ⟨3⟩] .usual, .install [⟨2⟩, ⟨3⟩] .usual]) >>= fun r =>
        (⟨[⟨0⟩, ⟨3⟩, ⟨2⟩], .hinted, none⟩ : Search).solve (fun m => .ok m) r.2 >>= fun answer =>
        [⟨0⟩, ⟨3⟩, ⟨2⟩].mapM r.2.store.size >>= fun sizes =>
          .ok (r.1, answer.1.solutions, sizes, decide (r.2.posted = [[⟨0⟩, ⟨3⟩], [⟨2⟩, ⟨3⟩]]))) =
      .ok (.consistent, 4, [2, 2, 3], true) := by decide +kernel
  obtain ⟨⟨last, m⟩, hm, hrun⟩ := bind_eq_ok_iff.1 hrun
  obtain ⟨⟨t, m'⟩, hsolve, hrun⟩ := bind_eq_ok_iff.1 hrun
  obtain ⟨sizes, hsizes, heq⟩ := bind_eq_ok_iff.1 hrun
  injection heq with heq
  simp only [Prod.mk.injEq, decide_eq_true_eq] at heq
  obtain ⟨rfl, hsolutions, rfl, hposted⟩ := heq
  have hdriven : Driven Call.Installs m .consistent := (Driven.start .lastFirst).driveAll hm
  have hsuits : (⟨[⟨0⟩, ⟨3⟩, ⟨2⟩], .hinted, none⟩ : Search).Suits m :=
    Search.suits_of_sizes hdriven.reached.guarded.store hsizes (by decide)
  have hcovers : m.Covers [⟨0⟩, ⟨3⟩, ⟨2⟩] := by
    intro vars hvars x hx
    rw [hposted] at hvars
    have hall : ∀ vars ∈ ([[⟨0⟩, ⟨3⟩], [⟨2⟩, ⟨3⟩]] : List (List Var)), ∀ x ∈ vars,
        x ∈ ([⟨0⟩, ⟨3⟩, ⟨2⟩] : List Var) := by decide
    exact ⟨x, hall vars hvars x hx, rfl⟩
  obtain ⟨αs, hnodup, hmem, hseen, hcount⟩ :=
    (Driven.enumerates hdriven hsuits hcovers rfl).2 t m' hsolve
  exact ⟨m, t, m', αs, hm, hsolve, hsolutions, hcount.symm.trans hsolutions, hnodup, hmem, hseen⟩

end Model

end FiniteDomain
