import FiniteDomain.Proofs.AllDifferent.Moves

/-!
# What a propagator shows

A `Sight` is what a propagator of an all different constraint and its store show at one moment: the
snapshot of the value graph, the domains, the tags of the variables, and how many of them may be
reached.  The moments are the present and those that restoring levels brings back.

* `Sight.Honest` is what every sight has, however the propagator was used.  Either there is no choice,
  or the sight can be trusted (`Sight.Trusted`): what it allows to deduce holds of every choice.
* `Sight.Settled` is what a sight has when the propagator has run and nothing happened since, except
  for the domains of some `late` variables.  If the matching covers the variables and none is late,
  then every value belongs to a choice (`Settled.supported`).
* `Snapshot.Thins` says that edges were lost while the matching stayed the same.  Then components can
  only split, and those without a touched variable stay as they are (`Thins.together_of_untouched`).
-/

namespace FiniteDomain.AllDifferent

open Relation

/-- What a propagator shows at one moment. -/
@[ext]
structure Sight where
  vars : Nat
  val : Nat → Int
  graph : Snapshot
  domains : Nat → Finset Int
  tag : Nat → Int
  /-- How many variables were reached by the last search. -/
  limit : Nat

namespace Sight

variable {σ : Sight} {D : Nat → Finset Int} {late late' : Nat → Prop}

/-- There is no choice. -/
def Hopeless (σ : Sight) : Prop := AllDifferent.Hopeless σ.domains σ.vars

/-- No active variable has a mate. -/
def Unmatched (σ : Sight) : Prop := ∀ x ∈ σ.graph.active, σ.graph.mate x = none

/-- Active variables that belong together have the same tag. -/
def Coarse (σ : Sight) : Prop :=
  ∀ x y, σ.graph.Together x y → x ∈ σ.graph.active → y ∈ σ.graph.active → σ.tag x = σ.tag y

/-- The tags of the active variables are those of the components. -/
def Sharp (σ : Sight) : Prop :=
  ∀ x ∈ σ.graph.active, ∀ y ∈ σ.graph.active, σ.tag x = σ.tag y ↔ σ.graph.Together x y

/-- What is deduced from the sight holds of every choice. -/
structure Trusted (σ : Sight) : Prop where
  faithful : σ.graph.Faithful σ.val σ.domains σ.vars
  bounded : σ.graph.Bounded σ.limit
  coarse : σ.Coarse
  matching : σ.graph.Covered ∨ σ.Unmatched

/-- There is no choice, or the sight can be trusted. -/
def Honest (σ : Sight) : Prop := σ.Hopeless ∨ σ.Trusted

/-- There is no choice, or the sight can be trusted as long as the matching is not `same`. -/
def Sane (σ : Sight) (same : Prop) : Prop :=
  σ.Hopeless ∨ σ.graph.Faithful σ.val σ.domains σ.vars ∧ σ.graph.Bounded σ.limit ∧
    (same → σ.Coarse ∧ (σ.graph.Covered ∨ σ.Unmatched))

/-- The sight after the domains were narrowed. -/
def narrow (σ : Sight) (D : Nat → Finset Int) : Sight := { σ with domains := D }

@[simp]
theorem narrow_graph (σ : Sight) (D : Nat → Finset Int) : (σ.narrow D).graph = σ.graph := rfl

theorem narrow_trans {τ υ : Sight} (h : τ = σ.narrow τ.domains) (h' : υ = τ.narrow υ.domains) :
    υ = σ.narrow υ.domains := by
  have heq : τ.narrow υ.domains = (σ.narrow τ.domains).narrow υ.domains :=
    congrArg (Sight.narrow · υ.domains) h
  exact h'.trans heq

/-- Narrowing domains does no harm. -/
theorem Honest.narrow (h : σ.Honest) (hD : ∀ x < σ.vars, D x ⊆ σ.domains x) :
    (σ.narrow D).Honest := by
  obtain h | h := h
  · exact Or.inl (AllDifferent.Hopeless.mono h hD)
  · exact Or.inr ⟨h.faithful.mono hD, h.bounded, h.coarse, h.matching⟩

/-- The tags of the components are coarse. -/
theorem Sharp.coarse (h : σ.Sharp) : σ.Coarse :=
  fun x y hxy hx hy => (h x hx y hy).2 hxy

/-- When the matching covers active variables without mates, there are none. -/
theorem Unmatched.active_eq (h : σ.Unmatched) (hc : σ.graph.Covered) : σ.graph.active = ∅ := by
  refine Finset.eq_empty_of_forall_notMem fun x hx => ?_
  obtain ⟨v, hv⟩ := hc x hx
  rw [h x hx] at hv
  cases hv

/-! ## After a run -/

/-- A grounded variable keeps its mate, which is its only edge and no value of another variable. -/
def Grounded (σ : Sight) : Prop :=
  ∀ x < σ.vars, x ∉ σ.graph.active → ∃ a, σ.graph.mate x = some a ∧
    (∀ v ∈ σ.graph.live x, v = a) ∧ ∀ z < σ.vars, z ≠ x → σ.val a ∉ σ.domains z

namespace Grounded

/-- Narrowing domains does no harm, even if it empties them. -/
theorem narrow (h : σ.Grounded) (hD : ∀ x < σ.vars, D x ⊆ σ.domains x) :
    (σ.narrow D).Grounded := by
  intro x hx hxa
  obtain ⟨a, ha, honly, hdenied⟩ := h x hx hxa
  exact ⟨a, ha, honly, fun z hz hzx hmem => hdenied z hz hzx (hD z hz hmem)⟩

/-- When the matching covers the active variables, all variables have mates. -/
theorem exists_mate (h : σ.Grounded) (hc : σ.graph.Covered) {x : Nat} (hx : x < σ.vars) :
    ∃ a, σ.graph.mate x = some a := by
  by_cases hxa : x ∈ σ.graph.active
  · exact hc x hxa
  · obtain ⟨a, ha, _⟩ := h x hx hxa
    exact ⟨a, ha⟩

end Grounded

/-- The live edges are the values of the domains, except for the variables that are `late`.  Grounded
variables keep what they have, and their values are still there. -/
structure Tidy (σ : Sight) (late : Nat → Prop) : Prop where
  clean : ∀ x < σ.vars, late x ∨ ∀ v ∈ σ.graph.live x, σ.val v ∈ σ.domains x
  kept : σ.Grounded
  filled : ∀ x < σ.vars, x ∉ σ.graph.active → σ.domains x ≠ ∅

namespace Tidy

/-- More variables may be late. -/
theorem mono (h : σ.Tidy late) (hlate : ∀ x < σ.vars, late x → late' x) : σ.Tidy late' :=
  ⟨fun x hx => (h.clean x hx).imp_left (hlate x hx), h.kept, h.filled⟩

/-- Variables whose domains were narrowed are late. -/
theorem narrow (h : σ.Tidy late) (hD : ∀ x < σ.vars, D x ⊆ σ.domains x)
    (hne : ∀ x < σ.vars, σ.domains x ≠ ∅ → D x ≠ ∅) :
    (σ.narrow D).Tidy fun x => late x ∨ D x ≠ σ.domains x := by
  refine ⟨fun x hx => ?_, h.kept.narrow hD, fun x hx hxa => hne x hx (h.filled x hx hxa)⟩
  obtain hlate | hclean := h.clean x hx
  · exact Or.inl (Or.inl hlate)
  · by_cases heq : D x = σ.domains x
    · refine Or.inr fun v hv => ?_
      show σ.val v ∈ D x
      rw [heq]
      exact hclean v hv
    · exact Or.inl (Or.inr heq)

/-- When the matching covers the active variables, there is a choice. -/
theorem not_hopeless {m : Nat} (h : σ.Tidy fun _ => False) (hw : σ.graph.Within σ.vars m σ.val)
    (hm : σ.graph.Matched) (hfit : σ.graph.Fits σ.val σ.domains σ.vars) (hc : σ.graph.Covered) :
    ¬ σ.Hopeless := by
  intro hhopeless
  obtain ⟨φ, hφ, _⟩ := Snapshot.choice_of_covering hw hm
    (fun x hx => (h.clean x (hw.active_lt x hx)).resolve_left id)
    (fun x hx hxa => by
      obtain ⟨a, ha, honly, _⟩ := h.kept x hx hxa
      obtain ⟨u, hu⟩ := Finset.nonempty_iff_ne_empty.2 (h.filled x hx hxa)
      obtain ⟨v, hv, rfl⟩ := hfit x hx u hu
      exact ⟨a, ha, by rw [← honly v hv]; exact hu⟩) (hm.covering hc)
  exact hhopeless φ hφ

end Tidy

/-- The matching covers the active variables, and the tags are those of the components; or no active
variable has a mate. -/
def Tagged (σ : Sight) : Prop := σ.graph.Covered ∧ σ.Sharp ∨ σ.Unmatched

theorem Tagged.sharp (h : σ.Tagged) (hc : σ.graph.Covered) : σ.Sharp := by
  obtain ⟨_, hsharp⟩ | hunmatched := h
  · exact hsharp
  · intro x hx
    rw [hunmatched.active_eq hc] at hx
    exact absurd hx (Finset.notMem_empty x)

theorem sharp_narrow {D : Nat → Finset Int} : (σ.narrow D).Sharp ↔ σ.Sharp := Iff.rfl

theorem tagged_narrow {D : Nat → Finset Int} : (σ.narrow D).Tagged ↔ σ.Tagged := Iff.rfl

/-- What a propagator relies on in its next run, whatever became of the domains.  No choice is needed
for it. -/
structure Lasting (σ : Sight) : Prop where
  grounded : σ.Grounded
  tagged : σ.Tagged
  bounded : σ.graph.Bounded σ.limit

/-- Narrowing domains does no harm, even if it empties them. -/
theorem Lasting.narrow (h : σ.Lasting) (hD : ∀ x < σ.vars, D x ⊆ σ.domains x) :
    (σ.narrow D).Lasting :=
  ⟨h.grounded.narrow hD, h.tagged, h.bounded⟩

/-- There is no choice, or every edge belongs to a covering. -/
def Filtered (σ : Sight) : Prop := σ.Hopeless ∨ (σ.graph.Covered → σ.graph.Exact)

/-- The propagator has run, and nothing happened since, except to the domains of the variables that
are `late`. -/
structure Settled (σ : Sight) (late : Nat → Prop) : Prop extends Tidy σ late where
  tagged : σ.Tagged
  filtered : σ.Filtered

namespace Settled

/-- More variables may be late. -/
theorem mono (h : σ.Settled late) (hlate : ∀ x < σ.vars, late x → late' x) : σ.Settled late' :=
  ⟨h.toTidy.mono hlate, h.tagged, h.filtered⟩

/-- Variables whose domains were narrowed are late. -/
theorem narrow (h : σ.Settled late) (hD : ∀ x < σ.vars, D x ⊆ σ.domains x)
    (hne : ∀ x < σ.vars, σ.domains x ≠ ∅ → D x ≠ ∅) :
    (σ.narrow D).Settled fun x => late x ∨ D x ≠ σ.domains x :=
  ⟨h.toTidy.narrow hD hne, h.tagged,
    h.filtered.imp_left fun hhopeless => AllDifferent.Hopeless.mono hhopeless hD⟩

/-- When the matching covers the variables, every value belongs to a choice. -/
theorem supported {m : Nat} (h : σ.Settled fun _ => False) (hw : σ.graph.Within σ.vars m σ.val)
    (hm : σ.graph.Matched) (hfit : σ.graph.Fits σ.val σ.domains σ.vars) (hc : σ.graph.Covered) :
    Supported σ.domains σ.vars := by
  have hclean : ∀ x < σ.vars, ∀ v ∈ σ.graph.live x, σ.val v ∈ σ.domains x :=
    fun x hx => (h.clean x hx).resolve_left id
  have hexact := h.filtered.resolve_left (h.not_hopeless hw hm hfit hc) hc
  refine Snapshot.supported_of_exact hw hm hc hexact hfit
    (fun x hx => hclean x (hw.active_lt x hx)) (fun x hx hxa => ?_) fun x hx hxa a ha => ?_
  · obtain ⟨a, ha, honly, _⟩ := h.kept x hx hxa
    refine ⟨a, ha, Finset.eq_singleton_iff_nonempty_unique_mem.2
      ⟨Finset.nonempty_iff_ne_empty.2 (h.filled x hx hxa), fun u hu => ?_⟩⟩
    obtain ⟨v, hv, rfl⟩ := hfit x hx u hu
    rw [honly v hv]
  · obtain ⟨a', ha', _, hdenied⟩ := h.kept x hx hxa
    obtain rfl := Option.some.inj (ha.symm.trans ha')
    exact hdenied

end Settled

end Sight

/-! ## Losing edges -/

namespace Snapshot

variable {p q : Snapshot} {x y : Nat}

/-- Edges and active variables were lost, and the matching is the same. -/
structure Thins (p q : Snapshot) : Prop where
  active_subset : q.active ⊆ p.active
  live_subset : ∀ x, q.live x ⊆ p.live x
  mate_eq : q.mate = p.mate

namespace Thins

theorem arc (h : Thins p q) (hxy : q.Arc x y) : p.Arc x y := by
  obtain ⟨hx, hy, v, hv, hlive⟩ := hxy
  refine ⟨h.active_subset hx, h.active_subset hy, v, ?_, h.live_subset y hlive⟩
  rw [← h.mate_eq]
  exact hv

/-- A component can only split. -/
theorem together (h : Thins p q) (hxy : q.Together x y) : p.Together x y :=
  ⟨ReflTransGen.mono (fun _ _ => h.arc) _ _ hxy.1, ReflTransGen.mono (fun _ _ => h.arc) _ _ hxy.2⟩

/-- Within a component in which nothing was lost, paths are still there. -/
theorem reflTransGen_of_untouched (h : Thins p q)
    (hsame : ∀ z, p.Together x z → q.live z = p.live z ∧ (z ∈ p.active → z ∈ q.active))
    (hto : ReflTransGen p.Arc x y) (hback : ReflTransGen p.Arc y x) :
    ReflTransGen q.Arc x y := by
  induction hto with
  | refl => exact .refl
  | @tail b c hxb hbc ih =>
    have hb : p.Together x b := ⟨hxb, .head hbc hback⟩
    have hc : p.Together x c := ⟨hxb.tail hbc, hback⟩
    refine (ih hb.2).tail ?_
    obtain ⟨hba, hca, v, hv, hlive⟩ := hbc
    refine ⟨(hsame b hb).2 hba, (hsame c hc).2 hca, v, ?_, ?_⟩
    · rw [h.mate_eq]
      exact hv
    · rw [(hsame c hc).1]
      exact hlive

/-- A component in which nothing was lost stays as it is. -/
theorem together_of_untouched (h : Thins p q)
    (hsame : ∀ z, p.Together x z → q.live z = p.live z ∧ (z ∈ p.active → z ∈ q.active))
    (hxy : p.Together x y) : q.Together x y := by
  refine ⟨h.reflTransGen_of_untouched hsame hxy.1 hxy.2,
    h.reflTransGen_of_untouched (fun z hz => hsame z ?_) hxy.2 hxy.1⟩
  exact ⟨hxy.1.trans hz.1, hz.2.trans hxy.2⟩

end Thins

theorem Together.mem_active (h : p.Together x y) (hx : x ∈ p.active) : y ∈ p.active := by
  obtain rfl | ⟨z, _, harc⟩ := h.1.cases_tail
  · exact hx
  · exact harc.2.1

/-- When every edge to the mate of another variable is within a component, or the other variable is
reached, then every edge belongs to a covering. -/
theorem Matched.exact (h : p.Matched) (hc : p.Covered)
    (hwhy : ∀ y ∈ p.active, ∀ a ∈ p.live y, ∀ x ∈ p.active, p.mate x = some a →
      x = y ∨ p.Reached x ∨ p.Together x y) : p.Exact := by
  intro y hy a ha
  refine exists_covering h hc hy ha fun x hx => ?_
  obtain ⟨hlive, hactive⟩ := mem_options.1 ha
  obtain hxy | hr | htogether :=
    hwhy y hy a hlive x (hactive x hx) (h.mate_of_owner a x hx)
  · exact Or.inl hxy
  · exact Or.inr (Or.inl hr)
  · exact Or.inr (Or.inr htogether.2)

end Snapshot

namespace Sight

variable {σ σ' : Sight} {touched : List Nat}

/-- The tags were those of the components before some `touched` variables lost edges. -/
structure Traceable (σ : Sight) (touched : List Nat) : Prop where
  coarse : σ.Coarse
  together : ∀ x ∈ σ.graph.active, ∀ y ∈ σ.graph.active, σ.tag x = σ.tag y →
    (∀ z ∈ touched, σ.tag z ≠ σ.tag x) → σ.graph.Together x y

/-- Tags stay coarse while edges are lost and the matching is the same. -/
theorem Coarse.thin (h : σ.Coarse) (ht : Snapshot.Thins σ.graph σ'.graph) (htag : σ'.tag = σ.tag) :
    σ'.Coarse := by
  intro x y hxy hx hy
  rw [htag]
  exact h x y (ht.together hxy) (ht.active_subset hx) (ht.active_subset hy)

/-- Where edges are lost, the variable is touched. -/
theorem Sharp.traceable (h : σ.Sharp) (ht : Snapshot.Thins σ.graph σ'.graph)
    (htag : σ'.tag = σ.tag)
    (huntouched : ∀ z, z ∉ touched → σ'.graph.live z = σ.graph.live z ∧
      (z ∈ σ.graph.active → z ∈ σ'.graph.active)) : σ'.Traceable touched := by
  refine ⟨h.coarse.thin ht htag, fun x hx y hy heq hnot => ?_⟩
  rw [htag] at heq hnot
  have hxa := ht.active_subset hx
  refine ht.together_of_untouched (fun z hz => huntouched z fun hmem => ?_)
    ((h x hxa y (ht.active_subset hy)).1 heq)
  exact hnot z hmem ((h x hxa z (hz.mem_active hxa)).2 hz).symm

end Sight

end FiniteDomain.AllDifferent
