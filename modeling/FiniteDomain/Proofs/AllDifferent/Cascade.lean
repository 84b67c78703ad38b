import FiniteDomain.Proofs.AllDifferent.Anchors
import Mathlib.Algebra.Order.BigOperators.Group.Finset
import Mathlib.Logic.Relation

/-!
# Denying single values

A variable that has one value only denies it to all others, which may leave one of them with a single
value in its turn.  `ValueGraph.Denies` is one such step on the domains of the primitive variables:
variables that share one are narrowed together.  `ValueGraph.Exhausts` says that steps were taken
until none was left.

The order of the steps does not matter.  No step takes away anything of domains that no step is left
for and in which every variable has a value (`Denies.keeps`).  So these are the only ones that the
steps can end with (`Exhausts.unique`), and when a variable has lost all values after some steps, one
has none in the end (`Exhausts.exists_empty`).
-/

namespace FiniteDomain.AllDifferent.ValueGraph

open Relation

variable {g g' : ValueGraph} {s s' : Store} {F F' E E' : Var → Finset Int} {x z : Nat} {a : Int}

/-- The primitive variable of `z` loses what `z` takes as `a`. -/
def deny (g : ValueGraph) (s : Store) (F : Var → Finset Int) (z : Nat) (a : Int) :
    Var → Finset Int :=
  Function.update F (g.sourceOf z)
    ((F (g.sourceOf z)).filter fun r => (s.path (g.varOf z)).eval r ≠ a)

/-- The single value of a variable is taken away from another one that has it. -/
def Denies (g : ValueGraph) (s : Store) (F F' : Var → Finset Int) : Prop :=
  ∃ x < g.varTotal, ∃ z < g.varTotal, ∃ a, z ≠ x ∧ g.views s F x = {a} ∧ a ∈ g.views s F z ∧
    F' = g.deny s F z a

/-- Single values are denied until there is none left to deny. -/
def Exhausts (g : ValueGraph) (s : Store) (F E : Var → Finset Int) : Prop :=
  ReflTransGen (g.Denies s) F E ∧ ∀ E', ¬ g.Denies s E E'

/-! ## One step -/

theorem mem_deny {p : Var} {r : Int} : r ∈ g.deny s F z a p ↔
    r ∈ F p ∧ (p = g.sourceOf z → (s.path (g.varOf z)).eval r ≠ a) := by
  rw [deny]
  by_cases hp : p = g.sourceOf z
  · subst hp
    rw [Function.update_self, Finset.mem_filter]
    simp
  · rw [Function.update_of_ne hp]
    simp [hp]

theorem deny_subset (p : Var) : g.deny s F z a p ⊆ F p := fun _ hr => (mem_deny.1 hr).1

/-- Nothing is taken away from a variable that does not have the value. -/
theorem deny_eq_self (ha : g.Anchored s) (hz : z < g.varTotal) (hnot : a ∉ g.views s F z) :
    g.deny s F z a = F := by
  refine funext fun p => Finset.Subset.antisymm (deny_subset p) fun r hr => ?_
  refine mem_deny.2 ⟨hr, fun hp heval => hnot ?_⟩
  exact (ha.mem_views hz).2 ⟨r, hp ▸ hr, heval⟩

theorem denies_congr (ha : Alike g g') (hp : ∀ x, s'.path x = s.path x) :
    g'.Denies s' = g.Denies s := by
  funext F F'
  have hdeny : ∀ z a, g'.deny s' F z a = g.deny s F z a := fun z a => by
    rw [deny, deny, ha.sourceOf_eq, ha.varOf_eq, hp]
  rw [Denies, Denies, ha.varTotal_eq, views_congr ha hp]
  simp only [hdeny]

theorem Denies.subset (h : g.Denies s F F') (p : Var) : F' p ⊆ F p := by
  obtain ⟨x, _, z, _, a, _, _, _, rfl⟩ := h
  exact deny_subset p

/-- Domains that no step is left for, and in which every variable has a value, are not touched by a
step on larger ones: whoever has a single value there has the same one here. -/
theorem Denies.keeps (h : g.Denies s F F') (ha : g.Anchored s) (hE : ∀ E', ¬ g.Denies s E E')
    (hne : ∀ x < g.varTotal, g.views s E x ≠ ∅) (hle : ∀ p, E p ⊆ F p) (p : Var) : E p ⊆ F' p := by
  obtain ⟨x, hx, z, hz, a, hzx, hone, _, rfl⟩ := h
  have hsame : g.views s E x = {a} := by
    refine (Finset.subset_singleton_iff.1 ?_).resolve_left (hne x hx)
    rw [← hone]
    exact views_mono hle x
  intro r hr
  refine mem_deny.2 ⟨hle p hr, fun hp heval => hE _ ⟨x, hx, z, hz, a, hzx, hsame, ?_, rfl⟩⟩
  exact (ha.mem_views hz).2 ⟨r, hp ▸ hr, heval⟩

/-! ## All steps -/

theorem denies_subset (h : ReflTransGen (g.Denies s) F F') (p : Var) : F' p ⊆ F p := by
  induction h with
  | refl => exact Finset.Subset.refl _
  | tail _ hstep ih => exact (hstep.subset p).trans ih

theorem denies_keeps (h : ReflTransGen (g.Denies s) F F') (ha : g.Anchored s)
    (hE : ∀ E', ¬ g.Denies s E E') (hne : ∀ x < g.varTotal, g.views s E x ≠ ∅)
    (hle : ∀ p, E p ⊆ F p) : ∀ p, E p ⊆ F' p := by
  induction h with
  | refl => exact hle
  | tail _ hstep ih => exact hstep.keeps ha hE hne ih

/-- If the steps can end with a value for every variable, they end like that. -/
theorem Exhausts.unique (h : g.Exhausts s F E) (ha : g.Anchored s)
    (hne : ∀ x < g.varTotal, g.views s E x ≠ ∅) (h' : g.Exhausts s F E') : E' = E := by
  have hle := denies_keeps h'.1 ha h.2 hne (denies_subset h.1)
  have hne' : ∀ x < g.varTotal, g.views s E' x ≠ ∅ := fun x hx hempty =>
    hne x hx (Finset.subset_empty.1 (hempty ▸ views_mono hle x))
  have hle' := denies_keeps h.1 ha h'.2 hne' (denies_subset h'.1)
  exact funext fun p => Finset.Subset.antisymm (hle' p) (hle p)

/-- A variable that lost all values makes the steps end without a value for some variable. -/
theorem Exhausts.exists_empty (h : g.Exhausts s F E) (ha : g.Anchored s)
    (hsteps : ReflTransGen (g.Denies s) F F') (hx : x < g.varTotal) (hempty : g.views s F' x = ∅) :
    ∃ z < g.varTotal, g.views s E z = ∅ := by
  by_contra hnone
  push Not at hnone
  have hne : ∀ z < g.varTotal, g.views s E z ≠ ∅ := fun z hz => (hnone z hz).ne_empty
  have hle := denies_keeps hsteps ha h.2 hne (denies_subset h.1)
  exact hne x hx (Finset.subset_empty.1 (hempty ▸ views_mono hle x))

/-- Every step takes a value away, so the steps come to an end. -/
theorem exists_exhausts (ha : g.Anchored s) (F : Var → Finset Int) : ∃ E, g.Exhausts s F E := by
  induction hn : ∑ x ∈ Finset.range g.varTotal, (F (g.sourceOf x)).card using
    Nat.strong_induction_on generalizing F with
  | h n ih =>
    by_cases hmore : ∃ F', g.Denies s F F'
    · obtain ⟨F', hstep⟩ := hmore
      have hless : ∑ x ∈ Finset.range g.varTotal, (F' (g.sourceOf x)).card < n := by
        rw [← hn]
        have hle := fun x (_ : x ∈ Finset.range g.varTotal) =>
          Finset.card_le_card (hstep.subset (g.sourceOf x))
        obtain ⟨x, _, z, hz, a, _, _, hmem, rfl⟩ := hstep
        obtain ⟨r, hr, heval⟩ := (ha.mem_views hz).1 hmem
        refine Finset.sum_lt_sum hle ⟨z, Finset.mem_range.2 hz, Finset.card_lt_card ?_⟩
        exact (Finset.ssubset_iff_of_subset (deny_subset _)).2
          ⟨r, hr, fun hr' => (mem_deny.1 hr').2 rfl heval⟩
      obtain ⟨E, hE, hend⟩ := ih _ hless F' rfl
      exact ⟨E, .head hstep hE, hend⟩
    · exact ⟨F, .refl, not_exists.1 hmore⟩

/-! ## The store -/

/-- To remove the single value of a variable from another one is a step, or does nothing. -/
theorem denies_remove (h : g.Sound s) (ha : g.Anchored s) (hx : x < g.varTotal)
    (hz : z < g.varTotal) (hzx : z ≠ x) (hone : g.domains s x = {a}) {verdict : Verdict}
    (hret : s.remove (g.varOf z) a = .ok (verdict, s')) :
    ReflTransGen (g.Denies s) s.domain s'.domain ∧
      (verdict ≠ .consistent → verdict = .failed .domainWipeout ∧ g.domains s' z = ∅) := by
  obtain ⟨b, hsource, _, hs, hjudge⟩ := Store.remove_spec h.store (ha.var_lt z hz) hret
  obtain ⟨b', hsource', hb⟩ := ha.source_eq z hz
  obtain rfl : b' = b := Except.ok.inj (hsource'.symm.trans hsource)
  have hdomain : s'.domain = g.deny s s.domain z a := by
    refine funext fun p => ?_
    rw [deny, ← hb]
    by_cases hp : p = b'.var
    · subst hp
      rw [Function.update_self, hs.self]
    · rw [Function.update_of_ne hp, hs.other p hp]
  refine ⟨?_, fun hv => ?_⟩
  · rw [hdomain]
    by_cases hmem : a ∈ g.views s s.domain z
    · exact .single ⟨x, hx, z, hz, a, hzx, hone, hmem, rfl⟩
    · rw [deny_eq_self ha hz hmem]
  · rw [Store.Judges] at hjudge
    split at hjudge
    · rename_i hempty
      refine ⟨hjudge, Finset.eq_empty_of_forall_notMem fun u hu => ?_⟩
      rw [domains, views_congr (.refl g) hs.path_eq, ha.mem_views hz, ← hb, hs.self,
        hempty.1] at hu
      obtain ⟨r, hr, _⟩ := hu
      exact Finset.notMem_empty r hr
    · exact absurd hjudge hv

end FiniteDomain.AllDifferent.ValueGraph
