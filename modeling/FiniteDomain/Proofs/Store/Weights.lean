import FiniteDomain.Proofs.Store.Domains
import Mathlib.Algebra.Order.BigOperators.Group.Finset

/-!
# The weight of the domains

The weight of a store is the number of values in all its domains.  Whatever only takes values away
lowers the weight or leaves every domain as it is, which bounds the rounds of a model and the
decisions of a search.

* `weight_le` and `weight_lt` compare the weights of two stores with the same variables.
* `Sound.weight_le_capacity` bounds the weight by what the sets can hold.
-/

namespace FiniteDomain.Store

variable {s s' : Store}

/-- The number of values in all domains. -/
def weight (s : Store) : Nat := ∑ i ∈ Finset.range s.definitions.size, (s.domain ⟨i⟩).card

/-- A variable that does not exist has no values. -/
theorem domain_eq_empty {p : Var} (hp : s.definitions.size ≤ p.index) : s.domain p = ∅ := by
  rw [domain, domainIn, Array.getElem?_eq_none hp]

/-- Where domains only lose values, the weight does not grow. -/
theorem weight_le (hsize : s'.definitions.size = s.definitions.size)
    (hsub : ∀ p, s'.domain p ⊆ s.domain p) : s'.weight ≤ s.weight := by
  rw [weight, weight, hsize]
  exact Finset.sum_le_sum fun i _ => Finset.card_le_card (hsub ⟨i⟩)

/-- Where some domain lost a value, the weight has fallen. -/
theorem weight_lt (hsize : s'.definitions.size = s.definitions.size)
    (hsub : ∀ p, s'.domain p ⊆ s.domain p) {q : Var} (hq : s'.domain q ≠ s.domain q) :
    s'.weight < s.weight := by
  have hlost : s'.domain q ⊂ s.domain q := (hsub q).ssubset_of_ne hq
  have hlt : q.index < s.definitions.size := by
    by_contra hge
    rw [Nat.not_lt] at hge
    rw [domain_eq_empty hge] at hlost
    exact absurd hlost (Finset.not_ssubset_empty _)
  rw [weight, weight, hsize]
  exact Finset.sum_lt_sum (fun i _ => Finset.card_le_card (hsub ⟨i⟩))
    ⟨q.index, Finset.mem_range.2 hlt, Finset.card_lt_card hlost⟩

/-! ## What the sets can hold -/

/-- The number of values that all sets together can hold. -/
theorem foldl_capacity (sets : Array SparseSet) :
    sets.foldl (fun total set => total + set.capacity) 0 =
      ∑ j ∈ Finset.range sets.size, ((sets[j]?).map SparseSet.capacity).getD 0 := by
  have hlist : ∀ (l : List SparseSet) (total : Nat),
      l.foldl (fun total set => total + set.capacity) total =
        total + ∑ j ∈ Finset.range l.length, ((l[j]?).map SparseSet.capacity).getD 0 := by
    intro l
    induction l with
    | nil => simp
    | cons set rest ih =>
      intro total
      rw [List.foldl_cons, ih, List.length_cons, Finset.sum_range_succ']
      simp only [List.getElem?_cons_succ, List.getElem?_cons_zero, Option.map_some, Option.getD_some]
      omega
  rw [← Array.foldl_toList, hlist, Nat.zero_add, Array.length_toList]
  simp only [Array.getElem?_toList]

/-- The set of a primitive variable; all other variables share a number that is no set. -/
def setIndex (s : Store) (i : Nat) : Nat :=
  match s.definitions[i]? with
  | some (.primitive _ d) => d.index
  | _ => s.trail.sets.size

namespace Sound

/-- The domain of a primitive variable is in a set that can hold it. -/
theorem card_domain_le (h : s.Sound) {b : Base} (hb : s.IsBase b) :
    ∃ set, s.trail.sets[b.domain.index]? = some set ∧ (s.domain b.var).card ≤ set.capacity := by
  obtain ⟨set, hset⟩ := h.exists_set hb
  refine ⟨set, hset, ?_⟩
  have hnow : s.trail.now ∈ s.trail.frames := List.mem_cons_self ..
  have hin := (h.lt_of_base hb).2
  have hcard := h.trail.card_domain hset hnow hin
  have hsize := (h.trail.inSight _ hnow _ _ hset hin).1.size_le
  have hdomain : s.domain b.var = s.trail.domainOf s.trail.now set := by
    rw [domain_eq hb, Trail.domain_eq hset]
  rw [hdomain, hcard]
  omega

/-- The weight is at most what the sets can hold. -/
theorem weight_le_capacity (h : s.Sound) :
    s.weight ≤ s.trail.sets.foldl (fun total set => total + set.capacity) 0 := by
  -- Only primitive variables weigh anything, and no two of them share a set.
  set primitives := (Finset.range s.definitions.size).filter fun i => s.domain ⟨i⟩ ≠ ∅
    with hprimitives
  have hbase : ∀ i ∈ primitives, ∃ slot d, s.definitions[i]? = some (.primitive slot d) := by
    intro i hi
    have hne := (Finset.mem_filter.1 hi).2
    rw [domain, domainIn] at hne
    split at hne
    · exact ⟨_, _, by assumption⟩
    · exact absurd rfl hne
  have hindex : ∀ {i slot : Nat} {d : SetId}, s.definitions[i]? = some (.primitive slot d) →
      s.setIndex i = d.index := by
    intro i slot d hi
    rw [setIndex, hi]
  have hweight : s.weight = ∑ i ∈ primitives, (s.domain ⟨i⟩).card := by
    rw [weight, hprimitives, Finset.sum_filter_of_ne]
    intro i _ hne hempty
    rw [hempty, Finset.card_empty] at hne
    exact hne rfl
  have hinjective : Set.InjOn s.setIndex (primitives : Set Nat) := by
    intro i hi j hj heq
    obtain ⟨slot, d, hd⟩ := hbase i hi
    obtain ⟨slot', d', hd'⟩ := hbase j hj
    rw [hindex hd, hindex hd'] at heq
    obtain rfl : d = d' := congrArg SetId.mk heq
    exact h.apart i j slot slot' d hd hd'
  have hsub : primitives.image s.setIndex ⊆ Finset.range s.trail.sets.size := by
    intro j hj
    obtain ⟨i, hi, rfl⟩ := Finset.mem_image.1 hj
    obtain ⟨slot, d, hd⟩ := hbase i hi
    obtain ⟨set, hset⟩ := h.exists_set (b := ⟨⟨i⟩, slot, d⟩) hd
    rw [hindex hd]
    exact Finset.mem_range.2 (Array.getElem?_eq_some_iff.1 hset).1
  calc s.weight
      = ∑ i ∈ primitives, (s.domain ⟨i⟩).card := hweight
    _ ≤ ∑ i ∈ primitives, ((s.trail.sets[s.setIndex i]?).map SparseSet.capacity).getD 0 := by
        refine Finset.sum_le_sum fun i hi => ?_
        obtain ⟨slot, d, hd⟩ := hbase i hi
        obtain ⟨set, hset, hle⟩ := h.card_domain_le (b := ⟨⟨i⟩, slot, d⟩) hd
        rw [hindex hd, hset]
        exact hle
    _ = ∑ j ∈ primitives.image s.setIndex,
          ((s.trail.sets[j]?).map SparseSet.capacity).getD 0 :=
        (Finset.sum_image
          (f := fun j => ((s.trail.sets[j]?).map SparseSet.capacity).getD 0) hinjective).symm
    _ ≤ ∑ j ∈ Finset.range s.trail.sets.size,
          ((s.trail.sets[j]?).map SparseSet.capacity).getD 0 :=
        Finset.sum_le_sum_of_subset hsub
    _ = s.trail.sets.foldl (fun total set => total + set.capacity) 0 :=
        (foldl_capacity s.trail.sets).symm

end Sound

end FiniteDomain.Store
