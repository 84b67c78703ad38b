import FiniteDomain.AllDifferent.Marks

/-!
# Which numbers are marked

`Marks.Has` is the set of the marked numbers, and `Marks.Fit` the invariant under which it is asked
and changed as a set would be.
-/

namespace FiniteDomain.Marks

variable {m : Marks} {n x y : Nat}

/-- The number is marked. -/
def Has (m : Marks) (x : Nat) : Prop := m.stamps[x]? = some m.clock

instance (m : Marks) : DecidablePred m.Has := fun _ => inferInstanceAs (Decidable (_ = _))

/-- Marks on the numbers below `n`, none of which is from a time to come. -/
structure Fit (m : Marks) (n : Nat) : Prop where
  size_eq : m.stamps.size = n
  sound : m.Sound

theorem Fit.isMarked_eq (h : m.Fit n) (hx : x < n) : m.isMarked x = .ok (decide (m.Has x)) := by
  have hlt : x < m.stamps.size := h.size_eq ▸ hx
  have hiff : m.Has x ↔ m.stamps[x] = m.clock := by
    rw [Has, Array.getElem?_eq_getElem hlt, Option.some.injEq]
  rw [isMarked, fetch, Array.getElem?_eq_getElem hlt]
  show Except.ok (m.stamps[x] == m.clock) = _
  congr 1
  rw [Bool.eq_iff_iff, beq_iff_eq, decide_eq_true_iff, hiff]

theorem isMarked_iff : m.isMarked x = .ok true ↔ m.Has x := by
  rw [isMarked, fetch, Has]
  cases m.stamps[x]? with
  | none =>
    exact iff_of_false (fun hret => by cases hret) fun hsome => by cases hsome
  | some stamp =>
    show Except.ok (stamp == m.clock) = _ ↔ _
    rw [Except.ok.injEq, beq_iff_eq, Option.some.injEq]

/-- The same numbers are read as marked where the same ones are. -/
theorem Fit.isMarked_congr {m' : Marks} (h : m.Fit n) (h' : m'.Fit n)
    (hsame : ∀ x, m.Has x ↔ m'.Has x) (x : Nat) : m.isMarked x = m'.isMarked x := by
  by_cases hx : x < n
  · rw [h.isMarked_eq hx, h'.isMarked_eq hx]
    simp only [hsame]
  · have hnone : ∀ {k : Marks}, k.Fit n → k.isMarked x = .error .outOfBounds := by
      intro k hk
      rw [isMarked, fetch, Array.getElem?_eq_none (by rw [hk.size_eq]; omega)]
      rfl
    rw [hnone h, hnone h']

theorem Fit.blank (n : Nat) : (blank n).Fit n := by
  refine ⟨Array.size_replicate, fun stamp hs => ?_⟩
  rw [(Array.mem_replicate.1 hs).2]
  exact Nat.zero_le _

/-- What is marked after a mark was set. -/
theorem Fit.has_mark (h : m.Fit n) (hx : x < n) : (m.mark x).Has y ↔ y = x ∨ m.Has y := by
  rw [Has, mark, Array.getElem?_setIfInBounds, h.size_eq]
  by_cases hy : x = y
  · rw [if_pos hy, if_pos (hy ▸ hx)]
    exact ⟨fun _ => Or.inl hy.symm, fun _ => rfl⟩
  · rw [if_neg hy]
    exact ⟨Or.inr, fun hor => hor.resolve_left (Ne.symm hy)⟩

theorem Fit.mark (h : m.Fit n) (x : Nat) : (m.mark x).Fit n := by
  refine ⟨by rw [Marks.mark, Array.size_setIfInBounds, h.size_eq], fun stamp hs => ?_⟩
  obtain hs | rfl := Array.mem_or_eq_of_mem_setIfInBounds hs
  · exact h.sound stamp hs
  · exact Nat.le_refl _

/-- Nothing is marked after the marks were forgotten. -/
theorem Fit.not_has_forget (h : m.Fit n) : ¬ m.forget.Has x := by
  intro hx
  have hle := h.sound _ (Array.mem_of_getElem? hx)
  exact Nat.not_succ_le_self _ hle

theorem Fit.forget (h : m.Fit n) : m.forget.Fit n :=
  ⟨h.size_eq, fun stamp hs => Nat.le_succ_of_le (h.sound stamp hs)⟩

/-- Only numbers below the bound are marked. -/
theorem Fit.lt_of_has (h : m.Fit n) (hx : m.Has x) : x < n :=
  h.size_eq ▸ (Array.getElem?_eq_some_iff.1 hx).1

end FiniteDomain.Marks
