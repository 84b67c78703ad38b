import FiniteDomain.Store.Path
import FiniteDomain.Proofs.Loops

/-!
# Computations in step

Two computations are in step when they have answers that are related, or end with the same fault.  The
fault must not be that of a check, so that a computation that is in step with anything passes all of
its checks.

* `InStep R x y` says so of `x` and `y`, for answers related by `R`.
* `InStep.bind` puts two parts of a computation together, and the loops over lists follow from it.
* What does not look at a store is in step with itself: `InStep Eq x x`.
-/

namespace FiniteDomain

/-- A check that was asked for did not hold. -/
def Fault.OfCheck (f : Fault) : Prop := f = .brokenMatching ∨ f = .staleComponents

instance (f : Fault) : Decidable f.OfCheck := inferInstanceAs (Decidable (_ ∨ _))

/-- The answers are related by `R`, or both computations end with one fault that is not a check's. -/
inductive InStep {α β : Type} (R : α → β → Prop) : Except Fault α → Except Fault β → Prop
  | ok {a : α} {b : β} (h : R a b) : InStep R (.ok a) (.ok b)
  | error {f : Fault} (h : ¬ f.OfCheck) : InStep R (.error f) (.error f)

namespace InStep

variable {α β γ δ : Type} {R : α → β → Prop} {S : γ → δ → Prop} {x : Except Fault α}
  {y : Except Fault β} {f : α → Except Fault γ} {g : β → Except Fault δ}

/-! ## Parts of a computation -/

/-- More is known of the answers. -/
theorem of_ok {R' : α → β → Prop} (h : InStep R x y)
    (hR : ∀ a b, x = .ok a → y = .ok b → R a b → R' a b) : InStep R' x y := by
  cases h with
  | ok h => exact .ok (hR _ _ rfl rfl h)
  | error h => exact .error h

theorem mono {R' : α → β → Prop} (h : InStep R x y) (hR : ∀ a b, R a b → R' a b) :
    InStep R' x y :=
  h.of_ok fun a b _ _ => hR a b

/-- One part is done after the other, with what is known of the answers of the first one. -/
theorem bind_of_eq (h : InStep R x y)
    (hf : ∀ a b, x = .ok a → y = .ok b → R a b → InStep S (f a) (g b)) :
    InStep S (x >>= f) (y >>= g) := by
  cases h with
  | ok h => exact hf _ _ rfl rfl h
  | error h => exact .error h

theorem bind (h : InStep R x y) (hf : ∀ a b, R a b → InStep S (f a) (g b)) :
    InStep S (x >>= f) (y >>= g) :=
  h.bind_of_eq fun a b _ _ => hf a b

/-- The first parts have the same answer. -/
theorem andThen {y : Except Fault α} {g : α → Except Fault δ} (h : InStep Eq x y)
    (hf : ∀ a, InStep S (f a) (g a)) : InStep S (x >>= f) (y >>= g) :=
  h.bind fun a _ hab => hab ▸ hf a

/-- Both decide on the same branch. -/
theorem ite {c : Prop} [Decidable c] {x' : Except Fault α} {y' : Except Fault β}
    (h : c → InStep R x y) (h' : ¬ c → InStep R x' y') :
    InStep R (if c then x else x') (if c then y else y') := by
  by_cases hc : c
  · rw [if_pos hc, if_pos hc]
    exact h hc
  · rw [if_neg hc, if_neg hc]
    exact h' hc

theorem eq {y : Except Fault α} (h : InStep Eq x y) : x = y := by
  cases h with
  | ok h => rw [h]
  | error _ => rfl

/-- Where one answer is, the other is too. -/
theorem exists_of_ok {a : α} (h : InStep R (.ok a) y) : ∃ b, y = .ok b ∧ R a b := by
  cases h with
  | ok h => exact ⟨_, rfl, h⟩

/-! ## Loops -/

theorem foldlM {ι : Type} {f : α → ι → Except Fault α} {g : β → ι → Except Fault β} {l : List ι}
    {a : α} {b : β} (hab : R a b) (h : ∀ i ∈ l, ∀ a b, R a b → InStep R (f a i) (g b i)) :
    InStep R (l.foldlM f a) (l.foldlM g b) := by
  induction l generalizing a b with
  | nil => exact .ok hab
  | cons i rest ih =>
    rw [List.foldlM_cons, List.foldlM_cons]
    exact (h i (List.mem_cons_self ..) a b hab).bind fun a b hab =>
      ih hab fun j hj => h j (List.mem_cons_of_mem _ hj)

theorem mapM {f g : α → Except Fault γ} {l : List α} (h : ∀ a ∈ l, InStep Eq (f a) (g a)) :
    InStep Eq (l.mapM f) (l.mapM g) := by
  induction l with
  | nil => exact .ok rfl
  | cons a rest ih =>
    rw [List.mapM_cons, List.mapM_cons]
    exact (h a (List.mem_cons_self ..)).andThen fun b =>
      (ih fun a ha => h a (List.mem_cons_of_mem _ ha)).andThen fun bs => .ok rfl

theorem filterMapM {f g : α → Except Fault (Option γ)} {l : List α}
    (h : ∀ a ∈ l, InStep Eq (f a) (g a)) : InStep Eq (l.filterMapM f) (l.filterMapM g) := by
  induction l with
  | nil => exact .ok rfl
  | cons a rest ih =>
    have ih := ih fun a ha => h a (List.mem_cons_of_mem _ ha)
    rw [List.filterMapM_cons, List.filterMapM_cons]
    refine (h a (List.mem_cons_self ..)).andThen fun b => ?_
    cases b with
    | none => exact ih
    | some b => exact ih.andThen fun bs => .ok rfl

theorem filterM {f g : α → Except Fault Bool} {l : List α} (h : ∀ a, InStep Eq (f a) (g a)) :
    InStep Eq (l.filterM f) (l.filterM g) := by
  -- The loop collects in reverse what it keeps.
  have haux : ∀ kept, InStep Eq (l.filterAuxM f kept) (l.filterAuxM g kept) := by
    induction l with
    | nil => exact fun kept => .ok rfl
    | cons a rest ih =>
      intro kept
      rw [List.filterAuxM, List.filterAuxM]
      exact (h a).andThen fun b => ih _
  exact (haux []).andThen fun kept => .ok rfl

/-! ## Words and arrays -/

theorem fetch (xs : Array α) (i : Nat) : InStep Eq (fetch xs i) (FiniteDomain.fetch xs i) := by
  unfold FiniteDomain.fetch
  cases xs[i]? with
  | none => exact .error (by decide)
  | some a => exact .ok rfl

theorem check (v : Int) : InStep Eq (Word.check v) (Word.check v) :=
  .ite (fun _ => .ok rfl) fun _ => .error (by decide)

theorem addCount (a b : Nat) : InStep Eq (Word.addCount a b) (Word.addCount a b) :=
  .ite (fun _ => .ok rfl) fun _ => .error (by decide)

theorem subCount (a b : Nat) : InStep Eq (Word.subCount a b) (Word.subCount a b) :=
  .ite (fun _ => .ok rfl) fun _ => .error (by decide)

/-! ## Paths -/

theorem source (p : Path) : InStep Eq p.source p.source := by
  induction p with
  | base b => exact .ok rfl
  | shift k rest ih => exact ih
  | scale c rest ih => exact ih
  | flip rest ih => exact ih
  | missing => exact .error (by decide)
  | onwards x => exact .error (by decide)

theorem push (p : Path) (v : Int) : InStep Eq (p.push v) (p.push v) := by
  induction p with
  | base b => exact .ok rfl
  | shift k rest ih => exact ih.andThen fun u => check _
  | scale c rest ih => exact ih.andThen fun u => check _
  | flip rest ih => exact ih.andThen fun u => check _
  | missing => exact .error (by decide)
  | onwards x => exact .error (by decide)

theorem pull (p : Path) (v : Int) : InStep Eq (p.pull v) (p.pull v) := by
  induction p generalizing v with
  | base b => exact .ok rfl
  | shift k rest ih => exact (check _).andThen fun u => ih u
  | scale c rest ih => exact .ite (fun _ => ih _) fun _ => .ok rfl
  | flip rest ih => exact (check _).andThen fun u => ih u
  | missing => exact .error (by decide)
  | onwards x => exact .ok rfl

theorem pullBound (p : Path) (side : Side) (v : Int) :
    InStep Eq (p.pullBound side v) (p.pullBound side v) := by
  induction p generalizing side v with
  | base b => exact .ok rfl
  | shift k rest ih => exact (check _).andThen fun u => ih side u
  | scale c rest ih => exact ih side _
  | flip rest ih => exact (check _).andThen fun u => ih _ u
  | missing => exact .error (by decide)
  | onwards x => exact .ok rfl

end InStep

end FiniteDomain
