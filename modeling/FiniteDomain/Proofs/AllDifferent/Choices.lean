import FiniteDomain.Proofs.AllDifferent.Snapshot

/-!
# Choices of distinct values

A choice takes pairwise distinct values from the domains of the variables of a constraint.  Here it
is related to the coverings of a snapshot.

* `Choice` is a choice from given domains, and `Supported` says that every value belongs to one.
* `Snapshot.Fits` says that the live edges allow for every value of the domains, and
  `Snapshot.Faithful` that a grounded variable has, in every choice, the value it keeps.  Under these
  two a choice is a covering (`covering_of_choice`), so that all that holds of coverings holds of
  choices: `hopeless_of_stuck`, `choice_ne_of_apart`, `choice_eq_of_forced`.
* The other way round, a covering is a choice if the domains allow for all live edges
  (`choice_of_covering`), and then all values that stay are supported (`supported_of_exact`).
-/

namespace FiniteDomain.AllDifferent

/-- Pairwise distinct values from the first `n` domains. -/
structure Choice (D : Nat → Finset Int) (n : Nat) (φ : Nat → Int) : Prop where
  mem : ∀ x < n, φ x ∈ D x
  distinct : ∀ x < n, ∀ y < n, φ x = φ y → x = y

/-- There is no choice. -/
def Hopeless (D : Nat → Finset Int) (n : Nat) : Prop := ∀ φ, ¬ Choice D n φ

/-- There is a choice, and every value belongs to one. -/
structure Supported (D : Nat → Finset Int) (n : Nat) : Prop where
  exists_choice : ∃ φ, Choice D n φ
  used : ∀ x < n, ∀ u ∈ D x, ∃ φ, Choice D n φ ∧ φ x = u

variable {p : Snapshot} {D D' : Nat → Finset Int} {n m : Nat} {φ : Nat → Int} {val : Nat → Int}

theorem Choice.mono (h : Choice D n φ) (hD : ∀ x < n, D x ⊆ D' x) : Choice D' n φ :=
  ⟨fun x hx => hD x hx (h.mem x hx), h.distinct⟩

theorem Hopeless.mono (h : Hopeless D' n) (hD : ∀ x < n, D x ⊆ D' x) : Hopeless D n :=
  fun φ hφ => h φ (hφ.mono hD)

theorem Supported.congr (h : Supported D n) (hD : ∀ x < n, D' x = D x) : Supported D' n := by
  have hchoice : ∀ {φ}, Choice D n φ → Choice D' n φ := fun hφ => hφ.mono fun x hx => (hD x hx).ge
  refine ⟨h.exists_choice.imp fun _ => hchoice, fun x hx u hu => ?_⟩
  obtain ⟨φ, hφ, heq⟩ := h.used x hx u (hD x hx ▸ hu)
  exact ⟨φ, hchoice hφ, heq⟩

namespace Snapshot

/-- The snapshot is one of `n` variables and `m` values, which have different meanings. -/
structure Within (p : Snapshot) (n m : Nat) (val : Nat → Int) : Prop where
  active_lt : ∀ x ∈ p.active, x < n
  live_lt : ∀ x, ∀ v ∈ p.live x, x < n ∧ v < m
  mate_lt : ∀ x v, p.mate x = some v → x < n ∧ v < m
  owner_lt : ∀ v x, p.owner v = some x → x < n ∧ v < m
  val_injective : ∀ v < m, ∀ v' < m, val v = val v' → v = v'

/-- The live edges allow for all values of the domains. -/
def Fits (p : Snapshot) (val : Nat → Int) (D : Nat → Finset Int) (n : Nat) : Prop :=
  ∀ x < n, ∀ u ∈ D x, ∃ v ∈ p.live x, val v = u

/-- In every choice a grounded variable has the value it keeps. -/
def Faithful (p : Snapshot) (val : Nat → Int) (D : Nat → Finset Int) (n : Nat) : Prop :=
  ∀ φ, Choice D n φ → ∀ x < n, x ∉ p.active → ∃ a, p.mate x = some a ∧ val a = φ x

theorem Fits.mono (h : p.Fits val D' n) (hD : ∀ x < n, D x ⊆ D' x) : p.Fits val D n :=
  fun x hx u hu => h x hx u (hD x hx hu)

theorem Faithful.mono (h : p.Faithful val D' n) (hD : ∀ x < n, D x ⊆ D' x) :
    p.Faithful val D n :=
  fun φ hφ => h φ (hφ.mono hD)

/-! ## From choices to coverings -/

/-- A choice is a covering of the active variables. -/
theorem covering_of_choice (hw : p.Within n m val) (hm : p.Matched) (hfit : p.Fits val D n)
    (hf : p.Faithful val D n) (hφ : Choice D n φ) :
    ∃ f, p.Covering f ∧ ∀ x < n, f x ∈ p.live x ∧ val (f x) = φ x := by
  have hex : ∀ x, ∃ v, x < n → v ∈ p.live x ∧ val v = φ x := by
    intro x
    by_cases hx : x < n
    · obtain ⟨v, hv, hval⟩ := hfit x hx (φ x) (hφ.mem x hx)
      exact ⟨v, fun _ => ⟨hv, hval⟩⟩
    · exact ⟨0, fun h => absurd h hx⟩
  choose f hf' using hex
  refine ⟨f, ⟨fun x hx y hy heq => ?_, fun x hx => ?_⟩, hf'⟩
  · have hx := hw.active_lt x (Finset.mem_coe.1 hx)
    have hy := hw.active_lt y (Finset.mem_coe.1 hy)
    exact hφ.distinct x hx y hy (by rw [← (hf' x hx).2, ← (hf' y hy).2, heq])
  · have hx' := hw.active_lt x hx
    refine mem_options.2 ⟨(hf' x hx').1, fun z hz => ?_⟩
    -- A grounded owner would have the same value in the choice.
    by_contra hza
    have hmate := hm.mate_of_owner _ _ hz
    have hzn := (hw.mate_lt _ _ hmate).1
    obtain ⟨a, ha, hval⟩ := hf φ hφ z hzn hza
    rw [hmate] at ha
    have hsame : z = x := by
      refine hφ.distinct z hzn x hx' ?_
      rw [← hval, ← Option.some.inj ha, (hf' x hx').2]
    exact hza (hsame ▸ hx)

/-- If a search for a path from the free values finds no variable without a mate although there is
one, then there is no choice. -/
theorem hopeless_of_stuck (hw : p.Within n m val) (hm : p.Matched) (hfit : p.Fits val D n)
    (hf : p.Faithful val D n) {u : Nat} (hu : u ∈ p.active) (hnone : p.mate u = none)
    (hstuck : ∀ y, p.Reached y → p.mate y ≠ none) : Hopeless D n := by
  intro φ hφ
  obtain ⟨f, hcover, _⟩ := covering_of_choice hw hm hfit hf hφ
  exact not_covering_of_stuck hm hu hnone hstuck f hcover

/-- In no choice does a variable have the mate of a variable that is not reached and not in its
component. -/
theorem choice_ne_of_apart (hw : p.Within n m val) (hm : p.Matched) (hfit : p.Fits val D n)
    (hf : p.Faithful val D n) {x y a : Nat} (hx : x ∈ p.active) (hr : ¬ p.Reached x)
    (ha : p.mate x = some a) (hy : y ∈ p.active) (hlive : a ∈ p.live y)
    (hapart : ¬ p.Together x y) (hφ : Choice D n φ) : φ y ≠ val a := by
  intro heq
  obtain ⟨f, hcover, hval⟩ := covering_of_choice hw hm hfit hf hφ
  have hyn := hw.active_lt y hy
  obtain ⟨hfl, hfv⟩ := hval y hyn
  have hfa : f y = a :=
    hw.val_injective _ (hw.live_lt y _ hfl).2 _ (hw.live_lt y _ hlive).2 (hfv.trans heq)
  exact hapart ⟨.single ⟨hx, hy, a, ha, hlive⟩,
    reflTransGen_of_covering hm hcover hx hr ha hy hfa⟩

/-- While no value is free, a value that one variable alone can take belongs to it in every
choice. -/
theorem choice_eq_of_forced (hw : p.Within n m val) (hm : p.Matched) (hfit : p.Fits val D n)
    (hf : p.Faithful val D n) (hfull : ∀ x ∈ p.active, ∀ v ∈ p.live x, p.owner v ≠ none)
    {x a : Nat} (hx : x ∈ p.active) (ha : p.owner a = some x)
    (honly : ∀ y ∈ p.active, a ∈ p.live y → y = x) (hφ : Choice D n φ) : φ x = val a := by
  obtain ⟨f, hcover, hval⟩ := covering_of_choice hw hm hfit hf hφ
  rw [← (hval x (hw.active_lt x hx)).2, covering_eq_of_forced hm hcover hfull hx ha honly]

/-! ## From coverings to choices -/

/-- A covering is a choice if the domains allow for the live edges of the active variables and for
the values that the grounded ones keep. -/
theorem choice_of_covering (hw : p.Within n m val) (hm : p.Matched)
    (hclean : ∀ x ∈ p.active, ∀ v ∈ p.live x, val v ∈ D x)
    (hkept : ∀ x < n, x ∉ p.active → ∃ a, p.mate x = some a ∧ val a ∈ D x)
    {f : Nat → Nat} (hf : p.Covering f) :
    ∃ φ, Choice D n φ ∧ ∀ x ∈ p.active, φ x = val (f x) := by
  classical
  let e : Nat → Nat := fun x => if x ∈ p.active then f x else (p.mate x).getD 0
  have hin : ∀ {x}, x ∈ p.active → e x = f x := fun hx => if_pos hx
  have hout : ∀ {x a}, x ∉ p.active → p.mate x = some a → e x = a := by
    intro x a hx ha
    show (if x ∈ p.active then f x else (p.mate x).getD 0) = a
    rw [if_neg hx, ha, Option.getD_some]
  have hlt : ∀ x < n, e x < m := by
    intro x hx
    by_cases hxa : x ∈ p.active
    · rw [hin hxa]
      exact (hw.live_lt x _ (mem_options.1 (hf.mem x hxa)).1).2
    · obtain ⟨a, ha, _⟩ := hkept x hx hxa
      rw [hout hxa ha]
      exact (hw.mate_lt x a ha).2
  -- An active variable does not use what a grounded one keeps.
  have hcross : ∀ x ∈ p.active, ∀ y < n, y ∉ p.active → e x ≠ e y := by
    intro x hx y hy hya heq
    obtain ⟨a, ha, _⟩ := hkept y hy hya
    rw [hin hx, hout hya ha] at heq
    exact hya ((mem_options.1 (hf.mem x hx)).2 y (by rw [heq]; exact hm.owner_of_mate y a ha))
  refine ⟨fun x => val (e x), ⟨fun x hx => ?_, fun x hx y hy heq => ?_⟩, fun x hx => ?_⟩
  · by_cases hxa : x ∈ p.active
    · rw [hin hxa]
      exact hclean x hxa _ (mem_options.1 (hf.mem x hxa)).1
    · obtain ⟨a, ha, hmem⟩ := hkept x hx hxa
      rw [hout hxa ha]
      exact hmem
  · have heq := hw.val_injective _ (hlt x hx) _ (hlt y hy) heq
    by_cases hxa : x ∈ p.active
    · by_cases hya : y ∈ p.active
      · rw [hin hxa, hin hya] at heq
        exact hf.injOn (Finset.mem_coe.2 hxa) (Finset.mem_coe.2 hya) heq
      · exact absurd heq (hcross x hxa y hy hya)
    · by_cases hya : y ∈ p.active
      · exact absurd heq.symm (hcross y hya x hx hxa)
      · obtain ⟨a, ha, _⟩ := hkept x hx hxa
        obtain ⟨b, hb, _⟩ := hkept y hy hya
        rw [hout hxa ha, hout hya hb] at heq
        subst heq
        exact hm.mate_injective ha hb
  · show val (e x) = val (f x)
    rw [hin hx]

/-- The matching itself is a covering. -/
theorem Matched.covering (hm : p.Matched) (hc : p.Covered) :
    p.Covering fun x => (p.mate x).getD 0 := by
  refine ⟨fun x hx y hy heq => ?_, fun x hx => ?_⟩
  · obtain ⟨v, hv⟩ := hc x (Finset.mem_coe.1 hx)
    obtain ⟨v', hv'⟩ := hc y (Finset.mem_coe.1 hy)
    rw [hv, hv', Option.getD_some, Option.getD_some] at heq
    subst heq
    exact hm.mate_injective hv hv'
  · obtain ⟨v, hv⟩ := hc x hx
    rw [hv, Option.getD_some]
    exact hm.mate_mem_options hx hv

/-- Every live edge of an active variable belongs to a covering. -/
def Exact (p : Snapshot) : Prop :=
  ∀ x ∈ p.active, ∀ v ∈ p.options x, ∃ f, p.Covering f ∧ f x = v

/-- If the domains are what the snapshot shows, and all edges belong to coverings, then all values
belong to choices. -/
theorem supported_of_exact (hw : p.Within n m val) (hm : p.Matched) (hc : p.Covered)
    (hexact : p.Exact) (hfit : p.Fits val D n)
    (hclean : ∀ x ∈ p.active, ∀ v ∈ p.live x, val v ∈ D x)
    (hkept : ∀ x < n, x ∉ p.active → ∃ a, p.mate x = some a ∧ D x = {val a})
    (hdenied : ∀ x < n, x ∉ p.active → ∀ a, p.mate x = some a → ∀ y < n, y ≠ x →
      val a ∉ D y) : Supported D n := by
  have hkept' : ∀ x < n, x ∉ p.active → ∃ a, p.mate x = some a ∧ val a ∈ D x := by
    intro x hx hxa
    obtain ⟨a, ha, hD⟩ := hkept x hx hxa
    exact ⟨a, ha, by rw [hD]; exact Finset.mem_singleton_self _⟩
  obtain ⟨φ, hφ, _⟩ := choice_of_covering hw hm hclean hkept' (hm.covering hc)
  refine ⟨⟨φ, hφ⟩, fun x hx u hu => ?_⟩
  by_cases hxa : x ∈ p.active
  · obtain ⟨v, hv, rfl⟩ := hfit x hx u hu
    have hopt : v ∈ p.options x := by
      refine mem_options.2 ⟨hv, fun z hz => ?_⟩
      by_contra hza
      have hmate := hm.mate_of_owner v z hz
      exact hdenied z (hw.mate_lt z v hmate).1 hza v hmate x hx (fun heq => hza (heq ▸ hxa)) hu
    obtain ⟨f, hf, hfx⟩ := hexact x hxa v hopt
    obtain ⟨ψ, hψ, hval⟩ := choice_of_covering hw hm hclean hkept' hf
    exact ⟨ψ, hψ, by rw [hval x hxa, hfx]⟩
  · obtain ⟨a, _, hD⟩ := hkept x hx hxa
    have hmem := hφ.mem x hx
    rw [hD, Finset.mem_singleton] at hmem hu
    exact ⟨φ, hφ, hmem.trans hu.symm⟩

end Snapshot

end FiniteDomain.AllDifferent
