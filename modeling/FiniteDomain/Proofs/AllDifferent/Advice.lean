import FiniteDomain.Proofs.AllDifferent.Consistency
import FiniteDomain.Proofs.AllDifferent.Hints

/-!
# The hint of a settled propagator

When a propagator has run and nothing happened since, its graph agrees with the domains, and so does
its hint.

* `Store.Advised` is a hint that is right for some variables, and `Store.Recommends` an answer that
  is: a hint is given exactly if a variable is not fixed.
* `smallest?_isSmallest` and `hint?_cases` say what the hint is made of, in any state.
* `hint?_recommends` is the result.
-/

namespace FiniteDomain

/-- A sum of counts that is given is the sum. -/
theorem Word.eq_of_addCount {a b n : Nat} (hret : addCount a b = .ok n) : n = a + b := by
  rw [addCount] at hret
  split at hret
  · exact (Except.ok.inj hret).symm
  · cases hret

/-- A difference of counts that is given is the difference. -/
theorem Word.eq_of_subCount {a b n : Nat} (hret : subCount a b = .ok n) : n = a - b := by
  rw [subCount] at hret
  split at hret
  · exact (Except.ok.inj hret).symm
  · cases hret

/-! ## Hints that are right -/

namespace Store

/-- The hint names one of the variables that are not fixed, one with the fewest values, and a value
that it has in a choice of pairwise distinct values for all of them.  Its score counts the other
variables that can take the value, and the other values of the variable. -/
structure Advised (s : Store) (vars : List Var) (hint : Hint) : Prop where
  mem : hint.var ∈ vars
  unfixed : (s.view hint.var).card ≠ 1
  smallest : ∀ y ∈ vars, (s.view y).card ≠ 1 → (s.view hint.var).card ≤ (s.view y).card
  mem_view : hint.value ∈ s.view hint.var
  chosen : ∃ (vs : List Int) (i : Nat), s.Chooses vars vs ∧ vars[i]? = some hint.var ∧
    vs[i]? = some hint.value
  score_eq : hint.score =
    (vars.countP (hint.value ∈ s.view ·) - 1) + ((s.view hint.var).card - 1)

/-- There is no hint exactly if all variables are fixed, and a hint is right. -/
structure Recommends (s : Store) (vars : List Var) (answer : Option Hint) : Prop where
  none_iff : answer = none ↔ ∀ x ∈ vars, (s.view x).card = 1
  advised : ∀ hint, answer = some hint → s.Advised vars hint

end Store

namespace AllDifferent

open ValueGraph

/-! ## The live edges of a settled propagator -/

namespace Sight

variable {σ : Sight} {m x v : Nat}

/-- A variable keeps the edges to its values. -/
theorem Tidy.mem_live_iff (h : σ.Tidy fun _ => False) (hw : σ.graph.Within σ.vars m σ.val)
    (hfit : σ.graph.Fits σ.val σ.domains σ.vars) (hx : x < σ.vars) (hv : v < m) :
    v ∈ σ.graph.live x ↔ σ.val v ∈ σ.domains x := by
  constructor
  · exact (h.clean x hx).resolve_left id v
  · intro hmem
    obtain ⟨v', hlive, heq⟩ := hfit x hx _ hmem
    rwa [← hw.val_injective v' (hw.live_lt x v' hlive).2 v hv heq]

/-- A variable that is grounded is fixed. -/
theorem Tidy.card_eq_one {late : Nat → Prop} (h : σ.Tidy late)
    (hfit : σ.graph.Fits σ.val σ.domains σ.vars) (hx : x < σ.vars) (hxa : x ∉ σ.graph.active) :
    (σ.domains x).card = 1 := by
  obtain ⟨a, _, honly, _⟩ := h.kept x hx hxa
  refine Finset.card_eq_one.2 ⟨σ.val a, Finset.eq_singleton_iff_nonempty_unique_mem.2
    ⟨Finset.nonempty_iff_ne_empty.2 (h.filled x hx hxa), fun u hu => ?_⟩⟩
  obtain ⟨v, hv, rfl⟩ := hfit x hx u hu
  rw [honly v hv]

end Sight

namespace ValueGraph

variable {g : ValueGraph} {ρ : Registers} {v : Nat}

/-- As many variables as the count says can take a value. -/
theorem countP_takers (hl : g.Layout) (hi : g.Intact ρ) (hv : v < g.valueTotal) :
    (List.range g.varTotal).countP (v ∈ (g.snapshot ρ).live ·) = count ρ v := by
  have hperm : ((List.range g.varTotal).filter (v ∈ (g.snapshot ρ).live ·)).Perm
      ((List.range (count ρ v)).map (g.nth v)) := by
    refine (List.perm_ext_iff_of_nodup (List.nodup_range.filter _)
      (List.Nodup.map_on (fun k hk k' hk' heq => ?_) List.nodup_range)).2 fun x => ?_
    · exact nth_injective hl hi hv (List.mem_range.1 hk) (List.mem_range.1 hk') heq
    · rw [List.mem_filter, decide_eq_true_eq, mem_live_iff_nth hl hi hv, List.mem_map]
      simp only [List.mem_range]
      constructor
      · exact fun hx => hx.2
      · rintro ⟨k, hk, rfl⟩
        exact ⟨nth_lt hl hi hv hk, k, hk, rfl⟩
  rw [List.countP_eq_length_filter, hperm.length_eq, List.length_map, List.length_range]

end ValueGraph

/-! ## What a hint is made of -/

/-- The answer of a search among the positions `P` for one with the smallest size above one. -/
def IsSmallest (size : Nat → Nat) (P : Nat → Prop) : Option (Nat × Nat) → Prop
  | none => ∀ y, P y → size y ≤ 1
  | some (x, least) =>
    P x ∧ least = size x ∧ 1 < least ∧ ∀ y, P y → 1 < size y → least ≤ size y

variable {p : AllDifferent} {s : Store}

/-- The number of values of the variable at a position. -/
def width (p : AllDifferent) (s : Store) (x : Nat) : Nat := (s.view (p.graph.varOf x)).card

/-- The search goes through the positions in order.  The induction is on those that are left. -/
theorem smallest?_isSmallest (h : p.Sound s) {xs : List Nat}
    (hxs : ∀ x ∈ xs, x < p.graph.varTotal) {P : Nat → Prop} {best answer : Option (Nat × Nat)}
    (hbest : IsSmallest (p.width s) P best) (hret : smallest? p.graph s xs best = .ok answer) :
    IsSmallest (p.width s) (fun y => P y ∨ y ∈ xs) answer := by
  induction xs generalizing P best with
  | nil =>
    cases hret
    simpa using hbest
  | cons x rest ih =>
    have hx := hxs x (List.mem_cons_self ..)
    rw [smallest?, var_eq hx, ok_bind, Store.size_eq h.store (h.anchored.var_lt x hx),
      ok_bind] at hret
    have hassoc : (fun y => P y ∨ y ∈ x :: rest) = fun y => (P y ∨ y = x) ∨ y ∈ rest := by
      funext y
      rw [List.mem_cons, or_assoc]
    rw [hassoc]
    refine ih (fun y hy => hxs y (List.mem_cons_of_mem _ hy)) ?_ hret
    change IsSmallest _ _ (if 1 < p.width s x && _ then some (x, p.width s x) else best)
    cases best with
    | none =>
      have hbest : ∀ y, P y → p.width s y ≤ 1 := hbest
      by_cases hone : 1 < p.width s x
      · simp only [hone, decide_true, Bool.true_and, if_true]
        refine ⟨Or.inr rfl, rfl, hone, fun y hy hyone => ?_⟩
        obtain hy | rfl := hy
        · exact absurd (hbest y hy) (Nat.not_le.2 hyone)
        · exact Nat.le_refl _
      · simp only [hone, decide_false, Bool.false_and, Bool.false_eq_true, if_false]
        rintro y (hy | rfl)
        · exact hbest y hy
        · exact Nat.not_lt.1 hone
    | some pair =>
      obtain ⟨b, least⟩ := pair
      obtain ⟨hb, heq, hleast, hmin⟩ := hbest
      by_cases hbetter : 1 < p.width s x ∧ p.width s x < least
      · rw [if_pos (by rwa [Bool.and_eq_true, decide_eq_true_eq, decide_eq_true_eq])]
        refine ⟨Or.inr rfl, rfl, hbetter.1, fun y hy hyone => ?_⟩
        obtain hy | rfl := hy
        · exact Nat.le_trans (Nat.le_of_lt hbetter.2) (hmin y hy hyone)
        · exact Nat.le_refl _
      · rw [if_neg (by rwa [Bool.and_eq_true, decide_eq_true_eq, decide_eq_true_eq])]
        refine ⟨Or.inl hb, heq, hleast, fun y hy hyone => ?_⟩
        obtain hy | rfl := hy
        · exact hmin y hy hyone
        · exact Nat.not_lt.1 fun hlt => hbetter ⟨hyone, hlt⟩

/-- A hint is about the smallest active variable and its mate. -/
theorem hint?_cases (h : p.Sound s) {answer : Option Hint} (hret : p.hint? s = .ok answer) :
    (answer = none ∧ ∀ x ∈ (p.shown s).graph.active, p.width s x ≤ 1) ∨
    ∃ x ∈ (p.shown s).graph.active, 1 < p.width s x ∧
      (∀ y ∈ (p.shown s).graph.active, 1 < p.width s y → p.width s x ≤ p.width s y) ∧
      ((p.shown s).graph.mate x = none ∨ ∃ a, (p.shown s).graph.mate x = some a ∧
        answer = some ⟨p.graph.varOf x, p.graph.val a,
          count (p.graph.now s) a - 1 + (p.width s x - 1)⟩) := by
  obtain ⟨actives, hactives, _, hmem⟩ := h.graph.activeVars_eq
  have hlt : ∀ x ∈ actives, x < p.graph.varTotal :=
    fun x hx => (mem_active.1 ((hmem x).1 hx)).1
  rw [hint?, hactives, ok_bind] at hret
  obtain ⟨found, hfound, hret⟩ := bind_eq_ok_iff.1 hret
  have hnone : IsSmallest (p.width s) (fun _ => False) none := fun _ => False.elim
  have hsmallest := smallest?_isSmallest h hlt hnone hfound
  cases found with
  | none =>
    cases hret
    exact Or.inl ⟨rfl, fun x hx => hsmallest x (Or.inr ((hmem x).2 hx))⟩
  | some pair =>
    obtain ⟨x, size⟩ := pair
    obtain ⟨hx, rfl, hone, hmin⟩ := hsmallest
    have hx := hx.resolve_left id
    refine Or.inr ⟨x, (hmem x).1 hx, hone, fun y hy => hmin y (Or.inr ((hmem y).2 hy)), ?_⟩
    dsimp only at hret
    rw [h.graph.mate?_eq (hlt x hx), ok_bind] at hret
    cases hm : (p.graph.snapshot (p.graph.now s)).mate x with
    | none => exact Or.inl hm
    | some a =>
      have ha := (h.graph.intact.mate_lt hm).2
      rw [hm] at hret
      dsimp only at hret
      rw [var_eq (hlt x hx), ok_bind, value_eq ha, ok_bind, h.graph.liveCount_eq ha,
        ok_bind] at hret
      obtain ⟨rivals, hrivals, hret⟩ := bind_eq_ok_iff.1 hret
      obtain ⟨others, hothers, hret⟩ := bind_eq_ok_iff.1 hret
      obtain ⟨score, hscore, hret⟩ := bind_eq_ok_iff.1 hret
      cases hret
      rw [Word.eq_of_addCount hscore, Word.eq_of_subCount hrivals, Word.eq_of_subCount hothers]
      exact Or.inr ⟨a, hm, rfl⟩

/-! ## The hint of a settled propagator -/

/-- The value that a hint names can be taken by as many variables as its count says. -/
theorem countP_view (h : p.Sound s) (htidy : (p.shown s).Tidy fun _ => False) {a : Nat}
    (ha : a < p.graph.valueTotal) :
    p.graph.vars.toList.countP (p.graph.val a ∈ s.view ·) = count (p.graph.now s) a := by
  rw [toList_vars, List.countP_map, ← countP_takers h.layout h.graph.intact ha]
  refine List.countP_congr fun x hx => ?_
  have hx := List.mem_range.1 hx
  rw [Function.comp_apply, decide_eq_true_eq, decide_eq_true_eq, ← domains_eq, ← shown_domains hx]
  exact (htidy.mem_live_iff h.within h.shows.fits hx ha).symm

/-- A settled propagator whose matching covers the variables gives a right hint, unless they are all
fixed.  Only a variable that is not fixed can be active, and its mate is one of its values. -/
theorem hint?_recommends (h : p.Sound s) (hsettled : (p.shown s).Settled fun _ => False)
    (hcovered : (p.shown s).graph.Covered) :
    ∃ answer, p.hint? s = .ok answer ∧ s.Recommends p.graph.vars.toList answer := by
  obtain ⟨answer, hret, _⟩ := hint?_eq h
  have hsupported := hsettled.supported h.within h.shows.matched h.shows.fits hcovered
  have hpos : ∀ x < p.graph.varTotal, 0 < p.width s x := by
    obtain ⟨φ, hφ⟩ := hsupported.exists_choice
    intro x hx
    have hmem := hφ.mem x hx
    rw [shown_domains hx] at hmem
    exact Finset.card_pos.2 ⟨_, hmem⟩
  have hactive : ∀ x < p.graph.varTotal, p.width s x ≠ 1 → x ∈ (p.shown s).graph.active := by
    intro x hx hne
    by_contra hxa
    have hone := hsettled.card_eq_one h.shows.fits hx hxa
    rw [shown_domains hx] at hone
    exact hne hone
  have hvars : ∀ y ∈ p.graph.vars.toList, ∃ x < p.graph.varTotal, p.graph.varOf x = y :=
    fun y hy => mem_vars.1 (Array.mem_toList_iff.1 hy)
  refine ⟨answer, hret, ?_⟩
  obtain ⟨rfl, hnone⟩ | ⟨x, hxa, hone, hmin, hmate⟩ := hint?_cases h hret
  · refine ⟨iff_of_true rfl fun y hy => ?_, nofun⟩
    obtain ⟨x, hx, rfl⟩ := hvars y hy
    by_contra hne
    have hle := hnone x (hactive x hx hne)
    have hlt := hpos x hx
    exact hne (Nat.le_antisymm hle hlt)
  · have hx : x < p.graph.varTotal := h.within.active_lt x hxa
    have hmem : p.graph.varOf x ∈ p.graph.vars.toList :=
      Array.mem_toList_iff.2 (mem_vars.2 ⟨x, hx, rfl⟩)
    obtain ⟨a, ha⟩ := hcovered x hxa
    obtain hnone | ⟨a', ha', rfl⟩ := hmate
    · cases ha.symm.trans hnone
    obtain rfl := Option.some.inj (ha.symm.trans ha')
    have hvalue : p.graph.val a ∈ (p.shown s).domains x :=
      (hsettled.mem_live_iff h.within h.shows.fits hx (h.within.mate_lt x a ha).2).1
        (h.shows.matched.live_of_mate x a ha)
    refine ⟨iff_of_false nofun fun hfixed => hone.ne' (hfixed _ hmem), ?_⟩
    rintro hint heq
    obtain rfl := (Option.some.inj heq).symm
    refine ⟨hmem, hone.ne', fun y hy hne => ?_, ?_, ?_, ?_⟩
    · obtain ⟨z, hz, rfl⟩ := hvars y hy
      have hlt := hpos z hz
      exact hmin z (hactive z hz hne) (Nat.lt_of_le_of_ne hlt (Ne.symm hne))
    · rwa [shown_domains hx] at hvalue
    · obtain ⟨φ, hφ, hφx⟩ := hsupported.used x hx _ hvalue
      have hchoice : Choice (p.graph.domains s) p.graph.varTotal φ :=
        ⟨fun z hz => shown_domains (s := s) hz ▸ hφ.mem z hz, hφ.distinct⟩
      refine ⟨_, x, hchoice.chooses, getElem?_vars hx, ?_⟩
      rw [List.getElem?_map, List.getElem?_range hx, ← hφx]
      rfl
    · rw [countP_view h hsettled.toTidy (h.within.mate_lt x a ha).2]
      rfl

end AllDifferent

end FiniteDomain
