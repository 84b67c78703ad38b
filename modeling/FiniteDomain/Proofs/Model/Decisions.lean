import FiniteDomain.Search
import FiniteDomain.Proofs.Model.Listening
import FiniteDomain.Proofs.Model.Resuming

/-!
# The decisions of a search

A decision splits the values of a variable: the variable has the value, and another one as well, so
that either branch of the decision has fewer values.

* `Splits` is such a decision, and `Splits.limits` says what becomes of the store on its branches.
* `smallest?_eq` and `firstFail?_cases` say what first fail comes to.
* `hinted?_spec` is about the hint of the propagators, whatever it suggests.
* `decide?_spec` is about the decision that is made, and `enters` about its branches.
-/

namespace FiniteDomain

namespace Store

variable {s : Store} {x : Var} {v : Int}

/-- The variable has the value `v`, and another one as well. -/
structure Splits (s : Store) (x : Var) (v : Int) : Prop where
  index_lt : x.index < s.definitions.size
  mem : v ∈ s.view x
  more : 1 < (s.view x).card

/-- A decision is one as long as the domains are the same. -/
theorem Splits.resumed {s' : Store} (h : s.Splits x v) (hr : s.Resumed s') : s'.Splits x v :=
  ⟨hr.definitions_eq ▸ h.index_lt, hr.view_eq x ▸ h.mem, hr.view_eq x ▸ h.more⟩

/-- Only a variable that exists has a size. -/
theorem lt_of_size {n : Nat} (hret : s.size x = .ok n) : x.index < s.definitions.size := by
  by_contra hx
  rw [size, path_eq_missing hx] at hret
  cases hret

/-- The least value of a variable can be looked up. -/
theorem min?_spec (h : s.Sound) (hx : x.index < s.definitions.size) {answer : Option Int}
    (hret : s.min? x = .ok answer) :
    answer = none ∧ s.view x = ∅ ∨ ∃ v ∈ s.view x, answer = some v ∧ s.Reads x v := by
  obtain ⟨b, hp, hsource, hb⟩ := h.exists_base hx
  rw [min?, bound?, hsource, ok_bind] at hret
  obtain ⟨hempty, hnone⟩ | ⟨r, hr, hsome, _⟩ := bound?_cases h hb ((s.path x).turn .lower)
  · rw [hnone, ok_bind] at hret
    cases hret
    refine Or.inl ⟨rfl, ?_⟩
    rw [view, viewIn_eq hsource, ← domain, hempty, Finset.image_empty]
  · rw [hsome, ok_bind] at hret
    obtain ⟨v, hpush, hret⟩ := bind_eq_ok_iff.1 hret
    cases hret
    exact Or.inr ⟨v, (mem_view hsource).2 ⟨r, hr, Path.push_eval hpush⟩, rfl,
      reads_of_mem h hb hsource hr hpush⟩

/-- The values of `x` for which `P` holds are kept, some but not all, and all other domains. -/
structure Limits (s : Store) (x : Var) (P : Int → Prop) (b : Base) (s' : Store) : Prop where
  source_eq : (s.path x).source = .ok b
  base : s.IsBase b
  evolves : Evolves (fun _ => False) s s'
  mem_iff : ∀ r, r ∈ s'.domain b.var ↔ r ∈ s.domain b.var ∧ P ((s.path x).eval r)
  other : ∀ q, q ≠ b.var → s'.domain q = s.domain q
  kept : ∃ r ∈ s.domain b.var, P ((s.path x).eval r)
  lost : ∃ r ∈ s.domain b.var, ¬ P ((s.path x).eval r)

namespace Limits

variable {P : Int → Prop} {b : Base} {s' : Store}

theorem alive (h : s.Limits x P b s') : s.Alive s' := by
  intro q hq
  by_cases heq : q = b.var
  · subst heq
    obtain ⟨r, hr, hP⟩ := h.kept
    exact Finset.ne_empty_of_mem ((h.mem_iff r).2 ⟨hr, hP⟩)
  · rwa [h.other q heq]

theorem weight_lt (h : s.Limits x P b s') : s'.weight < s.weight := by
  refine Store.weight_lt (by rw [h.evolves.definitions_eq]) h.evolves.subset (q := b.var)
    fun heq => ?_
  obtain ⟨r, hr, hP⟩ := h.lost
  exact hP ((h.mem_iff r).1 (heq ▸ hr)).2

end Limits

theorem Shrinks.limits {D : Finset Int} {P : Int → Prop} {b : Base} {s' : Store}
    (h : Shrinks s s' b D) (hsource : (s.path x).source = .ok b) (hb : s.IsBase b)
    (hD : ∀ r, r ∈ D ↔ r ∈ s.domain b.var ∧ P ((s.path x).eval r))
    (hkept : ∃ u ∈ s.view x, P u) (hlost : ∃ u ∈ s.view x, ¬ P u) : s.Limits x P b s' := by
  refine ⟨hsource, hb, h.toEvolves, fun r => ?_, h.other, ?_, ?_⟩
  · rw [h.self]
    exact hD r
  · obtain ⟨u, hu, hP⟩ := hkept
    obtain ⟨r, hr, rfl⟩ := (mem_view hsource).1 hu
    exact ⟨r, hr, hP⟩
  · obtain ⟨u, hu, hP⟩ := hlost
    obtain ⟨r, hr, rfl⟩ := (mem_view hsource).1 hu
    exact ⟨r, hr, hP⟩

/-- A variable that is fixed by a decision keeps the value alone. -/
theorem Splits.of_fix {s' : Store} {verdict : Verdict} (hsplits : s.Splits x v) (h : s.Sound)
    (hret : s.fix x v = .ok (verdict, s')) :
    verdict = .consistent ∧ ∃ b, s.Limits x (· = v) b s' := by
  obtain ⟨u, hu, hne⟩ := Finset.exists_mem_ne hsplits.more v
  obtain ⟨b, hsource, hb, ⟨_, rfl, hshrinks⟩ | ⟨hnot, _⟩⟩ := fix_spec h hsplits.index_lt hret
  · exact ⟨rfl, b, hshrinks.limits hsource hb (fun r => Finset.mem_filter)
      ⟨v, hsplits.mem, rfl⟩ ⟨u, hu, hne⟩⟩
  · exact absurd hsplits.mem hnot

/-- A variable that loses the value of a decision keeps another one. -/
theorem Splits.of_remove {s' : Store} {verdict : Verdict} (hsplits : s.Splits x v) (h : s.Sound)
    (hret : s.remove x v = .ok (verdict, s')) :
    verdict = .consistent ∧ ∃ b, s.Limits x (· ≠ v) b s' := by
  obtain ⟨u, hu, hne⟩ := Finset.exists_mem_ne hsplits.more v
  obtain ⟨b, hsource, hb, hshrinks, hjudges⟩ := remove_spec h hsplits.index_lt hret
  have hlimits := hshrinks.limits (P := (· ≠ v)) hsource hb (fun r => Finset.mem_filter)
    ⟨u, hu, hne⟩ ⟨v, hsplits.mem, fun hv => hv rfl⟩
  obtain ⟨r, hr, hP⟩ := hlimits.kept
  rw [Judges, if_neg fun hempty => Finset.ne_empty_of_mem (Finset.mem_filter.2 ⟨hr, hP⟩)
    hempty.1] at hjudges
  exact ⟨hjudges, b, hlimits⟩

/-- Either branch of a decision is entered: the value is kept alone, or it is removed. -/
theorem Splits.limits (hsplits : s.Splits x v) (h : s.Sound) (hv : s.Reads x v) :
    (∃ b s', s.fix x v = .ok (.consistent, s') ∧ s.Limits x (· = v) b s') ∧
      ∃ b s', s.remove x v = .ok (.consistent, s') ∧ s.Limits x (· ≠ v) b s' := by
  constructor
  · obtain ⟨verdict, s', hret⟩ := fix_total h hsplits.index_lt hv
    obtain ⟨rfl, b, hlimits⟩ := hsplits.of_fix h hret
    exact ⟨b, s', hret, hlimits⟩
  · obtain ⟨verdict, s', hret⟩ := remove_total h hsplits.index_lt hv
    obtain ⟨rfl, b, hlimits⟩ := hsplits.of_remove h hret
    exact ⟨b, s', hret, hlimits⟩

end Store

namespace Search

variable {π : Type} {q : Search} {m : Model π} {s : Store}

/-! ## First fail -/

/-- The smallest of several variables, and one that was found before them. -/
theorem smallest?_eq (h : s.Sound) {vars : List Var}
    (hvars : ∀ x ∈ vars, x.index < s.definitions.size) (best : Option (Var × Nat)) :
    ∃ answer, smallest? s vars best = .ok answer ∧
      (∀ x n, answer = some (x, n) → best = some (x, n) ∨
        x ∈ vars ∧ n = (s.view x).card ∧ n ≠ 1) ∧
      (answer = none → best = none ∧ ∀ x ∈ vars, (s.view x).card = 1) := by
  induction vars generalizing best with
  | nil => exact ⟨best, rfl, fun _ _ => Or.inl, fun heq => ⟨heq, fun x hx => absurd hx
      List.not_mem_nil⟩⟩
  | cons x rest ih =>
    have hrest : ∀ y ∈ rest, y.index < s.definitions.size :=
      fun y hy => hvars y (List.mem_cons_of_mem _ hy)
    obtain ⟨best', hnext, hbest'⟩ : ∃ best', smallest? s (x :: rest) best = smallest? s rest best' ∧
        (best' = some (x, (s.view x).card) ∧ (s.view x).card ≠ 1 ∨
          best' = best ∧ (best = none → (s.view x).card = 1)) := by
      rw [smallest?, Store.size_eq h (hvars x (List.mem_cons_self ..)), ok_bind]
      refine ⟨_, rfl, ?_⟩
      split_ifs with hbetter
      · rw [Bool.and_eq_true, decide_eq_true_eq] at hbetter
        exact Or.inl ⟨rfl, hbetter.1⟩
      · refine Or.inr ⟨rfl, fun hnone => ?_⟩
        subst hnone
        rw [Bool.and_true, decide_eq_true_eq, not_not] at hbetter
        exact hbetter
    obtain ⟨answer, hret, hsome, hnone⟩ := ih hrest best'
    refine ⟨answer, hnext.trans hret, fun y n heq => ?_, fun heq => ?_⟩
    · obtain hy | ⟨hy, hn⟩ := hsome y n heq
      · obtain ⟨rfl, hn⟩ | ⟨rfl, _⟩ := hbest'
        · cases hy
          exact Or.inr ⟨List.mem_cons_self .., rfl, hn⟩
        · exact Or.inl hy
      · exact Or.inr ⟨List.mem_cons_of_mem _ hy, hn⟩
    · obtain ⟨rfl, hfixed⟩ := hnone heq
      obtain ⟨hx, _⟩ | ⟨rfl, hx⟩ := hbest'
      · cases hx
      · refine ⟨rfl, fun y hy => ?_⟩
        obtain rfl | hy := List.mem_cons.1 hy
        · exact hx rfl
        · exact hfixed y hy

/-- First fail decides on one of the variables, unless all are fixed or one has no value.  It has an
answer if the values of the variables can be carried along their paths. -/
theorem firstFail?_cases (h : m.store.Sound)
    (hvars : ∀ x ∈ q.vars, x.index < m.store.definitions.size) :
    q.firstFail? m = .ok none ∧
      ((∀ x ∈ q.vars, (m.store.view x).card = 1) ∨ ∃ x ∈ q.vars, m.store.view x = ∅) ∨
    (∃ x ∈ q.vars, ∃ v, q.firstFail? m = .ok (some (x, v)) ∧ m.store.Splits x v ∧
      m.store.Reads x v) ∨
    ∃ x ∈ q.vars, ∃ fault, m.store.min? x = .error fault ∧ q.firstFail? m = .error fault := by
  obtain ⟨answer, hsmallest, hsome, hnone⟩ := smallest?_eq h hvars none
  rw [firstFail?, hsmallest, ok_bind]
  cases answer with
  | none => exact Or.inl ⟨rfl, Or.inl (hnone rfl).2⟩
  | some pair =>
    obtain ⟨x, n⟩ := pair
    obtain hnone | ⟨hx, rfl, hne⟩ := hsome x n rfl
    · cases hnone
    dsimp only
    cases hmin : m.store.min? x with
    | error fault => exact Or.inr (Or.inr ⟨x, hx, fault, hmin, rfl⟩)
    | ok least =>
      obtain ⟨rfl, hempty⟩ | ⟨v, hv, rfl, hreads⟩ := Store.min?_spec h (hvars x hx) hmin
      · exact Or.inl ⟨rfl, Or.inr ⟨x, hx, hempty⟩⟩
      · have hpos : 0 < (m.store.view x).card := Finset.card_pos.2 ⟨v, hv⟩
        exact Or.inr (Or.inl ⟨x, hx, v, rfl, ⟨hvars x hx, hv, by omega⟩, hreads⟩)

/-! ## Hints -/

variable [Propagator π]

/-- A hint is followed if it splits the values of a variable. -/
theorem hinted?_spec (h : m.store.Sound) {x : Var} {v : Int}
    (hret : hinted? m = .ok (some (x, v))) :
    m.store.Splits x v ∧ ∃ hint, m.hint? = .ok (some hint) ∧ hint.var = x ∧ hint.value = v := by
  obtain ⟨hint, hhint, hret⟩ := bind_eq_ok_iff.1 hret
  cases hint with
  | none => cases hret
  | some hint =>
    obtain ⟨fixed, hfixed, hret⟩ := bind_eq_ok_iff.1 hret
    obtain ⟨size, hsize, hfixed⟩ := bind_eq_ok_iff.1 hfixed
    cases hfixed
    have hx := Store.lt_of_size hsize
    obtain rfl := Except.ok.inj ((Store.size_eq h hx).symm.trans hsize)
    split at hret
    · cases hret
    · rename_i hne
      obtain ⟨has, hcontains, hret⟩ := bind_eq_ok_iff.1 hret
      split at hret
      · rename_i hhas
        cases hret
        subst hhas
        have hmem := of_decide_eq_true (Store.contains_spec h hx hcontains).symm
        rw [beq_iff_eq] at hne
        have hpos : 0 < (m.store.view hint.var).card := Finset.card_pos.2 ⟨_, hmem⟩
        exact ⟨⟨hx, hmem, by omega⟩, hint, hhint, rfl, rfl⟩
      · cases hret

/-- A hint that can be looked up is looked up. -/
theorem exists_hinted? (h : m.store.Sound) {hint : Option Hint} (hhint : m.hint? = .ok hint)
    (hreads : ∀ hint', hint = some hint' →
      hint'.var.index < m.store.definitions.size ∧ m.store.Reads hint'.var hint'.value) :
    ∃ decision, hinted? m = .ok decision := by
  rw [hinted?, hhint, ok_bind]
  cases hint with
  | none => exact ⟨none, rfl⟩
  | some hint =>
    obtain ⟨hx, hv⟩ := hreads hint rfl
    dsimp only
    rw [Store.isFixed, Store.size_eq h hx, ok_bind, Store.contains_eq h hx hv]
    dsimp only [Pure.pure, Except.pure]
    rw [ok_bind]
    split
    · exact ⟨none, rfl⟩
    · rw [ok_bind]
      split
      · exact ⟨_, rfl⟩
      · exact ⟨none, rfl⟩

/-! ## Decisions -/

/-- What is known of a decision. -/
theorem decide?_spec (h : m.store.Sound)
    (hvars : ∀ x ∈ q.vars, x.index < m.store.definitions.size)
    {decision : Option (Var × Int)} (hret : q.decide? m = .ok decision) :
    decision = none ∧
      ((∀ x ∈ q.vars, (m.store.view x).card = 1) ∨ ∃ x ∈ q.vars, m.store.view x = ∅) ∨
    ∃ x v, decision = some (x, v) ∧ m.store.Splits x v ∧ (x ∈ q.vars ∧ m.store.Reads x v ∨
      ∃ hint, m.hint? = .ok (some hint) ∧ hint.var = x ∧ hint.value = v) := by
  have hfirst : ∀ decision, q.firstFail? m = .ok decision → decision = none ∧
      ((∀ x ∈ q.vars, (m.store.view x).card = 1) ∨ ∃ x ∈ q.vars, m.store.view x = ∅) ∨
      ∃ x v, decision = some (x, v) ∧ m.store.Splits x v ∧ (x ∈ q.vars ∧ m.store.Reads x v ∨
        ∃ hint, m.hint? = .ok (some hint) ∧ hint.var = x ∧ hint.value = v) := by
    intro decision hret
    obtain ⟨heq, hnone⟩ | ⟨x, hx, v, heq, hsplits, hreads⟩ | ⟨_, _, fault, _, heq⟩ :=
      firstFail?_cases h hvars
    · cases heq.symm.trans hret
      exact Or.inl ⟨rfl, hnone⟩
    · cases heq.symm.trans hret
      exact Or.inr ⟨x, v, rfl, hsplits, Or.inl ⟨hx, hreads⟩⟩
    · cases heq.symm.trans hret
  rw [decide?] at hret
  cases hbranching : q.branching with
  | firstFail =>
    rw [hbranching] at hret
    exact hfirst decision hret
  | hinted =>
    rw [hbranching] at hret
    obtain ⟨hinted, hhinted, hret⟩ := bind_eq_ok_iff.1 hret
    cases hinted with
    | none => exact hfirst decision hret
    | some pair =>
      cases hret
      obtain ⟨hsplits, hhint⟩ := hinted?_spec h hhinted
      exact Or.inr ⟨pair.1, pair.2, rfl, hsplits, Or.inr hhint⟩

/-- A decision is made if the variables are readable and hints can be looked up. -/
theorem exists_decide? (h : m.store.Sound)
    (hvars : ∀ x ∈ q.vars, x.index < m.store.definitions.size ∧ m.store.Readable x)
    {hint : Option Hint} (hhint : m.hint? = .ok hint) (hreads : ∀ hint', hint = some hint' →
      hint'.var.index < m.store.definitions.size ∧ m.store.Reads hint'.var hint'.value) :
    ∃ decision, q.decide? m = .ok decision := by
  have hfirst : ∃ decision, q.firstFail? m = .ok decision := by
    obtain ⟨heq, _⟩ | ⟨_, _, _, heq, _⟩ | ⟨x, hx, fault, hmin, _⟩ :=
      firstFail?_cases h fun x hx => (hvars x hx).1
    · exact ⟨_, heq⟩
    · exact ⟨_, heq⟩
    · obtain ⟨_, heq⟩ | ⟨_, _, heq⟩ := Store.min?_cases h (hvars x hx).1 (hvars x hx).2
      · cases heq.symm.trans hmin
      · cases heq.symm.trans hmin
  rw [decide?]
  cases q.branching with
  | firstFail => exact hfirst
  | hinted =>
    obtain ⟨hinted, hhinted⟩ := exists_hinted? h hhint hreads
    dsimp only
    rw [hhinted, ok_bind]
    cases hinted with
    | none => exact hfirst
    | some decision => exact ⟨_, rfl⟩

/-! ## Branches -/

/-- On a level of its own, the values of `x` for which `P` holds are kept, and the propagators run. -/
def Enters (narrow : Model π → Except Fault (Verdict × Model π)) (x : Var) (P : Int → Prop)
    (m : Model π) : Prop :=
  ∃ b s, m.save.store.Limits x P b s ∧
    attempt narrow m.save = ({ m.save with store := s } : Model π).fixpoint

/-- Either branch of a decision is entered. -/
theorem enters {x : Var} {v : Int} (h : m.store.Sound)
    (hsplits : m.store.Splits x v) (hv : m.store.Reads x v) :
    Enters (·.fix x v) x (· = v) m ∧ Enters (·.remove x v) x (· ≠ v) m := by
  have hsplits : m.save.store.Splits x v := ⟨hsplits.index_lt, hsplits.mem, hsplits.more⟩
  obtain ⟨⟨b, s, hfix, hlimits⟩, b', s', hremove, hlimits'⟩ := hsplits.limits h.save hv
  refine ⟨⟨b, s, hlimits, ?_⟩, b', s', hlimits', ?_⟩
  · have hret : m.save.fix x v = .ok (.consistent, { m.save with store := s }) :=
      Model.onStore_eq_ok_iff.2 ⟨s, hfix, rfl⟩
    rw [attempt, hret, ok_bind]
  · have hret : m.save.remove x v = .ok (.consistent, { m.save with store := s' }) :=
      Model.onStore_eq_ok_iff.2 ⟨s', hremove, rfl⟩
    rw [attempt, hret, ok_bind]

end Search

end FiniteDomain
