import FiniteDomain.Proofs.Store.Views

/-!
# What the events tell

An event sums up how a domain differs from what it was when the events were last cleared.

* `Event.Describes` says that for one event and two domains, and `Store.Told` for all events of a
  store.  It holds when nothing is pending (`told_of_quiet`) and is kept by every narrowing
  (`Shrinks.keeps_told`).
* `Attempt` is a call that narrows a domain, and `Store.attemptAll` a sequence of them.  After such a
  sequence the events tell how it changed the domains: `attemptAll_told`.
-/

namespace FiniteDomain

/-! ## One event -/

/-- The event tells how the domain `D` differs from an earlier one `F`.  The bounds of a domain that
was emptied are not told. -/
structure Event.Describes (F D : Finset Int) (e : Event) : Prop where
  domainChanged : e.domainChanged = true ↔ D ≠ F
  emptied : e.emptied = true ↔ D = ∅ ∧ F ≠ ∅
  fixed : (F ≠ ∅ → D ≠ ∅) → (e.fixed = true ↔ D.card = 1 ∧ F.card ≠ 1)
  minChanged : (F ≠ ∅ → D ≠ ∅) → (e.minChanged = true ↔ D.min ≠ F.min)
  maxChanged : (F ≠ ∅ → D ≠ ∅) → (e.maxChanged = true ↔ D.max ≠ F.max)

/-- An event without flags says that the domain is the same. -/
theorem Event.describes_of_not_isSet {e : Event} (h : e.isSet = false) (D : Finset Int) :
    e.Describes D D := by
  simp only [isSet, Bool.or_eq_false_iff] at h
  obtain ⟨⟨⟨⟨h1, h2⟩, h3⟩, h4⟩, h5⟩ := h
  constructor
  · simp [h5]
  · simp [h2]
  · simp [h1]
  · simp [h3]
  · simp [h4]

/-- The first of three bounds is the last one when it is the second and the second is the last. -/
theorem ne_iff_of_le {α : Type} [PartialOrder α] {a b c : α} (hab : a ≤ b) (hbc : b ≤ c) :
    c ≠ a ↔ b ≠ a ∨ c ≠ b := by
  constructor
  · intro hne
    by_contra hboth
    rw [not_or, not_not, not_not] at hboth
    exact hne (hboth.2.trans hboth.1)
  · rintro (hne | hne) rfl
    · exact hne (le_antisymm hbc hab)
    · exact hne (le_antisymm hab hbc)

/-- An event that describes what happened so far describes what happened after one more step. -/
theorem Event.Describes.step {F D D' : Finset Int} {e e' : Event} (h : e.Describes F D)
    (hsub : D ⊆ F) (hlost : D' ⊂ D) (hfollows : Store.Follows D D' e e') : e'.Describes F D' := by
  have hD : D ≠ ∅ := fun hempty => by simp [hempty] at hlost
  have hF : F ≠ ∅ := fun hempty => hD (Finset.subset_empty.1 (hempty ▸ hsub))
  have hcard : D'.card < D.card := Finset.card_lt_card hlost
  have hcard' : D.card ≤ F.card := Finset.card_le_card hsub
  refine ⟨?_, ?_, fun hkeep => ?_, fun hkeep => ?_, fun hkeep => ?_⟩
  · refine iff_of_true hfollows.domainChanged ?_
    rintro rfl
    exact hlost.2 hsub
  · rw [hfollows.emptied, h.emptied]
    simp [hD, hF]
  · have hpos : 0 < D'.card := Finset.card_pos.2 (Finset.nonempty_iff_ne_empty.2 (hkeep hF))
    rw [hfollows.fixed (hkeep hF), h.fixed fun _ => hD]
    omega
  · rw [hfollows.minChanged (hkeep hF), h.minChanged fun _ => hD]
    exact (ne_iff_of_le (Finset.min_mono hsub) (Finset.min_mono hlost.1)).symm
  · rw [hfollows.maxChanged (hkeep hF), h.maxChanged fun _ => hD, or_comm,
      ne_comm (a := D.max) (b := F.max), ne_comm (a := D'.max) (b := D.max),
      ne_comm (a := D'.max) (b := F.max)]
    exact (ne_iff_of_le (Finset.max_mono hlost.1) (Finset.max_mono hsub)).symm

namespace Store

/-! ## All events -/

/-- The events tell how the domains differ from the earlier ones in `F`. -/
structure Told (F : Var → Finset Int) (s : Store) : Prop where
  subset : ∀ p, s.domain p ⊆ F p
  describes : ∀ e ∈ s.events, e.Describes (F e.var) (s.domain e.var)

variable {s s' : Store} {b : Base}

/-- When nothing is pending, the domains are the same as they are. -/
theorem told_of_quiet (hquiet : s.news = []) : s.Told s.domain := by
  refine ⟨fun _ => Finset.Subset.refl _, fun e he => e.describes_of_not_isSet ?_ _⟩
  rw [Bool.eq_false_iff]
  intro hset
  have hmem : e ∈ s.news := List.mem_filter.2 ⟨Array.mem_toList_iff.2 he, hset⟩
  rw [hquiet] at hmem
  cases hmem

/-- The events go on telling what happened when a domain is narrowed. -/
theorem Shrinks.keeps_told {F : Var → Finset Int} {D : Finset Int} (hs : s.Sound)
    (hb : s.IsBase b) (h : Shrinks s s' b D) (htold : s.Told F) : s'.Told F := by
  refine ⟨fun p => Finset.Subset.trans (h.subset p) (htold.subset p), fun e' he' => ?_⟩
  obtain ⟨hevents, hD⟩ | ⟨hne, change, hfollows, hevents⟩ := h.told
  · have hsame : s'.domain e'.var = s.domain e'.var := by
      by_cases hv : e'.var = b.var
      · rw [hv, h.self, hD]
      · exact h.other _ hv
    rw [hsame]
    exact htold.describes e' (hevents ▸ he')
  · have hlost : D ⊂ s.domain b.var :=
      Finset.ssubset_iff_subset_ne.2 ⟨h.self ▸ h.subset b.var, hne⟩
    obtain ⟨slot, hslot⟩ := Array.mem_iff_getElem?.1 he'
    rw [hevents, Array.getElem?_modify] at hslot
    obtain ⟨e₀, he₀, hvar₀⟩ := hs.event_of_base _ _ _ hb
    by_cases heq : b.slot = slot
    · subst heq
      rw [if_pos rfl, he₀] at hslot
      obtain rfl := Option.some.inj hslot
      have hvar : (change e₀).var = b.var := (hfollows e₀).var_eq.trans hvar₀
      have hold := htold.describes e₀ (Array.mem_of_getElem? he₀)
      rw [hvar₀] at hold
      rw [hvar, h.self]
      exact hold.step (htold.subset b.var) hlost (hfollows e₀)
    · rw [if_neg heq] at hslot
      have hother : e'.var ≠ b.var := by
        intro hv
        obtain ⟨d, hd⟩ := hs.base_of_event slot e' hslot
        rw [hv] at hd
        cases hb.symm.trans hd
        exact heq rfl
      rw [h.other _ hother]
      exact htold.describes e' (Array.mem_of_getElem? hslot)

/-! ## Sequences of attempts -/

/-- The path of a variable that does not exist. -/
theorem path_eq_missing {x : Var} (h : ¬ x.index < s.definitions.size) : s.path x = .missing := by
  rw [path, Path.follow, Array.getElem?_eq_none (Nat.not_lt.1 h)]

end Store

/-- A call that narrows the domain of a variable. -/
inductive Attempt where
  | fix (x : Var) (v : Int)
  | remove (x : Var) (v : Int)
  | removeBelow (x : Var) (v : Int)
  | removeAbove (x : Var) (v : Int)
  deriving DecidableEq, Repr

/-- The variable whose domain is narrowed. -/
def Attempt.var : Attempt → Var
  | fix x _ | remove x _ | removeBelow x _ | removeAbove x _ => x

namespace Store

/-- Makes an attempt. -/
def attempt (s : Store) : Attempt → Except Fault (Verdict × Store)
  | .fix x v => s.fix x v
  | .remove x v => s.remove x v
  | .removeBelow x v => s.removeBelow x v
  | .removeAbove x v => s.removeAbove x v

/-- Makes several attempts, until one fails. -/
def attemptAll (s : Store) : List Attempt → Except Fault (Verdict × Store)
  | [] => .ok (.consistent, s)
  | a :: rest => do
    match ← s.attempt a with
    | (.failed why, s) => return (.failed why, s)
    | (.consistent, s) => s.attemptAll rest

variable {s s' : Store} {verdict : Verdict}

/-- An attempt on a variable that does not exist gets no verdict. -/
theorem lt_of_attempt {a : Attempt} (hret : s.attempt a = .ok (verdict, s')) :
    a.var.index < s.definitions.size := by
  by_contra hlt
  have hpath := path_eq_missing hlt
  have hpull : ∀ v, s.pull a.var v = .error .outOfBounds := by
    intro v
    rw [pull, pathBound, pullAlong, hpath]
    rfl
  have hbound : ∀ side v, s.pullBound a.var side v = .error .outOfBounds := by
    intro side v
    rw [pullBound, pathBound, pullBoundAlong, hpath]
    rfl
  cases a <;> dsimp only [Attempt.var] at hpull hbound
  case fix x v =>
    rw [attempt, fix, hpull v] at hret
    cases hret
  case remove x v =>
    rw [attempt, remove, hpull v] at hret
    cases hret
  case removeBelow x v =>
    rw [attempt, removeBelow, removeBeyond, hbound .lower v] at hret
    cases hret
  case removeAbove x v =>
    rw [attempt, removeAbove, removeBeyond, hbound .upper v] at hret
    cases hret

/-- A domain that is judged consistent was not emptied. -/
theorem Judges.ne_empty {D D' : Finset Int} (h : Judges .consistent D D') (hD : D ≠ ∅) :
    D' ≠ ∅ := by
  intro hempty
  rw [Judges, if_pos ⟨hempty, hD⟩] at h
  cases h

/-- An attempt narrows the domain of the primitive variable below.  If it succeeds, the domain is not
emptied. -/
theorem attempt_spec (h : s.Sound) {a : Attempt} (hret : s.attempt a = .ok (verdict, s')) :
    ∃ b D, (s.path a.var).source = .ok b ∧ s.IsBase b ∧ Shrinks s s' b D ∧
      (verdict = .consistent → s.domain b.var ≠ ∅ → D ≠ ∅) := by
  have hx := lt_of_attempt hret
  cases a with
  | fix x v =>
    obtain ⟨b, hsource, hb, ⟨hv, rfl, hshrinks⟩ | ⟨_, rfl, rfl⟩⟩ := fix_spec h hx hret
    · refine ⟨b, _, hsource, hb, hshrinks, fun _ _ hempty => ?_⟩
      obtain ⟨r, hr, heval⟩ := (mem_view hsource).1 hv
      have hmem : r ∈ (s.domain b.var).filter fun r => (s.path x).eval r = v :=
        Finset.mem_filter.2 ⟨hr, heval⟩
      exact absurd (hempty ▸ hmem) (Finset.notMem_empty r)
    · refine ⟨b, _, hsource, hb, .refl h rfl, ?_⟩
      rintro ⟨⟩
  | remove x v =>
    obtain ⟨b, hsource, hb, hshrinks, hjudges⟩ := remove_spec h hx hret
    exact ⟨b, _, hsource, hb, hshrinks, fun hv => (hv ▸ hjudges).ne_empty⟩
  | removeBelow x v | removeAbove x v =>
    obtain ⟨b, hsource, hb, hshrinks, hjudges⟩ := removeBeyond_spec h hx hret
    exact ⟨b, _, hsource, hb, hshrinks, fun hv => (hv ▸ hjudges).ne_empty⟩

/-- An attempt that succeeds empties no domain. -/
theorem alive_attempt (h : s.Sound) {a : Attempt} (hret : s.attempt a = .ok (.consistent, s')) :
    s.Alive s' := by
  obtain ⟨b, D, _, _, hshrinks, hne⟩ := attempt_spec h hret
  intro q hq
  by_cases hqb : q = b.var
  · subst hqb
    rw [hshrinks.self]
    exact hne rfl hq
  · rw [hshrinks.other q hqb]
    exact hq

/-- The events tell what a sequence of successful attempts did, and no domain was emptied. -/
theorem attemptAll_told {F : Var → Finset Int} {attempts : List Attempt} (h : s.Sound)
    (htold : s.Told F) (hret : s.attemptAll attempts = .ok (.consistent, s')) :
    Evolves (fun _ => False) s s' ∧ s'.Told F ∧ ∀ p, s.domain p ≠ ∅ → s'.domain p ≠ ∅ := by
  induction attempts generalizing s with
  | nil =>
    cases hret
    exact ⟨.refl _ h, htold, fun _ => id⟩
  | cons a rest ih =>
    rw [attemptAll] at hret
    obtain ⟨⟨_ | why, s₁⟩, ha, hret⟩ := bind_eq_ok_iff.1 hret
    swap
    · cases hret
    obtain ⟨b, D, _, hb, hshrinks, hne⟩ := attempt_spec h ha
    obtain ⟨hevolves, htold', hne'⟩ := ih hshrinks.sound (hshrinks.keeps_told h hb htold) hret
    refine ⟨hshrinks.toEvolves.trans hevolves, htold', fun p hp => hne' p ?_⟩
    by_cases heq : p = b.var
    · rw [heq, hshrinks.self]
      exact hne rfl (heq ▸ hp)
    · rw [hshrinks.other p heq]
      exact hp

end Store

end FiniteDomain
