import FiniteDomain.Proofs.Store.Reached
import FiniteDomain.Proofs.Store.Weights

/-!
# Stores that answer alike

Two stores are twins if the same variables were declared in them and have the same domains.  The
values of a domain may be listed in another order, and the cells may be others.

* `Store.Twins` relates the stores.
* `Twins.declare` and `Twins.attempt`: a call that returns in one store returns in the other, with
  the same answer, and leaves twins.
-/

namespace FiniteDomain.Store

variable {s s' s₁ s₁' : Store}

/-- The same variables were declared, and have the same domains. -/
structure Twins (s s' : Store) : Prop where
  definitions_eq : s'.definitions = s.definitions
  offsets_eq : s'.trail.sets.map SparseSet.offset = s.trail.sets.map SparseSet.offset
  dense_size : s'.trail.dense.size = s.trail.dense.size
  domain_eq : ∀ q, s'.domain q = s.domain q

namespace Twins

theorem symm (h : Twins s s') : Twins s' s :=
  ⟨h.definitions_eq.symm, h.offsets_eq.symm, h.dense_size.symm, fun q => (h.domain_eq q).symm⟩

theorem path_eq (h : Twins s s') (x : Var) : s'.path x = s.path x := by
  rw [path, path, h.definitions_eq]

theorem source_eq (h : Twins s s') (x : Var) : s'.source x = s.source x := by
  rw [source, source, h.path_eq]

theorem view_eq (h : Twins s s') (x : Var) : s'.view x = s.view x := by
  rw [view, viewIn, viewFrom_congr (h.path_eq x)]
  exact congrArg (s.viewFrom · x) (funext h.domain_eq)

theorem isBase_iff (h : Twins s s') {b : Base} : s'.IsBase b ↔ s.IsBase b := by
  rw [IsBase, IsBase, h.definitions_eq]

theorem offset_eq (h : Twins s s') {i : Nat} {set : SparseSet}
    (hset : s'.trail.sets[i]? = some set) :
    ∃ set₀, s.trail.sets[i]? = some set₀ ∧ set₀.offset = set.offset := by
  have hoffset := congrArg (·[i]?) h.offsets_eq
  simp only [Array.getElem?_map, hset, Option.map_some] at hoffset
  exact Option.map_eq_some_iff.1 hoffset.symm

theorem reads_iff (h : Twins s s') {x : Var} {v : Int} : s'.Reads x v ↔ s.Reads x v := by
  have hmono : ∀ {s s' : Store}, Twins s s' → s.Reads x v → s'.Reads x v := by
    rintro s s' h ⟨b, r, hsource, hpush, hr, hoffset⟩
    refine ⟨b, r, h.path_eq x ▸ hsource, h.path_eq x ▸ hpush, hr, fun set hset => ?_⟩
    obtain ⟨set₀, hset₀, heq⟩ := h.offset_eq hset
    exact heq ▸ hoffset set₀ hset₀
  exact ⟨hmono h.symm, hmono h⟩

theorem readable_iff (h : Twins s s') {x : Var} : s'.Readable x ↔ s.Readable x := by
  rw [Readable, Readable, h.view_eq]
  exact forall₂_congr fun _ _ => h.reads_iff

/-- There are as many events in both, one for each primitive variable. -/
theorem events_size (h : Twins s s') (hs : s.Sound) (hs' : s'.Sound) :
    s'.events.size = s.events.size := by
  have hle : ∀ {s s' : Store}, Twins s s' → s.Sound → s'.Sound →
      s.events.size ≤ s'.events.size := by
    intro s s' h hs hs'
    by_contra hlt
    have hslot := Array.getElem?_eq_getElem (Nat.lt_of_not_le hlt)
    obtain ⟨d, hd⟩ := hs.base_of_event _ _ hslot
    obtain ⟨e, he, _⟩ := hs'.event_of_base _ _ _ (h.definitions_eq ▸ hd)
    exact absurd (Array.getElem?_eq_some_iff.1 he).1 (Nat.lt_irrefl _)
  exact Nat.le_antisymm (hle h.symm hs' hs) (hle h hs hs')

/-- Both stores lose values, and agree afterwards. -/
theorem narrowed (h : Twins s s') (hn : Narrowed s s₁) (hn' : Narrowed s' s₁')
    (hdomain : ∀ q, s₁'.domain q = s₁.domain q) : Twins s₁ s₁' where
  definitions_eq := by rw [hn'.definitions_eq, hn.definitions_eq, h.definitions_eq]
  offsets_eq := by rw [hn'.sets_eq, hn.sets_eq, h.offsets_eq]
  dense_size := by rw [hn'.dense_size, hn.dense_size, h.dense_size]
  domain_eq := hdomain

/-- Both stores grow, and agree on what is new. -/
theorem grown (h : Twins s s') (hg : Grown s s₁) (hg' : Grown s' s₁')
    (hdefinitions : s₁'.definitions = s₁.definitions)
    (hoffsets : s₁'.trail.sets.map SparseSet.offset = s₁.trail.sets.map SparseSet.offset)
    (hdense : s₁'.trail.dense.size = s₁.trail.dense.size)
    (hnew : ∀ q : Var, s.definitions.size ≤ q.index → s₁'.domain q = s₁.domain q) :
    Twins s₁ s₁' := by
  refine ⟨hdefinitions, hoffsets, hdense, fun q => ?_⟩
  by_cases hq : q.index < s.definitions.size
  · rw [hg.domain_eq q hq, hg'.domain_eq q (h.definitions_eq ▸ hq), h.domain_eq]
  · exact hnew q (Nat.le_of_not_lt hq)

end Twins

/-! ## Declarations -/

/-- There is room for one more variable if one was added. -/
theorem newVar_fits (h : s.Sound) {d : Definition} {x : Var} (hret : s.newVar d = .ok (x, s₁)) :
    (s.definitions.size : Int) < Word.greatest := by
  obtain ⟨_, _, hinc, _⟩ := exists_increment_of_newVar hret
  obtain ⟨_, hle, _⟩ :=
    increment_grown h.trail h.counts_now.has_vars h.varCount_free h.get_varCount hinc
  omega

/-- Where there is room, a variable is added, and no set, on any sound trail. -/
theorem exists_newVar (ht : s.trail.Sound) (hhas : s.trail.now.Has s.varCount)
    (hfree : ¬ s.trail.IsSetCell s.varCount)
    (hn : s.trail.now.get s.varCount = s.definitions.size) (d : Definition)
    (hlt : (s.definitions.size : Int) < Word.greatest) :
    ∃ t, s.newVar d = .ok (⟨s.definitions.size⟩,
        { s with trail := t, definitions := s.definitions.push d }) ∧
      t.sets = s.trail.sets ∧ t.dense = s.trail.dense := by
  obtain ⟨t, hinc⟩ := exists_increment ht hhas hfree hn hlt
  obtain ⟨_, _, hsets, hdense, _⟩ := increment_grown ht hhas hfree hn hinc
  refine ⟨t, ?_, hsets, hdense⟩
  rw [newVar, increment, onTrail_eq, hinc, ok_bind, ok_bind]
  dsimp only
  rw [Word.sub_one_of_lt_greatest hlt, ok_bind, Word.unsigned_of_lt_greatest hlt]
  rfl

theorem newVar_total (h : s.Sound) (d : Definition)
    (hlt : (s.definitions.size : Int) < Word.greatest) :
    ∃ t, s.newVar d = .ok (⟨s.definitions.size⟩,
        { s with trail := t, definitions := s.definitions.push d }) ∧
      t.sets = s.trail.sets ∧ t.dense = s.trail.dense :=
  exists_newVar h.trail h.counts_now.has_vars h.varCount_free h.get_varCount d hlt

/-- A view has no domain of its own. -/
theorem domain_eq_empty_of_push {d : Definition} (hd : ∀ slot set, d ≠ .primitive slot set)
    (hdefinitions : s₁.definitions = s.definitions.push d) {q : Var}
    (hq : s.definitions.size ≤ q.index) : s₁.domain q = ∅ := by
  rw [domain, domainIn, hdefinitions]
  split
  · rename_i slot set hget
    rcases Nat.lt_or_eq_of_le hq with hlt | heq
    · rw [Array.getElem?_eq_none (by rw [Array.size_push]; omega)] at hget
      cases hget
    · rw [← heq, Array.getElem?_push_size] at hget
      exact absurd (Option.some.inj hget) (hd slot set)
  · rfl

namespace Twins

/-- A view is added to both. -/
theorem newVar (h : Twins s s') (hs : s.Sound) (hs' : s'.Sound) {d : Definition}
    (hground : d.Grounded s.definitions.size) (hview : ∀ slot set, d ≠ .primitive slot set)
    {x : Var} (hret : s.newVar d = .ok (x, s₁)) :
    ∃ s₁', s'.newVar d = .ok (x, s₁') ∧ Twins s₁ s₁' := by
  have hlt := newVar_fits hs hret
  have hsize : s'.definitions.size = s.definitions.size := congrArg Array.size h.definitions_eq
  obtain ⟨t, heq, hsets, hdense⟩ := newVar_total hs d hlt
  cases hret.symm.trans heq
  obtain ⟨t', heq', hsets', hdense'⟩ := newVar_total hs' d (hsize.symm ▸ hlt)
  obtain ⟨_, hgrown, _⟩ := newVar_grown hs hground hview heq
  obtain ⟨_, hgrown', _⟩ := newVar_grown hs' (hsize.symm ▸ hground) hview heq'
  rw [hsize] at heq'
  refine ⟨_, heq', h.grown hgrown hgrown' (by rw [h.definitions_eq]) ?_ ?_ fun q hq => ?_⟩
  · show t'.sets.map _ = t.sets.map _
    rw [hsets', hsets, h.offsets_eq]
  · show t'.dense.size = t.dense.size
    rw [hdense', hdense, h.dense_size]
  · have hempty : ∀ {s₀ s₂ : Store}, s₀.definitions = s.definitions →
        s₂.definitions = s₀.definitions.push d → s₂.domain q = ∅ :=
      fun hsame hpush => domain_eq_empty_of_push hview hpush (by rw [hsame]; exact hq)
    exact (hempty h.definitions_eq rfl).trans (hempty rfl rfl).symm

end Twins

/-- What has to fit for a primitive variable. -/
structure Fits (s : Store) (min max : Int) : Prop where
  span : Word.InRange (max - min)
  width : Word.InRange (max - min + 1)
  dense_lt : s.trail.dense.size + (max - min + 1).toNat < Word.countBound
  events_lt : (s.events.size : Int) < Word.greatest
  vars_lt : (s.definitions.size : Int) < Word.greatest

theorem newPrimitive_fits (h : s.Sound) {min max : Int} (hmin : Word.InRange min)
    (hmax : Word.InRange max) {x : Var} (hret : s.newPrimitive min max = .ok (x, s₁)) :
    s.Fits min max := by
  obtain ⟨_, hgrown, hsize, _⟩ := newPrimitive_grown h hmin hmax hret
  have hvars := hgrown.sound.vars_le
  obtain ⟨hspan, hwidth, hdense, _, _, _, hinc, _⟩ := exists_newVar_of_newPrimitive hret
  obtain ⟨_, hle, _⟩ :=
    increment_grown h.trail h.counts_now.has_events h.eventCount_free h.get_eventCount hinc
  exact ⟨hspan, hwidth, hdense, by omega, by omega⟩

/-- A primitive variable for which there is room is added, with a set of its own. -/
theorem newPrimitive_total (h : s.Sound) {min max : Int} (hfits : s.Fits min max) :
    ∃ s₁, s.newPrimitive min max = .ok (⟨s.definitions.size⟩, s₁) ∧
      s₁.definitions =
        s.definitions.push (.primitive s.events.size ⟨s.trail.sets.size⟩) ∧
      s₁.trail.sets.map SparseSet.offset = (s.trail.sets.map SparseSet.offset).push min ∧
      s₁.trail.dense.size = s.trail.dense.size + (max - min + 1).toNat := by
  have hcounts := h.counts_now
  obtain ⟨t₁, hinc⟩ := exists_increment h.trail hcounts.has_events h.eventCount_free
    h.get_eventCount hfits.events_lt
  obtain ⟨_, _, hsets₁, hdense₁, _, hgrown₁⟩ := increment_grown h.trail hcounts.has_events
    h.eventCount_free h.get_eventCount hinc
  have hwidth : ((max - min + 1).toNat : Int) ≤ Word.greatest := by
    have := hfits.width.2
    unfold Word.greatest at *
    omega
  obtain ⟨hid, hgrown₂, _⟩ := Trail.newSet_grown hgrown₁.sound (max - min + 1).toNat min
    (by rw [hdense₁]; exact hfits.dense_lt) hwidth
  have hsets₂ : (t₁.newSet (max - min + 1).toNat min).2.sets.map SparseSet.offset =
      (t₁.sets.map SparseSet.offset).push min := Array.map_push
  have hdense₂ : (t₁.newSet (max - min + 1).toNat min).2.dense =
      t₁.dense ++ (List.range (max - min + 1).toNat).toArray := rfl
  have hgrown₁₂ := hgrown₁.trans (hgrown₂.mono fun _ hc => hc.elim)
  obtain ⟨t₃, hvar, hsets₃, hdense₃⟩ := exists_newVar
    (s := { s with trail := (t₁.newSet (max - min + 1).toNat min).2 }) hgrown₂.sound
    (hgrown₁₂.has _ hcounts.has_vars)
    (fun hc => h.varCount_free (hgrown₁₂.isSetCell _ hc hcounts.has_vars))
    ((hgrown₁₂.get_eq _ hcounts.has_vars h.counters_ne).trans h.get_varCount)
    (.primitive s.events.size ⟨s.trail.sets.size⟩) hfits.vars_lt
  refine ⟨⟨t₃, s.varCount, s.definitions.push (.primitive s.events.size ⟨s.trail.sets.size⟩),
    s.eventCount, s.events.push (.quiet ⟨s.definitions.size⟩)⟩, ?_, rfl, ?_, ?_⟩
  · have hroom : Word.addCount s.trail.dense.size (max - min + 1).toNat =
        .ok (s.trail.dense.size + (max - min + 1).toNat) := if_pos hfits.dense_lt
    rw [newPrimitive, Word.sub, Word.check_of_inRange hfits.span, ok_bind, Word.add,
      Word.check_of_inRange hfits.width, ok_bind, hroom, ok_bind, increment, onTrail_eq, hinc,
      ok_bind, ok_bind]
    dsimp only
    rw [Word.sub_one_of_lt_greatest hfits.events_lt, ok_bind,
      Word.unsigned_of_lt_greatest hfits.events_lt, onTrail_eq, ok_bind, ok_bind]
    dsimp only
    rw [hid, hsets₁, hvar]
    rfl
  · show t₃.sets.map _ = _
    rw [hsets₃, hsets₂, hsets₁]
  · show t₃.dense.size = _
    rw [hdense₃, hdense₂, hdense₁, Array.size_append]
    simp

namespace Twins

theorem fits_iff (h : Twins s s') (hs : s.Sound) (hs' : s'.Sound) {min max : Int} :
    s'.Fits min max ↔ s.Fits min max := by
  have hmono : ∀ {s s' : Store}, Twins s s' → s.Sound → s'.Sound → s.Fits min max →
      s'.Fits min max := by
    intro s s' h hs hs' hfits
    refine ⟨hfits.span, hfits.width, ?_, ?_, ?_⟩
    · rw [h.dense_size]
      exact hfits.dense_lt
    · rw [h.events_size hs hs']
      exact hfits.events_lt
    · rw [h.definitions_eq]
      exact hfits.vars_lt
  exact ⟨hmono h.symm hs' hs, hmono h hs hs'⟩

/-- A primitive variable is added to both. -/
theorem newPrimitive (h : Twins s s') (hs : s.Sound) (hs' : s'.Sound) {min max : Int}
    (hmin : Word.InRange min) (hmax : Word.InRange max) {x : Var}
    (hret : s.newPrimitive min max = .ok (x, s₁)) :
    ∃ s₁', s'.newPrimitive min max = .ok (x, s₁') ∧ Twins s₁ s₁' := by
  have hfits := newPrimitive_fits hs hmin hmax hret
  have hdefs : s'.definitions.size = s.definitions.size := congrArg Array.size h.definitions_eq
  have hsets : s'.trail.sets.size = s.trail.sets.size := by
    simpa using congrArg Array.size h.offsets_eq
  obtain ⟨s₂, heq, hdefinitions, hoffsets, hdense⟩ := newPrimitive_total hs hfits
  cases hret.symm.trans heq
  obtain ⟨s₁', heq', hdefinitions', hoffsets', hdense'⟩ :=
    newPrimitive_total hs' ((h.fits_iff hs hs').2 hfits)
  obtain ⟨_, hgrown, hsize, _, hmem⟩ := newPrimitive_grown hs hmin hmax heq
  obtain ⟨_, hgrown', hsize', _, hmem'⟩ := newPrimitive_grown hs' hmin hmax heq'
  rw [hdefs] at heq'
  refine ⟨s₁', heq', h.grown hgrown hgrown' ?_ ?_ ?_ fun q hq => ?_⟩
  · rw [hdefinitions', hdefinitions, h.definitions_eq, h.events_size hs hs', hsets]
  · rw [hoffsets', hoffsets, h.offsets_eq]
  · rw [hdense', hdense, h.dense_size]
  · rcases Nat.lt_or_eq_of_le hq with hlt | heq
    · rw [domain_eq_empty (by omega), domain_eq_empty (by omega)]
    · obtain rfl : q = ⟨s.definitions.size⟩ := congrArg Var.mk heq.symm
      ext v
      rw [hmem, ← hdefs, hmem']

theorem valid (h : Twins s s') {d : Declaration} (hd : d.Valid s) : d.Valid s' := by
  cases d with
  | primitive min max => exact hd
  | _ => exact Nat.lt_of_lt_of_eq hd (congrArg Array.size h.definitions_eq.symm)

/-- A variable is declared in both. -/
theorem declare (h : Twins s s') (hs : s.Sound) (hs' : s'.Sound) {d : Declaration}
    (hd : d.Valid s) {x : Var} (hret : s.declare d = .ok (x, s₁)) :
    ∃ s₁', s'.declare d = .ok (x, s₁') ∧ Twins s₁ s₁' := by
  cases d with
  | primitive min max => exact h.newPrimitive hs hs' hd.1 hd.2 hret
  | plus y k => exact h.newVar hs hs' (d := .shift y k) hd (by simp) hret
  | minus y k =>
    rw [Store.declare, minus] at hret ⊢
    obtain ⟨k', hk, hret⟩ := bind_eq_ok_iff.1 hret
    rw [hk, ok_bind]
    exact h.newVar hs hs' (d := .shift y k') hd (by simp) hret
  | negate y => exact h.newVar hs hs' (d := .flip y) hd (by simp) hret
  | times y c =>
    rw [Store.declare, times] at hret ⊢
    split at hret
    · cases hret
    rename_i hzero
    rw [if_neg hzero]
    split at hret
    · rename_i hone
      cases hret
      rw [if_pos hone]
      exact ⟨s', rfl, h⟩
    rename_i hone
    rw [if_neg hone]
    split at hret
    · rename_i hneg
      obtain ⟨⟨z, s₂⟩, hflip, hret⟩ := bind_eq_ok_iff.1 hret
      obtain ⟨s₂', hflip', htwins⟩ := h.newVar hs hs' (d := .flip y) hd (by simp) hflip
      obtain ⟨rfl, hgrown, hdefinitions⟩ := newVar_grown hs (d := .flip y) hd (by simp) hflip
      obtain ⟨_, hgrown', _⟩ :=
        newVar_grown hs' (d := .flip y) (h.definitions_eq ▸ hd) (by simp) hflip'
      obtain ⟨k, hk, hret⟩ := bind_eq_ok_iff.1 hret
      rw [if_pos hneg, negate, hflip', ok_bind]
      dsimp only
      rw [hk, ok_bind]
      obtain ⟨_, rfl⟩ := Word.check_eq_ok_iff.1 hk
      split at hret
      · rename_i hminus
        cases hret
        rw [if_pos hminus]
        exact ⟨s₂', rfl, htwins⟩
      · rename_i hminus
        rw [if_neg hminus]
        refine htwins.newVar hgrown.sound hgrown'.sound (d := .scale _ (-c)) ⟨?_, by omega⟩
          (by simp) hret
        rw [hdefinitions, Array.size_push]
        exact Nat.lt_succ_self _
    · rename_i hneg
      rw [if_neg hneg]
      exact h.newVar hs hs' (d := .scale y c) ⟨hd, by omega⟩ (by simp) hret

end Twins

/-! ## Attempts -/

/-- A domain is judged in one way only. -/
theorem Judges.unique {verdict verdict' : Verdict} {D D' : Finset Int}
    (h : Judges verdict D D') (h' : Judges verdict' D D') : verdict = verdict' := by
  rw [Judges] at h h'
  split at h
  · rw [if_pos ‹_›] at h'
    exact h.trans h'.symm
  · rw [if_neg ‹_›] at h'
    exact h.trans h'.symm

namespace Twins

theorem pullAlong_eq (h : Twins s s') (count : Nat) (x : Var) (v : Int) :
    s'.pullAlong count x v = s.pullAlong count x v := by
  induction count generalizing x v with
  | zero => rfl
  | succ count ih =>
    rw [pullAlong, pullAlong, h.path_eq]
    simp only [ih]

theorem pullBoundAlong_eq (h : Twins s s') (count : Nat) (x : Var) (side : Side) (v : Int) :
    s'.pullBoundAlong count x side v = s.pullBoundAlong count x side v := by
  induction count generalizing x side v with
  | zero => rfl
  | succ count ih =>
    rw [pullBoundAlong, pullBoundAlong, h.path_eq]
    simp only [ih]

/-- A value that can be looked up in one store can be looked up in the other. -/
theorem member_eq (h : Twins s s') (hs : s.Sound) (hs' : s'.Sound) {b : Base} (hb : s.IsBase b)
    {v : Int} {answer : Bool} (hm : s.trail.member b.domain v = .ok answer) :
    s'.trail.member b.domain v = .ok answer := by
  obtain ⟨set', hset'⟩ := hs'.exists_set (h.isBase_iff.2 hb)
  obtain ⟨set, hset, hoffset⟩ := h.offset_eq hset'
  have hin := Trail.inRange_sub_of_member hs.trail hset hm
  rw [Trail.member_of_inRange hs'.trail hset' (hoffset ▸ hin)]
  have heq := Store.member_eq hs hb hm
  rw [hm] at heq
  rw [← Store.domain_eq (h.isBase_iff.2 hb), h.domain_eq]
  exact heq.symm

/-- A narrowed domain in both. -/
theorem shrinks (h : Twins s s') (hs : s.Sound) (hs' : s'.Sound) {b : Base} {D : Finset Int}
    (hshrinks : Shrinks s s₁ b D) (hshrinks' : Shrinks s' s₁' b D) : Twins s₁ s₁' := by
  refine h.narrowed (.of_evolves hs hshrinks.toEvolves) (.of_evolves hs' hshrinks'.toEvolves)
    fun q => ?_
  by_cases hq : q = b.var
  · rw [hq, hshrinks.self, hshrinks'.self]
  · rw [hshrinks.other q hq, hshrinks'.other q hq, h.domain_eq]

variable {x : Var} {v : Int} {verdict : Verdict}

theorem exists_fix (h : Twins s s') (hs : s.Sound) (hs' : s'.Sound)
    (hx : x.index < s.definitions.size) (hret : s.fix x v = .ok (verdict, s₁)) :
    ∃ verdict' s₁', s'.fix x v = .ok (verdict', s₁') := by
  obtain ⟨b, _, hsource, hb⟩ := hs.exists_base hx
  obtain ⟨answer, hpull, hrest⟩ := bind_eq_ok_iff.1 hret
  rw [Store.fix, pull, h.pullAlong_eq, ← pull, hpull, ok_bind]
  obtain ⟨rfl, _⟩ | ⟨b', r, rfl, hsource', _⟩ := pull_cases hs hx hpull
  · exact ⟨_, _, rfl⟩
  · obtain rfl : b = b' := Except.ok.inj (hsource.symm.trans hsource')
    obtain ⟨answer, hm, _⟩ := bind_eq_ok_iff.1 (show s.fixBase b r = _ from hrest)
    have hb' := h.isBase_iff.2 hb
    by_cases hr : r ∈ s'.domain b.var
    · obtain ⟨s₂, hfix, _⟩ := fixBase_of_mem hs' hb' hr
      exact ⟨_, s₂, hfix⟩
    · exact ⟨_, s', fixBase_of_not_mem hs' hb' (h.member_eq hs hs' hb hm) hr⟩

theorem exists_remove (h : Twins s s') (hs : s.Sound) (hs' : s'.Sound)
    (hx : x.index < s.definitions.size) (hret : s.remove x v = .ok (verdict, s₁)) :
    ∃ verdict' s₁', s'.remove x v = .ok (verdict', s₁') := by
  obtain ⟨b, _, hsource, hb⟩ := hs.exists_base hx
  obtain ⟨answer, hpull, hrest⟩ := bind_eq_ok_iff.1 hret
  rw [Store.remove, pull, h.pullAlong_eq, ← pull, hpull, ok_bind]
  obtain ⟨rfl, _⟩ | ⟨b', r, rfl, hsource', _⟩ := pull_cases hs hx hpull
  · exact ⟨_, _, rfl⟩
  · obtain rfl : b = b' := Except.ok.inj (hsource.symm.trans hsource')
    obtain ⟨answer, hm, _⟩ := bind_eq_ok_iff.1 (show s.removeBase b r = _ from hrest)
    obtain ⟨verdict', s₂, hremove, _⟩ :=
      removeBase_eq hs' (h.isBase_iff.2 hb) (h.member_eq hs hs' hb hm)
    exact ⟨verdict', s₂, hremove⟩

theorem exists_removeBeyond (h : Twins s s') (hs : s.Sound) (hs' : s'.Sound) {side : Side}
    (hx : x.index < s.definitions.size) (hret : s.removeBeyond side x v = .ok (verdict, s₁)) :
    ∃ verdict' s₁', s'.removeBeyond side x v = .ok (verdict', s₁') := by
  obtain ⟨b, hp, hsource, hb⟩ := hs.exists_base hx
  obtain ⟨⟨b', side', r⟩, hpull, _⟩ := bind_eq_ok_iff.1 hret
  rw [Store.removeBeyond, pullBound, h.pullBoundAlong_eq, ← pullBound, hpull, ok_bind]
  rw [pullBound, pathBound, pullBoundAlong] at hpull
  obtain ⟨landing, hland, hpull⟩ := bind_eq_ok_iff.1 hpull
  obtain ⟨b'', side'', r', rfl⟩ := Path.pullBound_cases hp hland
  cases hpull
  obtain rfl : b = b' :=
    Except.ok.inj (hsource.symm.trans (Path.pullBound_base hp hland).1)
  obtain ⟨verdict', s₂, hremove, _⟩ := removeBeyondBase_eq hs' (h.isBase_iff.2 hb) side' r
  exact ⟨verdict', s₂, hremove⟩

/-- What is attempted in one store can be attempted in the other, and gets the same verdict. -/
theorem attempt (h : Twins s s') (hs : s.Sound) (hs' : s'.Sound) {a : Attempt}
    (hret : s.attempt a = .ok (verdict, s₁)) :
    ∃ s₁', s'.attempt a = .ok (verdict, s₁') ∧ Twins s₁ s₁' := by
  have hx := lt_of_attempt hret
  have hx' : a.var.index < s'.definitions.size := h.definitions_eq ▸ hx
  have hbases : ∀ {x : Var} {b b' : Base}, (s.path x).source = .ok b →
      (s'.path x).source = .ok b' → b' = b := by
    intro x b b' hsource hsource'
    rw [h.path_eq] at hsource'
    exact Except.ok.inj (hsource'.symm.trans hsource)
  cases a with
  | fix x v =>
    obtain ⟨verdict', s₁', hret'⟩ := h.exists_fix hs hs' hx hret
    obtain ⟨b, hsource, _, hcases⟩ := fix_spec hs hx hret
    obtain ⟨b', hsource', _, hcases'⟩ := fix_spec hs' hx' hret'
    obtain rfl := hbases hsource hsource'
    rw [h.view_eq, h.domain_eq, h.path_eq] at hcases'
    obtain ⟨hv, rfl, hshrinks⟩ | ⟨hv, rfl, rfl⟩ := hcases
    · obtain ⟨_, rfl, hshrinks'⟩ := hcases'.resolve_right fun hnot => hnot.1 hv
      exact ⟨s₁', hret', h.shrinks hs hs' hshrinks hshrinks'⟩
    · obtain ⟨_, rfl, rfl⟩ := hcases'.resolve_left fun hin => hv hin.1
      exact ⟨_, hret', h⟩
  | remove x v =>
    obtain ⟨verdict', s₁', hret'⟩ := h.exists_remove hs hs' hx hret
    obtain ⟨b, hsource, _, hshrinks, hjudges⟩ := remove_spec hs hx hret
    obtain ⟨b', hsource', _, hshrinks', hjudges'⟩ := remove_spec hs' hx' hret'
    obtain rfl := hbases hsource hsource'
    rw [h.domain_eq, h.path_eq] at hshrinks' hjudges'
    obtain rfl := hjudges.unique hjudges'
    exact ⟨s₁', hret', h.shrinks hs hs' hshrinks hshrinks'⟩
  | removeBelow x v | removeAbove x v =>
    obtain ⟨verdict', s₁', hret'⟩ := h.exists_removeBeyond hs hs' hx hret
    obtain ⟨b, hsource, _, hshrinks, hjudges⟩ := removeBeyond_spec hs hx hret
    obtain ⟨b', hsource', _, hshrinks', hjudges'⟩ := removeBeyond_spec hs' hx' hret'
    obtain rfl := hbases hsource hsource'
    rw [h.domain_eq, h.path_eq] at hshrinks' hjudges'
    obtain rfl := hjudges.unique hjudges'
    exact ⟨s₁', hret', h.shrinks hs hs' hshrinks hshrinks'⟩

end Twins

end FiniteDomain.Store
