import FiniteDomain.Proofs.Store.Narrowing

/-!
# Questions about variables, and narrowing them

What is true of a primitive variable is carried over to the views on it.

* `Store.Reads s x v` says that `v` is a value of `x` that can be carried along its path.  For such
  values every question is answered and every attempt gets a verdict: `contains_eq`,
  `remove_total`, `fix_total`.
* `remove_spec`, `fix_spec` and `removeBeyond_spec` say what an attempt that gets a verdict has done.
  They hold for all values.
-/

namespace FiniteDomain.Store

variable {s : Store} {b : Base} {x : Var}

/-! ## Values along a path -/

/-- A value carried down from a variable comes to its primitive variable or gets lost. -/
theorem pull_cases (h : s.Sound) (hx : x.index < s.definitions.size) {v : Int}
    {answer : Option (Base × Int)} (hret : s.pull x v = .ok answer) :
    answer = none ∧ (∀ r, (s.path x).eval r ≠ v) ∨
      ∃ b r, answer = some (b, r) ∧ (s.path x).source = .ok b ∧ (s.path x).eval r = v := by
  obtain ⟨_, hp, _, _⟩ := h.exists_base hx
  rw [pull, pathBound, pullAlong] at hret
  obtain ⟨landing, hpull, hrest⟩ := bind_eq_ok_iff.1 hret
  obtain rfl | ⟨b, r, rfl⟩ := Path.pull_cases hp hpull
  · cases hrest
    exact Or.inl ⟨rfl, Path.pull_none hp hpull⟩
  · cases hrest
    obtain ⟨hsource, heval⟩ := Path.pull_base hpull
    exact Or.inr ⟨b, r, rfl, hsource, heval⟩

/-- The value `v` of `x` is carried up from a value that can be looked up. -/
def Reads (s : Store) (x : Var) (v : Int) : Prop :=
  ∃ b r, (s.path x).source = .ok b ∧ (s.path x).push r = .ok v ∧ Word.InRange r ∧
    ∀ set, s.trail.sets[b.domain.index]? = some set → Word.InRange (r - set.offset)

/-- A value that is carried up is carried down again. -/
theorem Reads.pull_eq (h : s.Sound) (hx : x.index < s.definitions.size) {v : Int}
    (hv : s.Reads x v) :
    ∃ b r, s.IsBase b ∧ (s.path x).source = .ok b ∧ (s.path x).eval r = v ∧
      s.pull x v = .ok (some (b, r)) ∧
      s.trail.member b.domain r = .ok (decide (r ∈ s.domain b.var)) := by
  obtain ⟨b, r, hsource, hpush, hr, hnear⟩ := hv
  obtain ⟨b', hp, hsource', hb⟩ := h.exists_base hx
  obtain rfl : b' = b := Except.ok.inj (hsource'.symm.trans hsource)
  obtain ⟨set, hset⟩ := h.exists_set hb
  refine ⟨b', r, hb, hsource, Path.push_eval hpush,
    pull_of_base (Path.pull_push hp hsource hr hpush).1, ?_⟩
  rw [domain_eq hb, Trail.member_of_inRange h.trail hset (hnear set hset)]

/-- Values stay readable. -/
theorem Evolves.reads_iff {C : Cell → Prop} {s' : Store} (h : Evolves C s s') {v : Int} :
    s'.Reads x v ↔ s.Reads x v := by
  rw [Reads, Reads, h.path_eq, h.sets_eq]

/-- The value of a member is readable, if it can be carried up. -/
theorem reads_of_mem (h : s.Sound) (hb : s.IsBase b) (hsource : (s.path x).source = .ok b)
    {r v : Int} (hr : r ∈ s.domain b.var) (hv : (s.path x).push r = .ok v) : s.Reads x v := by
  rw [domain_eq hb] at hr
  refine ⟨b, r, hsource, hv, h.values_fit.inRange_of_mem hr, fun set hset => ?_⟩
  rw [Trail.domain_eq hset] at hr
  exact Trail.inRange_sub_of_mem h.trail hset hr

/-- All values of a variable can be carried up. -/
def Readable (s : Store) (x : Var) : Prop := ∀ v ∈ s.view x, s.Reads x v

/-- A member of a readable variable is carried up. -/
theorem Readable.push_eq (h : s.Sound) (hx : x.index < s.definitions.size)
    (hread : s.Readable x) (hsource : (s.path x).source = .ok b) {r : Int}
    (hr : r ∈ s.domain b.var) : (s.path x).push r = .ok ((s.path x).eval r) := by
  obtain ⟨b', hp, hsource', _⟩ := h.exists_base hx
  obtain ⟨b'', r', _, hpush, _⟩ := hread _ ((mem_view hsource).2 ⟨r, hr, rfl⟩)
  have heval := Path.push_eval hpush
  rw [Path.eval_injective hp heval] at hpush
  exact hpush

/-! ## Questions -/

theorem card_view (h : s.Sound) (hx : x.index < s.definitions.size)
    (hsource : (s.path x).source = .ok b) : (s.view x).card = (s.domain b.var).card := by
  obtain ⟨_, hp, _, _⟩ := h.exists_base hx
  rw [view, viewIn_eq hsource]
  exact Finset.card_image_of_injective _ (Path.eval_injective hp)

/-- The number of values. -/
theorem size_eq (h : s.Sound) (hx : x.index < s.definitions.size) :
    s.size x = .ok (s.view x).card := by
  obtain ⟨b, _, hsource, hb⟩ := h.exists_base hx
  rw [size, hsource, ok_bind, card_eq h hb, card_view h hx hsource]

/-- A readable value is looked up. -/
theorem contains_eq (h : s.Sound) (hx : x.index < s.definitions.size) {v : Int}
    (hv : s.Reads x v) : s.contains x v = .ok (decide (v ∈ s.view x)) := by
  obtain ⟨b, r, hb, hsource, heval, hpull, hm⟩ := hv.pull_eq h hx
  obtain ⟨_, hp, _, _⟩ := h.exists_base hx
  rw [contains, hpull, ok_bind]
  dsimp only
  rw [hm]
  congr 1
  rw [decide_eq_decide, mem_view hsource]
  constructor
  · exact fun hr => ⟨r, hr, heval⟩
  · rintro ⟨r', hr', heval'⟩
    rw [Path.eval_injective hp (heval.trans heval'.symm)]
    exact hr'

/-- What is looked up with success is looked up rightly. -/
theorem contains_spec (h : s.Sound) (hx : x.index < s.definitions.size) {v : Int} {answer : Bool}
    (hret : s.contains x v = .ok answer) : answer = decide (v ∈ s.view x) := by
  obtain ⟨b, hp, hsource, hb⟩ := h.exists_base hx
  obtain ⟨pulled, hpull, hret⟩ := bind_eq_ok_iff.1 hret
  obtain ⟨rfl, hnone⟩ | ⟨b', r, rfl, hsource', heval⟩ := pull_cases h hx hpull
  · cases hret
    rw [eq_comm, decide_eq_false_iff_not, mem_view hsource]
    rintro ⟨r, _, heval⟩
    exact hnone r heval
  · obtain rfl : b' = b := Except.ok.inj (hsource'.symm.trans hsource)
    have hmember := (member_eq h hb hret).symm.trans hret
    rw [← Except.ok.inj hmember, decide_eq_decide, mem_view hsource]
    constructor
    · exact fun hr => ⟨r, hr, heval⟩
    · rintro ⟨r', hr', heval'⟩
      rw [Path.eval_injective hp (heval.trans heval'.symm)]
      exact hr'

/-- The values of a variable whose values can all be carried up. -/
theorem values_eq (h : s.Sound) (hx : x.index < s.definitions.size) (hread : s.Readable x) :
    ∃ vs, s.values x = .ok vs ∧ vs.Nodup ∧ ∀ v, v ∈ vs ↔ v ∈ s.view x := by
  obtain ⟨b, hp, hsource, hb⟩ := h.exists_base hx
  obtain ⟨set, hset⟩ := h.exists_set hb
  obtain ⟨rs, hrs, hnodup, hmem⟩ := Trail.elements_eq h.trail h.values_fit hset
  rw [← domain_eq hb] at hmem
  refine ⟨rs.map (s.path x).eval, ?_, hnodup.map (Path.eval_injective hp), fun v => ?_⟩
  · rw [values, hsource, ok_bind, hrs, ok_bind]
    exact mapM_eq_ok fun r hr => hread.push_eq h hx hsource ((hmem r).1 hr)
  · rw [List.mem_map, mem_view hsource]
    simp only [hmem]

/-- A variable whose values are listed is readable. -/
theorem readable_of_values (h : s.Sound) (hx : x.index < s.definitions.size) {vs : List Int}
    (hvs : s.values x = .ok vs) : s.Readable x := by
  obtain ⟨b, hp, hsource, hb⟩ := h.exists_base hx
  obtain ⟨set, hset⟩ := h.exists_set hb
  obtain ⟨rs, hrs, _, hmem⟩ := Trail.elements_eq h.trail h.values_fit hset
  rw [← domain_eq hb] at hmem
  rw [values, hsource, ok_bind, hrs, ok_bind] at hvs
  intro v hv
  obtain ⟨r, hr, rfl⟩ := (mem_view hsource).1 hv
  obtain ⟨v, _, hpush⟩ := exists_of_mapM_eq_ok hvs ((hmem r).2 hr)
  rw [Path.push_eval hpush]
  exact reads_of_mem h hb hsource hr hpush

/-- A variable is asked for its least value: there is none, or it has one. -/
theorem min?_cases (h : s.Sound) (hx : x.index < s.definitions.size) (hread : s.Readable x) :
    s.view x = ∅ ∧ s.min? x = .ok none ∨ ∃ v ∈ s.view x, s.min? x = .ok (some v) := by
  obtain ⟨b, hp, hsource, hb⟩ := h.exists_base hx
  rw [min?, bound?, hsource, ok_bind]
  obtain ⟨hempty, hnone⟩ | ⟨r, hr, hsome, _⟩ := bound?_cases h hb ((s.path x).turn .lower)
  · refine Or.inl ⟨?_, by rw [hnone]; rfl⟩
    rw [view, viewIn_eq hsource, ← domain, hempty, Finset.image_empty]
  · refine Or.inr ⟨_, (mem_view hsource).2 ⟨r, hr, rfl⟩, ?_⟩
    rw [hsome, ok_bind]
    dsimp only
    rw [hread.push_eq h hx hsource hr]
    rfl

/-! ## Narrowing -/

/-- What removing a value has done. -/
theorem remove_spec (h : s.Sound) (hx : x.index < s.definitions.size) {v : Int}
    {verdict : Verdict} {s' : Store} (hret : s.remove x v = .ok (verdict, s')) :
    ∃ b, (s.path x).source = .ok b ∧ s.IsBase b ∧
      Shrinks s s' b ((s.domain b.var).filter fun r => (s.path x).eval r ≠ v) ∧
      Judges verdict (s.domain b.var)
        ((s.domain b.var).filter fun r => (s.path x).eval r ≠ v) := by
  obtain ⟨b, hp, hsource, hb⟩ := h.exists_base hx
  refine ⟨b, hsource, hb, ?_⟩
  rw [remove] at hret
  obtain ⟨answer, hpull, hrest⟩ := bind_eq_ok_iff.1 hret
  obtain ⟨rfl, hnone⟩ | ⟨b', r, rfl, hsource', heval⟩ := pull_cases h hx hpull
  · cases hrest
    rw [Finset.filter_true_of_mem fun r _ => hnone r]
    refine ⟨.refl h rfl, ?_⟩
    rw [Judges, if_neg]
    rintro ⟨hempty, hne⟩
    exact hne hempty
  · obtain rfl : b = b' := Except.ok.inj (hsource.symm.trans hsource')
    have hset : (s.domain b.var).filter (fun r => (s.path x).eval r ≠ v) =
        (s.domain b.var).erase r := by
      ext r'
      rw [Finset.mem_filter, Finset.mem_erase, and_comm]
      refine and_congr_left fun _ => not_congr ⟨fun h' => ?_, fun h' => h' ▸ heval⟩
      exact Path.eval_injective hp (h'.trans heval.symm)
    dsimp only at hrest
    obtain ⟨answer, hm⟩ : ∃ answer, s.trail.member b.domain r = .ok answer := by
      rw [removeBase] at hrest
      obtain ⟨answer, hm, _⟩ := bind_eq_ok_iff.1 hrest
      exact ⟨answer, hm⟩
    obtain ⟨verdict', s'', hret', hshrinks, hjudges⟩ := removeBase_eq h hb hm
    rw [hrest] at hret'
    obtain ⟨rfl, rfl⟩ := Prod.mk.inj (Except.ok.inj hret')
    rw [hset]
    exact ⟨hshrinks, hjudges⟩

/-- Removing a readable value gets a verdict. -/
theorem remove_total (h : s.Sound) (hx : x.index < s.definitions.size) {v : Int}
    (hv : s.Reads x v) : ∃ verdict s', s.remove x v = .ok (verdict, s') := by
  obtain ⟨b, r, hb, _, _, hpull, hm⟩ := hv.pull_eq h hx
  obtain ⟨verdict, s', hret, _⟩ := removeBase_eq h hb hm
  exact ⟨verdict, s', by rw [remove, hpull, ok_bind]; exact hret⟩

/-- What fixing a variable has done. -/
theorem fix_spec (h : s.Sound) (hx : x.index < s.definitions.size) {v : Int}
    {verdict : Verdict} {s' : Store} (hret : s.fix x v = .ok (verdict, s')) :
    ∃ b, (s.path x).source = .ok b ∧ s.IsBase b ∧
      (v ∈ s.view x ∧ verdict = .consistent ∧
        Shrinks s s' b ((s.domain b.var).filter fun r => (s.path x).eval r = v) ∨
      v ∉ s.view x ∧ verdict = .failed .domainWipeout ∧ s' = s) := by
  obtain ⟨b, hp, hsource, hb⟩ := h.exists_base hx
  refine ⟨b, hsource, hb, ?_⟩
  rw [fix] at hret
  obtain ⟨answer, hpull, hrest⟩ := bind_eq_ok_iff.1 hret
  obtain ⟨rfl, hnone⟩ | ⟨b', r, rfl, hsource', heval⟩ := pull_cases h hx hpull
  · cases hrest
    refine Or.inr ⟨fun hv => ?_, rfl, rfl⟩
    obtain ⟨r, _, hr⟩ := (mem_view hsource).1 hv
    exact hnone r hr
  · obtain rfl : b = b' := Except.ok.inj (hsource.symm.trans hsource')
    dsimp only at hrest
    have hmem : v ∈ s.view x ↔ r ∈ s.domain b.var := by
      rw [mem_view hsource]
      constructor
      · rintro ⟨r', hr', heval'⟩
        rw [← Path.eval_injective hp (heval'.trans heval.symm)]
        exact hr'
      · exact fun hr => ⟨r, hr, heval⟩
    by_cases hr : r ∈ s.domain b.var
    · obtain ⟨s'', hret', hshrinks⟩ := fixBase_of_mem h hb hr
      rw [hrest] at hret'
      obtain ⟨rfl, rfl⟩ := Prod.mk.inj (Except.ok.inj hret')
      have hset : (s.domain b.var).filter (fun r' => (s.path x).eval r' = v) = {r} := by
        ext r'
        rw [Finset.mem_filter, Finset.mem_singleton]
        constructor
        · exact fun h' => Path.eval_injective hp (h'.2.trans heval.symm)
        · rintro rfl
          exact ⟨hr, heval⟩
      rw [hset]
      exact Or.inl ⟨hmem.2 hr, rfl, hshrinks⟩
    · obtain ⟨answer, hm⟩ : ∃ answer, s.trail.member b.domain r = .ok answer := by
        rw [fixBase] at hrest
        obtain ⟨answer, hm, _⟩ := bind_eq_ok_iff.1 hrest
        exact ⟨answer, hm⟩
      rw [fixBase_of_not_mem h hb hm hr] at hrest
      obtain ⟨rfl, rfl⟩ := Prod.mk.inj (Except.ok.inj hrest)
      exact Or.inr ⟨fun hv => hr (hmem.1 hv), rfl, rfl⟩

/-- Fixing a variable to a readable value gets a verdict. -/
theorem fix_total (h : s.Sound) (hx : x.index < s.definitions.size) {v : Int}
    (hv : s.Reads x v) : ∃ verdict s', s.fix x v = .ok (verdict, s') := by
  obtain ⟨b, r, hb, _, _, hpull, hm⟩ := hv.pull_eq h hx
  by_cases hr : r ∈ s.domain b.var
  · obtain ⟨s', hret, _⟩ := fixBase_of_mem h hb hr
    exact ⟨_, s', by rw [fix, hpull, ok_bind]; exact hret⟩
  · exact ⟨_, s, by rw [fix, hpull, ok_bind]; exact fixBase_of_not_mem h hb hm hr⟩

/-- What removing the values beyond a bound has done. -/
theorem removeBeyond_spec (h : s.Sound) (hx : x.index < s.definitions.size) {side : Side}
    {v : Int} {verdict : Verdict} {s' : Store}
    (hret : s.removeBeyond side x v = .ok (verdict, s')) :
    ∃ b, (s.path x).source = .ok b ∧ s.IsBase b ∧
      Shrinks s s' b
        ((s.domain b.var).filter fun r => liesBeyond side ((s.path x).eval r) v = false) ∧
      Judges verdict (s.domain b.var)
        ((s.domain b.var).filter fun r => liesBeyond side ((s.path x).eval r) v = false) := by
  obtain ⟨b, hp, hsource, hb⟩ := h.exists_base hx
  refine ⟨b, hsource, hb, ?_⟩
  rw [removeBeyond] at hret
  obtain ⟨⟨b', side', r⟩, hpull, hrest⟩ := bind_eq_ok_iff.1 hret
  rw [pullBound, pathBound, pullBoundAlong] at hpull
  obtain ⟨landing, hland, hpull⟩ := bind_eq_ok_iff.1 hpull
  obtain ⟨b'', side'', r', rfl⟩ := Path.pullBound_cases hp hland
  cases hpull
  obtain ⟨hsource', heval⟩ := Path.pullBound_base hp hland
  obtain rfl : b = b' := Except.ok.inj (hsource.symm.trans hsource')
  obtain ⟨verdict', s'', hret', hshrinks, hjudges⟩ := removeBeyondBase_eq h hb side' r
  dsimp only at hrest
  rw [hrest] at hret'
  obtain ⟨rfl, rfl⟩ := Prod.mk.inj (Except.ok.inj hret')
  simp only [heval]
  exact ⟨hshrinks, hjudges⟩

end FiniteDomain.Store
