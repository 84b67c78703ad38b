import FiniteDomain.Proofs.AllDifferent.Moves

/-!
# Flipping alternating paths

* `Linked` is an alternating path from a free value: each of its variables may take the value before
  it and has the value after it as its mate.
* `Flips` is a list of pairs that can be matched all together, whatever their order.  A path that
  ends in a variable without a mate gives such pairs, and so do several paths without a common
  variable (`Flips.append_path`).
* After the flips the matching is sound (`Matched.flip`), and every path has given a mate to one more
  variable (`card_unmatched_flip`).
-/

namespace FiniteDomain.AllDifferent.Snapshot

variable {p : Snapshot} {fs ps : List (Nat × Nat)} {x y v root : Nat} {vs xs : List Nat}

/-! ## Pairs to be matched -/

/-- Pairs that can be matched all together. -/
structure Flips (p : Snapshot) (fs : List (Nat × Nat)) : Prop where
  vars : (fs.map Prod.fst).Nodup
  values : (fs.map Prod.snd).Nodup
  edge : ∀ f ∈ fs, f.1 ∈ p.active ∧ f.2 ∈ p.live f.1
  mate_mem : ∀ f ∈ fs, ∀ w, p.mate f.1 = some w → w ∈ fs.map Prod.snd
  owner_mem : ∀ f ∈ fs, ∀ z, p.owner f.2 = some z → z ∈ fs.map Prod.fst

/-- Matches the pairs one after the other. -/
def flip (p : Snapshot) (fs : List (Nat × Nat)) : Snapshot :=
  fs.foldl (fun p f => p.assign f.1 f.2) p

@[simp]
theorem flip_active (p : Snapshot) (fs : List (Nat × Nat)) : (p.flip fs).active = p.active := by
  induction fs generalizing p with
  | nil => rfl
  | cons f rest ih =>
    rw [flip, List.foldl_cons, ← flip, ih]
    rfl

@[simp]
theorem flip_live (p : Snapshot) (fs : List (Nat × Nat)) : (p.flip fs).live = p.live := by
  induction fs generalizing p with
  | nil => rfl
  | cons f rest ih =>
    rw [flip, List.foldl_cons, ← flip, ih]
    rfl

theorem flip_mate_of_not_mem (h : x ∉ fs.map Prod.fst) : (p.flip fs).mate x = p.mate x := by
  induction fs generalizing p with
  | nil => rfl
  | cons f rest ih =>
    rw [List.map_cons, List.mem_cons, not_or] at h
    rw [flip, List.foldl_cons, ← flip, ih h.2]
    exact Function.update_of_ne h.1 ..

theorem flip_owner_of_not_mem (h : v ∉ fs.map Prod.snd) : (p.flip fs).owner v = p.owner v := by
  induction fs generalizing p with
  | nil => rfl
  | cons f rest ih =>
    rw [List.map_cons, List.mem_cons, not_or] at h
    rw [flip, List.foldl_cons, ← flip, ih h.2]
    exact Function.update_of_ne h.1 ..

theorem flip_mate_of_mem (hn : (fs.map Prod.fst).Nodup) (h : (x, v) ∈ fs) :
    (p.flip fs).mate x = some v := by
  induction fs generalizing p with
  | nil => cases h
  | cons f rest ih =>
    rw [List.map_cons, List.nodup_cons] at hn
    rw [flip, List.foldl_cons, ← flip]
    obtain rfl | h := List.mem_cons.1 h
    · rw [flip_mate_of_not_mem hn.1]
      exact Function.update_self ..
    · exact ih hn.2 h

theorem flip_owner_of_mem (hn : (fs.map Prod.snd).Nodup) (h : (x, v) ∈ fs) :
    (p.flip fs).owner v = some x := by
  induction fs generalizing p with
  | nil => cases h
  | cons f rest ih =>
    rw [List.map_cons, List.nodup_cons] at hn
    rw [flip, List.foldl_cons, ← flip]
    obtain rfl | h := List.mem_cons.1 h
    · rw [flip_owner_of_not_mem hn.1]
      exact Function.update_self ..
    · exact ih hn.2 h

/-- The flips give a matching. -/
theorem Matched.flip (h : p.Matched) (hf : p.Flips fs) : (p.flip fs).Matched := by
  refine ⟨fun x v hx => ?_, fun v x hv => ?_, fun x v hx => ?_⟩
  · by_cases hmem : x ∈ fs.map Prod.fst
    · obtain ⟨⟨x', v'⟩, hf', rfl⟩ := List.mem_map.1 hmem
      rw [flip_mate_of_mem hf.vars hf'] at hx
      cases hx
      exact flip_owner_of_mem hf.values hf'
    · rw [flip_mate_of_not_mem hmem] at hx
      have ho := h.owner_of_mate x v hx
      rw [flip_owner_of_not_mem fun hv => ?_]
      · exact ho
      · obtain ⟨f, hf', rfl⟩ := List.mem_map.1 hv
        exact hmem (hf.owner_mem f hf' x ho)
  · by_cases hmem : v ∈ fs.map Prod.snd
    · obtain ⟨⟨x', v'⟩, hf', rfl⟩ := List.mem_map.1 hmem
      rw [flip_owner_of_mem hf.values hf'] at hv
      cases hv
      exact flip_mate_of_mem hf.vars hf'
    · rw [flip_owner_of_not_mem hmem] at hv
      have hm := h.mate_of_owner v x hv
      rw [flip_mate_of_not_mem fun hx => ?_]
      · exact hm
      · obtain ⟨f, hf', rfl⟩ := List.mem_map.1 hx
        exact hmem (hf.mate_mem f hf' v hm)
  · rw [flip_live]
    by_cases hmem : x ∈ fs.map Prod.fst
    · obtain ⟨⟨x', v'⟩, hf', rfl⟩ := List.mem_map.1 hmem
      rw [flip_mate_of_mem hf.vars hf'] at hx
      cases hx
      exact (hf.edge _ hf').2
    · rw [flip_mate_of_not_mem hmem] at hx
      exact h.live_of_mate x v hx

/-- Grounded variables take no part. -/
theorem Flips.keeps (hf : p.Flips fs) : Keeps p (p.flip fs) := by
  refine ⟨flip_active .., fun x => by rw [flip_live], fun x v hx hv => ?_⟩
  rw [flip_mate_of_not_mem fun hmem => ?_]
  · exact hv
  · obtain ⟨f, hf', rfl⟩ := List.mem_map.1 hmem
    exact hx (hf.edge f hf').1

/-! ## What is matched stays matched -/

/-- Every variable with a mate has one afterwards, and a grounded variable has what it had. -/
structure Extends (p q : Snapshot) : Prop where
  mated : ∀ x, p.mate x ≠ none → q.mate x ≠ none
  grounded : ∀ x, x ∉ p.active → q.mate x = p.mate x

theorem Extends.refl (p : Snapshot) : Extends p p := ⟨fun _ h => h, fun _ _ => rfl⟩

theorem Extends.trans {q r : Snapshot} (h : Extends p q) (h' : Extends q r)
    (hactive : q.active = p.active) : Extends p r :=
  ⟨fun x hx => h'.mated x (h.mated x hx),
    fun x hx => (h'.grounded x (hactive ▸ hx)).trans (h.grounded x hx)⟩

theorem extends_assign (hx : x ∈ p.active) (v : Nat) : Extends p (p.assign x v) := by
  refine ⟨fun y hy => ?_, fun y hy => Function.update_of_ne (fun heq : y = x => hy (heq ▸ hx)) ..⟩
  show Function.update p.mate x (some v) y ≠ none
  by_cases hyx : y = x
  · rw [hyx, Function.update_self]
    exact Option.some_ne_none v
  · rw [Function.update_of_ne hyx]
    exact hy

/-- The flips only give mates. -/
theorem Flips.mates_extend (hf : p.Flips fs) : Extends p (p.flip fs) := by
  have hedge := hf.edge
  clear hf
  induction fs generalizing p with
  | nil => exact .refl p
  | cons f rest ih =>
    have hrest := ih (p := p.assign f.1 f.2) fun f' hf' => hedge f' (List.mem_cons_of_mem f hf')
    exact (extends_assign (hedge f (List.mem_cons_self ..)).1 f.2).trans hrest rfl

/-- The active variables without a mate. -/
def unmatched (p : Snapshot) : Finset Nat := p.active.filter fun x => p.mate x = none

theorem mem_unmatched : x ∈ p.unmatched ↔ x ∈ p.active ∧ p.mate x = none := Finset.mem_filter

/-- Each pair of a variable without a mate makes one such variable less. -/
theorem card_unmatched_flip (hf : p.Flips fs) :
    (p.flip fs).unmatched.card + (fs.filter fun f => p.mate f.1 = none).length =
      p.unmatched.card := by
  have hnodup : ((fs.filter fun f => p.mate f.1 = none).map Prod.fst).Nodup :=
    (List.filter_sublist.map Prod.fst).nodup hf.vars
  have hcard := List.toFinset_card_of_nodup hnodup
  have hmem : ∀ {x}, x ∈ ((fs.filter fun f => p.mate f.1 = none).map Prod.fst).toFinset ↔
      x ∈ fs.map Prod.fst ∧ p.mate x = none := by
    intro x
    rw [List.mem_toFinset, List.mem_map]
    constructor
    · rintro ⟨f, hf', rfl⟩
      obtain ⟨hf', hnone⟩ := List.mem_filter.1 hf'
      exact ⟨List.mem_map_of_mem hf', of_decide_eq_true hnone⟩
    · rintro ⟨hx, hnone⟩
      obtain ⟨f, hf', rfl⟩ := List.mem_map.1 hx
      exact ⟨f, List.mem_filter.2 ⟨hf', decide_eq_true hnone⟩, rfl⟩
  have hsub : ((fs.filter fun f => p.mate f.1 = none).map Prod.fst).toFinset ⊆ p.unmatched := by
    intro x hx
    obtain ⟨hx, hnone⟩ := hmem.1 hx
    obtain ⟨f, hf', rfl⟩ := List.mem_map.1 hx
    exact mem_unmatched.2 ⟨(hf.edge f hf').1, hnone⟩
  have heq : (p.flip fs).unmatched =
      p.unmatched \ ((fs.filter fun f => p.mate f.1 = none).map Prod.fst).toFinset := by
    ext x
    rw [Finset.mem_sdiff, hmem, mem_unmatched, mem_unmatched, flip_active]
    by_cases hx : x ∈ fs.map Prod.fst
    · obtain ⟨⟨x', v⟩, hf', rfl⟩ := List.mem_map.1 hx
      rw [flip_mate_of_mem hf.vars hf']
      exact ⟨fun h => (by cases h.2), fun h => absurd ⟨hx, h.1.2⟩ h.2⟩
    · rw [flip_mate_of_not_mem hx]
      exact ⟨fun h => ⟨h, fun h' => hx h'.1⟩, fun h => h.1⟩
  rw [heq, Finset.card_sdiff_of_subset hsub, hcard, List.length_map]
  have hle := Finset.card_le_card hsub
  rw [hcard, List.length_map] at hle
  omega

/-! ## Paths -/

/-- An alternating path from `root`, by its values and variables, the last ones first. -/
inductive Linked (p : Snapshot) (root : Nat) : List Nat → List Nat → Prop
  | root : Linked p root [root] []
  | cons {x v w : Nat} {vs xs : List Nat} : x ∈ p.active → v ∈ p.live x → p.mate x = some w →
      Linked p root (v :: vs) xs → Linked p root (w :: v :: vs) (x :: xs)

/-- The values are the mates of the variables, and the root. -/
theorem Linked.values_eq (h : Linked p root vs xs) :
    vs.map some = xs.map p.mate ++ [some root] := by
  induction h with
  | root => rfl
  | cons _ _ hmate _ ih =>
    rw [List.map_cons, ih, List.map_cons, hmate]
    rfl

theorem Linked.length_eq (h : Linked p root vs xs) : vs.length = xs.length + 1 := by
  have hlen := congrArg List.length h.values_eq
  rw [List.length_map, List.length_append, List.length_map] at hlen
  exact hlen

theorem Linked.edge (h : Linked p root vs xs) {y : Nat} (hy : y ∈ p.active)
    (hlive : ∀ v ∈ vs.head?, v ∈ p.live y) :
    ∀ f ∈ (y :: xs).zip vs, f.1 ∈ p.active ∧ f.2 ∈ p.live f.1 := by
  induction h generalizing y with
  | root =>
    intro f hf
    rw [List.zip_cons_cons, List.zip_nil_left, List.mem_singleton] at hf
    subst hf
    exact ⟨hy, hlive _ rfl⟩
  | cons hx hv hmate _ ih =>
    intro f hf
    rw [List.zip_cons_cons] at hf
    obtain rfl | hf := List.mem_cons.1 hf
    · exact ⟨hy, hlive _ rfl⟩
    · exact ih hx (fun u hu => by cases hu; exact hv) f hf

/-- A value of the path is the root or the mate of one of its variables. -/
theorem Linked.eq_or_mate (h : Linked p root vs xs) {u : Nat} (hu : u ∈ vs) :
    u = root ∨ ∃ x ∈ xs, p.mate x = some u := by
  have hmem : some u ∈ vs.map some := List.mem_map_of_mem hu
  rw [h.values_eq, List.mem_append, List.mem_map, List.mem_singleton] at hmem
  obtain hx | hroot := hmem
  · exact Or.inr hx
  · exact Or.inl (Option.some.inj hroot)

theorem Linked.mem_of_mate (h : Linked p root vs xs) {x u : Nat} (hx : x ∈ xs)
    (hu : p.mate x = some u) : u ∈ vs := by
  have hmem : some u ∈ vs.map some := by
    rw [h.values_eq]
    exact List.mem_append_left _ (List.mem_map.2 ⟨x, hx, hu⟩)
  obtain ⟨u', hu', heq⟩ := List.mem_map.1 hmem
  exact Option.some.inj heq ▸ hu'

theorem Linked.exists_mate (h : Linked p root vs xs) {x : Nat} (hx : x ∈ xs) :
    ∃ u ∈ vs, p.mate x = some u := by
  have hmem : p.mate x ∈ vs.map some := by
    rw [h.values_eq]
    exact List.mem_append_left _ (List.mem_map_of_mem hx)
  obtain ⟨u, hu, hmate⟩ := List.mem_map.1 hmem
  exact ⟨u, hu, hmate.symm⟩

/-- Who owns a value of the path is one of its variables. -/
theorem Linked.mem_of_owner (h : Linked p root vs xs) (hm : p.Matched) (hroot : p.owner root = none)
    {u z : Nat} (hu : u ∈ vs) (hz : p.owner u = some z) : z ∈ xs := by
  obtain rfl | ⟨x, hx, hxu⟩ := h.eq_or_mate hu
  · cases hroot.symm.trans hz
  · cases (hm.owner_of_mate x u hxu).symm.trans hz
    exact hx

theorem Linked.nodup (h : Linked p root vs xs) (hm : p.Matched) (hroot : p.owner root = none)
    (hxs : xs.Nodup) : vs.Nodup := by
  refine List.Nodup.of_map some ?_
  rw [h.values_eq, List.nodup_append]
  refine ⟨hxs.map_on fun x hx y hy heq => ?_, List.nodup_singleton _, fun a ha b hb heq => ?_⟩
  · obtain ⟨u, _, hu⟩ := h.exists_mate hx
    exact hm.mate_injective hu (heq ▸ hu)
  · subst heq
    obtain ⟨x, _, hx⟩ := List.mem_map.1 ha
    rw [List.mem_singleton.1 hb] at hx
    cases hroot.symm.trans (hm.owner_of_mate x root hx)

/-- The pairs of a path to a variable without a mate. -/
theorem Linked.flips (h : Linked p root (v :: vs) xs) (hm : p.Matched) (hroot : p.owner root = none)
    (hy : y ∈ p.active) (hlive : v ∈ p.live y) (hnone : p.mate y = none)
    (hnodup : (y :: xs).Nodup) : p.Flips ((y :: xs).zip (v :: vs)) := by
  have hlen : (y :: xs).length = (v :: vs).length := by
    rw [h.length_eq, List.length_cons]
  have hfst : ((y :: xs).zip (v :: vs)).map Prod.fst = y :: xs := List.map_fst_zip hlen.le
  have hsnd : ((y :: xs).zip (v :: vs)).map Prod.snd = v :: vs := List.map_snd_zip hlen.ge
  refine ⟨?_, ?_, h.edge hy fun u hu => by cases hu; exact hlive, fun f hf w hw => ?_,
    fun f hf z hz => ?_⟩
  · rw [hfst]
    exact hnodup
  · rw [hsnd]
    exact h.nodup hm hroot (List.nodup_cons.1 hnodup).2
  · rw [hsnd]
    obtain heq | hx := List.mem_cons.1 (List.of_mem_zip hf).1
    · cases hnone.symm.trans (heq ▸ hw)
    · exact h.mem_of_mate hx hw
  · rw [hfst]
    exact List.mem_cons_of_mem y (h.mem_of_owner hm hroot (List.of_mem_zip hf).2 hz)

/-- The last variable of a path is the only one without a mate. -/
theorem Linked.filter_unmatched (h : Linked p root (v :: vs) xs) (hnone : p.mate y = none) :
    (((y :: xs).zip (v :: vs)).filter fun f => p.mate f.1 = none) = [(y, v)] := by
  rw [List.zip_cons_cons, List.filter_cons, if_pos (decide_eq_true hnone), List.filter_eq_nil_iff.2]
  intro f hf hdec
  obtain ⟨u, _, hu⟩ := h.exists_mate (List.of_mem_zip hf).1
  cases hu.symm.trans (of_decide_eq_true hdec)

theorem Flips.reverse (hf : p.Flips fs) : p.Flips fs.reverse := by
  refine ⟨?_, ?_, fun f hf' => hf.edge f (List.mem_reverse.1 hf'), fun f hf' w hw => ?_,
    fun f hf' z hz => ?_⟩
  all_goals rw [List.map_reverse]
  · exact List.nodup_reverse.2 hf.vars
  · exact List.nodup_reverse.2 hf.values
  · exact List.mem_reverse.2 (hf.mate_mem f (List.mem_reverse.1 hf') w hw)
  · exact List.mem_reverse.2 (hf.owner_mem f (List.mem_reverse.1 hf') z hz)

/-- Pairs without a common variable or value can be matched together. -/
theorem Flips.append {gs : List (Nat × Nat)} (hf : p.Flips fs) (hg : p.Flips gs)
    (hvars : ∀ x ∈ gs.map Prod.fst, x ∉ fs.map Prod.fst)
    (hvalues : ∀ u ∈ gs.map Prod.snd, u ∉ fs.map Prod.snd) : p.Flips (fs ++ gs) := by
  refine ⟨?_, ?_, fun f hfg => (List.mem_append.1 hfg).elim (hf.edge f) (hg.edge f),
    fun f hfg w hw => ?_, fun f hfg z hz => ?_⟩
  all_goals rw [List.map_append]
  · exact List.nodup_append.2 ⟨hf.vars, hg.vars, fun a ha b hb heq => hvars b hb (heq ▸ ha)⟩
  · exact List.nodup_append.2 ⟨hf.values, hg.values, fun a ha b hb heq => hvalues b hb (heq ▸ ha)⟩
  · exact List.mem_append.2 ((List.mem_append.1 hfg).imp (fun hf' => hf.mate_mem f hf' w hw)
      fun hg' => hg.mate_mem f hg' w hw)
  · exact List.mem_append.2 ((List.mem_append.1 hfg).imp (fun hf' => hf.owner_mem f hf' z hz)
      fun hg' => hg.owner_mem f hg' z hz)

/-- A path to a variable without a mate is added to others with which it shares no variable. -/
theorem Flips.append_path (hf : p.Flips fs) (hm : p.Matched) (h : Linked p root (v :: vs) xs)
    (hroot : p.owner root = none) (hy : y ∈ p.active) (hlive : v ∈ p.live y)
    (hnone : p.mate y = none) (hnodup : (y :: xs).Nodup)
    (hnew : ∀ x ∈ y :: xs, x ∉ fs.map Prod.fst) (hfresh : root ∉ fs.map Prod.snd) :
    p.Flips (fs ++ ((y :: xs).reverse.zip (v :: vs).reverse)) ∧
      ((fs ++ ((y :: xs).reverse.zip (v :: vs).reverse)).filter fun f => p.mate f.1 = none).length =
        (fs.filter fun f => p.mate f.1 = none).length + 1 := by
  have hlen : (y :: xs).length = (v :: vs).length := by
    rw [h.length_eq, List.length_cons]
  have hzip : (y :: xs).reverse.zip (v :: vs).reverse = ((y :: xs).zip (v :: vs)).reverse :=
    (List.reverse_zipWith hlen).symm
  rw [hzip]
  constructor
  · refine hf.append (h.flips hm hroot hy hlive hnone hnodup).reverse (fun x hx => ?_)
      fun u hu hmem => ?_
    · rw [List.map_reverse, List.mem_reverse, List.map_fst_zip hlen.le] at hx
      exact hnew x hx
    · rw [List.map_reverse, List.mem_reverse, List.map_snd_zip hlen.ge] at hu
      obtain rfl | ⟨x, hx, hxu⟩ := h.eq_or_mate hu
      · exact hfresh hmem
      · obtain ⟨f, hf', rfl⟩ := List.mem_map.1 hmem
        exact hnew x (List.mem_cons_of_mem y hx)
          (hf.owner_mem f hf' x (hm.owner_of_mate x f.2 hxu))
  · rw [List.filter_append, List.length_append, List.filter_reverse, List.length_reverse,
      h.filter_unmatched hnone]
    rfl

end FiniteDomain.AllDifferent.Snapshot
