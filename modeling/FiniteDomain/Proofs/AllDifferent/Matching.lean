import FiniteDomain.AllDifferent.Matching
import FiniteDomain.Proofs.AllDifferent.Anchors
import FiniteDomain.Proofs.AllDifferent.Flips
import FiniteDomain.Proofs.AllDifferent.Marks

/-!
# Repairing the matching

* `Matcher.Closed` is the invariant of a round in which no path was found yet: the variables that
  were entered have mates, whose edges were all tried or are being tried.  A round that ends so has
  entered everything that is reached from a free value (`Closed.seen_of_reached`).
* `Matcher.Searching` is the invariant of the search for one path, and `PathSearch.run_eq` says what
  comes out of it.
* `Matcher.Round` is the invariant of a round: the paths found so far have no variable in common.
* `augment_eq` says that the matching is extended until it covers the active variables, unless none
  does.  It changes nothing but the matching, and no variable loses its mate (`Rematched`).
-/

namespace FiniteDomain.AllDifferent

open ValueGraph

/-- The matching of active variables was changed, and nothing else. -/
structure Rematched (g : ValueGraph) (s s' : Store) : Prop where
  step : Step g s g s'
  keeps : Snapshot.Keeps (g.snapshot (g.now s)) (g.snapshot (g.now s'))
  live_eq : (g.snapshot (g.now s')).live = (g.snapshot (g.now s)).live
  mates : Snapshot.Extends (g.snapshot (g.now s)) (g.snapshot (g.now s'))
  matched : (g.snapshot (g.now s')).Matched
  domain_eq : ∀ p, s'.domain p = s.domain p

namespace Rematched

variable {g : ValueGraph} {s s' s'' : Store}

theorem refl (h : g.Sound s) (hm : (g.snapshot (g.now s)).Matched) : Rematched g s s :=
  ⟨.refl h, .refl _, rfl, .refl _, hm, fun _ => rfl⟩

theorem trans (h : Rematched g s s') (h' : Rematched g s' s'') : Rematched g s s'' :=
  ⟨h.step.trans h'.step, h.keeps.trans h'.keeps, h'.live_eq.trans h.live_eq,
    h.mates.trans h'.mates h.keeps.active_eq, h'.matched,
    fun p => (h'.domain_eq p).trans (h.domain_eq p)⟩

theorem of_becomes {q : Snapshot} (hb : Becomes g s g s' q)
    (hk : Snapshot.Keeps (g.snapshot (g.now s)) q) (hl : q.live = (g.snapshot (g.now s)).live)
    (he : Snapshot.Extends (g.snapshot (g.now s)) q) (hm : q.Matched) : Rematched g s s' :=
  ⟨hb.toStep, by rw [hb.shows]; exact hk, by rw [hb.shows]; exact hl, by rw [hb.shows]; exact he,
    by rw [hb.shows]; exact hm, hb.domain_eq⟩

end Rematched

namespace Matcher

variable {g : ValueGraph} {s s' : Store} {k k' k'' : Matcher} {v w root : Nat} {stack : List Nat}

/-! ## What the rounds remember -/

/-- The arrays have the sizes of the graph. -/
structure Fit (k : Matcher) (g : ValueGraph) : Prop where
  seen : k.seen.Fit g.varTotal
  expanded : k.expanded.Fit g.valueTotal
  size_eq : k.nextEdge.size = g.valueTotal

/-- The place of the next edge of a value to try. -/
def next (k : Matcher) (v : Nat) : Nat := k.nextEdge.getD v 0

theorem Fit.congr {g' : ValueGraph} (h : k.Fit g) (ha : Alike g g') : k.Fit g' :=
  ⟨ha.varTotal_eq ▸ h.seen, ha.valueTotal_eq ▸ h.expanded, ha.valueTotal_eq ▸ h.size_eq⟩

theorem Fit.new (g : ValueGraph) : (new g.varTotal g.valueTotal).Fit g :=
  ⟨.blank _, .blank _, Array.size_replicate⟩

theorem Fit.beginRound (h : k.Fit g) : k.beginRound.Fit g :=
  ⟨h.seen.forget, h.expanded.forget, h.size_eq⟩

theorem Fit.fetch_next (h : k.Fit g) (hv : v < g.valueTotal) :
    fetch k.nextEdge v = .ok (k.next v) :=
  fetch_getD (h.size_eq ▸ hv) 0

/-- No variable without a mate was met so far: those that were entered have mates, and of the
expanded values only those on the stack have edges left to try. -/
structure Closed (g : ValueGraph) (s : Store) (k : Matcher) (stack : List Nat) : Prop where
  mated : ∀ y, k.seen.Has y →
    ∃ w, (g.snapshot (g.now s)).mate y = some w ∧ k.expanded.Has w
  tried : ∀ v, k.expanded.Has v → ∀ j < k.next v, j < count (g.now s) v →
    g.nth v j ∈ (g.snapshot (g.now s)).active → k.seen.Has (g.nth v j)
  done : ∀ v, k.expanded.Has v → v ∉ stack → count (g.now s) v ≤ k.next v

theorem Closed.beginRound (h : k.Fit g) : Closed g s k.beginRound [] :=
  ⟨fun _ hy => absurd hy h.seen.not_has_forget, fun _ hv => absurd hv h.expanded.not_has_forget,
    fun _ hv => absurd hv h.expanded.not_has_forget⟩

/-- What can take the value of a finished expansion was entered. -/
theorem Closed.seen_of_live (h : Closed g s k []) (hg : g.Sound s) {y : Nat}
    (hv : k.expanded.Has v) (hy : y ∈ (g.snapshot (g.now s)).active)
    (hlive : v ∈ (g.snapshot (g.now s)).live y) : k.seen.Has y := by
  have hvn := (lt_of_mem_live hg.layout hlive).2
  obtain ⟨j, hj, rfl⟩ := (mem_live_iff_nth hg.layout hg.intact hvn).1 hlive
  exact h.tried v hv j (Nat.lt_of_lt_of_le hj (h.done v hv List.not_mem_nil)) hj hy

/-- When all free values were expanded, everything that is reached was entered. -/
theorem Closed.seen_of_reached (h : Closed g s k []) (hg : g.Sound s)
    (hfree : ∀ v < g.valueTotal, (g.snapshot (g.now s)).owner v = none → 0 < count (g.now s) v →
      k.expanded.Has v) {y : Nat} (hy : (g.snapshot (g.now s)).Reached y) : k.seen.Has y := by
  induction hy with
  | free hy hlive hnone =>
    have hvn := (lt_of_mem_live hg.layout hlive).2
    obtain ⟨j, hj, _⟩ := (mem_live_iff_nth hg.layout hg.intact hvn).1 hlive
    exact h.seen_of_live hg (hfree _ hvn hnone (Nat.lt_of_le_of_lt (Nat.zero_le j) hj)) hy hlive
  | arc _ harc ih =>
    obtain ⟨_, hy, v, hmate, hlive⟩ := harc
    obtain ⟨w, hw, hexp⟩ := h.mated _ ih
    rw [hmate] at hw
    cases hw
    exact h.seen_of_live hg hexp hy hlive

/-! ## Expanding a value -/

/-- A value is on the path now. -/
structure Expanded (k : Matcher) (v : Nat) (k' : Matcher) : Prop where
  seen_eq : k'.seen = k.seen
  has : ∀ u, k'.expanded.Has u ↔ u = v ∨ k.expanded.Has u
  next_old : ∀ u, k.expanded.Has u → k'.next u = k.next u
  next_new : ¬ k.expanded.Has v → k'.next v = 0

theorem expand_eq (h : k.Fit g) (hv : v < g.valueTotal) :
    ∃ k', k.expand v = .ok k' ∧ k'.Fit g ∧ Expanded k v k' := by
  rw [expand, h.expanded.isMarked_eq hv, ok_bind]
  by_cases hhas : k.expanded.Has v
  · rw [if_pos (decide_eq_true hhas)]
    exact ⟨k, rfl, h, rfl, fun u => ⟨Or.inr, fun hor => hor.elim (fun heq => heq ▸ hhas) id⟩,
      fun _ _ => rfl, fun hnot => absurd hhas hnot⟩
  · rw [if_neg (by rw [decide_eq_false hhas]; exact fun heq => by cases heq)]
    refine ⟨_, rfl, ⟨h.seen, h.expanded.mark v, ?_⟩, rfl, fun u => h.expanded.has_mark hv,
      fun u hu => ?_, fun _ => ?_⟩
    · rw [Array.size_setIfInBounds, h.size_eq]
    · have hne : v ≠ u := fun heq => hhas (heq ▸ hu)
      rw [next, next, Array.getD_eq_getD_getElem?, Array.getElem?_setIfInBounds_ne hne,
        Array.getD_eq_getD_getElem?]
    · rw [next, Array.getD_eq_getD_getElem?, Array.getElem?_setIfInBounds, if_pos rfl,
        if_pos (by rw [h.size_eq]; exact hv)]
      rfl

/-- The part of the invariant of a round that is about the edges that were tried. -/
structure Tried (g : ValueGraph) (s : Store) (k : Matcher) (stack : List Nat) : Prop where
  tried : ∀ u, k.expanded.Has u → ∀ j < k.next u, j < count (g.now s) u →
    g.nth u j ∈ (g.snapshot (g.now s)).active → k.seen.Has (g.nth u j)
  done : ∀ u, k.expanded.Has u → u ∉ stack → count (g.now s) u ≤ k.next u

theorem Tried.expand (h : Tried g s k stack) (he : Expanded k v k') : Tried g s k' (v :: stack) := by
  refine ⟨fun u hu j hj hjc hya => ?_, fun u hu hnot => ?_⟩
  · rw [he.seen_eq]
    by_cases hold : k.expanded.Has u
    · rw [he.next_old u hold] at hj
      exact h.tried u hold j hj hjc hya
    · obtain rfl := ((he.has u).1 hu).resolve_right hold
      rw [he.next_new hold] at hj
      exact absurd hj (Nat.not_lt_zero j)
  · rw [List.mem_cons, not_or] at hnot
    have hold := ((he.has u).1 hu).resolve_left hnot.1
    rw [he.next_old u hold]
    exact h.done u hold hnot.2

theorem Closed.expand (h : Closed g s k stack) (he : Expanded k v k') :
    Closed g s k' (v :: stack) := by
  obtain ⟨htried, hdone⟩ := Tried.expand ⟨h.tried, h.done⟩ he
  refine ⟨fun y hy => ?_, htried, hdone⟩
  rw [he.seen_eq] at hy
  obtain ⟨w, hw, hexp⟩ := h.mated y hy
  exact ⟨w, hw, (he.has w).2 (Or.inr hexp)⟩

/-! ## The next variable -/

/-- The edges of the value `v` were tried up to the next variable `r`, or to the last one. -/
structure Advanced (g : ValueGraph) (s : Store) (v : Nat) (k : Matcher) (r : Option Nat)
    (k' : Matcher) : Prop where
  expanded_eq : k'.expanded = k.expanded
  next_other : ∀ u, u ≠ v → k'.next u = k.next u
  tried : ∀ j < k'.next v, k.next v ≤ j → g.nth v j ∈ (g.snapshot (g.now s)).active →
    k'.seen.Has (g.nth v j)
  none : r = none → k'.seen = k.seen ∧ count (g.now s) v ≤ k'.next v
  some : ∀ y, r = some y → y ∈ (g.snapshot (g.now s)).active ∧
    v ∈ (g.snapshot (g.now s)).live y ∧ ¬ k.seen.Has y ∧
    ∀ x, k'.seen.Has x ↔ x = y ∨ k.seen.Has x

theorem next_set (h : k.Fit g) (hv : v < g.valueTotal) (i u : Nat) :
    ({ k with nextEdge := k.nextEdge.setIfInBounds v i } : Matcher).next u =
      if u = v then i else k.next u := by
  rw [next, Array.getD_eq_getD_getElem?, Array.getElem?_setIfInBounds, h.size_eq]
  by_cases hu : v = u
  · rw [if_pos hu, if_pos (hu ▸ hv), if_pos hu.symm]
    rfl
  · rw [if_neg hu, if_neg (Ne.symm hu), next, Array.getD_eq_getD_getElem?]

/-- One more edge was tried, and led to nothing new. -/
theorem Advanced.skip (h : k.Fit g) (hv : v < g.valueTotal) {r : Option Nat}
    (hold : g.nth v (k.next v) ∈ (g.snapshot (g.now s)).active → k.seen.Has (g.nth v (k.next v)))
    (ha : Advanced g s v { k with nextEdge := k.nextEdge.setIfInBounds v (k.next v + 1) } r k')
    (hmono : ∀ x, k.seen.Has x → k'.seen.Has x) : Advanced g s v k r k' := by
  refine ⟨ha.expanded_eq, fun u hu => ?_, fun j hj hle hya => ?_, ha.none, ha.some⟩
  · rw [ha.next_other u hu, next_set h hv, if_neg hu]
  · by_cases heq : j = k.next v
    · subst heq
      exact hmono _ (hold hya)
    · refine ha.tried j hj ?_ hya
      rw [next_set h hv, if_pos rfl]
      omega

theorem Advanced.seen_mono {r : Option Nat} (ha : Advanced g s v k r k') {x : Nat}
    (hx : k.seen.Has x) : k'.seen.Has x := by
  cases r with
  | none =>
    rw [(ha.none rfl).1]
    exact hx
  | some y => exact ((ha.some y rfl).2.2.2 x).2 (Or.inr hx)

/-- The edges that are left are tried one after the other. -/
theorem nextVar_eq (hg : g.Sound s) (hv : v < g.valueTotal) (left : Nat) :
    ∀ {k : Matcher}, k.Fit g → left = count (g.now s) v - k.next v →
      ∃ r k', nextVar g s v left k = .ok (r, k') ∧ k'.Fit g ∧ Advanced g s v k r k' := by
  induction left with
  | zero =>
    intro k h hleft
    exact ⟨none, k, rfl, h, rfl, fun _ _ => rfl, fun j hj hle => absurd hle (Nat.not_le.2 hj),
      fun _ => ⟨rfl, by omega⟩, fun y hy => by cases hy⟩
  | succ left ih =>
    intro k h hleft
    have hlt : k.next v < count (g.now s) v := by omega
    have hy := nth_lt hg.layout hg.intact hv hlt
    have hlive := (mem_live_iff_nth hg.layout hg.intact hv).2 ⟨_, hlt, rfl⟩
    have hfit : ({ k with nextEdge := k.nextEdge.setIfInBounds v (k.next v + 1) } : Matcher).Fit
        g :=
      ⟨h.seen, h.expanded, by rw [Array.size_setIfInBounds, h.size_eq]⟩
    have hleft' : left = count (g.now s) v -
        ({ k with nextEdge := k.nextEdge.setIfInBounds v (k.next v + 1) } : Matcher).next v := by
      rw [next_set h hv, if_pos rfl]
      omega
    obtain ⟨r, k', hrest, hfit', ha⟩ := ih hfit hleft'
    rw [nextVar, h.fetch_next hv, ok_bind, hg.liveVar_eq hv hlt, ok_bind]
    dsimp only
    rw [h.seen.isMarked_eq hy, ok_bind]
    by_cases hseen : k.seen.Has (g.nth v (k.next v))
    · rw [if_pos (decide_eq_true hseen)]
      exact ⟨r, k', hrest, hfit', .skip h hv (fun _ => hseen) ha fun x hx => ha.seen_mono hx⟩
    · rw [if_neg (by rw [decide_eq_false hseen]; exact fun heq => by cases heq),
        hg.isActive_eq hy, ok_bind]
      by_cases hactive : g.nth v (k.next v) ∈ (g.snapshot (g.now s)).active
      · rw [if_pos (decide_eq_true hactive)]
        refine ⟨_, _, rfl, ⟨h.seen.mark _, h.expanded, hfit.size_eq⟩, rfl, fun u hu => ?_,
          fun j hj hle _ => ?_, fun heq => (by cases heq), fun y heq => ?_⟩
        · show ({ k with nextEdge := k.nextEdge.setIfInBounds v (k.next v + 1) } : Matcher).next u =
            k.next u
          rw [next_set h hv, if_neg hu]
        · have hj' : j < ({ k with nextEdge := k.nextEdge.setIfInBounds v (k.next v + 1) } :
              Matcher).next v := hj
          rw [next_set h hv, if_pos rfl] at hj'
          obtain rfl : j = k.next v := by omega
          exact (h.seen.has_mark hy).2 (Or.inl rfl)
        · cases heq
          exact ⟨hactive, hlive, hseen, fun x => h.seen.has_mark hy⟩
      · rw [if_neg (by rw [decide_eq_false hactive]; exact fun heq => by cases heq)]
        exact ⟨r, k', hrest, hfit', .skip h hv (fun hmem => absurd hmem hactive) ha
          fun x hx => ha.seen_mono hx⟩

/-- Edges were tried. -/
theorem Closed.advance {r : Option Nat} (h : Closed g s k (v :: stack))
    (ha : Advanced g s v k r k') : Tried g s k' (v :: stack) := by
  refine ⟨fun u hu j hj hjc hya => ?_, fun u hu hnot => ?_⟩
  · rw [ha.expanded_eq] at hu
    by_cases huv : u = v
    · subst huv
      by_cases hjn : j < k.next u
      · exact ha.seen_mono (h.tried u hu j hjn hjc hya)
      · exact ha.tried j hj (Nat.not_lt.1 hjn) hya
    · rw [ha.next_other u huv] at hj
      exact ha.seen_mono (h.tried u hu j hj hjc hya)
  · rw [ha.expanded_eq] at hu
    rw [ha.next_other u fun heq => hnot (List.mem_cons.2 (Or.inl heq))]
    exact h.done u hu hnot

/-- All edges of the value were tried, and it leaves the stack. -/
theorem Closed.pop (h : Closed g s k (v :: stack)) (ha : Advanced g s v k none k') :
    Closed g s k' stack := by
  obtain ⟨hseen, hdone⟩ := ha.none rfl
  obtain ⟨htried, hold⟩ := h.advance ha
  refine ⟨fun y hy => ?_, htried, fun u hu hnot => ?_⟩
  · rw [hseen] at hy
    rw [ha.expanded_eq]
    exact h.mated y hy
  · by_cases huv : u = v
    · exact huv ▸ hdone
    · exact hold u hu fun hmem => hnot ((List.mem_cons.1 hmem).resolve_left huv)

/-- A new variable was entered, and its mate is put on the stack, which makes the variable mated. -/
theorem Closed.push (h : Closed g s k (v :: stack)) {y w : Nat} {k'' : Matcher}
    (ha : Advanced g s v k (some y) k') (hmate : (g.snapshot (g.now s)).mate y = some w)
    (he : Expanded k' w k'') : Closed g s k'' (w :: v :: stack) := by
  obtain ⟨_, _, _, hseen⟩ := ha.some y rfl
  obtain ⟨htried, hdone⟩ := (h.advance ha).expand he
  refine ⟨fun x hx => ?_, htried, hdone⟩
  rw [he.seen_eq] at hx
  obtain rfl | hx := (hseen x).1 hx
  · exact ⟨w, hmate, (he.has w).2 (Or.inl rfl)⟩
  · obtain ⟨w', hw', hexp⟩ := h.mated x hx
    refine ⟨w', hw', (he.has w').2 (Or.inr ?_)⟩
    rw [ha.expanded_eq]
    exact hexp

/-! ## One path -/

/-- How many variables were entered. -/
def entered (k : Matcher) (g : ValueGraph) : Nat :=
  ((Finset.range g.varTotal).filter k.seen.Has).card

theorem entered_le (k : Matcher) (g : ValueGraph) : k.entered g ≤ g.varTotal := by
  refine Nat.le_trans (Finset.card_filter_le _ _) ?_
  rw [Finset.card_range]

theorem entered_lt {y : Nat} (hy : y < g.varTotal) (hnew : ¬ k.seen.Has y)
    (hseen : ∀ x, k'.seen.Has x ↔ x = y ∨ k.seen.Has x) : k.entered g < k'.entered g := by
  refine Finset.card_lt_card (Finset.ssubset_iff_subset_ne.2 ⟨fun x hx => ?_, fun heq => hnew ?_⟩)
  · obtain ⟨hx, hs⟩ := Finset.mem_filter.1 hx
    exact Finset.mem_filter.2 ⟨hx, (hseen x).2 (Or.inr hs)⟩
  · have hmem : y ∈ (Finset.range g.varTotal).filter k'.seen.Has :=
      Finset.mem_filter.2 ⟨Finset.mem_range.2 hy, (hseen y).2 (Or.inl rfl)⟩
    rw [← heq] at hmem
    exact (Finset.mem_filter.1 hmem).2

/-- A search that began with the matcher `k`. -/
structure Searching (g : ValueGraph) (s : Store) (root : Nat) (k : Matcher) (q : PathSearch) :
    Prop where
  fit : q.matcher.Fit g
  path : q.values = [] ∧ q.vars = [] ∨
    Snapshot.Linked (g.snapshot (g.now s)) root q.values q.vars
  values_lt : ∀ v ∈ q.values, v < g.valueTotal
  nodup : q.vars.Nodup
  seen : ∀ x ∈ q.vars, q.matcher.seen.Has x
  new : ∀ x ∈ q.vars, ¬ k.seen.Has x
  mono : ∀ x, k.seen.Has x → q.matcher.seen.Has x
  kept : ∀ u, k.expanded.Has u → q.matcher.expanded.Has u

/-- A path was found: the flips along it, and what the matcher is afterwards. -/
structure Found (g : ValueGraph) (s : Store) (root : Nat) (k : Matcher)
    (flips : List (Nat × Nat)) (k' : Matcher) : Prop where
  fit : k'.Fit g
  mono : ∀ x, k.seen.Has x → k'.seen.Has x
  path : ∃ y v vs xs, flips = (y :: xs).reverse.zip (v :: vs).reverse ∧
    Snapshot.Linked (g.snapshot (g.now s)) root (v :: vs) xs ∧
    y ∈ (g.snapshot (g.now s)).active ∧ v ∈ (g.snapshot (g.now s)).live y ∧
    (g.snapshot (g.now s)).mate y = none ∧ (y :: xs).Nodup ∧
    ∀ x ∈ y :: xs, k'.seen.Has x ∧ ¬ k.seen.Has x

/-- What a step comes to. -/
inductive Stepped (g : ValueGraph) (s : Store) (root : Nat) (k : Matcher) (q : PathSearch) :
    StepResult → Prop
  | found {flips : List (Nat × Nat)} {k' : Matcher} : Found g s root k flips k' →
      Stepped g s root k q (.found flips k')
  | exhausted : q.values = [] → Stepped g s root k q (.exhausted q.matcher)
  | goOn {q' : PathSearch} : Searching g s root k q' →
      2 * (g.varTotal - q'.matcher.entered g) + q'.values.length <
        2 * (g.varTotal - q.matcher.entered g) + q.values.length →
      (Closed g s q.matcher q.values → Closed g s q'.matcher q'.values) →
      Stepped g s root k q (.goOn q')

section

variable {matcher k'' : Matcher} {earlier vars : List Nat}

/-- The path that a search with a value on its stack has followed. -/
theorem Searching.linked (h : Searching g s root k ⟨matcher, v :: earlier, vars⟩) :
    Snapshot.Linked (g.snapshot (g.now s)) root (v :: earlier) vars :=
  h.path.resolve_left fun hempty => by cases hempty.1

/-- The search goes back from a value whose edges were all tried. -/
theorem Searching.pop (h : Searching g s root k ⟨matcher, v :: earlier, vars⟩)
    (hfit : k'.Fit g) (ha : Advanced g s v matcher none k') :
    Searching g s root k ⟨k', earlier, vars.tail⟩ := by
  have htail : ∀ x ∈ vars.tail, x ∈ vars := fun x hx => List.mem_of_mem_tail hx
  refine ⟨hfit, ?_, fun u hu => h.values_lt u (List.mem_cons_of_mem v hu),
    h.nodup.sublist (List.tail_sublist vars), fun x hx => ha.seen_mono (h.seen x (htail x hx)),
    fun x hx => h.new x (htail x hx), fun x hx => ha.seen_mono (h.mono x hx),
    fun u hu => by rw [ha.expanded_eq]; exact h.kept u hu⟩
  cases h.linked with
  | root => exact Or.inl ⟨rfl, rfl⟩
  | cons _ _ _ hrest => exact Or.inr hrest

/-- A new variable was entered, together with those of the path. -/
theorem Searching.entered_path {y : Nat}
    (h : Searching g s root k ⟨matcher, v :: earlier, vars⟩)
    (ha : Advanced g s v matcher (some y) k') :
    (y :: vars).Nodup ∧ ∀ x ∈ y :: vars, k'.seen.Has x ∧ ¬ k.seen.Has x := by
  obtain ⟨_, _, hnew, hseen⟩ := ha.some y rfl
  refine ⟨List.nodup_cons.2 ⟨fun hmem => hnew (h.seen y hmem), h.nodup⟩, fun x hx => ?_⟩
  obtain rfl | hx := List.mem_cons.1 hx
  · exact ⟨(hseen x).2 (Or.inl rfl), fun hx => hnew (h.mono x hx)⟩
  · exact ⟨ha.seen_mono (h.seen x hx), h.new x hx⟩

/-- The search goes on from the mate of a new variable. -/
theorem Searching.push {y w : Nat} (h : Searching g s root k ⟨matcher, v :: earlier, vars⟩)
    (ha : Advanced g s v matcher (some y) k') (hmate : (g.snapshot (g.now s)).mate y = some w)
    (hw : w < g.valueTotal) (hfit : k''.Fit g) (he : Expanded k' w k'') :
    Searching g s root k ⟨k'', w :: v :: earlier, y :: vars⟩ := by
  obtain ⟨hya, hlive, _, _⟩ := ha.some y rfl
  obtain ⟨hnodup, hmem⟩ := h.entered_path ha
  refine ⟨hfit, Or.inr (.cons hya hlive hmate h.linked), fun u hu => ?_, hnodup, fun x hx => ?_,
    fun x hx => (hmem x hx).2, fun x hx => ?_, fun u hu => ?_⟩
  · obtain rfl | hu := List.mem_cons.1 hu
    · exact hw
    · exact h.values_lt u hu
  · rw [he.seen_eq]
    exact (hmem x hx).1
  · rw [he.seen_eq]
    exact ha.seen_mono (h.mono x hx)
  · refine (he.has u).2 (Or.inr ?_)
    rw [ha.expanded_eq]
    exact h.kept u hu

end

/-- One step of a search. -/
theorem step_eq (hg : g.Sound s) {q : PathSearch} (h : Searching g s root k q) :
    ∃ r, q.step g s = .ok r ∧ Stepped g s root k q r := by
  obtain ⟨matcher, values, vars⟩ := q
  cases values with
  | nil => exact ⟨_, rfl, .exhausted rfl⟩
  | cons v earlier =>
    have hfit : matcher.Fit g := h.fit
    have hv := h.values_lt v (List.mem_cons_self ..)
    obtain ⟨r, k', hnext, hfit', ha⟩ := nextVar_eq hg hv _ hfit rfl
    rw [PathSearch.step]
    dsimp only
    rw [hg.liveCount_eq hv, ok_bind, hfit.fetch_next hv, ok_bind, hnext, ok_bind]
    cases r with
    | none =>
      refine ⟨_, rfl, .goOn (h.pop hfit' ha) ?_ fun hc => hc.pop ha⟩
      show 2 * (g.varTotal - k'.entered g) + earlier.length <
        2 * (g.varTotal - matcher.entered g) + (earlier.length + 1)
      rw [entered, (ha.none rfl).1]
      exact Nat.lt_succ_self _
    | some y =>
      obtain ⟨hya, hlive, hnew, hseen⟩ := ha.some y rfl
      obtain ⟨hyn, _⟩ := lt_of_mem_live hg.layout hlive
      obtain ⟨hnodup, hmem⟩ := h.entered_path ha
      dsimp only
      rw [hg.mate?_eq hyn, ok_bind]
      cases hmate : (g.snapshot (g.now s)).mate y with
      | none =>
        exact ⟨_, rfl, .found ⟨hfit', fun x hx => ha.seen_mono (h.mono x hx),
          y, v, earlier, vars, rfl, h.linked, hya, hlive, hmate, hnodup, hmem⟩⟩
      | some w =>
        have hw := (hg.intact.mate_lt hmate).2
        obtain ⟨k'', hexpand, hfit'', he⟩ := expand_eq hfit' hw
        dsimp only
        rw [hexpand, ok_bind]
        refine ⟨_, rfl, .goOn (h.push ha hmate hw hfit'' he) ?_ fun hc => hc.push ha hmate he⟩
        have hlt := entered_lt hyn hnew hseen
        have hle := entered_le k' g
        have heq : k''.entered g = k'.entered g := by rw [entered, entered, he.seen_eq]
        show 2 * (g.varTotal - k''.entered g) + (earlier.length + 1 + 1) <
          2 * (g.varTotal - matcher.entered g) + (earlier.length + 1)
        omega

/-- What the search for one path comes to. -/
structure Searched (g : ValueGraph) (s : Store) (root : Nat) (k : Matcher)
    (r : Option (List (Nat × Nat))) (k' : Matcher) : Prop where
  fit : k'.Fit g
  found : ∀ flips, r = some flips → Found g s root k flips k'
  mono : ∀ x, k.seen.Has x → k'.seen.Has x

/-- Every step enters a variable or takes a value back. -/
theorem run_eq (hg : g.Sound s) (fuel : Nat) :
    ∀ {q : PathSearch}, Searching g s root k q →
      2 * (g.varTotal - q.matcher.entered g) + q.values.length < fuel →
      ∃ r k', PathSearch.run g s fuel q = .ok (r, k') ∧ Searched g s root k r k' ∧
        (r = none → Closed g s q.matcher q.values → Closed g s k' [] ∧
          ∀ u, k.expanded.Has u → k'.expanded.Has u) := by
  induction fuel with
  | zero => exact fun _ hlt => absurd hlt (Nat.not_lt_zero _)
  | succ fuel ih =>
    intro q h hlt
    obtain ⟨r, hstep, hr⟩ := step_eq hg h
    rw [PathSearch.run, hstep, ok_bind]
    cases hr with
    | @found flips k' hf =>
      refine ⟨_, _, rfl, ⟨hf.fit, fun flips heq => ?_, hf.mono⟩, fun heq => by cases heq⟩
      cases heq
      exact hf
    | exhausted hnil =>
      refine ⟨_, _, rfl, ⟨h.fit, (fun flips heq => by cases heq), h.mono⟩, fun _ hc => ?_⟩
      rw [hnil] at hc
      exact ⟨hc, h.kept⟩
    | @goOn q' hq hless hclosed =>
      obtain ⟨r, k', hrun, hs, hc⟩ := ih hq (by omega)
      exact ⟨r, k', hrun, hs, fun hnone hcl => hc hnone (hclosed hcl)⟩

/-- A path is looked for from one value. -/
theorem findPath?_eq (hg : g.Sound s) (h : k.Fit g) (hroot : root < g.valueTotal) :
    ∃ r k', findPath? g s k root = .ok (r, k') ∧ Searched g s root k r k' ∧
      (r = none → Closed g s k [] → Closed g s k' [] ∧
        ∀ v, v = root ∨ k.expanded.Has v → k'.expanded.Has v) := by
  obtain ⟨k₁, hexpand, hfit, he⟩ := expand_eq h hroot
  have hsearch : Searching g s root k₁ ⟨k₁, [root], []⟩ := by
    refine ⟨hfit, Or.inr .root, fun v hv => ?_, List.nodup_nil, fun x hx => (by cases hx),
      fun x hx => (by cases hx), fun _ hx => hx, fun _ hu => hu⟩
    rw [List.mem_singleton.1 hv]
    exact hroot
  obtain ⟨r, k', hrun, hs, hclosed⟩ := run_eq hg (2 * g.varTotal + 3) hsearch (by
    show 2 * (g.varTotal - _) + 1 < _
    omega)
  refine ⟨r, k', ?_, ⟨hs.fit, fun flips hr => ?_, fun x hx => hs.mono x (he.seen_eq ▸ hx)⟩,
    fun hr hc => ?_⟩
  · rw [findPath?, hexpand, ok_bind, hrun]
  · have hf := hs.found flips hr
    refine ⟨hf.fit, fun x hx => hf.mono x (he.seen_eq ▸ hx), ?_⟩
    obtain ⟨y, v, vs, xs, hflips, hl, hy, hlive, hmate, hnodup, hmem⟩ := hf.path
    exact ⟨y, v, vs, xs, hflips, hl, hy, hlive, hmate, hnodup,
      fun x hx => ⟨(hmem x hx).1, he.seen_eq ▸ (hmem x hx).2⟩⟩
  · obtain ⟨hc', hkept⟩ := hclosed hr (hc.expand he)
    exact ⟨hc', fun v hv => hkept v ((he.has v).2 hv)⟩

/-! ## Rounds -/

/-- A round in which the values `rest` are still to be searched from. -/
structure Round (g : ValueGraph) (s : Store) (rest : List Nat) (found : Nat)
    (flips : List (Nat × Nat)) (k : Matcher) : Prop where
  fit : k.Fit g
  sound : (g.snapshot (g.now s)).Flips flips
  seen : ∀ x ∈ flips.map Prod.fst, k.seen.Has x
  roots : ∀ v ∈ flips.map Prod.snd, (g.snapshot (g.now s)).owner v = none → v ∉ rest
  length_eq : (flips.filter fun f => (g.snapshot (g.now s)).mate f.1 = none).length = found
  closed : found = 0 → Closed g s k [] ∧ ∀ v < g.valueTotal, v ∉ rest →
    (g.snapshot (g.now s)).owner v = none → 0 < count (g.now s) v → k.expanded.Has v

/-- Nothing was found yet. -/
theorem Round.begin (h : k.Fit g) : Round g s (List.range g.valueTotal) 0 [] k.beginRound := by
  refine ⟨h.beginRound, ⟨List.nodup_nil, List.nodup_nil, ?_, ?_, ?_⟩, ?_, ?_, rfl,
    fun _ => ⟨.beginRound h, fun v hv hnot => absurd (List.mem_range.2 hv) hnot⟩⟩
  · exact fun f hf => by cases hf
  · exact fun f hf => by cases hf
  · exact fun f hf => by cases hf
  · exact fun x hx => by cases hx
  · exact fun v hv => by cases hv

/-- A value from which no search is needed. -/
theorem Round.skip {rest : List Nat} {found : Nat} {flips : List (Nat × Nat)}
    (h : Round g s (v :: rest) found flips k)
    (hnot : ¬ ((g.snapshot (g.now s)).owner v = none ∧ 0 < count (g.now s) v)) :
    Round g s rest found flips k := by
  refine ⟨h.fit, h.sound, h.seen, fun u hu ho hmem => h.roots u hu ho (List.mem_cons_of_mem v hmem),
    h.length_eq, fun h0 => ⟨(h.closed h0).1, fun u hu hrest ho hpos => ?_⟩⟩
  refine (h.closed h0).2 u hu (fun hmem => ?_) ho hpos
  obtain rfl | hmem := List.mem_cons.1 hmem
  · exact hnot ⟨ho, hpos⟩
  · exact hrest hmem

/-- A search without success. -/
theorem Round.fail {rest : List Nat} {found : Nat} {flips : List (Nat × Nat)}
    (h : Round g s (v :: rest) found flips k) (hs : Searched g s v k none k')
    (hclosed : Closed g s k [] → Closed g s k' [] ∧
      ∀ u, u = v ∨ k.expanded.Has u → k'.expanded.Has u) : Round g s rest found flips k' := by
  refine ⟨hs.fit, h.sound, fun x hx => hs.mono x (h.seen x hx),
    fun u hu ho hmem => h.roots u hu ho (List.mem_cons_of_mem v hmem), h.length_eq, fun h0 => ?_⟩
  obtain ⟨hc, hfree⟩ := h.closed h0
  obtain ⟨hc', hexp⟩ := hclosed hc
  refine ⟨hc', fun u hu hrest ho hpos => hexp u ?_⟩
  by_cases huv : u = v
  · exact Or.inl huv
  · exact Or.inr (hfree u hu (fun hmem => hrest ((List.mem_cons.1 hmem).resolve_left huv)) ho hpos)

/-- A search with success. -/
theorem Round.succeed {rest : List Nat} {found : Nat} {flips path : List (Nat × Nat)}
    (h : Round g s (v :: rest) found flips k) (hm : (g.snapshot (g.now s)).Matched)
    (hv : v ∉ rest) (hfree : (g.snapshot (g.now s)).owner v = none)
    (hf : Found g s v k path k') : Round g s rest (found + 1) (flips ++ path) k' := by
  obtain ⟨y, u, us, xs, rfl, hl, hy, hlive, hmate, hnodup, hmem⟩ := hf.path
  have hnew : ∀ x ∈ y :: xs, x ∉ flips.map Prod.fst :=
    fun x hx hin => (hmem x hx).2 (h.seen x hin)
  have hfresh : v ∉ flips.map Prod.snd :=
    fun hin => h.roots v hin hfree (List.mem_cons_self ..)
  have hlen : (y :: xs).reverse.length = (u :: us).reverse.length := by
    rw [List.length_reverse, List.length_reverse, hl.length_eq, List.length_cons]
  obtain ⟨hflips, hcount⟩ :=
    h.sound.append_path hm hl hfree hy hlive hmate hnodup hnew hfresh
  refine ⟨hf.fit, hflips, fun x hx => ?_, fun w hw ho => ?_, ?_, fun h0 => by cases h0⟩
  · rw [List.map_append, List.mem_append, List.map_fst_zip hlen.le, List.mem_reverse] at hx
    obtain hx | hx := hx
    · exact hf.mono x (h.seen x hx)
    · exact (hmem x hx).1
  · rw [List.map_append, List.mem_append, List.map_snd_zip hlen.ge, List.mem_reverse] at hw
    obtain hw | hw := hw
    · exact fun hin => h.roots w hw ho (List.mem_cons_of_mem v hin)
    · obtain rfl | ⟨x, _, hx⟩ := hl.eq_or_mate hw
      · exact hv
      · rw [hm.owner_of_mate x w hx] at ho
        cases ho
  · rw [hcount, h.length_eq]

/-- Paths are looked for from several values. -/
theorem searchAll_eq (hg : g.Sound s) (hm : (g.snapshot (g.now s)).Matched) (wanted : Nat)
    (rest : List Nat) :
    ∀ {found : Nat} {flips : List (Nat × Nat)} {k : Matcher}, Round g s rest found flips k →
      rest.Nodup → (∀ v ∈ rest, v < g.valueTotal) →
      ∃ found' flips' k' rest', searchAll g s wanted rest found flips k = .ok (found', flips', k') ∧
        Round g s rest' found' flips' k' ∧ (rest' = [] ∨ found' = wanted) := by
  induction rest with
  | nil => exact fun h _ _ => ⟨_, _, _, [], rfl, h, Or.inl rfl⟩
  | cons v rest ih =>
    intro found flips k h hnodup hlt
    obtain ⟨hv, hnodup⟩ := List.nodup_cons.1 hnodup
    have hvn := hlt v (List.mem_cons_self ..)
    have hlt := fun u hu => hlt u (List.mem_cons_of_mem v hu)
    rw [searchAll]
    by_cases hwanted : found = wanted
    · rw [if_pos hwanted]
      exact ⟨_, _, _, _, rfl, h, Or.inr hwanted⟩
    · rw [if_neg hwanted, hg.isFree_eq hvn, ok_bind]
      by_cases hfree : (g.snapshot (g.now s)).owner v = none ∧ 0 < count (g.now s) v
      · obtain ⟨r, k', hfind, hs, hclosed⟩ := findPath?_eq hg h.fit hvn
        rw [if_pos (decide_eq_true hfree), hfind, ok_bind]
        cases r with
        | none => exact ih (h.fail hs (hclosed rfl)) hnodup hlt
        | some path => exact ih (h.succeed hm hv hfree.1 (hs.found path rfl)) hnodup hlt
      · rw [if_neg (by rw [decide_eq_false hfree]; exact fun heq => by cases heq)]
        exact ih (h.skip hfree) hnodup hlt

/-- The pairs are matched one after the other. -/
theorem applyFlips_eq (flips : List (Nat × Nat)) :
    ∀ {s : Store}, g.Sound s → (∀ f ∈ flips, f.1 < g.varTotal ∧ f.2 < g.valueTotal) →
      ∃ s', applyFlips g s flips = .ok s' ∧
        Becomes g s g s' ((g.snapshot (g.now s)).flip flips) := by
  induction flips with
  | nil => exact fun h _ => ⟨_, rfl, .refl h, rfl, fun _ => rfl⟩
  | cons f rest ih =>
    intro s h hlt
    obtain ⟨hx, hv⟩ := hlt f (List.mem_cons_self ..)
    obtain ⟨s₁, hassign, hb⟩ := assignMate_eq h hx hv
    obtain ⟨s₂, hrest, hb'⟩ := ih hb.sound fun f' hf' => hlt f' (List.mem_cons_of_mem f hf')
    refine ⟨s₂, ?_, hb.toStep.trans hb'.toStep, ?_,
      fun p => (hb'.domain_eq p).trans (hb.domain_eq p)⟩
    · rw [applyFlips, List.foldlM_cons]
      dsimp only
      rw [hassign, ok_bind]
      exact hrest
    · rw [hb'.shows, hb.shows]
      rfl

/-- The matching covers the active variables, or no path leads to one that has no mate. -/
def Settles (g : ValueGraph) (s : Store) : Outcome → Prop
  | .covered _ => (g.snapshot (g.now s)).Covered
  | .impossible => ∃ u ∈ (g.snapshot (g.now s)).active, (g.snapshot (g.now s)).mate u = none ∧
      ∀ y, (g.snapshot (g.now s)).Reached y → (g.snapshot (g.now s)).mate y ≠ none

/-- Each round but the last matches one more variable at least. -/
theorem rounds_eq (fuel : Nat) :
    ∀ {unmatched total : Nat} {k : Matcher} {s : Store}, g.Sound s →
      (g.snapshot (g.now s)).Matched → k.Fit g →
      (g.snapshot (g.now s)).unmatched.card = unmatched → unmatched ≤ fuel →
      ∃ outcome k' s', rounds g fuel unmatched total k s = .ok (outcome, k', s') ∧ k'.Fit g ∧
        Rematched g s s' ∧ Settles g s' outcome := by
  induction fuel with
  | zero =>
    intro unmatched total k s hg hm hk hcard hle
    obtain rfl : unmatched = 0 := by omega
    refine ⟨.covered total, k, s, by rw [rounds], hk, .refl hg hm, fun x hx => ?_⟩
    refine Option.ne_none_iff_exists'.1 fun hnone => ?_
    have hmem := Snapshot.mem_unmatched.2 ⟨hx, hnone⟩
    rw [Finset.card_eq_zero.1 hcard] at hmem
    exact Finset.notMem_empty x hmem
  | succ fuel ih =>
    intro unmatched total k s hg hm hk hcard hle
    cases unmatched with
    | zero =>
      refine ⟨.covered total, k, s, by rw [rounds], hk, .refl hg hm, fun x hx => ?_⟩
      refine Option.ne_none_iff_exists'.1 fun hnone => ?_
      have hmem := Snapshot.mem_unmatched.2 ⟨hx, hnone⟩
      rw [Finset.card_eq_zero.1 hcard] at hmem
      exact Finset.notMem_empty x hmem
    | succ unmatched =>
      obtain ⟨found, flips, k', rest, hsearch, hr, hend⟩ :=
        searchAll_eq hg hm (unmatched + 1) (List.range g.valueTotal) (.begin hk)
          List.nodup_range fun v hv => List.mem_range.1 hv
      rw [rounds, hsearch, ok_bind]
      dsimp only
      by_cases hfound : found = 0
      · rw [if_pos hfound]
        obtain rfl : rest = [] := hend.resolve_right fun heq => by omega
        obtain ⟨hc, hfree⟩ := hr.closed hfound
        obtain ⟨u, hu⟩ := Finset.card_pos.1 (by rw [hcard]; exact Nat.succ_pos unmatched)
        obtain ⟨hu, hnone⟩ := Snapshot.mem_unmatched.1 hu
        refine ⟨_, _, _, rfl, hr.fit, .refl hg hm, u, hu, hnone, fun y hy hy' => ?_⟩
        have hseen := hc.seen_of_reached hg
          (fun v hv ho hpos => hfree v hv List.not_mem_nil ho hpos) hy
        obtain ⟨w, hw, _⟩ := hc.mated y hseen
        rw [hy'] at hw
        cases hw
      · rw [if_neg hfound]
        obtain ⟨s₁, happly, hb⟩ := applyFlips_eq flips hg fun f hf => by
          have hlive := (hr.sound.edge f hf).2
          exact lt_of_mem_live hg.layout hlive
        have hre : Rematched g s s₁ :=
          .of_becomes hb hr.sound.keeps (Snapshot.flip_live ..) hr.sound.mates_extend
            (hm.flip hr.sound)
        have hcount := Snapshot.card_unmatched_flip hr.sound
        rw [hr.length_eq, hcard, ← hb.shows] at hcount
        obtain ⟨outcome, k'', s₂, hrounds, hk'', hre', hsettles⟩ :=
          @ih (unmatched + 1 - found) (total + found) _ _ hb.sound hre.matched hr.fit (by omega)
            (by omega)
        rw [happly, ok_bind]
        exact ⟨outcome, k'', s₂, hrounds, hk'', hre.trans hre', hsettles⟩

/-- The active variables without a mate are counted. -/
theorem unmatchedCount_eq (hg : g.Sound s) :
    unmatchedCount g s = .ok (g.snapshot (g.now s)).unmatched.card := by
  obtain ⟨ys, hys, hnodup, hmem⟩ := hg.activeVars_eq
  have hfilter : (ys.filterM fun x => do return (← g.mate? s x).isNone) =
      .ok (ys.filter fun x => decide ((g.snapshot (g.now s)).mate x = none)) := by
    refine filterM_eq_ok (g := fun x => decide ((g.snapshot (g.now s)).mate x = none))
      fun x hx => ?_
    rw [hg.mate?_eq (mem_active.1 ((hmem x).1 hx)).1, ok_bind, pure_eq_ok]
    congr 1
    cases (g.snapshot (g.now s)).mate x <;> rfl
  rw [unmatchedCount, hys, ok_bind, hfilter, ok_bind, pure_eq_ok, ← List.toFinset_card_of_nodup
    (hnodup.filter _)]
  congr 2
  ext x
  rw [List.mem_toFinset, List.mem_filter, hmem, Snapshot.mem_unmatched, decide_eq_true_iff]

/-- The matching is extended until it covers the active variables, unless none does. -/
theorem augment_eq (hg : g.Sound s) (hm : (g.snapshot (g.now s)).Matched) (hk : k.Fit g) :
    ∃ outcome k' s', augment g k s = .ok (outcome, k', s') ∧ k'.Fit g ∧ Rematched g s s' ∧
      Settles g s' outcome := by
  rw [augment, unmatchedCount_eq hg, ok_bind]
  exact rounds_eq _ hg hm hk rfl (Nat.le_refl _)

/-! ## The first matching -/

/-- A free value at the end of a live edge. -/
theorem firstFree_eq (hg : g.Sound s) {x : Nat} (es : List Nat)
    (hes : ∀ e ∈ es, e < g.edgeTotal ∧ g.tail e = x) :
    ∃ o, firstFree g s es = .ok o ∧ ∀ v, o = some v →
      v ∈ (g.snapshot (g.now s)).live x ∧ (g.snapshot (g.now s)).owner v = none := by
  induction es with
  | nil => exact ⟨none, rfl, fun v hv => by cases hv⟩
  | cons e rest ih =>
    obtain ⟨he, ht⟩ := hes e (List.mem_cons_self ..)
    have hv := hg.layout.head_lt e he
    have hrest := ih fun e' he' => hes e' (List.mem_cons_of_mem e he')
    rw [firstFree, hg.isLive_eq he, ok_bind]
    by_cases hlive : g.Live (g.now s) e
    · rw [if_pos (decide_eq_true hlive), hg.layout.fetch_edgeValue he, ok_bind, hg.owner?_eq hv,
        ok_bind]
      cases howner : (g.snapshot (g.now s)).owner (g.head e) with
      | none =>
        refine ⟨some (g.head e), rfl, fun v hv => ?_⟩
        cases hv
        exact ⟨mem_live.2 ⟨e, hlive, ht, rfl⟩, howner⟩
      | some z => exact hrest
    · rw [if_neg (by rw [decide_eq_false hlive]; exact fun heq => by cases heq)]
      exact hrest

/-- Free values are given to variables without a mate. -/
theorem greedyAll_eq (xs : List Nat) :
    ∀ {s : Store}, g.Sound s → (g.snapshot (g.now s)).Matched →
      (∀ x ∈ xs, x ∈ (g.snapshot (g.now s)).active) →
      ∃ s', greedyAll g xs s = .ok s' ∧ Rematched g s s' := by
  induction xs with
  | nil => exact fun hg hm _ => ⟨_, rfl, .refl hg hm⟩
  | cons x rest ih =>
    intro s hg hm hxs
    have hx := hxs x (List.mem_cons_self ..)
    have hxn := (mem_active.1 hx).1
    have hrest := fun y hy => hxs y (List.mem_cons_of_mem x hy)
    rw [greedyAll, hg.mate?_eq hxn, ok_bind]
    cases hmate : (g.snapshot (g.now s)).mate x with
    | some v => exact ih hg hm hrest
    | none =>
      obtain ⟨es, hes, _, hmem⟩ := edgesOf_eq hg.layout hxn
      obtain ⟨o, hfirst, ho⟩ := firstFree_eq hg es fun e he => (hmem e).1 he
      dsimp only
      rw [hes, ok_bind, hfirst, ok_bind]
      cases o with
      | none => exact ih hg hm hrest
      | some v =>
        obtain ⟨hlive, howner⟩ := ho v rfl
        obtain ⟨s₁, hassign, hb⟩ := assignMate_eq hg hxn (lt_of_mem_live hg.layout hlive).2
        have hre : Rematched g s s₁ := by
          refine .of_becomes hb ⟨rfl, fun _ => Finset.Subset.refl _, fun y u hy hu => ?_⟩ rfl
            (Snapshot.extends_assign hx v) (hm.assign hmate howner hlive)
          show Function.update (g.snapshot (g.now s)).mate x (some v) y = some u
          rw [Function.update_of_ne fun heq : y = x => hy (heq ▸ hx)]
          exact hu
        obtain ⟨s₂, hgreedy, hre'⟩ := ih hb.sound hre.matched fun y hy => by
          rw [hre.keeps.active_eq]
          exact hrest y hy
        dsimp only
        rw [hassign, ok_bind]
        exact ⟨s₂, hgreedy, hre.trans hre'⟩

theorem greedy_eq (hg : g.Sound s) (hm : (g.snapshot (g.now s)).Matched) :
    ∃ s', greedy g s = .ok s' ∧ Rematched g s s' := by
  obtain ⟨ys, hys, _, hmem⟩ := hg.activeVars_eq
  rw [greedy, hys, ok_bind]
  exact greedyAll_eq ys hg hm fun x hx => (hmem x).1 hx

end Matcher

end FiniteDomain.AllDifferent
