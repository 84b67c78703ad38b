import FiniteDomain.AllDifferent.Components
import FiniteDomain.Proofs.Loops
import FiniteDomain.Proofs.AllDifferent.Reading
import FiniteDomain.Proofs.AllDifferent.DepthFirst

/-!
# The tags of the variables describe the components

* `Tagging.Sound` is what holds of a tagging beside a value graph: arrays that fit, and cells of its
  own.  `Tagging.walk` reads it as a moment of the abstract search.
* `step_eq` says that each step is a move of that search, and `searchAll_eq` that all variables are
  tagged in the end, so that two of them have the same tag exactly when each leads to the other.
* `tagAll_eq` and `tagTouched_eq` say what the tags tell about the components of the snapshot.
-/

namespace FiniteDomain.AllDifferent

open Relation

namespace Tagging

variable {g : ValueGraph} {c c' c'' : Tagging} {s s' s'' : Store} {x y k counter : Nat}
  {M : Nat → Prop} {first : Nat} {old : Nat → Int}

/-! ## The representation -/

/-- The tag that a frame holds for a variable. -/
def tagIn (c : Tagging) (w : Frame) (x : Nat) : Int :=
  match c.tags[x]? with
  | some d => w.get d
  | none => 0

/-- The tag of a variable now. -/
def tagNow (c : Tagging) (s : Store) : Nat → Int := c.tagIn s.trail.now

/-- The region of a variable. -/
def regionOf (c : Tagging) (x : Nat) : Int := c.region.getD x outside

/-- The moment of the search. -/
def walk (c : Tagging) (s : Store) (counter : Nat) : Walk where
  index x := c.index.getD x none
  low x := c.lowlink.getD x 0
  stack := c.stack
  calls := c.calls
  tag := c.tagNow s
  nextTag := c.nextTag
  counter := counter

/-- Arrays for `n` variables, one of which marks the variables on the stack. -/
structure Fit (c : Tagging) (n : Nat) : Prop where
  size_tags : c.tags.size = n
  size_index : c.index.size = n
  size_lowlink : c.lowlink.size = n
  size_onStack : c.onStack.size = n
  size_region : c.region.size = n
  onStack_eq : ∀ x < n, c.onStack.getD x false = decide (x ∈ c.stack)

/-- The cells of the tags are distinct, and keep nothing else. -/
structure Wired (c : Tagging) (s : Store) : Prop where
  distinct : ∀ (x y : Nat) d, c.tags[x]? = some d → c.tags[y]? = some d → x = y
  has : ∀ d ∈ c.tags, s.trail.now.Has d
  free : ∀ d ∈ c.tags, s.Free d

/-- What holds of a tagging beside a graph. -/
structure Sound (g : ValueGraph) (c : Tagging) (s : Store) : Prop where
  graph : g.Sound s
  fit : c.Fit g.varTotal
  wired : c.Wired s
  apart : ∀ d, g.Owns d → d ∉ c.tags

/-- Nothing but tags and the working memory has changed. -/
structure Moved (c : Tagging) (s : Store) (c' : Tagging) (s' : Store) : Prop where
  evolves : Store.Evolves (· ∈ c.tags) s s'
  domain_eq : ∀ p, s'.domain p = s.domain p
  tags_eq : c'.tags = c.tags
  region_eq : c'.region = c.region

theorem Moved.trans (h : Moved c s c' s') (h' : Moved c' s' c'' s'') : Moved c s c'' s'' :=
  ⟨h.evolves.trans (h.tags_eq ▸ h'.evolves), fun p => (h'.domain_eq p).trans (h.domain_eq p),
    h'.tags_eq.trans h.tags_eq, h'.region_eq.trans h.region_eq⟩

/-- Changes of the working memory. -/
theorem Moved.memory (h : s.Sound) (htags : c'.tags = c.tags) (hregion : c'.region = c.region) :
    Moved c s c' s :=
  ⟨.refl _ h, fun _ => rfl, htags, hregion⟩

theorem Wired.of_evolves {C : Cell → Prop} (h : c.Wired s) (he : Store.Evolves C s s')
    (htags : c'.tags = c.tags) : c'.Wired s' := by
  refine ⟨?_, ?_, ?_⟩
  all_goals rw [htags]
  · exact h.distinct
  · exact fun d hd => he.has (h.has d hd)
  · exact fun d hd => he.free (h.free d hd)

/-- The graph is not concerned. -/
theorem Sound.of_moved (h : Sound g c s) (hm : Moved c s c' s') (hfit : c'.Fit g.varTotal) :
    Sound g c' s' ∧ g.now s' = g.now s := by
  obtain ⟨hg, hnow⟩ := h.graph.of_evolves hm.evolves h.apart
  exact ⟨⟨hg, hfit, h.wired.of_evolves hm.evolves hm.tags_eq, hm.tags_eq ▸ h.apart⟩, hnow⟩

theorem Fit.lt_of_index (h : c.Fit k) (hx : c.index.getD x none ≠ none) : x < k := by
  rw [← h.size_index]
  by_contra hge
  rw [Array.getD_eq_getD_getElem?, Array.getElem?_eq_none_iff.2 (Nat.le_of_not_lt hge)] at hx
  exact hx rfl

/-- The tag of a variable is read. -/
theorem tag_eq (h : c.Wired s) (hx : x < c.tags.size) : c.tag s x = .ok (c.tagNow s x) := by
  have hget := Array.getElem?_eq_getElem hx
  rw [tag, fetch_eq_ok_iff.2 hget, ok_bind, Store.read,
    Trail.read_eq (h.has _ (Array.getElem_mem hx)), tagNow, tagIn, hget]

/-- A tag is written. -/
theorem write_tag (hs : s.Sound) (h : c.Wired s) (hx : x < c.tags.size) (v : Int) :
    ∃ d s', fetch c.tags x = .ok d ∧ s.write d v = .ok s' ∧ Moved c s c s' ∧
      c.tagNow s' = Function.update (c.tagNow s) x v := by
  have hget := Array.getElem?_eq_getElem hx
  have hmem := Array.getElem_mem hx
  obtain ⟨s', hwrite, hwrote⟩ := Store.write_eq hs (h.has _ hmem) (h.free _ hmem) v
  refine ⟨c.tags[x], s', fetch_eq_ok_iff.2 hget, hwrite,
    ⟨hwrote.toEvolves.mono fun d hd => hd ▸ hmem, hwrote.domain_eq, rfl, rfl⟩, ?_⟩
  funext y
  rw [tagNow, tagNow, hwrote.now_eq, Function.update_apply, tagIn, tagIn]
  cases hy : c.tags[y]? with
  | none =>
    rw [if_neg]
    rintro rfl
    rw [hget] at hy
    cases hy
  | some d =>
    dsimp only
    rw [Frame.get_put (h.has _ hmem)]
    by_cases hyx : y = x
    · subst hyx
      rw [if_pos (Option.some.inj (hy.symm.trans hget)), if_pos rfl]
    · rw [if_neg hyx, if_neg]
      rintro rfl
      exact hyx (h.distinct _ _ _ hy hget)

/-! ## The arcs of a graph -/

/-- The arcs from a variable lead to those that may take its mate, within its region. -/
def arena (g : ValueGraph) (ρ : Registers) (region : Nat → Int) : Arena where
  degree x := match (g.snapshot ρ).mate x with
    | none => 0
    | some v => ValueGraph.count ρ v
  target x k := match (g.snapshot ρ).mate x with
    | none => 0
    | some v => g.nth v k
  inside x y := y != x && region y == region x

/-! ## Changes of the working memory -/

theorem walk_enter {n : Nat} (h : c.Fit n) (hx : x < n) :
    (c.enter x counter).walk s (counter + 1) = (c.walk s counter).enter x := by
  have hindex := getD_setIfInBounds (by rw [h.size_index]; exact hx) (some counter) none
  have hlow := getD_setIfInBounds (by rw [h.size_lowlink]; exact hx) counter 0
  exact Walk.ext hindex hlow rfl rfl rfl rfl rfl

theorem walk_lower {n i : Nat} (h : c.Fit n) (hx : x < n) :
    (c.lower x i).walk s counter = (c.walk s counter).lower x i := by
  have hlow := getD_modify (by rw [h.size_lowlink]; exact hx) (min · i) 0
  exact Walk.ext rfl hlow rfl rfl rfl rfl rfl

theorem Fit.enter {n : Nat} (h : c.Fit n) (hx : x < n) : (c.enter x counter).Fit n := by
  refine ⟨h.size_tags, ?_, ?_, ?_, h.size_region, fun y hy => ?_⟩
  · exact (Array.size_setIfInBounds ..).trans h.size_index
  · exact (Array.size_setIfInBounds ..).trans h.size_lowlink
  · exact (Array.size_setIfInBounds ..).trans h.size_onStack
  · have hon := congrFun (getD_setIfInBounds (by rw [h.size_onStack]; exact hx) true false) y
    refine hon.trans ?_
    rw [Function.update_apply]
    by_cases hyx : y = x
    · rw [if_pos hyx, decide_eq_true (hyx ▸ List.mem_cons_self ..)]
    · rw [if_neg hyx, h.onStack_eq y hy, decide_eq_decide]
      exact ⟨List.mem_cons_of_mem _, fun hm => (List.mem_cons.1 hm).resolve_left hyx⟩

theorem Fit.lower {n i : Nat} (h : c.Fit n) : (c.lower x i).Fit n :=
  ⟨h.size_tags, h.size_index, (Array.size_modify ..).trans h.size_lowlink, h.size_onStack,
    h.size_region, h.onStack_eq⟩

theorem Fit.resume {n : Nat} (h : c.Fit n) (calls : List (Nat × Nat)) :
    ({ c with calls := calls } : Tagging).Fit n :=
  ⟨h.size_tags, h.size_index, h.size_lowlink, h.size_onStack, h.size_region, h.onStack_eq⟩

/-! ## One step -/

/-- The variables down to the root are tagged and leave the stack. -/
theorem closeStack_eq {n root : Nat} {tag : Int} {rest : List Nat} (top : List Nat) :
    ∀ {c : Tagging} {s : Store}, s.Sound → c.Wired s → c.tags.size = n → c.onStack.size = n →
      (∀ y ∈ top ++ [root], y < n) → root ∉ top →
      ∃ onStack s', closeStack root tag (top ++ root :: rest) c s =
          .ok ({ c with onStack := onStack, stack := rest }, s') ∧ onStack.size = n ∧
        (∀ x, onStack.getD x false = (decide (x ∉ top ++ [root]) && c.onStack.getD x false)) ∧
        Moved c s c s' ∧
        c.tagNow s' = fun y => if y ∈ top ++ [root] then tag else c.tagNow s y := by
  induction top with
  | nil =>
    intro c s hs hw htags hon hlt _
    have hroot : root < n := hlt root (List.mem_cons_self ..)
    obtain ⟨d, s', hfetch, hwrite, hm, htag⟩ := write_tag hs hw (by rw [htags]; exact hroot) tag
    refine ⟨c.onStack.setIfInBounds root false, s', ?_, ?_, fun x => ?_, hm, ?_⟩
    · rw [List.nil_append, closeStack, hfetch, ok_bind, hwrite, ok_bind, if_pos rfl, pure_eq_ok]
    · rw [Array.size_setIfInBounds, hon]
    · refine (congrFun (getD_setIfInBounds (by rw [hon]; exact hroot) false false) x).trans ?_
      have hmem : x ∈ [] ++ [root] ↔ x = root := List.mem_singleton
      rw [Function.update_apply]
      by_cases hx : x = root
      · rw [if_pos hx, decide_eq_false (not_not.2 (hmem.2 hx)), Bool.false_and]
      · rw [if_neg hx, decide_eq_true (mt hmem.1 hx), Bool.true_and]
    · funext y
      rw [htag, Function.update_apply, List.nil_append]
      simp only [List.mem_singleton]
  | cons z top ih =>
    intro c s hs hw htags hon hlt hnot
    have hz : z < n := hlt z (List.mem_cons_self ..)
    have hne : z ≠ root := fun heq => hnot (heq ▸ List.mem_cons_self ..)
    obtain ⟨d, s₁, hfetch, hwrite, hm, htag⟩ := write_tag hs hw (by rw [htags]; exact hz) tag
    have hw₁ : ({ c with onStack := c.onStack.setIfInBounds z false } : Tagging).Wired s₁ :=
      hw.of_evolves hm.evolves rfl
    obtain ⟨onStack, s', hclose, hsize, hon', hm', htag'⟩ := ih hm.evolves.sound hw₁ htags
      ((Array.size_setIfInBounds ..).trans hon)
      (fun y hy => hlt y (List.mem_cons_of_mem _ hy))
      fun hmem => hnot (List.mem_cons_of_mem _ hmem)
    refine ⟨onStack, s', ?_, hsize, fun x => ?_, hm.trans ⟨hm'.evolves, hm'.domain_eq, rfl, rfl⟩, ?_⟩
    · rw [List.cons_append, closeStack, hfetch, ok_bind, hwrite, ok_bind, if_neg hne, hclose]
    · have hold := congrFun (getD_setIfInBounds (by rw [hon]; exact hz) false false) x
      rw [hon' x]
      refine (congrArg _ hold).trans ?_
      have hmem : x ∈ z :: top ++ [root] ↔ x = z ∨ x ∈ top ++ [root] := List.mem_cons
      rw [Function.update_apply]
      by_cases hx : x = z
      · rw [if_pos hx, Bool.and_false, decide_eq_false (not_not.2 (hmem.2 (Or.inl hx))),
          Bool.false_and]
      · rw [if_neg hx]
        congr 1
        rw [decide_eq_decide, hmem, not_or]
        exact ⟨fun hnot => ⟨hx, hnot⟩, And.right⟩
    · funext y
      refine (congrFun htag' y).trans ?_
      show (if y ∈ top ++ [root] then tag else c.tagNow s₁ y) = _
      rw [htag, Function.update_apply, List.cons_append]
      simp only [List.mem_cons]
      by_cases hy : y ∈ top ++ [root]
      · rw [if_pos hy, if_pos (Or.inr hy)]
      · by_cases hyz : y = z
        · rw [if_neg hy, if_pos hyz, if_pos (Or.inl hyz)]
        · rw [if_neg hy, if_neg hyz, if_neg (not_or.2 ⟨hyz, hy⟩)]

variable {A : Arena} {calls : List (Nat × Nat)}

/-- The variable that is being searched. -/
theorem lt_of_call {n : Nat} (hfit : c.Fit n) (hgood : (c.walk s counter).Good A M first old)
    (hcalls : c.calls = (x, k) :: calls) :
    x < n ∧ x ∈ c.stack := by
  have hx : x ∈ c.stack :=
    hgood.ordered.mem_stack ((Walk.mem_open_iff (w := c.walk s counter) hcalls).2 (Or.inl rfl))
  exact ⟨hfit.lt_of_index (hgood.ordered.met x hx), hx⟩

/-- A variable is left, once what it leads back to was passed on. -/
theorem finish_eq {n : Nat} (hs : s.Sound) (hw : c.Wired s)
    (hgood : (c.walk s counter).Good A M first old) (hcalls : c.calls = (x, k) :: calls)
    (hk : A.degree x ≤ k) (hfit : c.Fit n) {c₁ : Tagging} (hfit₁ : c₁.Fit n)
    (hwalk : c₁.walk s counter = (c.walk s counter).pop x calls) (htags : c₁.tags = c.tags)
    (hregion : c₁.region = c.region) :
    ∃ c' s', (do
        if some (c.lowlink.getD x 0) = (← fetch c₁.index x) then
          c₁.closeComponent s x
        else
          return (c₁, s) : Except Fault (Tagging × Store)) = .ok (c', s') ∧
      Walk.Next A (c.walk s counter) (c'.walk s' counter) ∧ Moved c s c' s' ∧ c'.Fit n := by
  obtain ⟨hx, hxs⟩ := lt_of_call hfit hgood hcalls
  have hindex : c₁.index.getD x none = (c.walk s counter).index x := by
    have := congrFun (congrArg Walk.index hwalk) x
    rw [Walk.pop_index] at this
    exact this
  have hstack₁ : c₁.stack = c.stack := by
    have := congrArg Walk.stack hwalk
    rw [Walk.pop_stack] at this
    exact this
  rw [fetch_getD (by rw [hfit₁.size_index]; exact hx) none, ok_bind, hindex]
  by_cases hclose : (c.walk s counter).index x = some (c.lowlink.getD x 0)
  · obtain ⟨top, rest, hstack, hnot⟩ := List.eq_append_cons_of_mem hxs
    obtain ⟨hpart, hrest⟩ := hgood.ordered.mem_part hstack
    have hlt : ∀ y ∈ top ++ [x], y < n := fun y hy =>
      hfit.lt_of_index (hgood.ordered.met y ((hpart y).1 hy).1)
    have hw₁ : ({ c₁ with nextTag := c₁.nextTag + 1 } : Tagging).Wired s :=
      hw.of_evolves (.refl (· ∈ c.tags) hs) htags
    obtain ⟨onStack, s', hrun, hsize, hon, hm, htag⟩ := @closeStack_eq n x c₁.nextTag rest top _ _ hs
      hw₁ hfit₁.size_tags hfit₁.size_onStack hlt hnot
    rw [← hstack₁.trans hstack] at hrun
    refine ⟨{ c₁ with nextTag := c₁.nextTag + 1, onStack := onStack, stack := rest }, s', ?_, ?_,
      ⟨?_, hm.domain_eq, htags, hregion⟩, hfit₁.size_tags, hfit₁.size_index, hfit₁.size_lowlink,
      hsize, hfit₁.size_region, fun y hy => ?_⟩
    · rw [if_pos hclose.symm, closeComponent]
      exact hrun
    · have hwalk' :
          Tagging.walk { c₁ with nextTag := c₁.nextTag + 1, onStack := onStack, stack := rest } s'
            counter = (c₁.walk s counter).close (top ++ [x]) rest :=
        Walk.ext rfl rfl rfl rfl htag rfl rfl
      rw [hwalk', hwalk]
      exact .close hcalls hk hclose hstack hnot
    · exact hm.evolves.mono fun d hd => htags ▸ hd
    · refine (hon y).trans ?_
      show (decide (y ∉ top ++ [x]) && c₁.onStack.getD y false) = decide (y ∈ rest)
      rw [hfit₁.onStack_eq y hy, hstack₁, ← Bool.decide_and, decide_eq_decide, hpart, hrest]
      constructor
      · rintro ⟨hnot, hmem⟩
        exact ⟨hmem, Nat.lt_of_not_le fun hle => hnot ⟨hmem, hle⟩⟩
      · rintro ⟨hmem, hlt⟩
        exact ⟨fun hand => absurd hlt (Nat.not_lt.2 hand.2), hmem⟩
  · refine ⟨c₁, s, ?_, ?_, .memory hs htags hregion, hfit₁⟩
    · rw [if_neg (Ne.symm hclose)]
      rfl
    · rw [hwalk]
      exact .keep hcalls hk hclose

/-- The variable whose arcs are all followed is left. -/
theorem leave_eq {n : Nat} (hs : s.Sound) (hw : c.Wired s)
    (hgood : (c.walk s counter).Good A M first old) (hcalls : c.calls = (x, k) :: calls)
    (hk : A.degree x ≤ k) (hfit : c.Fit n) :
    ∃ c' s', c.leave s x calls = .ok (c', s') ∧
      Walk.Next A (c.walk s counter) (c'.walk s' counter) ∧ Moved c s c' s' ∧ c'.Fit n := by
  obtain ⟨hx, _⟩ := lt_of_call hfit hgood hcalls
  rw [leave, fetch_getD (by rw [hfit.size_lowlink]; exact hx) 0, ok_bind]
  cases calls with
  | nil => exact finish_eq hs hw hgood hcalls hk hfit (hfit.resume []) rfl rfl rfl
  | cons call calls =>
    obtain ⟨parent, l⟩ := call
    have hparent : parent < n := by
      have hmem : parent ∈ (c.walk s counter).open_ :=
        (Walk.mem_open_iff (w := c.walk s counter) hcalls).2 (Or.inr (List.mem_cons_self ..))
      exact hfit.lt_of_index (hgood.ordered.met parent (hgood.ordered.mem_stack hmem))
    have hfit' := hfit.resume ((parent, l) :: calls)
    exact finish_eq hs hw hgood hcalls hk hfit hfit'.lower (walk_lower hfit' hparent) rfl rfl

/-- An arc is followed. -/
theorem followArc_eq {n : Nat} (hs : s.Sound) (hgood : (c.walk s counter).Good A M first old)
    (hcalls : c.calls = (x, k) :: calls) (hk : k < A.degree x) (hfit : c.Fit n)
    (hy : A.target x k < n)
    (hin : A.inside x (A.target x k) = (A.target x k != x &&
      c.regionOf (A.target x k) == c.regionOf x)) :
    ∃ counter' c', followArc { c with calls := (x, k + 1) :: calls } counter x (A.target x k) =
        .ok (counter', c') ∧
      Walk.Next A (c.walk s counter) (c'.walk s counter') ∧ Moved c s c' s ∧ c'.Fit n := by
  obtain ⟨hx, _⟩ := lt_of_call hfit hgood hcalls
  have hfit' := hfit.resume ((x, k + 1) :: calls)
  have hskip : A.inside x (A.target x k) = false →
      Walk.Next A (c.walk s counter)
        (({ c with calls := (x, k + 1) :: calls } : Tagging).walk s counter) :=
    fun hfalse => .skip hcalls hk hfalse
  rw [followArc]
  by_cases hself : A.target x k = x
  · rw [if_pos hself]
    refine ⟨counter, _, rfl, hskip ?_, .memory hs rfl rfl, hfit'⟩
    rw [hin, hself, bne_self_eq_false, Bool.false_and]
  · rw [if_neg hself, fetch_getD (by rw [hfit'.size_region]; exact hy) outside, ok_bind,
      fetch_getD (by rw [hfit'.size_region]; exact hx) outside, ok_bind]
    by_cases hregion : c.regionOf (A.target x k) = c.regionOf x
    · have hinside : A.inside x (A.target x k) = true := by
        rw [hin, bne_iff_ne.2 hself, Bool.true_and, beq_iff_eq]
        exact hregion
      dsimp only
      rw [← regionOf, ← regionOf, if_neg (by rw [bne_iff_ne, not_not]; exact hregion),
        fetch_getD (by rw [hfit.size_index]; exact hy) none, ok_bind]
      cases hindex : c.index.getD (A.target x k) none with
      | none =>
        refine ⟨counter + 1, _, rfl, ?_, .memory hs rfl rfl, hfit'.enter hy⟩
        rw [walk_enter hfit' hy]
        exact .enter hcalls hk hinside hindex
      | some i =>
        dsimp only
        rw [fetch_getD (by rw [hfit.size_onStack]; exact hy) false, ok_bind, hfit.onStack_eq _ hy]
        by_cases hon : A.target x k ∈ c.stack
        · rw [if_pos (decide_eq_true hon)]
          refine ⟨counter, _, rfl, ?_, .memory hs rfl rfl, hfit'.lower⟩
          rw [walk_lower hfit' hx]
          exact .see hcalls hk hinside hindex hon
        · rw [if_neg (by rw [decide_eq_true_iff]; exact hon)]
          exact ⟨counter, _, rfl, .pass hcalls hk hindex hon, .memory hs rfl rfl, hfit'⟩
    · dsimp only
      rw [← regionOf, ← regionOf, if_pos (bne_iff_ne.2 hregion)]
      refine ⟨counter, _, rfl, hskip ?_, .memory hs rfl rfl, hfit'⟩
      rw [hin, beq_eq_false_iff_ne.2 hregion, Bool.and_false]

theorem arena_degree {ρ : Registers} {region : Nat → Int} :
    (arena g ρ region).degree x = match (g.snapshot ρ).mate x with
      | none => 0
      | some v => ValueGraph.count ρ v := rfl

theorem arena_degree_le (hl : g.Layout) {ρ : Registers} (hi : g.Intact ρ) (region : Nat → Int)
    (x : Nat) : (arena g ρ region).degree x ≤ g.edgeTotal := by
  rw [arena_degree]
  cases hmate : (g.snapshot ρ).mate x with
  | none => exact Nat.zero_le _
  | some v =>
    have := hi.count_le hl (hi.mate_lt hmate).2
    dsimp only
    omega

/-- Each step is a move of the search, unless nothing is being searched. -/
theorem step_eq (h : Sound g c s)
    (hgood : (c.walk s counter).Good (arena g (g.now s) c.regionOf) M first old) :
    (c.calls = [] ∧ step g counter c s = .ok none) ∨
      ∃ counter' c' s', step g counter c s = .ok (some (counter', c', s')) ∧
        Walk.Next (arena g (g.now s) c.regionOf) (c.walk s counter) (c'.walk s' counter') ∧
        Moved c s c' s' ∧ Sound g c' s' ∧ g.now s' = g.now s := by
  have hwrap : ∀ {counter' c' s'}, Moved c s c' s' → c'.Fit g.varTotal →
      step g counter c s = .ok (some (counter', c', s')) →
      Walk.Next (arena g (g.now s) c.regionOf) (c.walk s counter) (c'.walk s' counter') →
      ∃ counter' c' s', step g counter c s = .ok (some (counter', c', s')) ∧
        Walk.Next (arena g (g.now s) c.regionOf) (c.walk s counter) (c'.walk s' counter') ∧
        Moved c s c' s' ∧ Sound g c' s' ∧ g.now s' = g.now s := by
    intro counter' c' s' hm hfit hstep hnext
    obtain ⟨hsound, hnow⟩ := h.of_moved hm hfit
    exact ⟨counter', c', s', hstep, hnext, hm, hsound, hnow⟩
  cases hcalls : c.calls with
  | nil =>
    refine Or.inl ⟨rfl, ?_⟩
    rw [step, hcalls]
    rfl
  | cons call calls =>
    obtain ⟨x, k⟩ := call
    obtain ⟨hx, _⟩ := lt_of_call h.fit hgood hcalls
    refine Or.inr ?_
    have hmate := h.graph.mate?_eq hx
    cases hv : (g.snapshot (g.now s)).mate x with
    | none =>
      have hdegree : (arena g (g.now s) c.regionOf).degree x = 0 := by rw [arena_degree, hv]
      obtain ⟨c', s', hleave, hnext, hm, hfit⟩ := leave_eq h.graph.store h.wired hgood hcalls
        (by rw [hdegree]; exact Nat.zero_le _) h.fit
      refine hwrap hm hfit ?_ hnext
      rw [step, hcalls]
      dsimp only
      rw [hmate, ok_bind, hv]
      dsimp only
      rw [hleave, ok_bind, pure_eq_ok]
    | some v =>
      have hvn := (h.graph.intact.mate_lt hv).2
      have hdegree : (arena g (g.now s) c.regionOf).degree x = ValueGraph.count (g.now s) v := by
        rw [arena_degree, hv]
      have htarget : (arena g (g.now s) c.regionOf).target x k = g.nth v k := by
        rw [arena]
        dsimp only
        rw [hv]
      by_cases hk : k < ValueGraph.count (g.now s) v
      · obtain ⟨counter', c', hfollow, hnext, hm, hfit⟩ := followArc_eq h.graph.store hgood hcalls
          (by rw [hdegree]; exact hk) h.fit
          (by rw [htarget]; exact ValueGraph.nth_lt h.graph.layout h.graph.intact hvn hk) rfl
        refine hwrap hm hfit ?_ hnext
        rw [htarget] at hfollow
        rw [step, hcalls]
        dsimp only
        rw [hmate, ok_bind, hv]
        dsimp only
        rw [h.graph.liveCount_eq hvn, ok_bind, if_pos hk, h.graph.liveVar_eq hvn hk, ok_bind,
          hfollow, ok_bind, pure_eq_ok]
      · obtain ⟨c', s', hleave, hnext, hm, hfit⟩ := leave_eq h.graph.store h.wired hgood hcalls
          (by rw [hdegree]; exact Nat.le_of_not_lt hk) h.fit
        refine hwrap hm hfit ?_ hnext
        rw [step, hcalls]
        dsimp only
        rw [hmate, ok_bind, hv]
        dsimp only
        rw [h.graph.liveCount_eq hvn, ok_bind, if_neg hk, hleave, ok_bind, pure_eq_ok]

/-! ## The whole search -/

/-- The members of the regions are variables. -/
structure Inhabited (g : ValueGraph) (c : Tagging) (M : Nat → Prop) : Prop where
  lt : ∀ x, M x → x < g.varTotal
  iff : ∀ x, M x ↔ c.regionOf x ≠ outside

theorem Inhabited.inside {ρ : Registers} (h : Inhabited g c M) (x y : Nat) (hx : M x)
    (hin : (arena g ρ c.regionOf).inside x y) : M y := by
  have hin' : (y != x && c.regionOf y == c.regionOf x) = true := hin
  rw [Bool.and_eq_true, beq_iff_eq] at hin'
  rw [h.iff, hin'.2]
  exact (h.iff x).1 hx

/-- The variable was met by the search. -/
def Met (c : Tagging) (x : Nat) : Prop := c.index.getD x none ≠ none

/-- What holds of the search that began with `c` and `s` when it is at `c'` and `s'`. -/
structure Underway (g : ValueGraph) (c : Tagging) (s : Store) (M : Nat → Prop) (first : Nat)
    (old : Nat → Int) (counter : Nat) (c' : Tagging) (s' : Store) : Prop where
  moved : Moved c s c' s'
  sound : Sound g c' s'
  now_eq : g.now s' = g.now s
  good : (c'.walk s' counter).Good (arena g (g.now s) c.regionOf) M first old

/-- Each step leads on, and leaves less work, unless nothing is being searched. -/
theorem Underway.step_eq (hM : Inhabited g c M) (h : Underway g c s M first old counter c' s') :
    (c'.calls = [] ∧ step g counter c' s' = .ok none) ∨
      ∃ counter₁ c₁ s₁, step g counter c' s' = .ok (some (counter₁, c₁, s₁)) ∧
        Underway g c s M first old counter₁ c₁ s₁ ∧ (∀ x, c'.Met x → c₁.Met x) ∧
        (c₁.walk s₁ counter₁).work g.varTotal g.edgeTotal <
          (c'.walk s' counter).work g.varTotal g.edgeTotal := by
  have hregion : c'.regionOf = c.regionOf := by
    funext x
    rw [regionOf, regionOf, h.moved.region_eq]
  have hgood := h.good
  rw [← h.now_eq, ← hregion] at hgood
  refine (Tagging.step_eq h.sound hgood).imp_right ?_
  rintro ⟨counter₁, c₁, s₁, hstep, hnext, hm₁, hs₁, hnow₁⟩
  rw [h.now_eq, hregion] at hnext
  have hin := fun x y => hM.inside (ρ := g.now s) x y
  have hlt := hnext.work_lt (n := g.varTotal) (E := g.edgeTotal)
    (fun x k hcall hinside => hM.lt _ (hin _ _ (h.good.ordered.home x
      (h.good.ordered.met x (h.good.ordered.mem_stack (Walk.mem_open hcall)))) hinside))
    (arena_degree_le h.sound.graph.layout (h.now_eq ▸ h.sound.graph.intact) _)
    h.good.ordered.cursor_le
  exact ⟨counter₁, c₁, s₁, hstep, ⟨h.moved.trans hm₁, hs₁, hnow₁.trans h.now_eq,
    h.good.next hin hnext⟩, fun _ hx => hnext.index_ne_none hx, hlt⟩

/-- A search from a variable that was not met yet begins with enough fuel. -/
theorem Underway.enter (hM : Inhabited g c M) (h : Underway g c s M first old counter c' s')
    (hcalls : c'.calls = []) (hx : M x) (hnew : c'.index.getD x none = none) :
    Underway g c s M first old (counter + 1) (c'.enter x counter) s' ∧
      (∀ y, (c'.enter x counter).Met y ↔ y = x ∨ c'.Met y) ∧
      ((c'.enter x counter).walk s' (counter + 1)).work g.varTotal g.edgeTotal < searchFuel g := by
  have hlt := hM.lt x hx
  have hwalk : (c'.enter x counter).walk s' (counter + 1) = (c'.walk s' counter).enter x :=
    walk_enter h.sound.fit hlt
  have hm : Moved c' s' (c'.enter x counter) s' := .memory h.sound.graph.store rfl rfl
  obtain ⟨hs, _⟩ := h.sound.of_moved hm (h.sound.fit.enter hlt)
  refine ⟨⟨h.moved.trans hm, hs, h.now_eq, ?_⟩, fun y => ?_, ?_⟩
  · rw [hwalk]
    refine h.good.enter hnew hx fun d hd => ?_
    have hopen : d ∈ c'.calls.map Prod.fst := hd
    rw [hcalls] at hopen
    cases hopen
  · have hindex := congrFun (congrArg Walk.index hwalk) y
    show ((c'.enter x counter).walk s' (counter + 1)).index y ≠ none ↔ _
    rw [hindex]
    show Function.update (c'.walk s' counter).index x _ y ≠ none ↔ _
    by_cases hyx : y = x
    · rw [hyx, Function.update_self]
      exact ⟨fun _ => Or.inl rfl, fun _ => nofun⟩
    · rw [Function.update_of_ne hyx]
      exact (or_iff_right hyx).symm
  · have hunmet := Walk.unmet_enter (w := c'.walk s' counter) hnew hlt
    rw [← hwalk] at hunmet
    have hle : Walk.unmet g.varTotal (c'.walk s' counter) ≤ g.varTotal :=
      (Finset.card_filter_le _ _).trans_eq (Finset.card_range _)
    have hcalls₁ : ((c'.enter x counter).walk s' (counter + 1)).calls = [(x, 0)] :=
      congrArg ((x, 0) :: ·) hcalls
    have hmul := Nat.mul_le_mul_right (g.edgeTotal + 2) (hunmet ▸ hle)
    rw [Nat.add_mul] at hmul
    rw [Walk.work, hcalls₁, searchFuel, List.map_singleton, List.sum_singleton]
    omega

/-- The search ends when nothing is being searched. -/
theorem search_eq (hM : Inhabited g c M) (fuel : Nat) :
    ∀ {c' s' counter}, Underway g c s M first old counter c' s' →
      (c'.walk s' counter).work g.varTotal g.edgeTotal < fuel →
      ∃ counter'' c'' s'', search g fuel counter c' s' = .ok (counter'', c'', s'') ∧
        Underway g c s M first old counter'' c'' s'' ∧ c''.calls = [] ∧
        ∀ x, c'.Met x → c''.Met x := by
  induction fuel with
  | zero => exact fun _ hlt => absurd hlt (Nat.not_lt_zero _)
  | succ fuel ih =>
    intro c' s' counter hu hwork
    obtain ⟨hcalls, hstep⟩ | ⟨counter₁, c₁, s₁, hstep, hu₁, hmet₁, hlt⟩ := hu.step_eq hM
    · refine ⟨counter, c', s', ?_, hu, hcalls, fun _ hx => hx⟩
      rw [search, hstep, ok_bind]
      rfl
    · obtain ⟨counter₂, c₂, s₂, hrun, hu₂, hcalls₂, hmet₂⟩ := ih hu₁ (by omega)
      refine ⟨counter₂, c₂, s₂, ?_, hu₂, hcalls₂, fun x hx => hmet₂ x (hmet₁ x hx)⟩
      rw [search, hstep, ok_bind]
      exact hrun

/-- All variables of the list are met in the end. -/
theorem searchAll_eq (hM : Inhabited g c M) (roots : List Nat) :
    ∀ {c' s' counter}, (∀ x ∈ roots, M x) → Underway g c s M first old counter c' s' →
      c'.calls = [] →
      ∃ counter'' c'' s'', searchAll g roots counter c' s' = .ok (c'', s'') ∧
        Underway g c s M first old counter'' c'' s'' ∧ c''.calls = [] ∧
        (∀ x, c'.Met x → c''.Met x) ∧ ∀ x ∈ roots, c''.Met x := by
  induction roots with
  | nil =>
    intro c' s' counter _ hu hcalls
    exact ⟨counter, c', s', rfl, hu, hcalls, fun _ hx => hx,
      fun x hx => absurd hx List.not_mem_nil⟩
  | cons root rest ih =>
    intro c' s' counter hroots hu hcalls
    obtain ⟨hroot, hrest⟩ := List.forall_mem_cons.1 hroots
    rw [searchAll, fetch_getD (by rw [hu.sound.fit.size_index]; exact hM.lt root hroot) none, ok_bind]
    cases hindex : c'.index.getD root none with
    | some i =>
      have hself : c'.Met root := fun heq => nomatch hindex.symm.trans heq
      obtain ⟨counter₂, c₂, s₂, hrun, hu₂, hcalls₂, hmet, hall⟩ := ih hrest hu hcalls
      exact ⟨counter₂, c₂, s₂, hrun, hu₂, hcalls₂, hmet,
        List.forall_mem_cons.2 ⟨hmet root hself, hall⟩⟩
    | none =>
      obtain ⟨hu₁, hmet₁, hwork⟩ := hu.enter hM hcalls hroot hindex
      obtain ⟨counter₂, c₂, s₂, hsearch, hu₂, hcalls₂, hmet₂⟩ :=
        search_eq hM (searchFuel g) hu₁ hwork
      obtain ⟨counter₃, c₃, s₃, hrun, hu₃, hcalls₃, hmet₃, hall₃⟩ := ih hrest hu₂ hcalls₂
      have hkept : ∀ x, x = root ∨ c'.Met x → c₃.Met x :=
        fun x hx => hmet₃ x (hmet₂ x ((hmet₁ x).2 hx))
      refine ⟨counter₃, c₃, s₃, ?_, hu₃, hcalls₃, fun x hx => hkept x (Or.inr hx),
        List.forall_mem_cons.2 ⟨hkept root (Or.inl rfl), hall₃⟩⟩
      dsimp only
      rw [hsearch, ok_bind]
      exact hrun

/-! ## Regions -/

/-- Between two passes nothing is met, searched or in a region. -/
structure Idle (c : Tagging) : Prop where
  index : ∀ x, c.index.getD x none = none
  stack : c.stack = []
  calls : c.calls = []
  region : ∀ x, c.regionOf x = outside

/-- Only regions and meetings differ. -/
structure Replaced (c c' : Tagging) : Prop where
  tags_eq : c'.tags = c.tags
  nextTag_eq : c'.nextTag = c.nextTag
  stack_eq : c'.stack = c.stack
  calls_eq : c'.calls = c.calls

theorem Replaced.trans (h : Replaced c c') (h' : Replaced c' c'') : Replaced c c'' :=
  ⟨h'.tags_eq.trans h.tags_eq, h'.nextTag_eq.trans h.nextTag_eq, h'.stack_eq.trans h.stack_eq,
    h'.calls_eq.trans h.calls_eq⟩

theorem Replaced.tagNow_eq (h : Replaced c c') (s : Store) : c'.tagNow s = c.tagNow s := by
  funext x
  rw [tagNow, tagNow, tagIn, tagIn, h.tags_eq]

theorem Replaced.sound (h : Replaced c c') (hs : Sound g c s) (hfit : c'.Fit g.varTotal) :
    Sound g c' s :=
  ⟨hs.graph, hfit, hs.wired.of_evolves (.refl (· ∈ c.tags) hs.graph.store) h.tags_eq,
    h.tags_eq ▸ hs.apart⟩

theorem ite_mem_cons {α : Type} {rest : List Nat} {a b d : α} (hb : x = y → b = a) :
    (if x ∈ rest then a else if x = y then b else d) = if x ∈ y :: rest then a else d := by
  by_cases hxr : x ∈ rest
  · rw [if_pos hxr, if_pos (List.mem_cons_of_mem _ hxr)]
  · by_cases hxy : x = y
    · rw [if_neg hxr, if_pos hxy, if_pos (hxy ▸ List.mem_cons_self ..), hb hxy]
    · rw [if_neg hxr, if_neg hxy, if_neg fun hmem => (List.mem_cons.1 hmem).elim hxy hxr]

/-- Several variables are put into regions. -/
theorem foldl_assign {n : Nat} (f : Nat → Int) (members : List Nat) :
    ∀ {c : Tagging}, c.Fit n → (∀ x ∈ members, x < n) →
      (members.foldl (fun c x => c.assign x (f x)) c).Fit n ∧
      Replaced c (members.foldl (fun c x => c.assign x (f x)) c) ∧
      (members.foldl (fun c x => c.assign x (f x)) c).index = c.index ∧
      ∀ x, (members.foldl (fun c x => c.assign x (f x)) c).regionOf x =
        if x ∈ members then f x else c.regionOf x := by
  induction members with
  | nil => exact fun h _ => ⟨h, ⟨rfl, rfl, rfl, rfl⟩, rfl, fun x => (if_neg List.not_mem_nil).symm⟩
  | cons y rest ih =>
    intro c h hlt
    have hy : y < n := hlt y (List.mem_cons_self ..)
    obtain ⟨hfit, hrep, hindex, hregion⟩ := ih (c := c.assign y (f y))
      ⟨h.size_tags, h.size_index, h.size_lowlink, h.size_onStack,
        (Array.size_setIfInBounds ..).trans h.size_region, h.onStack_eq⟩
      fun x hx => hlt x (List.mem_cons_of_mem _ hx)
    have hrep₁ : Replaced c (c.assign y (f y)) := ⟨rfl, rfl, rfl, rfl⟩
    refine ⟨hfit, hrep₁.trans hrep, hindex, fun x => ?_⟩
    have hself : (c.assign y (f y)).regionOf x = if x = y then f y else c.regionOf x := by
      refine (congrFun (getD_setIfInBounds (by rw [h.size_region]; exact hy) (f y) outside) x).trans
        ?_
      rw [Function.update_apply]
      rfl
    rw [List.foldl_cons, hregion, hself]
    exact ite_mem_cons fun heq => congrArg f heq.symm

/-- Several variables are forgotten. -/
theorem foldl_forget {n : Nat} (members : List Nat) :
    ∀ {c : Tagging}, c.Fit n → (∀ x ∈ members, x < n) →
      (members.foldl forget c).Fit n ∧ Replaced c (members.foldl forget c) ∧
      (∀ x, (members.foldl forget c).index.getD x none =
        if x ∈ members then none else c.index.getD x none) ∧
      ∀ x, (members.foldl forget c).regionOf x =
        if x ∈ members then outside else c.regionOf x := by
  induction members with
  | nil =>
    exact fun h _ => ⟨h, ⟨rfl, rfl, rfl, rfl⟩, fun x => (if_neg List.not_mem_nil).symm,
      fun x => (if_neg List.not_mem_nil).symm⟩
  | cons y rest ih =>
    intro c h hlt
    have hy : y < n := hlt y (List.mem_cons_self ..)
    obtain ⟨hfit, hrep, hindex, hregion⟩ := ih (c := c.forget y)
      ⟨h.size_tags, (Array.size_setIfInBounds ..).trans h.size_index, h.size_lowlink,
        h.size_onStack, (Array.size_setIfInBounds ..).trans h.size_region, h.onStack_eq⟩
      fun x hx => hlt x (List.mem_cons_of_mem _ hx)
    have hrep₁ : Replaced c (c.forget y) := ⟨rfl, rfl, rfl, rfl⟩
    have hi : ∀ x, (c.forget y).index.getD x none = if x = y then none else c.index.getD x none := by
      intro x
      refine (congrFun (getD_setIfInBounds (by rw [h.size_index]; exact hy) none none) x).trans ?_
      rw [Function.update_apply]
    have hr : ∀ x, (c.forget y).regionOf x = if x = y then outside else c.regionOf x := by
      intro x
      refine (congrFun (getD_setIfInBounds (by rw [h.size_region]; exact hy) outside outside)
        x).trans ?_
      rw [Function.update_apply]
      rfl
    refine ⟨hfit, hrep₁.trans hrep, fun x => ?_, fun x => ?_⟩
    · rw [List.foldl_cons, hindex, hi]
      exact ite_mem_cons fun _ => rfl
    · rw [List.foldl_cons, hregion, hr]
      exact ite_mem_cons fun _ => rfl

/-! ## Tagging the members of regions -/

/-- What several variables that are tagged from scratch end up with. -/
structure Retagged (g : ValueGraph) (c : Tagging) (s : Store) (members : List Nat) (c' : Tagging)
    (s' : Store) : Prop where
  sound : Sound g c' s'
  now_eq : g.now s' = g.now s
  evolves : Store.Evolves (· ∈ c.tags) s s'
  domain_eq : ∀ p, s'.domain p = s.domain p
  tags_eq : c'.tags = c.tags
  idle : c'.Idle
  nextTag_le : c.nextTag ≤ c'.nextTag
  range : ∀ x ∈ members, (c.nextTag : Int) ≤ c'.tagNow s' x ∧ c'.tagNow s' x < c'.nextTag
  same : ∀ x ∈ members, ∀ y ∈ members,
    c'.tagNow s' x = c'.tagNow s' y ↔ (arena g (g.now s) c.regionOf).Mutual x y
  other : ∀ x, x ∉ members → c'.tagNow s' x = c.tagNow s x

/-- Before the search, the members are in the regions that `f` says, and the other variables are in
none. -/
structure Placed (g : ValueGraph) (c : Tagging) (s : Store) (f : Nat → Int) (members : List Nat)
    (c' : Tagging) : Prop where
  sound : Sound g c' s
  replaced : Replaced c c'
  index : ∀ x, c'.index.getD x none = none
  stack : c'.stack = []
  calls : c'.calls = []
  inhabited : Inhabited g c' (· ∈ members)
  region : ∀ x, c'.regionOf x = if x ∈ members then f x else outside

theorem Placed.retag_eq {c₀ : Tagging} {f : Nat → Int} {members : List Nat}
    (h : Placed g c₀ s f members c) :
    ∃ c' s', retag g members c s = .ok (c', s') ∧ Retagged g c s members c' s' := by
  have hstart : Underway g c s (· ∈ members) c.nextTag (c.tagNow s) 0 c s :=
    ⟨.memory h.sound.graph.store rfl rfl, h.sound, rfl,
      Walk.good_start (w := c.walk s 0) h.index h.stack h.calls⟩
  obtain ⟨counter, c₁, s₁, hrun, ⟨hm, hs₁, hnow, hgood⟩, hcalls₁, _, hall⟩ :=
    searchAll_eq h.inhabited members (fun _ hx => hx) hstart h.calls
  obtain ⟨hfit, hrep, hindex₁, hregion₁⟩ := foldl_forget members hs₁.fit h.inhabited.lt
  have hstack₁ : c₁.stack = [] := hgood.stack_eq_nil hcalls₁
  have hclosed : ∀ x, (c₁.walk s₁ counter).Closed x ↔ x ∈ members := by
    intro x
    refine ⟨fun hx => hgood.ordered.home x hx.1, fun hx => ⟨hall x hx, fun hmem => ?_⟩⟩
    have hmem' : x ∈ c₁.stack := hmem
    rw [hstack₁] at hmem'
    cases hmem'
  have htag := hrep.tagNow_eq s₁
  refine ⟨_, s₁, ?_, hrep.sound hs₁ hfit, hnow, hm.evolves, hm.domain_eq,
    hrep.tags_eq.trans hm.tags_eq, ⟨fun x => ?_, hrep.stack_eq.trans hstack₁,
      hrep.calls_eq.trans hcalls₁, fun x => ?_⟩, ?_, fun x hx => ?_, fun x hx y hy => ?_,
    fun x hx => ?_⟩
  · rw [retag, hrun, ok_bind]
    rfl
  · rw [hindex₁]
    split
    · rfl
    · rename_i hx
      by_contra hne
      exact hx (hgood.ordered.home x hne)
  · rw [hregion₁]
    split
    · rfl
    · rename_i hx
      rw [regionOf, hm.region_eq, ← regionOf]
      by_contra hne
      exact hx ((h.inhabited.iff x).2 hne)
  · rw [hrep.nextTag_eq]
    exact hgood.sealed_.first_le
  · rw [htag, hrep.nextTag_eq]
    exact hgood.sealed_.range x ((hclosed x).2 hx)
  · rw [htag]
    exact hgood.sealed_.same x y ((hclosed x).2 hx) ((hclosed y).2 hy)
  · rw [htag]
    exact hgood.sealed_.other x fun hx' => hx ((hclosed x).1 hx')

/-! ## Arcs of the search and arcs of the snapshot -/

variable {ρ : Registers} {region : Nat → Int}

theorem arena_arc (hl : g.Layout) (hi : g.Intact ρ) :
    (arena g ρ region).Arc x y ↔ y ≠ x ∧ region y = region x ∧
      ∃ v, (g.snapshot ρ).mate x = some v ∧ v ∈ (g.snapshot ρ).live y := by
  have hinside : (arena g ρ region).inside x y = true ↔ y ≠ x ∧ region y = region x := by
    show (y != x && region y == region x) = true ↔ _
    rw [Bool.and_eq_true, bne_iff_ne, beq_iff_eq]
  rw [Arena.Arc, hinside, and_assoc]
  refine and_congr_right fun _ => and_congr_right fun _ => ?_
  show (∃ k < (match (g.snapshot ρ).mate x with
    | none => 0
    | some v => ValueGraph.count ρ v), (match (g.snapshot ρ).mate x with
    | none => 0
    | some v => g.nth v k) = y) ↔ _
  cases hmate : (g.snapshot ρ).mate x with
  | none =>
    refine ⟨fun ⟨k, hk, _⟩ => absurd hk (Nat.not_lt_zero k), fun ⟨v, hv, _⟩ => ?_⟩
    cases hv
  | some v =>
    dsimp only
    rw [← ValueGraph.mem_live_iff_nth hl hi (hi.mate_lt hmate).2]
    refine ⟨fun hlive => ⟨v, rfl, hlive⟩, fun ⟨v', hv', hlive⟩ => ?_⟩
    cases hv'
    exact hlive

/-- What leads to a variable within the regions leads to it in the snapshot. -/
theorem reflTransGen_of_leads (hl : g.Layout) (hi : g.Intact ρ) (hM : Inhabited g c M)
    (hactive : ∀ x, M x → x ∈ (g.snapshot ρ).active) (hx : M x)
    (hto : (arena g ρ c.regionOf).Leads x y) : ReflTransGen (g.snapshot ρ).Arc x y := by
  induction hto using ReflTransGen.head_induction_on with
  | refl => exact .refl
  | @head x z harc _ ih =>
    have hz : M z := hM.inside x z hx harc.1
    obtain ⟨_, _, v, hmate, hlive⟩ := (arena_arc hl hi).1 harc
    exact .head ⟨hactive x hx, hactive z hz, v, hmate, hlive⟩ (ih hz)

/-- A path that stays in one region. -/
theorem leads_of_reflTransGen (hl : g.Layout) (hi : g.Intact ρ)
    (hsame : ∀ a b, ReflTransGen (g.snapshot ρ).Arc x a → (g.snapshot ρ).Arc a b →
      ReflTransGen (g.snapshot ρ).Arc b y → region b = region a)
    (hto : ReflTransGen (g.snapshot ρ).Arc x y) : (arena g ρ region).Leads x y := by
  induction hto using ReflTransGen.head_induction_on with
  | refl => exact .refl
  | @head x z harc hrest ih =>
    have hlead := ih fun a b hza => hsame a b (.head harc hza)
    by_cases hzx : z = x
    · exact hzx ▸ hlead
    · have hregion := hsame x z .refl harc hrest
      obtain ⟨_, _, v, hmate, hlive⟩ := harc
      exact .head ((arena_arc hl hi).2 ⟨hzx, hregion, v, hmate, hlive⟩) hlead

/-! ## Passes -/

/-- What holds of a tagging between two passes. -/
structure Ready (g : ValueGraph) (c : Tagging) (s : Store) : Prop extends Sound g c s where
  idle : c.Idle
  range : ∀ x < g.varTotal, -1 ≤ c.tagNow s x ∧ c.tagNow s x < c.nextTag

/-- A pass changes tags only. -/
structure Tagged (g : ValueGraph) (c : Tagging) (s : Store) (c' : Tagging) (s' : Store) : Prop where
  ready : Ready g c' s'
  now_eq : g.now s' = g.now s
  evolves : Store.Evolves (· ∈ c.tags) s s'
  domain_eq : ∀ p, s'.domain p = s.domain p
  tags_eq : c'.tags = c.tags
  nextTag_le : c.nextTag ≤ c'.nextTag

/-- What a pass over the variables `P` comes to.  These get tags that were never given, and the others
keep theirs. -/
structure Pass (g : ValueGraph) (c : Tagging) (s : Store) (P : Nat → Prop) (c' : Tagging)
    (s' : Store) : Prop extends Tagged g c s c' s' where
  fresh : ∀ x, P x → (c.nextTag : Int) ≤ c'.tagNow s' x ∧ c'.tagNow s' x < c'.nextTag
  other : ∀ x, ¬ P x → c'.tagNow s' x = c.tagNow s x

theorem Retagged.pass {c₀ : Tagging} (h : Ready g c₀ s) (hrep : Replaced c₀ c)
    {members : List Nat} {P : Nat → Prop} (hP : ∀ x, x ∈ members ↔ P x)
    (hr : Retagged g c s members c' s') : Pass g c₀ s P c' s' := by
  have htag := hrep.tagNow_eq s
  have hle := hr.nextTag_le
  rw [hrep.nextTag_eq] at hle
  refine ⟨⟨⟨hr.sound, hr.idle, fun x hx => ?_⟩, hr.now_eq, hrep.tags_eq ▸ hr.evolves, hr.domain_eq,
    hr.tags_eq.trans hrep.tags_eq, hle⟩, fun x hx => ?_, fun x hx => ?_⟩
  · have hold := h.range x hx
    by_cases hmem : x ∈ members
    · have := hr.range x hmem
      omega
    · rw [hr.other x hmem, htag]
      omega
  · rw [← hrep.nextTag_eq]
    exact hr.range x ((hP x).2 hx)
  · rw [hr.other x fun hmem => hx ((hP x).1 hmem), htag]

/-- The tags of a pass are not those of the variables that it leaves out. -/
theorem Pass.tagNow_ne {P : Nat → Prop} (hp : Pass g c s P c' s') (h : Ready g c s) (hx : P x)
    (hy : ¬ P y) (hlt : y < g.varTotal) : c'.tagNow s' x ≠ c'.tagNow s' y := by
  have hnew := (hp.fresh x hx).1
  have hold := (h.range y hlt).2
  rw [hp.other y hy]
  omega

/-- Regions of active variables. -/
theorem placed (h : Ready g c s) (f : Nat → Int) {members : List Nat}
    (hlt : ∀ x ∈ members, x < g.varTotal) (hf : ∀ x ∈ members, f x ≠ outside) :
    Placed g c s f members (members.foldl (fun c x => c.assign x (f x)) c) := by
  obtain ⟨hfit, hrep, hindex, hregion⟩ := foldl_assign f members h.fit hlt
  have hregion' : ∀ x, (members.foldl (fun c x => c.assign x (f x)) c).regionOf x =
      if x ∈ members then f x else outside := by
    intro x
    rw [hregion, h.idle.region]
  refine ⟨hrep.sound h.toSound hfit, hrep, fun x => ?_, hrep.stack_eq.trans h.idle.stack,
    hrep.calls_eq.trans h.idle.calls, ⟨hlt, fun x => ?_⟩, hregion'⟩
  · rw [hindex]
    exact h.idle.index x
  · rw [hregion']
    by_cases hx : x ∈ members
    · rw [if_pos hx]
      exact ⟨fun _ => hf x hx, fun _ => hx⟩
    · rw [if_neg hx]
      exact ⟨fun hx' => absurd hx' hx, fun hne => absurd rfl hne⟩

/-- After a full pass, two active variables have the same tag exactly when they belong together. -/
theorem tagAll_eq (h : Ready g c s) :
    ∃ c' s', tagAll g c s = .ok (c', s') ∧
      Pass g c s (· ∈ (g.snapshot (g.now s)).active) c' s' ∧
      ∀ x ∈ (g.snapshot (g.now s)).active, ∀ y ∈ (g.snapshot (g.now s)).active,
        c'.tagNow s' x = c'.tagNow s' y ↔ (g.snapshot (g.now s)).Together x y := by
  obtain ⟨members, hactive, _, hmem⟩ := h.graph.activeVars_eq
  have hlt : ∀ x ∈ members, x < g.varTotal := fun x hx => (ValueGraph.mem_active.1 ((hmem x).1 hx)).1
  have hplaced := placed h (fun _ => 0) hlt fun _ _ => by decide
  obtain ⟨c', s', hrun, hr⟩ := hplaced.retag_eq
  refine ⟨c', s', ?_, hr.pass h hplaced.replaced hmem, fun x hx y hy => ?_⟩
  · rw [tagAll, hactive, ok_bind]
    exact hrun
  · have hl := h.graph.layout
    have hi := h.graph.intact
    have hM := hplaced.inhabited
    have hin : ∀ z, z ∈ members → z ∈ (g.snapshot (g.now s)).active := fun z hz => (hmem z).1 hz
    have hsame := fun a b (harc : (g.snapshot (g.now s)).Arc a b) =>
      (hplaced.region b).trans ((if_pos ((hmem b).2 harc.2.1)).trans
        ((hplaced.region a).trans (if_pos ((hmem a).2 harc.1))).symm)
    rw [hr.same x ((hmem x).2 hx) y ((hmem y).2 hy), Arena.Mutual, Snapshot.Together]
    exact ⟨fun hm => ⟨reflTransGen_of_leads hl hi hM hin ((hmem x).2 hx) hm.1,
        reflTransGen_of_leads hl hi hM hin ((hmem y).2 hy) hm.2⟩,
      fun ht => ⟨leads_of_reflTransGen hl hi (fun a b _ harc _ => hsame a b harc) ht.1,
        leads_of_reflTransGen hl hi (fun a b _ harc _ => hsame a b harc) ht.2⟩⟩

/-- The active variables of the components that contain a touched variable. -/
def Affected (g : ValueGraph) (touched : List Nat) (c : Tagging) (s : Store) (x : Nat) : Prop :=
  x ∈ (g.snapshot (g.now s)).active ∧ ∃ z ∈ touched, c.tagNow s z = c.tagNow s x

/-- Variables with the same tag are affected together. -/
theorem affected_congr {touched : List Nat} (hx : x ∈ (g.snapshot (g.now s)).active)
    (hy : y ∈ (g.snapshot (g.now s)).active) (heq : c.tagNow s x = c.tagNow s y) :
    Affected g touched c s x ↔ Affected g touched c s y := by
  rw [Affected, Affected, heq]
  exact and_congr_left fun _ => iff_of_true hx hy

/-- The affected variables are tagged from scratch, within regions that are their old tags. -/
theorem tagTouched_eq_retag (h : Ready g c s) {touched : List Nat}
    (htouched : ∀ x ∈ touched, x < g.varTotal) :
    ∃ members, (∀ x, x ∈ members ↔ Affected g touched c s x) ∧ tagTouched g touched c s =
      retag g members (members.foldl (fun c' x => c'.assign x (c.tagNow s x)) c) s := by
  obtain ⟨actives, hactive, _, hmem⟩ := h.graph.activeVars_eq
  have hlt : ∀ x ∈ actives, x < g.varTotal := fun x hx => (ValueGraph.mem_active.1 ((hmem x).1 hx)).1
  have htag : ∀ x < g.varTotal, c.tag s x = .ok (c.tagNow s x) :=
    fun x hx => tag_eq h.wired (by rw [h.fit.size_tags]; exact hx)
  have haffected : touched.mapM (c.tag s) = .ok (touched.map (c.tagNow s)) :=
    mapM_eq_ok fun x hx => htag x (htouched x hx)
  have hfilter : (actives.filterMapM fun x => do
      let tag ← c.tag s x
      return if tag ∈ touched.map (c.tagNow s) then some (x, tag) else none) =
      .ok (actives.filterMap fun x => if c.tagNow s x ∈ touched.map (c.tagNow s) then
        some (x, c.tagNow s x) else none) := by
    refine filterMapM_eq_ok fun x hx => ?_
    rw [htag x (hlt x hx), ok_bind, pure_eq_ok]
  have hpairs : (actives.filterMap fun x => if c.tagNow s x ∈ touched.map (c.tagNow s) then
      some (x, c.tagNow s x) else none) =
      (actives.filter fun x => decide (c.tagNow s x ∈ touched.map (c.tagNow s))).map
        fun x => (x, c.tagNow s x) := by
    rw [← congrFun (List.filterMap_eq_map (f := fun x => (x, c.tagNow s x))), List.filterMap_filter]
    simp only [decide_eq_true_iff]
    rfl
  refine ⟨actives.filter fun x => decide (c.tagNow s x ∈ touched.map (c.tagNow s)), fun x => ?_, ?_⟩
  · rw [Affected, List.mem_filter, decide_eq_true_iff, hmem, List.mem_map]
  · have hid : (Prod.fst ∘ fun x => (x, c.tagNow s x)) = id := rfl
    rw [tagTouched, haffected, ok_bind, hactive, ok_bind, hfilter, ok_bind, hpairs, List.foldl_map,
      List.map_map, hid, List.map_id]

/-- If variables that belong together have the same tag, the regions of the affected ones part none
of the paths between them. -/
theorem leads_of_together (h : Ready g c s) {touched members : List Nat}
    (hin : ∀ x, x ∈ members ↔ Affected g touched c s x)
    (hplaced : Placed g c s (c.tagNow s) members c')
    (hsound : ∀ x y, (g.snapshot (g.now s)).Together x y → x ∈ (g.snapshot (g.now s)).active →
      y ∈ (g.snapshot (g.now s)).active → c.tagNow s x = c.tagNow s y)
    (hxy : (g.snapshot (g.now s)).Together x y) : (arena g (g.now s) c'.regionOf).Leads x y := by
  refine leads_of_reflTransGen h.graph.layout h.graph.intact (fun a b hxa harc hby => ?_) hxy.1
  have hab : c.tagNow s a = c.tagNow s b :=
    hsound a b ⟨.single harc, (hby.trans hxy.2).trans hxa⟩ harc.1 harc.2.1
  have hmem : a ∈ members ↔ b ∈ members := by
    rw [hin, hin]
    exact affected_congr harc.1 harc.2.1 hab
  rw [hplaced.region, hplaced.region]
  by_cases ha : a ∈ members
  · rw [if_pos ha, if_pos (hmem.1 ha), hab]
  · rw [if_neg ha, if_neg fun hb => ha (hmem.2 hb)]

/-- A pass over the components of the touched variables.  If variables that belong together had the
same tag, they still do; and two active variables have the same tag only if they belong together,
or if their common tag was not touched. -/
theorem tagTouched_eq (h : Ready g c s) {touched : List Nat}
    (htouched : ∀ x ∈ touched, x < g.varTotal) :
    ∃ c' s', tagTouched g touched c s = .ok (c', s') ∧ Pass g c s (Affected g touched c s) c' s' ∧
      ((∀ x y, (g.snapshot (g.now s)).Together x y → x ∈ (g.snapshot (g.now s)).active →
          y ∈ (g.snapshot (g.now s)).active → c.tagNow s x = c.tagNow s y) →
        ∀ x ∈ (g.snapshot (g.now s)).active, ∀ y ∈ (g.snapshot (g.now s)).active,
          ((g.snapshot (g.now s)).Together x y → c'.tagNow s' x = c'.tagNow s' y) ∧
          (c'.tagNow s' x = c'.tagNow s' y → (g.snapshot (g.now s)).Together x y ∨
            c.tagNow s x = c.tagNow s y ∧ ∀ z ∈ touched, c.tagNow s z ≠ c.tagNow s x)) := by
  obtain ⟨members, hin, htagged⟩ := tagTouched_eq_retag h htouched
  have hlt : ∀ {x}, Affected g touched c s x → x < g.varTotal :=
    fun hx => (ValueGraph.mem_active.1 hx.1).1
  have hplaced := placed h (c.tagNow s) (fun x hx => hlt ((hin x).1 hx)) fun x hx => by
    have := (h.range x (hlt ((hin x).1 hx))).1
    unfold outside Word.least
    omega
  obtain ⟨c', s', hrun, hr⟩ := hplaced.retag_eq
  have hpass := hr.pass h hplaced.replaced hin
  refine ⟨c', s', htagged.trans hrun, hpass, fun hsound x hx y hy => ?_⟩
  have hleads := fun {a b} => leads_of_together (x := a) (y := b) h hin hplaced hsound
  have hback := fun {a b} (ha : Affected g touched c s a) =>
    reflTransGen_of_leads (y := b) h.graph.layout h.graph.intact hplaced.inhabited
      (fun z hz => ((hin z).1 hz).1) ((hin a).2 ha)
  have hlt' : ∀ z, z ∈ (g.snapshot (g.now s)).active → z < g.varTotal :=
    fun z hz => (ValueGraph.mem_active.1 hz).1
  have hboth : (g.snapshot (g.now s)).Together x y →
      (Affected g touched c s x ↔ Affected g touched c s y) :=
    fun ht => affected_congr hx hy (hsound x y ht hx hy)
  by_cases hxa : Affected g touched c s x <;> by_cases hya : Affected g touched c s y
  · rw [hr.same x ((hin x).2 hxa) y ((hin y).2 hya)]
    exact ⟨fun ht => ⟨hleads ht, hleads ⟨ht.2, ht.1⟩⟩,
      fun hm => Or.inl ⟨hback hxa hm.1, hback hya hm.2⟩⟩
  · exact ⟨fun ht => absurd ((hboth ht).1 hxa) hya,
      fun heq => absurd heq (hpass.tagNow_ne h hxa hya (hlt' y hy))⟩
  · exact ⟨fun ht => absurd ((hboth ht).2 hya) hxa,
      fun heq => absurd heq.symm (hpass.tagNow_ne h hya hxa (hlt' x hx))⟩
  · rw [hpass.other x hxa, hpass.other y hya]
    exact ⟨fun ht => hsound x y ht hx hy,
      fun heq => Or.inr ⟨heq, fun z hz hzx => hxa ⟨hx, z, hz, hzx⟩⟩⟩

theorem sameGroups_map {before after : Nat → Int} {xs : List Nat}
    (h : ∀ x ∈ xs, ∀ y ∈ xs, before x = before y ↔ after x = after y) :
    sameGroups (xs.map before) (xs.map after) = true := by
  rw [sameGroups, List.zip_map']
  dsimp only
  rw [List.all_eq_true]
  intro p hp
  obtain ⟨x, hx, rfl⟩ := List.mem_map.1 hp
  rw [List.all_eq_true]
  intro q hq
  obtain ⟨y, hy, rfl⟩ := List.mem_map.1 hq
  dsimp only
  rw [beq_iff_eq, Bool.eq_iff_iff, beq_iff_eq, beq_iff_eq]
  exact h x hx y hy

/-- Tags that describe the components agree with those of a full pass, which take their place. -/
theorem tagsAgree_eq (h : Ready g c s) :
    ∃ same c' s', tagsAgree g c s = .ok (same, c', s') ∧ Tagged g c s c' s' ∧
      (∀ x ∈ (g.snapshot (g.now s)).active, ∀ y ∈ (g.snapshot (g.now s)).active,
        c'.tagNow s' x = c'.tagNow s' y ↔ (g.snapshot (g.now s)).Together x y) ∧
      ((∀ x ∈ (g.snapshot (g.now s)).active, ∀ y ∈ (g.snapshot (g.now s)).active,
        c.tagNow s x = c.tagNow s y ↔ (g.snapshot (g.now s)).Together x y) → same = true) := by
  obtain ⟨actives, hactive, _, hmem⟩ := h.graph.activeVars_eq
  have hlt : ∀ x ∈ actives, x < g.varTotal := fun x hx => (ValueGraph.mem_active.1 ((hmem x).1 hx)).1
  obtain ⟨c', s', hrun, ht, hiff⟩ := tagAll_eq h
  have hbefore : actives.mapM (c.tag s) = .ok (actives.map (c.tagNow s)) :=
    mapM_eq_ok fun x hx => tag_eq h.wired (by rw [h.fit.size_tags]; exact hlt x hx)
  have hafter : actives.mapM (c'.tag s') = .ok (actives.map (c'.tagNow s')) :=
    mapM_eq_ok fun x hx => tag_eq ht.ready.wired (by rw [ht.ready.fit.size_tags]; exact hlt x hx)
  refine ⟨sameGroups (actives.map (c.tagNow s)) (actives.map (c'.tagNow s')), c', s', ?_,
    ht.toTagged, hiff, fun hold => ?_⟩
  · rw [tagsAgree, hactive, ok_bind, hbefore, ok_bind, hrun, ok_bind]
    dsimp only
    rw [hafter, ok_bind, pure_eq_ok]
  · refine sameGroups_map fun x hx y hy => ?_
    rw [hold x ((hmem x).1 hx) y ((hmem y).1 hy), hiff x ((hmem x).1 hx) y ((hmem y).1 hy)]

end Tagging

end FiniteDomain.AllDifferent
