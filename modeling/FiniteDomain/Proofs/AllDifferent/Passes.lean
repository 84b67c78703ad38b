import FiniteDomain.Proofs.AllDifferent.Augmenting

/-!
# Tags through passes and levels

A tagging is used for one pass after the other, and levels are saved and restored in between.  Its
tags are kept in cells, but the next tag and the working memory are not.

* A pass does not depend on what earlier passes noted of the variables: `tagScope_withLow`, where
  `withLow` puts other notes into the working memory.
* `Tagging.InUse` holds of the taggings that passes left behind, with all the tags that were ever
  given, by passes that were undone as well.
* `InUse.tagAll_iff` collects what a full pass comes to.
-/

namespace FiniteDomain.AllDifferent

namespace Tagging

variable {g : ValueGraph} {c c' : Tagging} {s s' : Store} {l : Array Nat} {n k x y : Nat}
  {counter counter' : Nat} {touched members : List Nat} {given : Set Int}

/-! ## What a pass does not look at -/

/-- The same tagging with other notes of what the variables lead back to. -/
def withLow (c : Tagging) (l : Array Nat) : Tagging := { c with lowlink := l }

/-- Other notes, which are the same for the variables that were met.  Only such variables are being
searched. -/
structure Spare (c : Tagging) (l : Array Nat) : Prop where
  size_eq : l.size = c.lowlink.size
  low_eq : ∀ x : Nat, c.index.getD x none ≠ none → l[x]? = c.lowlink[x]?
  met : ∀ call ∈ c.calls, c.index.getD call.1 none ≠ none

/-- The notes are the same when only variables that were met are looked at. -/
theorem Spare.fetch_eq (h : Spare c l) (hx : c.index.getD x none ≠ none) :
    fetch l x = fetch c.lowlink x := by
  rw [fetch, fetch, h.low_eq x hx]

theorem Spare.resume (h : Spare c l) {calls : List (Nat × Nat)}
    (hmet : ∀ call ∈ calls, c.index.getD call.1 none ≠ none) :
    Spare { c with calls := calls } l :=
  ⟨h.size_eq, h.low_eq, hmet⟩

theorem Spare.lower (h : Spare c l) (x i : Nat) :
    Spare (c.lower x i) (l.modify x (min · i)) := by
  refine ⟨?_, fun y hy => ?_, h.met⟩
  · rw [Array.size_modify, h.size_eq]
    exact Array.size_modify.symm
  · show _ = (c.lowlink.modify x (min · i))[y]?
    rw [Array.getElem?_modify, Array.getElem?_modify, h.low_eq y hy]

/-- A variable is met. -/
theorem Spare.enter (h : Spare c l) (hx : x < c.index.size) :
    Spare (c.enter x counter) (l.setIfInBounds x counter) := by
  have hindex := getD_setIfInBounds hx (some counter) none
  have hmet : ∀ y, (c.enter x counter).index.getD y none ≠ none ↔
      y = x ∨ c.index.getD y none ≠ none := by
    intro y
    have := congrFun hindex y
    rw [Function.update_apply] at this
    show (c.index.setIfInBounds x (some counter)).getD y none ≠ none ↔ _
    rw [this]
    split <;> simp [*]
  refine ⟨?_, fun y hy => ?_, fun call hcall => ?_⟩
  · rw [Array.size_setIfInBounds, h.size_eq]
    exact Array.size_setIfInBounds.symm
  · show _ = (c.lowlink.setIfInBounds x counter)[y]?
    rw [Array.getElem?_setIfInBounds, Array.getElem?_setIfInBounds, h.size_eq]
    split
    · rfl
    · rename_i hxy
      exact h.low_eq y (((hmet y).1 hy).resolve_left (Ne.symm hxy))
  · rw [hmet]
    obtain rfl | hcall := List.mem_cons.1 hcall
    · exact Or.inl rfl
    · exact Or.inr (h.met call hcall)

/-- The notes do not matter when a stack is closed, which leaves them alone. -/
theorem closeStack_withLow {root : Nat} {tag : Int} {stack : List Nat}
    (hret : closeStack root tag stack c s = .ok (c', s')) :
    closeStack root tag stack (c.withLow l) s = .ok (c'.withLow l, s') ∧
      c'.index = c.index ∧ c'.lowlink = c.lowlink ∧ c'.calls = c.calls := by
  induction stack generalizing c s with
  | nil =>
    cases hret
    exact ⟨rfl, rfl, rfl, rfl⟩
  | cons y rest ih =>
    obtain ⟨d, hfetch, hret⟩ := bind_eq_ok_iff.1 hret
    obtain ⟨s₁, hwrite, hret⟩ := bind_eq_ok_iff.1 hret
    have hfetch' : fetch (c.withLow l).tags y = .ok d := hfetch
    rw [closeStack, hfetch', ok_bind, hwrite, ok_bind]
    dsimp only at hret ⊢
    split at hret
    · rename_i hy
      cases hret
      rw [if_pos hy]
      exact ⟨rfl, rfl, rfl, rfl⟩
    · rename_i hy
      rw [if_neg hy]
      exact ih hret

/-- The notes do not matter when a component is closed, or kept open. -/
theorem finish_withLow {low : Nat} (h : Spare c l)
    (hret : (do
        if some low = (← fetch c.index x) then
          c.closeComponent s x
        else
          return (c, s) : Except Fault (Tagging × Store)) = .ok (c', s')) :
    ∃ l', (do
        if some low = (← fetch (c.withLow l).index x) then
          (c.withLow l).closeComponent s x
        else
          return (c.withLow l, s) : Except Fault (Tagging × Store)) = .ok (c'.withLow l', s') ∧
      Spare c' l' := by
  obtain ⟨i, hi, hret⟩ := bind_eq_ok_iff.1 hret
  have hi' : fetch (c.withLow l).index x = .ok i := hi
  rw [hi', ok_bind]
  split at hret
  · rename_i hclose
    obtain ⟨hret', hindex, hlow, hcalls⟩ := closeStack_withLow (l := l) hret
    refine ⟨l, ?_, hlow ▸ h.size_eq, fun y hy => ?_, fun call hcall => ?_⟩
    · rw [if_pos hclose]
      exact hret'
    · rw [hlow]
      exact h.low_eq y (hindex ▸ hy)
    · rw [hindex]
      exact h.met call (hcalls ▸ hcall)
  · rename_i hkeep
    cases hret
    rw [if_neg hkeep]
    exact ⟨l, rfl, h⟩

theorem leave_withLow {calls : List (Nat × Nat)} (h : Spare c l)
    (hcalls : c.calls = (x, k) :: calls) (hret : c.leave s x calls = .ok (c', s')) :
    ∃ l', (c.withLow l).leave s x calls = .ok (c'.withLow l', s') ∧ Spare c' l' := by
  have hx : c.index.getD x none ≠ none := h.met (x, k) (hcalls ▸ List.mem_cons_self ..)
  have hrest := h.resume fun call hcall => h.met call (hcalls ▸ List.mem_cons_of_mem _ hcall)
  obtain ⟨low, hlow, hret⟩ := bind_eq_ok_iff.1 hret
  have hlow' : fetch (c.withLow l).lowlink x = .ok low := (h.fetch_eq hx).trans hlow
  rw [leave, hlow', ok_bind]
  cases calls with
  | nil => exact finish_withLow hrest hret
  | cons call calls =>
    obtain ⟨l', hfinish, hspare⟩ := finish_withLow (hrest.lower call.1 low) hret
    exact ⟨l', hfinish, hspare⟩

theorem followArc_withLow (h : Spare c l)
    (hret : c.followArc counter x y = .ok (counter', c')) :
    ∃ l', (c.withLow l).followArc counter x y = .ok (counter', c'.withLow l') ∧ Spare c' l' := by
  rw [followArc] at hret ⊢
  split at hret
  · rename_i hxy
    cases hret
    rw [if_pos hxy]
    exact ⟨l, rfl, h⟩
  rename_i hxy
  rw [if_neg hxy]
  obtain ⟨r, hr, hret⟩ := bind_eq_ok_iff.1 hret
  obtain ⟨r', hr', hret⟩ := bind_eq_ok_iff.1 hret
  have hry : fetch (c.withLow l).region y = .ok r := hr
  have hrx : fetch (c.withLow l).region x = .ok r' := hr'
  rw [hry, ok_bind, hrx, ok_bind]
  split at hret
  · rename_i hne
    cases hret
    rw [if_pos hne]
    exact ⟨l, rfl, h⟩
  rename_i hne
  rw [if_neg hne]
  obtain ⟨i, hi, hret⟩ := bind_eq_ok_iff.1 hret
  have hiy : fetch (c.withLow l).index y = .ok i := hi
  rw [hiy, ok_bind]
  cases i with
  | none =>
    cases hret
    exact ⟨_, rfl, h.enter (Array.getElem?_eq_some_iff.1 (fetch_eq_ok_iff.1 hi)).1⟩
  | some i =>
    obtain ⟨on, hon, hret⟩ := bind_eq_ok_iff.1 hret
    have hony : fetch (c.withLow l).onStack y = .ok on := hon
    dsimp only
    rw [hony, ok_bind]
    cases hret
    cases on with
    | false => exact ⟨l, rfl, h⟩
    | true => exact ⟨_, rfl, h.lower x i⟩

theorem step_withLow {next : Option (Nat × Tagging × Store)} (h : Spare c l)
    (hret : step g counter c s = .ok next) :
    next = none ∧ step g counter (c.withLow l) s = .ok none ∨
      ∃ counter' c' s' l', next = some (counter', c', s') ∧
        step g counter (c.withLow l) s = .ok (some (counter', c'.withLow l', s')) ∧
        Spare c' l' := by
  have hcalls' : (c.withLow l).calls = c.calls := rfl
  rw [step] at hret ⊢
  rw [hcalls']
  cases hcalls : c.calls with
  | nil =>
    rw [hcalls] at hret
    cases hret
    exact Or.inl ⟨rfl, rfl⟩
  | cons call calls =>
    obtain ⟨x, k⟩ := call
    rw [hcalls] at hret
    dsimp only at hret ⊢
    refine Or.inr ?_
    obtain ⟨mate, hmate, hret⟩ := bind_eq_ok_iff.1 hret
    rw [hmate, ok_bind]
    cases mate with
    | none =>
      obtain ⟨⟨c', s'⟩, hleave, hret⟩ := bind_eq_ok_iff.1 hret
      cases hret
      obtain ⟨l', hleave', hspare⟩ := leave_withLow h hcalls hleave
      refine ⟨counter, c', s', l', rfl, ?_, hspare⟩
      dsimp only
      rw [hleave', ok_bind, pure_eq_ok]
    | some v =>
      obtain ⟨count, hcount, hret⟩ := bind_eq_ok_iff.1 hret
      dsimp only
      rw [hcount, ok_bind]
      split at hret
      · rename_i hk
        obtain ⟨y, hy, hret⟩ := bind_eq_ok_iff.1 hret
        obtain ⟨⟨counter', c'⟩, hfollow, hret⟩ := bind_eq_ok_iff.1 hret
        cases hret
        have hresume : Spare { c with calls := (x, k + 1) :: calls } l := by
          refine h.resume fun call hcall => ?_
          obtain rfl | hcall := List.mem_cons.1 hcall
          · exact h.met (x, k) (hcalls ▸ List.mem_cons_self ..)
          · exact h.met call (hcalls ▸ List.mem_cons_of_mem _ hcall)
        obtain ⟨l', hfollow', hspare⟩ := followArc_withLow hresume hfollow
        refine ⟨counter', c', s, l', rfl, ?_, hspare⟩
        rw [if_pos hk, hy, ok_bind]
        refine bind_eq_ok_iff.2 ⟨_, hfollow', ?_⟩
        rfl
      · rename_i hk
        obtain ⟨⟨c', s'⟩, hleave, hret⟩ := bind_eq_ok_iff.1 hret
        cases hret
        obtain ⟨l', hleave', hspare⟩ := leave_withLow h hcalls hleave
        refine ⟨counter, c', s', l', rfl, ?_, hspare⟩
        rw [if_neg hk, hleave', ok_bind, pure_eq_ok]

theorem search_withLow (fuel : Nat) (h : Spare c l)
    (hret : search g fuel counter c s = .ok (counter', c', s')) :
    ∃ l', search g fuel counter (c.withLow l) s = .ok (counter', c'.withLow l', s') ∧
      Spare c' l' := by
  induction fuel generalizing counter c s l with
  | zero => cases hret
  | succ fuel ih =>
    obtain ⟨next, hstep, hret⟩ := bind_eq_ok_iff.1 hret
    obtain ⟨rfl, hstep'⟩ | ⟨counter₁, c₁, s₁, l₁, rfl, hstep', hspare⟩ := step_withLow h hstep
    · cases hret
      exact ⟨l, by rw [search, hstep', ok_bind]; rfl, h⟩
    · obtain ⟨l', hrun, hspare'⟩ := ih hspare hret
      refine ⟨l', ?_, hspare'⟩
      rw [search, hstep', ok_bind]
      exact hrun

theorem searchAll_withLow (roots : List Nat) (h : Spare c l)
    (hret : searchAll g roots counter c s = .ok (c', s')) :
    ∃ l', searchAll g roots counter (c.withLow l) s = .ok (c'.withLow l', s') ∧ Spare c' l' := by
  induction roots generalizing counter c s l with
  | nil =>
    cases hret
    exact ⟨l, rfl, h⟩
  | cons root rest ih =>
    obtain ⟨i, hi, hret⟩ := bind_eq_ok_iff.1 hret
    have hi' : fetch (c.withLow l).index root = .ok i := hi
    rw [searchAll, hi', ok_bind]
    cases i with
    | some i => exact ih h hret
    | none =>
      obtain ⟨⟨counter₁, c₁, s₁⟩, hsearch, hret⟩ := bind_eq_ok_iff.1 hret
      obtain ⟨l₁, hsearch', hspare⟩ := search_withLow (searchFuel g)
        (h.enter (Array.getElem?_eq_some_iff.1 (fetch_eq_ok_iff.1 hi)).1) hsearch
      obtain ⟨l', hrun, hspare'⟩ := ih hspare hret
      refine ⟨l', ?_, hspare'⟩
      dsimp only
      exact bind_eq_ok_iff.2 ⟨_, hsearch', hrun⟩

theorem foldl_withLow {α : Type} (f : Tagging → α → Tagging)
    (hf : ∀ (c : Tagging) a, f (c.withLow l) a = (f c a).withLow l) (xs : List α) (c : Tagging) :
    xs.foldl f (c.withLow l) = (xs.foldl f c).withLow l := by
  induction xs generalizing c with
  | nil => rfl
  | cons a rest ih => rw [List.foldl_cons, List.foldl_cons, hf, ih]

theorem retag_withLow (h : Spare c l) (hret : retag g members c s = .ok (c', s')) :
    ∃ l', retag g members (c.withLow l) s = .ok (c'.withLow l', s') := by
  obtain ⟨⟨c₁, s₁⟩, hall, hret⟩ := bind_eq_ok_iff.1 hret
  cases hret
  obtain ⟨l', hall', _⟩ := searchAll_withLow members h hall
  refine ⟨l', ?_⟩
  rw [retag, hall', ok_bind]
  exact congrArg (fun c => Except.ok (c, s')) (foldl_withLow forget (fun _ _ => rfl) members c₁)

/-! ## Passes -/

/-- Which components a pass tags. -/
inductive Scope where
  | all
  | touching (touched : List Nat)
  deriving DecidableEq, Repr

/-- A pass. -/
def tagScope (g : ValueGraph) : Scope → Tagging → Store → Except Fault (Tagging × Store)
  | .all => tagAll g
  | .touching touched => tagTouched g touched

/-- The variables that a pass tags. -/
def Scope.Tags (g : ValueGraph) (c : Tagging) (s : Store) : Scope → Nat → Prop
  | .all => (· ∈ (g.snapshot (g.now s)).active)
  | .touching touched => Affected g touched c s

/-- What was noted in earlier passes does not matter. -/
theorem tagScope_withLow {scope : Scope} (hidle : c.Idle) (hl : l.size = c.lowlink.size)
    (hret : tagScope g scope c s = .ok (c', s')) :
    ∃ l', tagScope g scope (c.withLow l) s = .ok (c'.withLow l', s') := by
  have hspare : ∀ {α : Type} (xs : List α) (member : α → Nat) (region : α → Int),
      Spare (xs.foldl (fun c a => c.assign (member a) (region a)) c) l := by
    intro α xs member region
    have hsame : (xs.foldl (fun c a => c.assign (member a) (region a)) c).lowlink = c.lowlink ∧
        (xs.foldl (fun c a => c.assign (member a) (region a)) c).index = c.index ∧
        (xs.foldl (fun c a => c.assign (member a) (region a)) c).calls = c.calls := by
      clear hret hl hidle
      induction xs generalizing c with
      | nil => exact ⟨rfl, rfl, rfl⟩
      | cons a rest ih => exact ih
    obtain ⟨hlow, hindex, hcalls⟩ := hsame
    refine ⟨hlow ▸ hl, fun x hx => ?_, fun call hcall => ?_⟩
    · rw [hindex] at hx
      exact absurd (hidle.index x) hx
    · rw [hcalls, hidle.calls] at hcall
      exact absurd hcall List.not_mem_nil
  cases scope with
  | all =>
    obtain ⟨actives, hactive, hret⟩ := bind_eq_ok_iff.1 hret
    obtain ⟨l', hretag⟩ := retag_withLow (hspare actives id fun _ => 0) hret
    refine ⟨l', ?_⟩
    rw [tagScope, tagAll, hactive, ok_bind]
    rw [← foldl_withLow _ (fun _ _ => rfl)] at hretag
    exact hretag
  | touching touched =>
    obtain ⟨affected, haffected, hret⟩ := bind_eq_ok_iff.1 hret
    obtain ⟨actives, hactive, hret⟩ := bind_eq_ok_iff.1 hret
    obtain ⟨pairs, hpairs, hret⟩ := bind_eq_ok_iff.1 hret
    obtain ⟨l', hretag⟩ := retag_withLow (hspare pairs Prod.fst Prod.snd) hret
    refine ⟨l', bind_eq_ok_iff.2 ⟨affected, haffected, bind_eq_ok_iff.2 ⟨actives, hactive,
      bind_eq_ok_iff.2 ⟨pairs, hpairs, ?_⟩⟩⟩⟩
    rw [← foldl_withLow _ (fun _ _ => rfl)] at hretag
    exact hretag

/-- The working memory of a new tagging. -/
def blank (n : Nat) (tags : Array Cell) (nextTag : Nat) : Tagging where
  tags := tags
  nextTag := nextTag
  index := Array.replicate n none
  lowlink := Array.replicate n 0
  onStack := Array.replicate n false
  stack := []
  calls := []
  region := Array.replicate n outside

/-- Between two passes the working memory is that of a new tagging, except for the notes. -/
theorem eq_blank (hfit : c.Fit n) (hidle : c.Idle) :
    c = (blank n c.tags c.nextTag).withLow c.lowlink := by
  have hreplicate : ∀ {α : Type} {xs : Array α} {a : α}, xs.size = n →
      (∀ x < n, xs.getD x a = a) → xs = Array.replicate n a := by
    intro α xs a hsize hget
    refine Array.ext (by rw [hsize, Array.size_replicate]) fun i hi _ => ?_
    have := hget i (hsize ▸ hi)
    rw [Array.getElem_replicate, ← this, Array.getD_eq_getD_getElem?, Array.getElem?_eq_getElem hi]
    rfl
  have hindex := hreplicate hfit.size_index fun x _ => hidle.index x
  have hregion := hreplicate hfit.size_region fun x _ => hidle.region x
  have hon : c.onStack = Array.replicate n false := by
    refine hreplicate hfit.size_onStack fun x hx => ?_
    rw [hfit.onStack_eq x hx, hidle.stack]
    rfl
  obtain ⟨tags, nextTag, index, lowlink, onStack, stack, calls, region⟩ := c
  obtain rfl : stack = [] := hidle.stack
  obtain rfl : calls = [] := hidle.calls
  obtain rfl : index = _ := hindex
  obtain rfl : region = _ := hregion
  obtain rfl : onStack = _ := hon
  rfl

/-! ## Use -/

/-- A tagging of `n` variables that passes left behind, in a store.  The graphs may be any, and the
store may change otherwise as long as the tags are left alone.  `k` levels were saved since the tagging
was made and not restored, and `given` are the tags that variables were given, also in passes that
were undone. -/
inductive InUse (n : Nat) : Tagging → Store → Nat → Set Int → Prop
  | new {s : Store} : s.Sound → InUse n (new s n).1 (new s n).2 0 ∅
  | pass {c c' : Tagging} {s s' : Store} {k : Nat} {given : Set Int} {g : ValueGraph}
      {scope : Scope} (hg : g.Sound s) (hn : g.varTotal = n) (hapart : ∀ d, g.Owns d → d ∉ c.tags)
      (hret : tagScope g scope c s = .ok (c', s')) :
      InUse n c s k given →
      InUse n c' s' k (given ∪ {t | ∃ x, scope.Tags g c s x ∧ c'.tag s' x = .ok t})
  | evolve {c : Tagging} {s s' : Store} {k : Nat} {given : Set Int} {C : Cell → Prop}
      (hC : ∀ d ∈ c.tags, ¬ C d) (he : Store.Evolves C s s') :
      InUse n c s k given → InUse n c s' k given
  | grow {c : Tagging} {s s' : Store} {k : Nat} {given : Set Int} (hg : Store.Grown s s') :
      InUse n c s k given → InUse n c s' k given
  | clearEvents {c : Tagging} {s : Store} {k : Nat} {given : Set Int} :
      InUse n c s k given → InUse n c s.clearEvents k given
  | save {c : Tagging} {s : Store} {k : Nat} {given : Set Int} :
      InUse n c s k given → InUse n c s.save (k + 1) given
  | restore {c : Tagging} {s s' : Store} {k : Nat} {given : Set Int}
      (hret : s.restore = .ok s') : InUse n c s (k + 1) given → InUse n c s' k given

/-- What holds of a tagging in use: nothing is in its working memory, and the tags in its cells,
now and at the levels that were saved, were given before the next one. -/
structure Tended (n : Nat) (c : Tagging) (s : Store) (k : Nat) (given : Set Int) : Prop where
  store : s.Sound
  fit : c.Fit n
  idle : c.Idle
  wired : c.Wired s
  saved : k ≤ s.trail.past.length
  has : ∀ w ∈ s.trail.past.take k, ∀ d ∈ c.tags, w.Has d
  range : ∀ w ∈ s.trail.now :: s.trail.past.take k, ∀ x < n,
    -1 ≤ c.tagIn w x ∧ c.tagIn w x < c.nextTag
  given_lt : ∀ t ∈ given, t < c.nextTag

theorem Tended.tag_eq (h : Tended n c s k given) (hx : x < n) : c.tag s x = .ok (c.tagNow s x) :=
  Tagging.tag_eq h.wired (h.fit.size_tags.symm ▸ hx)

/-- A sound graph that shares no cell with the tags can be tagged. -/
theorem Tended.ready (h : Tended n c s k given) (hg : g.Sound s) (hn : g.varTotal = n)
    (hapart : ∀ d, g.Owns d → d ∉ c.tags) : Ready g c s :=
  ⟨⟨hg, hn.symm ▸ h.fit, h.wired, hapart⟩, h.idle,
    fun x hx => h.range _ (List.mem_cons_self ..) x (hn ▸ hx)⟩

/-- What a pass that returns comes to. -/
theorem tagScope_eq {scope : Scope} (h : Ready g c s) (hret : tagScope g scope c s = .ok (c', s')) :
    Pass g c s (scope.Tags g c s) c' s' := by
  cases scope with
  | all =>
    obtain ⟨c₁, s₁, hret', hpass, _⟩ := tagAll_eq h
    cases hret.symm.trans hret'
    exact hpass
  | touching touched =>
    -- The tags of the touched variables were read, so these are variables.
    have htouched : ∀ x ∈ touched, x < g.varTotal := by
      intro x hx
      obtain ⟨affected, haffected, _⟩ := bind_eq_ok_iff.1 hret
      obtain ⟨_, _, htag⟩ := exists_of_mapM_eq_ok haffected hx
      obtain ⟨d, hfetch, _⟩ := bind_eq_ok_iff.1 htag
      rw [← h.fit.size_tags]
      exact (Array.getElem?_eq_some_iff.1 (fetch_eq_ok_iff.1 hfetch)).1
    obtain ⟨c₁, s₁, hret', hpass, _⟩ := tagTouched_eq h htouched
    cases hret.symm.trans hret'
    exact hpass

/-- The tags of a new tagging. -/
theorem Tended.new (hs : s.Sound) : Tended n (new s n).1 (new s n).2 0 ∅ := by
  have hlabelled := new_eq hs n
  refine ⟨hlabelled.grown.sound, hlabelled.fit, hlabelled.idle, hlabelled.wired, Nat.zero_le _,
    fun w hw => ?_, fun w hw x hx => ?_, fun t ht => absurd ht (Set.notMem_empty t)⟩
  · rw [List.take_zero] at hw
    exact absurd hw List.not_mem_nil
  · rw [List.take_zero] at hw
    obtain rfl := List.mem_singleton.1 hw
    rw [hlabelled.tag_eq x hx, hlabelled.nextTag_eq]
    omega

/-- A pass keeps what holds of a tagging in use. -/
theorem Tended.pass {P : Nat → Prop} (h : Tended n c s k given) (hn : g.varTotal = n)
    (hP : ∀ x, P x → x < n) (hp : Pass g c s P c' s') :
    Tended n c' s' k (given ∪ {t | ∃ x, P x ∧ c'.tag s' x = .ok t}) := by
  have hpast : s'.trail.past = s.trail.past := hp.evolves.past_eq
  have htag : ∀ x < n, c'.tag s' x = .ok (c'.tagNow s' x) :=
    fun x hx => Tagging.tag_eq hp.ready.wired (by rw [hp.ready.fit.size_tags, hn]; exact hx)
  refine ⟨hp.evolves.sound, hn ▸ hp.ready.fit, hp.ready.idle, hp.ready.wired, hpast ▸ h.saved, ?_,
    fun w hw x hx => ?_, fun t ht => ?_⟩
  · rw [hpast, hp.tags_eq]
    exact h.has
  · rw [hpast] at hw
    obtain rfl | hw := List.mem_cons.1 hw
    · exact hp.ready.range x (hn.symm ▸ hx)
    · have hold := h.range w (List.mem_cons_of_mem _ hw) x hx
      have hle := hp.nextTag_le
      rw [tagIn, hp.tags_eq, ← tagIn]
      omega
  · obtain ht | ⟨x, hx, ht⟩ := ht
    · have := h.given_lt t ht
      have := hp.nextTag_le
      omega
    · rw [htag x (hP x hx)] at ht
      cases ht
      exact (hp.fresh x hx).2

/-- Whatever leaves the tags and the levels alone keeps what holds of a tagging in use. -/
theorem Tended.carry (h : Tended n c s k given) (hs : s'.Sound) (hwired : c.Wired s')
    (hpast : s'.trail.past = s.trail.past)
    (hget : ∀ d ∈ c.tags, s'.trail.now.get d = s.trail.now.get d) : Tended n c s' k given := by
  refine ⟨hs, h.fit, h.idle, hwired, hpast ▸ h.saved, hpast ▸ h.has, fun w hw => ?_, h.given_lt⟩
  rw [hpast] at hw
  obtain rfl | hw := List.mem_cons.1 hw
  · have htag : c.tagIn s'.trail.now = c.tagIn s.trail.now := by
      funext x
      rw [tagIn, tagIn]
      split
      · rename_i d hd
        exact hget d (Array.mem_of_getElem? hd)
      · rfl
    rw [htag]
    exact h.range _ (List.mem_cons_self ..)
  · exact h.range w (List.mem_cons_of_mem _ hw)

/-- A level is saved. -/
theorem Tended.save (h : Tended n c s k given) : Tended n c s.save (k + 1) given := by
  obtain ⟨hnow, hpast, _⟩ := Trail.save_eq h.store.trail.tracked
  have hnow : s.save.trail.now = s.trail.now := hnow
  have hpast : s.save.trail.past = s.trail.now :: s.trail.past := hpast
  refine ⟨h.store.save, h.fit, h.idle, ⟨h.wired.distinct, fun d hd => ?_, fun d hd => ?_⟩, ?_,
    fun w hw => ?_, fun w hw => ?_, h.given_lt⟩
  · rw [hnow]
    exact h.wired.has d hd
  · have hfree := h.wired.free d hd
    exact ⟨hfree.not_isSetCell, hfree.ne_varCount, hfree.ne_eventCount⟩
  · rw [hpast]
    exact Nat.succ_le_succ h.saved
  · rw [hpast, List.take_succ_cons] at hw
    obtain rfl | hw := List.mem_cons.1 hw
    · exact h.wired.has
    · exact h.has w hw
  · rw [hnow, hpast, List.take_succ_cons] at hw
    obtain rfl | hw := List.mem_cons.1 hw
    · exact h.range _ (List.mem_cons_self ..)
    · exact h.range w hw

/-- A level is restored. -/
theorem Tended.restore (h : Tended n c s (k + 1) given) (hret : s.restore = .ok s') :
    Tended n c s' k given := by
  obtain ⟨w, rest, hpast, hr⟩ := h.store.restored_of_ok hret
  have hsaved := h.saved
  have hhas := h.has
  have hrange := h.range
  rw [hpast] at hsaved
  rw [hpast, List.take_succ_cons] at hhas hrange
  refine ⟨hr.sound, h.fit, h.idle, ⟨h.wired.distinct, fun d hd => ?_,
    fun d hd => hr.free (h.wired.free d hd)⟩, ?_, fun w' hw' => ?_, fun w' hw' => ?_, h.given_lt⟩
  · rw [hr.now_eq]
    exact hhas w (List.mem_cons_self ..) d hd
  · rw [hr.past_eq]
    exact Nat.le_of_succ_le_succ hsaved
  · rw [hr.past_eq] at hw'
    exact hhas w' (List.mem_cons_of_mem _ hw')
  · rw [hr.now_eq, hr.past_eq] at hw'
    exact hrange w' (List.mem_cons_of_mem _ hw')

theorem Scope.lt_of_tags {scope : Scope} (hx : scope.Tags g c s x) : x < g.varTotal := by
  cases scope with
  | all => exact (ValueGraph.mem_active.1 hx).1
  | touching touched => exact (ValueGraph.mem_active.1 hx.1).1

theorem InUse.tended (h : InUse n c s k given) : Tended n c s k given := by
  induction h with
  | new hs => exact .new hs
  | pass hg hn hapart hret _ ih =>
    exact ih.pass hn (fun x hx => hn ▸ Scope.lt_of_tags hx)
      (tagScope_eq (ih.ready hg hn hapart) hret)
  | evolve hC he _ ih =>
    exact ih.carry he.sound (ih.wired.of_evolves he rfl) he.past_eq fun d hd =>
      he.get_eq d (ih.wired.free d hd).not_isSetCell (hC d hd)
  | grow hg _ ih =>
    exact ih.carry hg.sound ⟨ih.wired.distinct, fun d hd => hg.has d (ih.wired.has d hd),
      fun d hd => hg.free d (ih.wired.has d hd) (ih.wired.free d hd)⟩ hg.past_eq fun d hd =>
        hg.get_eq d (ih.wired.has d hd) (ih.wired.free d hd)
  | clearEvents _ ih =>
    refine ih.carry ih.store.clearEvents ⟨ih.wired.distinct, ih.wired.has, fun d hd => ?_⟩ rfl
      fun _ _ => rfl
    have hfree := ih.wired.free d hd
    exact ⟨hfree.not_isSetCell, hfree.ne_varCount, hfree.ne_eventCount⟩
  | save _ ih => exact ih.save
  | restore hret _ ih => exact ih.restore hret

/-- A pass that is undone leaves the graph as it was, and the tags it gave count as given. -/
theorem InUse.undone {scope : Scope} (h : InUse n c s k given) (hg : g.Sound s)
    (hn : g.varTotal = n) (hapart : ∀ d, g.Owns d → d ∉ c.tags) {s₁ : Store}
    (hret : tagScope g scope c s.save = .ok (c', s₁)) (hrestore : s₁.restore = .ok s') :
    InUse n c' s' k (given ∪ {t | ∃ x, scope.Tags g c s.save x ∧ c'.tag s₁ x = .ok t}) ∧
      g.Sound s' ∧ g.now s' = g.now s ∧ c'.tags = c.tags := by
  obtain ⟨hsaved, _⟩ := hg.save
  have hpass := tagScope_eq (h.save.tended.ready hsaved hn hapart) hret
  obtain ⟨w, rest, hpast, hr⟩ := hpass.evolves.sound.restored_of_ok hrestore
  -- The level that is restored is the one that was saved.
  have hw : w = s.trail.now := by
    obtain ⟨_, hpast', _⟩ := Trail.save_eq hg.store.trail.tracked
    have hpast' : s.save.trail.past = s.trail.now :: s.trail.past := hpast'
    rw [hpass.evolves.past_eq, hpast'] at hpast
    exact (List.cons.inj hpast).1.symm
  subst hw
  obtain ⟨hg', hnow⟩ := hpass.ready.graph.restored hr hg.wired.has hg.intact
  exact ⟨(h.save.pass hsaved hn hapart hret).restore hrestore, hg', hnow, hpass.tags_eq⟩

/-- Tags are made for a graph, and a full pass is undone. -/
theorem InUse.exists_undone {s₁ : Store} (hg : g.Sound s) (hn : g.varTotal = n)
    (hret : tagAll g (Tagging.new s n).1 (Tagging.new s n).2.save = .ok (c', s₁))
    (hrestore : s₁.restore = .ok s') :
    ∃ given, InUse n c' s' 0 given ∧ g.Sound s' ∧ g.now s' = g.now s ∧
      (∀ d, g.Owns d → d ∉ c'.tags) ∧
      ∀ x ∈ (g.snapshot (g.now s)).active, ∀ t, c'.tag s₁ x = .ok t → t ∈ given := by
  have hlabelled := new_eq hg.store n
  have hapart : ∀ d, g.Owns d → d ∉ (Tagging.new s n).1.tags :=
    fun d hd hd' => hlabelled.new d hd' (hg.wired.has d hd)
  have hgrown := hg.of_grown hlabelled.grown
  have hnow := hg.now_of_grown hlabelled.grown
  have hall : tagScope g .all (Tagging.new s n).1 (Tagging.new s n).2.save = .ok (c', s₁) := hret
  obtain ⟨hused, hsound, hnow', htags⟩ :=
    (InUse.new hg.store).undone hgrown hn hapart hall hrestore
  refine ⟨_, hused, hsound, hnow'.trans hnow, fun d hd => htags ▸ hapart d hd, fun x hx t ht => ?_⟩
  refine Or.inr ⟨x, ?_, ht⟩
  show x ∈ (g.snapshot (g.now (Tagging.new s n).2.save)).active
  rw [hgrown.save.2, hnow]
  exact hx

/-! ## A full pass -/

/-- After a full pass, two active variables have the same tag if and only if each leads to the other.
The tags of the active variables were never given before, not even by a pass that was undone, and
the other variables keep theirs.  The working memory is clean again, and passes of any kind do
what they do with a new working memory. -/
theorem InUse.tagAll_iff (hc : InUse g.varTotal c s k given) (hg : g.Sound s)
    (hapart : ∀ d, g.Owns d → d ∉ c.tags) :
    ∃ (c' : Tagging) (s' : Store) (tags : Nat → Int), tagAll g c s = .ok (c', s') ∧
      g.snapshot (g.now s') = g.snapshot (g.now s) ∧
      (∀ x < g.varTotal, c'.tag s' x = .ok (tags x)) ∧
      (∀ x ∈ (g.snapshot (g.now s)).active, ∀ y ∈ (g.snapshot (g.now s)).active,
        tags x = tags y ↔ (g.snapshot (g.now s)).Together x y) ∧
      (∀ x ∈ (g.snapshot (g.now s)).active, tags x ∉ given) ∧
      (∀ x < g.varTotal, x ∉ (g.snapshot (g.now s)).active → c.tag s x = .ok (tags x)) ∧
      c'.index = Array.replicate g.varTotal none ∧
      c'.region = Array.replicate g.varTotal outside ∧
      c'.onStack = Array.replicate g.varTotal false ∧ c'.stack = [] ∧ c'.calls = [] ∧
      ∀ (h : ValueGraph) (scope : Scope) (c'' : Tagging) (t t' : Store),
        (∃ l, tagScope h scope c' t = .ok (c''.withLow l, t')) ↔
          ∃ l, tagScope h scope (blank g.varTotal c'.tags c'.nextTag) t =
            .ok (c''.withLow l, t') := by
  have ht := hc.tended
  obtain ⟨c', s', hret, hpass, htogether⟩ := tagAll_eq (ht.ready hg rfl hapart)
  have hblank := eq_blank hpass.ready.fit hpass.ready.idle
  have hclean : (blank g.varTotal c'.tags c'.nextTag).Idle := by
    have hidle := hpass.ready.idle
    rw [hblank] at hidle
    exact ⟨hidle.index, hidle.stack, hidle.calls, hidle.region⟩
  have hsize : (blank g.varTotal c'.tags c'.nextTag).lowlink.size = c'.lowlink.size := by
    rw [hpass.ready.fit.size_lowlink]
    exact Array.size_replicate
  refine ⟨c', s', c'.tagNow s', hret, by rw [hpass.now_eq], fun x hx => ?_, htogether,
    fun x hx hgiven => ?_, fun x hx hnot => ?_, ?_, ?_, ?_, hpass.ready.idle.stack,
    hpass.ready.idle.calls, fun h scope c'' t t' => ⟨fun ⟨l, hnext⟩ => ?_, fun ⟨l, hnext⟩ => ?_⟩⟩
  · exact Tagging.tag_eq hpass.ready.wired (hpass.ready.fit.size_tags.symm ▸ hx)
  · have := ht.given_lt _ hgiven
    have := (hpass.fresh x hx).1
    omega
  · rw [ht.tag_eq hx, hpass.other x hnot]
  · rw [hblank]
    rfl
  · rw [hblank]
    rfl
  · rw [hblank]
    rfl
  · obtain ⟨l', hnext'⟩ := tagScope_withLow hpass.ready.idle hsize hnext
    refine ⟨l', ?_⟩
    have hback : c'.withLow (blank g.varTotal c'.tags c'.nextTag).lowlink =
        blank g.varTotal c'.tags c'.nextTag := by
      conv_lhs => rw [hblank]
      rfl
    rw [← hback]
    exact hnext'
  · obtain ⟨l', hnext'⟩ := tagScope_withLow hclean hsize.symm hnext
    refine ⟨l', ?_⟩
    rw [hblank]
    exact hnext'

/-- A pass is undone, and the tags it gave are not given again. -/
theorem InUse.tagAll_iff_undone : ∃ m g c s given c' s', (Model.empty .lastFirst).driveAll
      Model.Call.Installs .consistent
      [.declare (.primitive 0 1), .declare (.primitive 0 1), .declare (.primitive 2 3)] =
        .ok (.consistent, m) ∧
      (ValueGraph.build m.store #[⟨0⟩, ⟨1⟩, ⟨2⟩] >>= fun made => Matcher.greedy made.1 made.2 >>=
        fun s => tagAll made.1 (Tagging.new s 3).1 (Tagging.new s 3).2.save >>= fun undone =>
          undone.2.restore >>= fun s => .ok (made.1, undone.1, s)) = .ok (g, c, s) ∧
      InUse g.varTotal c s 0 given ∧ g.Sound s ∧ 0 ∈ given ∧ 1 ∈ given ∧
      tagAll g c s = .ok (c', s') ∧ c'.tag s' 0 = .ok 2 ∧ c'.tag s' 1 = .ok 2 ∧
      c'.tag s' 2 = .ok 3 ∧ (g.snapshot (g.now s)).Together 0 1 ∧
      ¬ (g.snapshot (g.now s)).Together 0 2 := by
  have hrun : ((Model.empty .lastFirst).driveAll Model.Call.Installs .consistent
      [.declare (.primitive 0 1), .declare (.primitive 0 1), .declare (.primitive 2 3)] >>= fun r =>
        ValueGraph.build r.2.store #[⟨0⟩, ⟨1⟩, ⟨2⟩] >>= fun made =>
        Matcher.greedy made.1 made.2 >>= fun s =>
        tagAll made.1 (Tagging.new s 3).1 (Tagging.new s 3).2.save >>= fun undone =>
        undone.2.restore >>= fun s' =>
        made.1.activeVars s >>= fun actives =>
        undone.1.tag undone.2 0 >>= fun old => undone.1.tag undone.2 2 >>= fun old' =>
        tagAll made.1 undone.1 s' >>= fun last =>
        last.1.tag last.2 0 >>= fun t₀ => last.1.tag last.2 1 >>= fun t₁ =>
        last.1.tag last.2 2 >>= fun t₂ =>
            .ok (r.1, r.2.store.definitions.size, made.1.varTotal, actives, [old, old', t₀, t₁, t₂])) =
      .ok (.consistent, 3, 3, [0, 1, 2], [0, 1, 2, 2, 3]) := by decide +kernel
  obtain ⟨⟨last, m⟩, hm, hrun⟩ := bind_eq_ok_iff.1 hrun
  obtain ⟨⟨g, s₀⟩, hbuild, hrun⟩ := bind_eq_ok_iff.1 hrun
  obtain ⟨s₁, hgreedy, hrun⟩ := bind_eq_ok_iff.1 hrun
  obtain ⟨⟨c, s₂⟩, hundone, hrun⟩ := bind_eq_ok_iff.1 hrun
  obtain ⟨s, hrestore, hrun⟩ := bind_eq_ok_iff.1 hrun
  obtain ⟨actives, hactive, hrun⟩ := bind_eq_ok_iff.1 hrun
  obtain ⟨old, hold, hrun⟩ := bind_eq_ok_iff.1 hrun
  obtain ⟨old', hold', hrun⟩ := bind_eq_ok_iff.1 hrun
  obtain ⟨⟨c', s'⟩, hlast, hrun⟩ := bind_eq_ok_iff.1 hrun
  obtain ⟨t₀, ht₀, hrun⟩ := bind_eq_ok_iff.1 hrun
  obtain ⟨t₁, ht₁, hrun⟩ := bind_eq_ok_iff.1 hrun
  obtain ⟨t₂, ht₂, heq⟩ := bind_eq_ok_iff.1 hrun
  injection heq with heq
  simp only [Prod.mk.injEq, List.cons.injEq, and_true] at heq
  obtain ⟨rfl, hsize, hn, rfl, rfl, rfl, rfl, rfl, rfl⟩ := heq
  have hdriven : Model.Driven Model.Call.Installs m .consistent :=
    (Model.Driven.start .lastFirst).driveAll hm
  have hvars : ∀ x ∈ (#[⟨0⟩, ⟨1⟩, ⟨2⟩] : Array Var), x.index < m.store.definitions.size := by
    rw [hsize]
    decide
  obtain ⟨hg₁, _⟩ := Matcher.greedy_of_build hdriven.reached.guarded.store hvars hbuild hgreedy
  obtain ⟨given, hused, hg, hnow, hapart, hgiven⟩ := InUse.exists_undone hg₁ hn hundone hrestore
  obtain ⟨_, hactive', _, hmem⟩ := hg₁.activeVars_eq
  cases hactive.symm.trans hactive'
  rw [← hnow] at hmem hgiven
  obtain ⟨_, _, tags, hlast', _, htags, htogether, _⟩ :=
    InUse.tagAll_iff (hn.symm ▸ hused) hg hapart
  cases hlast.symm.trans hlast'
  have hread : ∀ {x : Nat} {t : Int}, x < 3 → c'.tag s' x = .ok t → tags x = t :=
    fun hx ht => Except.ok.inj ((htags _ (hn.symm ▸ hx)).symm.trans ht)
  have hmem₀ := (hmem 0).1 (by decide)
  have hmem₂ := (hmem 2).1 (by decide)
  refine ⟨m, g, c, s, given, c', s', hm, ?_, hn.symm ▸ hused, hg, hgiven 0 hmem₀ _ hold,
    hgiven 2 hmem₂ _ hold', hlast, ht₀, ht₁, ht₂, ?_, ?_⟩
  · rw [hbuild, ok_bind, hgreedy, ok_bind]
    exact bind_eq_ok_iff.2 ⟨_, hundone, bind_eq_ok_iff.2 ⟨_, hrestore, rfl⟩⟩
  · rw [← htogether 0 hmem₀ 1 ((hmem 1).1 (by decide)), hread (by decide) ht₀,
      hread (by decide) ht₁]
  · rw [← htogether 0 hmem₀ 2 hmem₂, hread (by decide) ht₀, hread (by decide) ht₂]
    decide

end Tagging

end FiniteDomain.AllDifferent
