import FiniteDomain.AllDifferent.ForwardCheck
import FiniteDomain.Proofs.AllDifferent.Cascade

/-!
# Forward checking

`Sync.Sound` is the invariant of forward checking, and `Sync.Follows` says what has happened between
two of its states: single values were denied and nothing else was done to domains, so nothing was
removed that a choice needs; what grounded variables keep is right; and the matching is the same
unless a change of it was noted.  The functions are described from the inside out: `dropStale_eq`,
`takeValue_eq`, `retire_eq`, `denyAll_eq`, `settle_eq`, `visit_eq` and `run_eq`.  None of them fails,
and a verdict of failure means that some variable has lost all values (`Sync.Wiped`), so that there
is no choice.

While no attempt fails, more can be said.

* `Sync.Kept`: the value of a grounded variable is its only live edge, and no other variable has it.
* `Sync.Clean`: the live edges of a variable are the values of its domain.  When the work is done
  this holds of all variables, except for those that were not told to wait.
* `Sync.Alert`: active variables with a single value wait.  When the work is done there are none.
* A variable that is not among the touched ones has the edges it had.

In any case the changes count the live edges and the active variables that are gone.
-/

namespace FiniteDomain.AllDifferent

namespace Worklist

/-- Several variables wait at most once each. -/
theorem nodup_pushAll {w : Worklist} (h : w.waiting.Nodup) (xs : List Nat) :
    (w.pushAll xs).waiting.Nodup := by
  induction xs generalizing w with
  | nil => exact h
  | cons x xs ih =>
    rw [pushAll, List.foldl_cons]
    exact ih (nodup_push h x)

end Worklist

namespace Sync

open Relation ValueGraph

/-! ## The invariant -/

/-- What the graph shows. -/
def snapshot (y : Sync) : Snapshot := y.graph.snapshot (y.graph.now y.store)

/-- The domains of the variables. -/
def domains (y : Sync) : Nat → Finset Int := y.graph.domains y.store

/-- What holds between two steps of forward checking. -/
structure Sound (y : Sync) : Prop where
  graph : y.graph.Sound y.store
  anchored : y.graph.Anchored y.store
  matched : y.snapshot.Matched
  fits : y.snapshot.Fits y.graph.val y.domains y.graph.varTotal
  nodup : y.work.waiting.Nodup
  work_lt : ∀ x ∈ y.work.waiting, x < y.graph.varTotal
  touched_lt : ∀ x ∈ y.changes.touched, x < y.graph.varTotal

/-- No choice is left. -/
def Hopeless (y : Sync) : Prop := AllDifferent.Hopeless y.domains y.graph.varTotal

/-- If the work has failed, a variable has lost all values. -/
def Wiped (y : Sync) (verdict : Verdict) : Prop :=
  verdict ≠ .consistent →
    verdict = .failed .domainWipeout ∧ ∃ z < y.graph.varTotal, y.domains z = ∅

/-- Grounded variables keep what they have in every choice. -/
def Faithful (y : Sync) : Prop := y.snapshot.Faithful y.graph.val y.domains y.graph.varTotal

/-- What has happened between two states. -/
structure Follows (y y' : Sync) : Prop where
  step : Step y.graph y.store y'.graph y'.store
  sound : y'.Sound
  keeps : ∀ F, y.graph.Supports y.store F → (∀ p, F p ⊆ y.store.domain p) →
    ∀ p, F p ⊆ y'.store.domain p
  denies : ReflTransGen (y.graph.Denies y.store) y.store.domain y'.store.domain
  honest : y.Faithful →
    y'.Hopeless ∨ y'.Faithful ∧ ∀ k, y.snapshot.Bounded k → y'.snapshot.Bounded k
  changed : y.changes.matchingChanged = true → y'.changes.matchingChanged = true
  matching : y'.changes.matchingChanged = false →
    y'.snapshot.mate = y.snapshot.mate ∧ y'.snapshot.owner = y.snapshot.owner
  touched : ∀ x ∈ y.changes.touched, x ∈ y'.changes.touched

/-- A grounded variable keeps its mate, which is its only edge and no value of another variable. -/
def Kept (y : Sync) : Prop :=
  ∀ x < y.graph.varTotal, x ∉ y.snapshot.active → ∃ a, y.snapshot.mate x = some a ∧
    (∀ v ∈ y.snapshot.live x, v = a) ∧
    ∀ z < y.graph.varTotal, z ≠ x → y.graph.val a ∉ y.domains z

/-- Every grounded variable has a value. -/
def Filled (y : Sync) : Prop :=
  ∀ x < y.graph.varTotal, x ∉ y.snapshot.active → y.domains x ≠ ∅

/-- The live edges of a variable lead to values of its domain. -/
def Clean (y : Sync) (x : Nat) : Prop := ∀ v ∈ y.snapshot.live x, y.graph.val v ∈ y.domains x

/-- Every active variable with a single value waits. -/
def Alert (y : Sync) : Prop :=
  ∀ x ∈ y.snapshot.active, (y.domains x).card = 1 → x ∈ y.work.waiting

/-- The number of live edges, variable by variable. -/
def edges (y : Sync) : Nat := ∑ x ∈ Finset.range y.graph.varTotal, (y.snapshot.live x).card

variable {y y' y'' : Sync} {x a : Nat} {verdict : Verdict}

theorem Sound.within (h : y.Sound) :
    y.snapshot.Within y.graph.varTotal y.graph.valueTotal y.graph.val :=
  h.graph.within

/-- The values of live edges are read. -/
theorem Sound.reads_of_live (h : y.Sound) {v : Nat} (hv : v ∈ y.snapshot.live x) :
    y.store.Reads (y.graph.varOf x) (y.graph.val v) := by
  obtain ⟨e, hlive, rfl, rfl⟩ := mem_live.1 hv
  exact h.anchored.reads e hlive.1

/-- The values of the domains are read. -/
theorem Sound.readable (h : y.Sound) (hx : x < y.graph.varTotal) :
    y.store.Readable (y.graph.varOf x) := by
  intro u hu
  obtain ⟨v, hv, rfl⟩ := h.fits x hx u hu
  exact h.reads_of_live hv

/-- No choice is left when a variable has no value. -/
theorem Wiped.hopeless (h : y.Wiped verdict) (hv : verdict ≠ .consistent) : y.Hopeless := by
  obtain ⟨_, z, hz, hempty⟩ := h hv
  intro φ hφ
  have hmem := hφ.mem z hz
  rw [hempty] at hmem
  exact Finset.notMem_empty _ hmem

theorem Follows.refl (h : y.Sound) : Follows y y :=
  ⟨.refl h.graph, h, fun _ _ hle => hle, .refl, fun hf => Or.inr ⟨hf, fun _ hb => hb⟩, fun hc => hc,
    fun _ => ⟨rfl, rfl⟩, fun _ hx => hx⟩

theorem Follows.domains_subset (h : Follows y y') (x : Nat) : y'.domains x ⊆ y.domains x :=
  ValueGraph.domains_subset h.step.alike h.step.evolves x

theorem Follows.hopeless (h : Follows y y') (hy : y.Hopeless) : y'.Hopeless := by
  rw [Hopeless, h.step.alike.varTotal_eq]
  exact AllDifferent.Hopeless.mono hy fun x _ => h.domains_subset x

theorem Follows.trans (h : Follows y y') (h' : Follows y' y'') : Follows y y'' where
  step := h.step.trans h'.step
  sound := h'.sound
  keeps F hF hle := h'.keeps F ((supports_congr h.step.alike h.step.evolves.path_eq).2 hF)
    (h.keeps F hF hle)
  denies := h.denies.trans (denies_congr h.step.alike h.step.evolves.path_eq ▸ h'.denies)
  honest hf := by
    obtain hy | ⟨hf', hb⟩ := h.honest hf
    · exact Or.inl (h'.hopeless hy)
    · obtain hy | ⟨hf'', hb'⟩ := h'.honest hf'
      · exact Or.inl hy
      · exact Or.inr ⟨hf'', fun k hk => hb' k (hb k hk)⟩
  changed hc := h'.changed (h.changed hc)
  matching hc := by
    have hc' : y'.changes.matchingChanged = false := by
      by_contra hne
      rw [h'.changed (eq_true_of_ne_false hne)] at hc
      cases hc
    exact ⟨(h'.matching hc).1.trans (h.matching hc').1, (h'.matching hc).2.trans (h.matching hc').2⟩
  touched x hx := h'.touched x (h.touched x hx)

/-- A change of the graph in which grounded variables keep their mates. -/
theorem Follows.of_becomes (h : y.Sound) {q : Snapshot}
    (hb : Becomes y.graph y.store y'.graph y'.store q) (hm : q.Matched)
    (hfit : q.Fits y.graph.val y.domains y.graph.varTotal)
    (hhonest : y.Faithful → y.Hopeless ∨ q.Faithful y.graph.val y.domains y.graph.varTotal ∧
      ∀ k, y.snapshot.Bounded k → q.Bounded k)
    (hwork : y'.work = y.work) (htouched : y'.changes.touched = y.changes.touched)
    (hchanged : y.changes.matchingChanged = true → y'.changes.matchingChanged = true)
    (hmatching : y'.changes.matchingChanged = false →
      q.mate = y.snapshot.mate ∧ q.owner = y.snapshot.owner) : Follows y y' := by
  have hshows : y'.snapshot = q := hb.shows
  have hdom : y'.domains = y.domains :=
    domains_congr hb.alike hb.evolves.path_eq hb.domain_eq
  refine ⟨hb.toStep, ⟨hb.sound, h.anchored.of_evolves hb.alike hb.evolves, ?_, ?_, ?_, ?_, ?_⟩,
    ?_, ?_, ?_, hchanged, ?_, ?_⟩
  · rw [hshows]
    exact hm
  · rw [hshows, hdom, hb.alike.val_eq, hb.alike.varTotal_eq]
    exact hfit
  · rw [hwork]
    exact h.nodup
  · rw [hwork, hb.alike.varTotal_eq]
    exact h.work_lt
  · rw [htouched, hb.alike.varTotal_eq]
    exact h.touched_lt
  · intro F _ hle p
    rw [hb.domain_eq]
    exact hle p
  · rw [funext hb.domain_eq]
  · intro hf
    rw [Hopeless, Faithful, hdom, hb.alike.val_eq, hb.alike.varTotal_eq, hshows]
    exact hhonest hf
  · intro hc
    rw [hshows]
    exact hmatching hc
  · rw [htouched]
    exact fun _ hx => hx

/-! ## Stale edges -/

/-- Some edges of the variable `x` were taken out, and nothing else was done. -/
structure Trimmed (x : Nat) (y y' : Sync) : Prop where
  follows : Follows y y'
  keeps : Snapshot.Keeps y.snapshot y'.snapshot
  live_eq : ∀ z, z ≠ x → y'.snapshot.live z = y.snapshot.live z
  domain_eq : ∀ p, y'.store.domain p = y.store.domain p
  work_eq : y'.work = y.work
  touched_eq : y'.changes.touched = y.changes.touched
  grounded_eq : y'.changes.grounded = y.changes.grounded
  unlinked_le : y.changes.unlinked ≤ y'.changes.unlinked
  card_add : (y'.snapshot.live x).card + y'.changes.unlinked =
    (y.snapshot.live x).card + y.changes.unlinked
  same : y'.changes.unlinked = y.changes.unlinked → y' = y

theorem Trimmed.refl (h : y.Sound) (x : Nat) : Trimmed x y y :=
  ⟨.refl h, .refl _, fun _ _ => rfl, fun _ => rfl, rfl, rfl, rfl, Nat.le_refl _, rfl, fun _ => rfl⟩

theorem Trimmed.trans (h : Trimmed x y y') (h' : Trimmed x y' y'') : Trimmed x y y'' where
  follows := h.follows.trans h'.follows
  keeps := h.keeps.trans h'.keeps
  live_eq z hz := (h'.live_eq z hz).trans (h.live_eq z hz)
  domain_eq p := (h'.domain_eq p).trans (h.domain_eq p)
  work_eq := h'.work_eq.trans h.work_eq
  touched_eq := h'.touched_eq.trans h.touched_eq
  grounded_eq := h'.grounded_eq.trans h.grounded_eq
  unlinked_le := Nat.le_trans h.unlinked_le h'.unlinked_le
  card_add := h'.card_add.trans h.card_add
  same heq := by
    have hle := h.unlinked_le
    have hle' := h'.unlinked_le
    rw [h'.same (by omega), h.same (by omega)]

theorem Trimmed.domains_eq (h : Trimmed x y y') : y'.domains = y.domains :=
  domains_congr h.follows.step.alike h.follows.step.evolves.path_eq h.domain_eq

/-- A live edge whose value left the domain is taken out. -/
theorem Trimmed.of_drop (h : y.Sound) {v : Nat} (hx : x ∈ y.snapshot.active)
    (hv : v ∈ y.snapshot.live x)
    (hstale : y.graph.val v ∉ y.domains x)
    (hb : Becomes y.graph y.store y'.graph y'.store (y.snapshot.drop x v))
    (hwork : y'.work = y.work) (htouched : y'.changes.touched = y.changes.touched)
    (hgrounded : y'.changes.grounded = y.changes.grounded)
    (hunlinked : y'.changes.unlinked = y.changes.unlinked + 1)
    (hrematched : y'.changes.rematched = y.changes.rematched)
    (hfreed : y.snapshot.mate x = some v ∧ y'.changes.freed = y.changes.freed.push x ∨
      y.snapshot.mate x ≠ some v ∧ y'.changes.freed = y.changes.freed) : Trimmed x y y' := by
  have hkeeps := Snapshot.keeps_drop hx v
  have hm := h.matched.drop x v
  have hshows : y'.snapshot = y.snapshot.drop x v := hb.shows
  have hfollows : Follows y y' := by
    refine .of_becomes h hb hm ?_ (fun hf => Or.inr ⟨hkeeps.faithful hf,
      fun k hk => hkeeps.bounded h.matched hm hk⟩) hwork htouched ?_ ?_
    · intro z hz u hu
      obtain ⟨v', hv', rfl⟩ := h.fits z hz u hu
      refine ⟨v', ?_, rfl⟩
      rw [Snapshot.drop_live]
      by_cases hzx : z = x
      · subst hzx
        rw [Function.update_self, Finset.mem_erase]
        exact ⟨fun heq => hstale (heq ▸ hu), hv'⟩
      · rw [Function.update_of_ne hzx]
        exact hv'
    · intro hc
      rw [Changes.matchingChanged, hrematched]
      rw [Changes.matchingChanged] at hc
      obtain ⟨_, hf⟩ | ⟨_, hf⟩ := hfreed
      · rw [hf, Array.isEmpty_push, Bool.not_false, Bool.or_true]
      · rw [hf, hc]
    · intro hc
      obtain ⟨_, hf⟩ | ⟨hv, _⟩ := hfreed
      · rw [Changes.matchingChanged, hf, Array.isEmpty_push, Bool.not_false, Bool.or_true] at hc
        cases hc
      · rw [Snapshot.drop, if_neg hv]
        exact ⟨rfl, rfl⟩
  refine ⟨hfollows, by rw [hshows]; exact hkeeps, fun z hz => ?_, hb.domain_eq, hwork, htouched,
    hgrounded, by omega, ?_, fun heq => by omega⟩
  · rw [hshows, Snapshot.drop_live, Function.update_of_ne hz]
  · have hcard := Finset.card_erase_add_one hv
    rw [hshows, Snapshot.drop_live, Function.update_self]
    omega

/-- One edge is looked at. -/
theorem dropIfStale_eq (h : y.Sound) {e : Nat} (he : e < y.graph.edgeTotal)
    (hx : y.graph.tail e ∈ y.snapshot.active) :
    ∃ dropped y', y.dropIfStale (y.graph.tail e) (y.graph.varOf (y.graph.tail e)) e =
        .ok (dropped, y') ∧ Trimmed (y.graph.tail e) y y' ∧ (dropped = false → y' = y) ∧
      (dropped = true → y.changes.unlinked < y'.changes.unlinked) ∧
      (y'.graph.Live (y'.graph.now y'.store) e →
        y.graph.val (y.graph.head e) ∈ y.domains (y.graph.tail e)) := by
  obtain ⟨graph, store, work, changes⟩ := y
  have hg : graph.Sound store := h.graph
  have ha : graph.Anchored store := h.anchored
  have he : e < graph.edgeTotal := he
  have hv := hg.layout.head_lt e he
  have hxn := hg.layout.tail_lt e he
  have hcontains := Store.contains_eq hg.store (ha.var_lt _ hxn) (ha.reads e he)
  rw [dropIfStale]
  dsimp only
  rw [hg.layout.fetch_edgeValue he, ok_bind, hg.isLive_eq he, ok_bind]
  by_cases hlive : graph.Live (graph.now store) e
  · rw [if_neg (by rw [decide_eq_true hlive]; exact fun heq => by cases heq), value_eq hv, ok_bind,
      hcontains, ok_bind]
    by_cases hmem : graph.val (graph.head e) ∈ store.view (graph.varOf (graph.tail e))
    · rw [if_pos (decide_eq_true hmem)]
      exact ⟨_, _, rfl, .refl h _, fun _ => rfl, (fun heq => by cases heq), fun _ => hmem⟩
    · have hedge : graph.head e ∈ (graph.snapshot (graph.now store)).live (graph.tail e) :=
        mem_live.2 ⟨e, hlive, rfl, rfl⟩
      obtain ⟨graph', store', hunlink, hb⟩ := unlink_eq hg hlive
      have hmate : graph'.mate? store' (graph.tail e) =
          .ok ((graph.snapshot (graph.now store)).mate (graph.tail e)) := by
        rw [hb.sound.mate?_eq (hb.alike.varTotal_eq ▸ hxn), hb.shows]
        rfl
      have hgone : ∀ {g'' s''}, Step graph' store' g'' s'' →
          ¬ g''.Live (g''.now s'') e := by
        intro g'' s'' hstep hl
        have hl' := mem_live.2 ⟨e, hstep.live_of_live hl, rfl, rfl⟩
        rw [hb.shows, hb.alike.tail_eq, hb.alike.head_eq] at hl'
        exact Finset.notMem_erase _ _ (by
          rw [Snapshot.unlink] at hl'
          dsimp only at hl'
          rw [Function.update_self] at hl'
          exact hl')
      rw [if_neg (by rw [decide_eq_false hmem]; exact fun heq => by cases heq), hunlink, ok_bind]
      dsimp only
      rw [hmate, ok_bind]
      by_cases hmated : (graph.snapshot (graph.now store)).mate (graph.tail e) =
          some (graph.head e)
      · obtain ⟨store'', hrelease, hb'⟩ := releaseMate_eq hb.sound (hb.alike.varTotal_eq ▸ hxn)
        rw [if_pos hmated, hrelease, ok_bind]
        refine ⟨_, _, rfl, .of_drop h hx hedge hmem ⟨hb.toStep.trans hb'.toStep, ?_,
          fun p => (hb'.domain_eq p).trans (hb.domain_eq p)⟩ rfl rfl rfl rfl rfl
          (Or.inl ⟨hmated, rfl⟩), (fun heq => by cases heq), fun _ => Nat.lt_succ_self _,
          fun hl => absurd hl (hgone hb'.toStep)⟩
        rw [hb'.shows, hb.shows, Snapshot.drop]
        exact (if_pos hmated).symm
      · rw [if_neg hmated]
        refine ⟨_, _, rfl, .of_drop h hx hedge hmem ⟨hb.toStep, ?_, hb.domain_eq⟩ rfl rfl rfl rfl rfl
          (Or.inr ⟨hmated, rfl⟩), (fun heq => by cases heq), fun _ => Nat.lt_succ_self _,
          fun hl => absurd hl (hgone (.refl hb.sound))⟩
        rw [hb.shows, Snapshot.drop]
        exact (if_neg hmated).symm
  · rw [if_pos (by rw [decide_eq_false hlive]; rfl)]
    exact ⟨_, _, rfl, .refl h _, fun _ => rfl, (fun heq => by cases heq),
      fun hl => absurd hl hlive⟩

/-- Several edges of one variable are looked at. -/
theorem dropStale_eq (es : List Nat) :
    ∀ {y : Sync}, y.Sound → (∀ e ∈ es, e < y.graph.edgeTotal ∧ y.graph.tail e = x) →
      x ∈ y.snapshot.active →
      ∃ dropped y', dropStale x (y.graph.varOf x) es y = .ok (dropped, y') ∧ Trimmed x y y' ∧
        (dropped = false → y' = y) ∧ (dropped = true → y.changes.unlinked < y'.changes.unlinked) ∧
        ∀ e ∈ es, y'.graph.Live (y'.graph.now y'.store) e →
          y.graph.val (y.graph.head e) ∈ y.domains x := by
  induction es with
  | nil =>
    exact fun h _ _ => ⟨_, _, rfl, .refl h _, fun _ => rfl, (fun heq => by cases heq),
      fun _ he => by cases he⟩
  | cons e rest ih =>
    intro y h hes hx
    obtain ⟨he, rfl⟩ := hes e (List.mem_cons_self ..)
    obtain ⟨dropped, y₁, hone, htrim, hsame, hmore, hlive⟩ := dropIfStale_eq h he hx
    have halike := htrim.follows.step.alike
    obtain ⟨more, y₂, hrest, htrim', hsame', hmore', hlive'⟩ := ih htrim.follows.sound
      (fun e' he' => by
        rw [halike.edgeTotal_eq, halike.tail_eq]
        exact hes e' (List.mem_cons_of_mem _ he'))
      (by rw [htrim.keeps.active_eq]; exact hx)
    refine ⟨dropped || more, y₂, ?_, htrim.trans htrim', ?_, ?_, ?_⟩
    · rw [halike.varOf_eq] at hrest
      rw [dropStale, hone, ok_bind]
      dsimp only
      rw [hrest]
      rfl
    · intro hor
      rw [Bool.or_eq_false_iff] at hor
      rw [hsame' hor.2, hsame hor.1]
    · intro hor
      obtain hd | hm := Bool.or_eq_true_iff.1 hor
      · exact Nat.lt_of_lt_of_le (hmore hd) htrim'.unlinked_le
      · exact Nat.lt_of_le_of_lt htrim.unlinked_le (hmore' hm)
    · intro e' he' hl
      obtain rfl | he' := List.mem_cons.1 he'
      · exact hlive (htrim'.follows.step.live_of_live hl)
      · have := hlive' e' he' hl
        rw [halike.val_eq, halike.head_eq, htrim.domains_eq] at this
        exact this

/-! ## Grounding -/

/-- The variable `x` is active, and `a` is its only value. -/
structure Single (x a : Nat) (y : Sync) : Prop where
  active : x ∈ y.snapshot.active
  live : a ∈ y.snapshot.live x
  domain_eq : y.domains x = {y.graph.val a}

namespace Single

theorem mem (h : Single x a y) : y.graph.val a ∈ y.domains x := by
  rw [h.domain_eq]
  exact Finset.mem_singleton_self _

theorem only (h : Single x a y) {u : Int} (hu : u ∈ y.domains x) : u = y.graph.val a := by
  rw [h.domain_eq] at hu
  exact Finset.mem_singleton.1 hu

/-- The value of an active variable that has one is looked up. -/
theorem exists_of_card (h : y.Sound) (hx : x ∈ y.snapshot.active)
    (hone : (y.domains x).card = 1) :
    ∃ a, Single x a y ∧ y.store.min? (y.graph.varOf x) = .ok (some (y.graph.val a)) ∧
      y.graph.valueId? (y.graph.val a) = some a := by
  have hxn := h.within.active_lt x hx
  obtain ⟨u, hu⟩ := Finset.card_eq_one.1 hone
  have hmem : u ∈ y.domains x := by
    rw [hu]
    exact Finset.mem_singleton_self u
  obtain ⟨a, hlive, rfl⟩ := h.fits x hxn u hmem
  have han := (h.within.live_lt x a hlive).2
  refine ⟨a, ⟨hx, hlive, hu⟩, ?_, h.graph.layout.valueId?_eq_some.2 ⟨han, rfl⟩⟩
  obtain ⟨hnone, _⟩ | ⟨u, hu', hmin⟩ :=
    Store.min?_cases h.graph.store (h.anchored.var_lt x hxn) (h.readable hxn)
  · exact absurd hnone (Finset.ne_empty_of_mem hmem)
  · rw [hmin, Finset.mem_singleton.1 (hu ▸ hu' : u ∈ ({y.graph.val a} : Finset Int))]

/-- A grounded variable that keeps the value of `x` leaves no choice. -/
theorem hopeless_of_owner (h : y.Sound) (hs : Single x a y) (hf : y.Faithful) {z : Nat}
    (howner : y.snapshot.owner a = some z) (hz : z ∉ y.snapshot.active) : y.Hopeless := by
  intro φ hφ
  have hmate := h.matched.mate_of_owner a z howner
  have hzn := (h.within.mate_lt z a hmate).1
  have hxn := h.within.active_lt x hs.active
  obtain ⟨b, hb, hval⟩ := hf φ hφ z hzn hz
  obtain rfl : a = b := Option.some.inj (hmate.symm.trans hb)
  have hφx := hs.only (hφ.mem x hxn)
  obtain rfl := hφ.distinct z hzn x hxn (by rw [← hval, hφx])
  exact hz hs.active

end Single

/-- Whatever the code does, the graph becomes what `take` says. -/
theorem Follows.of_take (h : y.Sound) (hs : Single x a y)
    (hb : Becomes y.graph y.store y'.graph y'.store (y.snapshot.take x a))
    (hwork : y'.work = y.work) (htouched : y'.changes.touched = y.changes.touched)
    (hwhich : y.snapshot.mate x = some a ∧ y'.changes = y.changes ∨
      y'.changes.rematched = true) : Follows y y' := by
  have hm := h.matched
  have htaken := (hm.take hs.live).1
  refine .of_becomes h hb htaken ?_ (fun hf => ?_) hwork htouched (fun hc => ?_) fun hc => ?_
  · intro z hz u hu
    obtain ⟨v, hv, hval⟩ := h.fits z hz u hu
    exact ⟨v, by rw [hm.take_live]; exact hv, hval⟩
  · by_cases howner : ∀ z, y.snapshot.owner a = some z → z ∈ y.snapshot.active
    · have hkeeps := hm.keeps_take hs.active howner
      exact Or.inr ⟨hkeeps.faithful hf, fun k hk => hkeeps.bounded hm htaken hk⟩
    · simp only [not_forall] at howner
      obtain ⟨z, hz, hza⟩ := howner
      exact Or.inl (hs.hopeless_of_owner h hf hz hza)
  · obtain ⟨_, heq⟩ | hr := hwhich
    · rw [heq]
      exact hc
    · rw [Changes.matchingChanged, hr, Bool.true_or]
  · obtain ⟨hmate, _⟩ | hr := hwhich
    · rw [Snapshot.take, if_pos hmate]
      exact ⟨rfl, rfl⟩
    · rw [Changes.matchingChanged, hr, Bool.true_or] at hc
      cases hc

/-- A variable with one value is matched to it. -/
theorem takeValue_eq (h : y.Sound) (hs : Single x a y) :
    ∃ y', takeValue x a y = .ok y' ∧ Follows y y' ∧
      Becomes y.graph y.store y'.graph y'.store (y.snapshot.take x a) ∧ y'.work = y.work ∧
      y'.changes.touched = y.changes.touched ∧ y'.changes.grounded = y.changes.grounded ∧
      y'.changes.unlinked = y.changes.unlinked := by
  obtain ⟨graph, store, work, changes⟩ := y
  have hg : graph.Sound store := h.graph
  have hxn : x < graph.varTotal := (h.within.live_lt x a hs.live).1
  have han : a < graph.valueTotal := (h.within.live_lt x a hs.live).2
  rw [takeValue]
  dsimp only
  rw [hg.mate?_eq hxn, ok_bind]
  by_cases hmate : (graph.snapshot (graph.now store)).mate x = some a
  · have hb : Becomes graph store graph store
        ((graph.snapshot (graph.now store)).take x a) := by
      rw [Snapshot.take, if_pos hmate]
      exact ⟨.refl hg, rfl, fun _ => rfl⟩
    rw [if_pos hmate]
    exact ⟨_, rfl, .of_take h hs hb rfl rfl (Or.inl ⟨hmate, rfl⟩), hb, rfl, rfl, rfl, rfl⟩
  rw [if_neg hmate, hg.owner?_eq han, ok_bind]
  cases howner : (graph.snapshot (graph.now store)).owner a with
  | none =>
    obtain ⟨store₁, hrelease, hb₁⟩ := releaseMate_eq hg hxn
    obtain ⟨store₂, hassign, hb₂⟩ := assignMate_eq hb₁.sound hxn han
    have hb : Becomes graph store graph store₂
        ((graph.snapshot (graph.now store)).take x a) := by
      rw [Snapshot.take, if_neg hmate, howner]
      dsimp only
      rw [← hb₁.shows]
      exact hb₁.trans hb₂
    dsimp only
    rw [hrelease, ok_bind, hassign, ok_bind]
    exact ⟨_, rfl, .of_take h hs hb rfl rfl (Or.inr rfl), hb, rfl, rfl, rfl, rfl⟩
  | some owner =>
    obtain ⟨store₀, hrelease₀, hb₀⟩ := releaseMate_eq hg (hg.intact.owner_lt howner).1
    obtain ⟨store₁, hrelease, hb₁⟩ := releaseMate_eq hb₀.sound hxn
    obtain ⟨store₂, hassign, hb₂⟩ := assignMate_eq hb₁.sound hxn han
    have hb : Becomes graph store graph store₂
        ((graph.snapshot (graph.now store)).take x a) := by
      rw [Snapshot.take, if_neg hmate, howner]
      dsimp only
      rw [← hb₀.shows, ← hb₁.shows]
      exact (hb₀.trans hb₁).trans hb₂
    dsimp only
    rw [hrelease₀, ok_bind, hrelease, ok_bind, hassign, ok_bind]
    exact ⟨_, rfl, .of_take h hs hb rfl rfl (Or.inr rfl), hb, rfl, rfl, rfl, rfl⟩

/-- A variable that is matched to its one value is grounded. -/
theorem retire_eq (h : y.Sound) (hs : Single x a y) (ha : y.snapshot.mate x = some a) :
    ∃ y', retire x y = .ok y' ∧ Follows y y' ∧
      Becomes y.graph y.store y'.graph y'.store (y.snapshot.ground x) ∧ y'.work = y.work ∧
      y'.changes = { y.changes with grounded := y.changes.grounded + 1 } := by
  obtain ⟨graph, store, work, changes⟩ := y
  obtain ⟨graph', store', hground, hb⟩ := ground_eq h.graph (mem_active.1 hs.active)
  refine ⟨⟨graph', store', work, { changes with grounded := changes.grounded + 1 }⟩, ?_, ?_, hb,
    rfl, rfl⟩
  · rw [retire]
    dsimp only
    rw [hground]
    rfl
  · exact .of_becomes h hb (h.matched.ground x) h.fits
      (fun hf => Or.inr ⟨hf.ground ha hs.domain_eq.subset,
        fun k hk => hk.ground h.matched hs.active ha⟩) rfl rfl (fun hc => hc) fun _ => ⟨rfl, rfl⟩

/-- The variable `x` was matched to its only value `a`, and is no longer active. -/
structure Placed (x a : Nat) (y y' : Sync) : Prop where
  follows : Follows y y'
  becomes : Becomes y.graph y.store y'.graph y'.store ((y.snapshot.take x a).ground x)
  work_eq : y'.work = y.work
  touched_eq : y'.changes.touched = y.changes.touched
  unlinked_eq : y'.changes.unlinked = y.changes.unlinked
  grounded_eq : y'.changes.grounded = y.changes.grounded + 1

/-- A variable with one value is matched to it, and then grounded. -/
theorem place_eq (h : y.Sound) (hs : Single x a y) :
    ∃ y₁ y₂, takeValue x a y = .ok y₁ ∧ retire x y₁ = .ok y₂ ∧ Placed x a y y₂ := by
  obtain ⟨y₁, htake, hf₁, hb₁, hwork₁, htouched₁, hgrounded₁, hunlinked₁⟩ := takeValue_eq h hs
  have hshows₁ : y₁.snapshot = y.snapshot.take x a := hb₁.shows
  have hs₁ : Single x a y₁ := by
    refine ⟨?_, ?_, ?_⟩
    · rw [hshows₁, h.matched.take_active]
      exact hs.active
    · rw [hshows₁, h.matched.take_live]
      exact hs.live
    · rw [hb₁.alike.val_eq, ← hs.domain_eq]
      exact congrFun (domains_congr hb₁.alike hb₁.evolves.path_eq hb₁.domain_eq) x
  obtain ⟨y₂, hretire, hf₂, hb₂, hwork₂, hchanges₂⟩ := retire_eq hf₁.sound hs₁
    (by rw [hshows₁]; exact (h.matched.take hs.live).2)
  refine ⟨y₁, y₂, htake, hretire, hf₁.trans hf₂, hshows₁ ▸ hb₁.trans hb₂, hwork₂.trans hwork₁, ?_,
    ?_, ?_⟩
  · rw [hchanges₂, htouched₁]
  · rw [hchanges₂, hunlinked₁]
  · rw [hchanges₂, hgrounded₁]

namespace Placed

theorem domains_eq (h : Placed x a y y') : y'.domains = y.domains :=
  domains_congr h.becomes.alike h.becomes.evolves.path_eq h.becomes.domain_eq

theorem snapshot_eq (h : Placed x a y y') :
    y'.snapshot = (y.snapshot.take x a).ground x := h.becomes.shows

theorem active_eq (hy : y.Sound) (h : Placed x a y y') :
    y'.snapshot.active = y.snapshot.active.erase x := by
  rw [h.snapshot_eq, ← hy.matched.take_active x a]
  rfl

theorem live_eq (hy : y.Sound) (h : Placed x a y y') : y'.snapshot.live = y.snapshot.live := by
  rw [h.snapshot_eq, ← hy.matched.take_live x a]
  rfl

/-- Not more variables can be reached, as no grounded variable keeps the value of `x`. -/
theorem bounded (hy : y.Sound) (hs : Single x a y) (h : Placed x a y y') (hkept : y.Kept)
    {k : Nat} (hk : y.snapshot.Bounded k) : y'.snapshot.Bounded k := by
  have howner : ∀ z, y.snapshot.owner a = some z → z ∈ y.snapshot.active := by
    intro z hz
    by_contra hza
    have hmate := hy.matched.mate_of_owner a z hz
    obtain ⟨b, hb, _, hdenied⟩ := hkept z (hy.within.mate_lt z a hmate).1 hza
    obtain rfl := Option.some.inj (hmate.symm.trans hb)
    exact hdenied x (hy.within.active_lt x hs.active) (fun heq => hza (heq ▸ hs.active)) hs.mem
  obtain ⟨htaken, hmate⟩ := hy.matched.take hs.live
  have hk' := (hy.matched.keeps_take hs.active howner).bounded hy.matched htaken hk
  rw [h.snapshot_eq]
  exact hk'.ground htaken (by rw [hy.matched.take_active]; exact hs.active) hmate

end Placed

/-- A variable was narrowed to values that all choices have. -/
theorem Follows.of_narrows (h : y.Sound) {z : Nat} {P : Int → Prop} {verdict : Verdict}
    {s' : Store} (hn : y.graph.Narrows y.store z P verdict s')
    (hP : ∀ φ, Choice y.domains y.graph.varTotal φ → P (φ z))
    (hdenies : ReflTransGen (y.graph.Denies y.store) y.store.domain s'.domain) {work : Worklist}
    (hnodup : work.waiting.Nodup) (hlt : ∀ x ∈ work.waiting, x < y.graph.varTotal) :
    Follows y ⟨y.graph, s', work, y.changes⟩ ∧
      (⟨y.graph, s', work, y.changes⟩ : Sync).snapshot = y.snapshot := by
  have hshows : (⟨y.graph, s', work, y.changes⟩ : Sync).snapshot = y.snapshot :=
    congrArg y.graph.snapshot hn.now_eq
  have hsub : ∀ x, y.graph.domains s' x ⊆ y.domains x :=
    ValueGraph.domains_subset hn.step.alike hn.step.evolves
  refine ⟨⟨hn.step, ⟨hn.step.sound, h.anchored.of_evolves (.refl _) hn.step.evolves, ?_, ?_, hnodup,
    hlt, h.touched_lt⟩, hn.keeps hP, hdenies, fun hf => Or.inr ⟨?_, fun k hk => ?_⟩, fun hc => hc,
    fun _ => ?_, fun _ hx => hx⟩, hshows⟩
  · rw [hshows]
    exact h.matched
  · rw [hshows]
    exact h.fits.mono fun x _ => hsub x
  · rw [Faithful, hshows]
    exact Snapshot.Faithful.mono hf fun x _ => hsub x
  · rw [hshows]
    exact hk
  · rw [hshows]
    exact ⟨rfl, rfl⟩

/-- The variables `zs` were narrowed to what is not `u`. -/
structure Denied (zs : List Nat) (u : Int) (y : Sync) (verdict : Verdict) (y' : Sync) : Prop where
  follows : Follows y y'
  graph_eq : y'.graph = y.graph
  changes_eq : y'.changes = y.changes
  snapshot_eq : y'.snapshot = y.snapshot
  waiting : ∀ z ∈ y.work.waiting, z ∈ y'.work.waiting
  wiped : y'.Wiped verdict
  moved : verdict = .consistent →
    ∀ z < y.graph.varTotal, z ∉ y'.work.waiting → y'.domains z = y.domains z
  denied : verdict = .consistent → ∀ z ∈ zs, u ∉ y'.domains z
  alive : verdict = .consistent → y.store.Alive y'.store

/-- No variable lost all values. -/
theorem Denied.filled {zs : List Nat} {u : Int} {y' : Sync} {verdict : Verdict}
    (h : Denied zs u y verdict y') (hv : verdict = .consistent) {z : Nat}
    (hne : y.domains z ≠ ∅) : y'.domains z ≠ ∅ := by
  rw [domains, ValueGraph.domains_eq, h.graph_eq]
  exact (h.alive hv).view (h.follows.step.evolves.path_eq _) hne

/-- The single value of a variable is taken away from others. -/
theorem denyAll_eq {u : Int} (zs : List Nat) :
    ∀ {y : Sync}, y.Sound → x < y.graph.varTotal → y.domains x = {u} →
      (∀ z ∈ zs, z < y.graph.varTotal ∧ z ≠ x ∧ y.store.Reads (y.graph.varOf z) u) →
      ∃ verdict y', denyAll u zs y = .ok (verdict, y') ∧ Denied zs u y verdict y' := by
  induction zs with
  | nil =>
    exact fun h _ _ _ => ⟨_, _, rfl, .refl h, rfl, rfl, rfl, fun _ hz => hz,
      fun hv => absurd rfl hv, fun _ _ _ _ => rfl, (fun _ _ hz => by cases hz), fun _ => .refl _⟩
  | cons z rest ih =>
    intro y h hx hone hzs
    obtain ⟨hz, hzx, hreads⟩ := hzs z (List.mem_cons_self ..)
    obtain ⟨verdict, s', hremove, hn⟩ := narrows_remove h.graph h.anchored hz hreads
    obtain ⟨hdenies, hwiped⟩ := denies_remove h.graph h.anchored hx hz hzx hone hremove
    have hP : ∀ φ, Choice y.domains y.graph.varTotal φ → φ z ≠ u := by
      intro φ hφ heq
      have hφx := hφ.mem x hx
      rw [hone, Finset.mem_singleton] at hφx
      exact hzx (hφ.distinct z hz x hx (heq.trans hφx.symm))
    have hvar := var_eq (g := y.graph) hz
    cases verdict with
    | failed why =>
      obtain ⟨hfollows, hsnap⟩ := Follows.of_narrows h hn hP hdenies h.nodup h.work_lt
      refine ⟨.failed why, ⟨y.graph, s', y.work, y.changes⟩, ?_, hfollows, rfl, rfl, hsnap,
        fun _ hx => hx, fun hv => ⟨(hwiped hv).1, z, hz, (hwiped hv).2⟩, fun hv => (by cases hv),
        fun hv => (by cases hv), fun hv => by cases hv⟩
      rw [denyAll, hvar, ok_bind, hremove]
      rfl
    | consistent =>
      obtain ⟨sharing, hsharers, hmem⟩ := h.graph.layout.sharers_eq hz
      have hlt : ∀ x ∈ (y.work.pushAll sharing).waiting, x < y.graph.varTotal := by
        intro x hx
        obtain hx | hx := Worklist.mem_pushAll.1 hx
        · exact ((hmem x).1 hx).1
        · exact h.work_lt x hx
      obtain ⟨hfollows, hsnap⟩ := Follows.of_narrows h hn hP hdenies
        (Worklist.nodup_pushAll h.nodup sharing) hlt
      -- A variable that shares the primitive variable still has its single value.
      have hone' : y.graph.domains s' x = {u} := by
        refine (Finset.subset_singleton_iff.1 (hone ▸ hfollows.domains_subset x)).resolve_left ?_
        refine (hn.alive rfl).view (hn.step.evolves.path_eq _) ?_
        rw [← ValueGraph.domains_eq]
        exact (hone ▸ Finset.singleton_ne_empty u : y.domains x ≠ ∅)
      obtain ⟨verdict, y', hrest, hd⟩ := ih hfollows.sound hx hone' fun z' hz' => by
        obtain ⟨hz', hne, hreads'⟩ := hzs z' (List.mem_cons_of_mem _ hz')
        exact ⟨hz', hne, hn.step.evolves.reads_iff.2 hreads'⟩
      refine ⟨verdict, y', ?_, hfollows.trans hd.follows, hd.graph_eq, hd.changes_eq,
        hd.snapshot_eq.trans hsnap, fun x hx => hd.waiting x (Worklist.mem_pushAll.2 (Or.inr hx)),
        hd.wiped, fun hv x hx hnot => ?_, fun hv x hx => ?_,
        fun hv => (hn.alive rfl).trans (hd.alive hv)⟩
      · rw [denyAll, hvar, ok_bind, hremove, ok_bind]
        dsimp only
        rw [hsharers, ok_bind]
        exact hrest
      · refine (hd.moved hv x hx hnot).trans (hn.other x hx fun heq => hnot ?_)
        exact hd.waiting x (Worklist.mem_pushAll.2 (Or.inl ((hmem x).2 ⟨hx, heq⟩)))
      · obtain rfl | hx := List.mem_cons.1 hx
        · exact fun hu => hn.self rfl u (hd.follows.domains_subset x hu) rfl
        · exact hd.denied hv x hx

/-- The variable `x` was grounded. -/
structure Settled (x : Nat) (y : Sync) (verdict : Verdict) (y' : Sync) : Prop where
  follows : Follows y y'
  active_eq : y'.snapshot.active = y.snapshot.active.erase x
  live_eq : y'.snapshot.live = y.snapshot.live
  touched_eq : y'.changes.touched = y.changes.touched
  unlinked_eq : y'.changes.unlinked = y.changes.unlinked
  grounded_eq : y'.changes.grounded = y.changes.grounded + 1
  waiting : ∀ z ∈ y.work.waiting, z ∈ y'.work.waiting
  wiped : y'.Wiped verdict
  moved : verdict = .consistent →
    ∀ z < y.graph.varTotal, z ∉ y'.work.waiting → y'.domains z = y.domains z
  filled : verdict = .consistent → y.Filled → y'.Filled
  alive : verdict = .consistent → y.store.Alive y'.store
  kept : verdict = .consistent → y.Kept → y'.Kept
  bounded : y.Kept → ∀ k, y.snapshot.Bounded k → y'.snapshot.Bounded k

/-- Whoever has a live edge to the value of `x` no longer has the value, and neither has anybody
else. -/
theorem Single.not_mem_of_denied (h : y.Sound) (hs : Single x a y) {zs : List Nat}
    (hzs : ∀ z, z ∈ zs ↔ a ∈ y.snapshot.live z) (hsub : ∀ z, y'.domains z ⊆ y.domains z)
    (hdenied : ∀ z ∈ zs.filter (· != x), y.graph.val a ∉ y'.domains z) {z : Nat}
    (hz : z < y.graph.varTotal) (hzx : z ≠ x) : y.graph.val a ∉ y'.domains z := by
  intro hmem
  obtain ⟨b, hb, hval⟩ := h.fits z hz _ (hsub z hmem)
  have han := (h.within.live_lt x a hs.live).2
  obtain rfl := h.within.val_injective b (h.within.live_lt z b hb).2 a han hval
  exact hdenied z (List.mem_filter.2 ⟨(hzs z).2 hb, bne_iff_ne.2 hzx⟩) hmem

/-- The grounded variables keep what they have when `x` joins them. -/
theorem Kept.of_placed (h : y.Sound) (hs : Single x a y) (hclean : y.Clean x) (hkept : y.Kept)
    (halike : Alike y.graph y'.graph) (hshows : y'.snapshot = (y.snapshot.take x a).ground x)
    (hsub : ∀ z, y'.domains z ⊆ y.domains z)
    (hdenied : ∀ z < y.graph.varTotal, z ≠ x → y.graph.val a ∉ y'.domains z) : y'.Kept := by
  intro w hw hwa
  have hmate : y'.snapshot.mate = (y.snapshot.take x a).mate := by
    rw [hshows]
    rfl
  have hlive : y'.snapshot.live = y.snapshot.live := by
    rw [hshows, ← h.matched.take_live x a]
    rfl
  have hactive : y'.snapshot.active = y.snapshot.active.erase x := by
    rw [hshows, ← h.matched.take_active x a]
    rfl
  rw [halike.varTotal_eq] at hw ⊢
  rw [hactive, Finset.mem_erase, not_and_or, not_ne_iff] at hwa
  rw [hmate, hlive, halike.val_eq]
  have han := (h.within.live_lt x a hs.live).2
  by_cases hwx : w = x
  · subst hwx
    exact ⟨a, (h.matched.take hs.live).2, fun v hv => h.within.val_injective v
      (h.within.live_lt w v hv).2 a han (hs.only (hclean v hv)), hdenied⟩
  · obtain ⟨b, hb, hbl, hbd⟩ := hkept w hw (hwa.resolve_left hwx)
    refine ⟨b, ?_, hbl, fun z hz hzw hmem => hbd z hz hzw (hsub z hmem)⟩
    rw [h.matched.take_mate_of_ne hwx fun ho => ?_]
    · exact hb
    · have hmate := h.matched.mate_of_owner a w ho
      obtain rfl : a = b := Option.some.inj (hmate.symm.trans hb)
      exact hbd x (h.within.active_lt x hs.active) (Ne.symm hwx) hs.mem

/-- A variable was grounded, and its value taken away from the others. -/
theorem Settled.of_denied (h : y.Sound) (hs : Single x a y) (hclean : y.Clean x) {zs : List Nat}
    {y₁ : Sync} (hp : Placed x a y y₁) (hzs : ∀ z, z ∈ zs ↔ a ∈ y.snapshot.live z)
    (hd : Denied (zs.filter (· != x)) (y.graph.val a) y₁ verdict y') : Settled x y verdict y' := by
  have halike := hp.becomes.alike
  have htotal : y'.graph.varTotal = y.graph.varTotal := by rw [hd.graph_eq, halike.varTotal_eq]
  have hactive : y'.snapshot.active = y.snapshot.active.erase x := by
    rw [hd.snapshot_eq, hp.active_eq h]
  have hsub : ∀ z, y'.domains z ⊆ y.domains z := fun z => by
    rw [← hp.domains_eq]
    exact hd.follows.domains_subset z
  constructor
  case follows => exact hp.follows.trans hd.follows
  case active_eq => exact hactive
  case live_eq => rw [hd.snapshot_eq, hp.live_eq h]
  case touched_eq => rw [hd.changes_eq, hp.touched_eq]
  case unlinked_eq => rw [hd.changes_eq, hp.unlinked_eq]
  case grounded_eq => rw [hd.changes_eq, hp.grounded_eq]
  case waiting => exact fun z hz => hd.waiting z (hp.work_eq ▸ hz)
  case wiped => exact hd.wiped
  case moved =>
    intro hv z hz hnot
    rw [hd.moved hv z (halike.varTotal_eq ▸ hz) hnot, hp.domains_eq]
  case filled =>
    intro hv hfilled z hz hza
    refine hd.filled hv ?_
    rw [hactive, Finset.mem_erase, not_and_or, not_ne_iff] at hza
    rw [hp.domains_eq]
    obtain rfl | hza := hza
    · exact Finset.ne_empty_of_mem hs.mem
    · exact hfilled z (htotal ▸ hz) hza
  case alive => exact fun hv => (Store.Alive.of_eq hp.becomes.domain_eq).trans (hd.alive hv)
  case kept =>
    intro hv hkept
    refine .of_placed h hs hclean hkept (hd.graph_eq ▸ halike)
      (hd.snapshot_eq.trans hp.snapshot_eq) hsub fun z hz hzx => ?_
    exact hs.not_mem_of_denied h hzs hsub (hd.denied hv) hz hzx
  case bounded =>
    intro hkept k hk
    rw [hd.snapshot_eq]
    exact hp.bounded h hs hkept hk

/-- A variable with one value is grounded. -/
theorem settle_eq (h : y.Sound) (hx : x ∈ y.snapshot.active) (hclean : y.Clean x)
    (hone : (y.domains x).card = 1) :
    ∃ verdict y', settle x (y.graph.varOf x) y = .ok (verdict, y') ∧ Settled x y verdict y' := by
  obtain ⟨a, hs, hmin, hid⟩ := Single.exists_of_card h hx hone
  obtain ⟨hxn, han⟩ := h.within.live_lt x a hs.live
  obtain ⟨y₁, y₂, htake, hretire, hp⟩ := place_eq h hs
  have halike := hp.becomes.alike
  obtain ⟨zs, hzs, _, hmem⟩ := hp.follows.sound.graph.liveVars_eq (halike.valueTotal_eq ▸ han)
  have hlive : ∀ z, z ∈ zs ↔ a ∈ y.snapshot.live z := fun z => by
    rw [← hp.live_eq h]
    exact hmem z
  obtain ⟨verdict, y₃, hdeny, hd⟩ := denyAll_eq (u := y.graph.val a) (zs.filter (· != x))
    hp.follows.sound (halike.varTotal_eq ▸ hxn) (hp.domains_eq ▸ hs.domain_eq) fun z hz => by
      obtain ⟨hz, hne⟩ := List.mem_filter.1 hz
      have hza := (hlive z).1 hz
      refine ⟨by rw [halike.varTotal_eq]; exact (h.within.live_lt z a hza).1, bne_iff_ne.1 hne, ?_⟩
      rw [halike.varOf_eq, hp.becomes.evolves.reads_iff]
      exact h.reads_of_live hza
  refine ⟨verdict, y₃, ?_, .of_denied h hs hclean hp hlive hd⟩
  rw [settle, hmin, ok_bind]
  dsimp only
  rw [hid]
  dsimp only
  rw [htake, ok_bind, hretire, ok_bind, hzs, ok_bind, hdeny]

/-! ## One visit -/

/-- Whose value is kept has exactly that value. -/
theorem Sound.clean_of_kept (h : y.Sound) (hfilled : y.Filled) (hkept : y.Kept)
    (hx : x < y.graph.varTotal) (hxa : x ∉ y.snapshot.active) : y.Clean x := by
  intro v hv
  obtain ⟨a, _, honly, _⟩ := hkept x hx hxa
  obtain ⟨u, hu⟩ := Finset.nonempty_iff_ne_empty.2 (hfilled x hx hxa)
  obtain ⟨v', hv', rfl⟩ := h.fits x hx u hu
  rw [honly v hv, ← honly v' hv']
  exact hu

/-- What follows from a change that takes edges of `x` away and nothing else. -/
theorem Trimmed.kept (h : Trimmed x y y') (hkept : y.Kept) : y'.Kept := by
  intro z hz hza
  rw [h.follows.step.alike.varTotal_eq] at hz ⊢
  rw [h.keeps.active_eq] at hza
  obtain ⟨a, ha, honly, hdenied⟩ := hkept z hz hza
  refine ⟨a, h.keeps.mate_eq z a hza ha, fun v hv => honly v (h.keeps.live_subset z hv), ?_⟩
  rw [h.domains_eq, h.follows.step.alike.val_eq]
  exact hdenied

/-- Not more variables can be reached when edges of `x` were taken away. -/
theorem Trimmed.bounded (h : Trimmed x y y') (hy : y.Sound) {k : Nat} (hk : y.snapshot.Bounded k) :
    y'.snapshot.Bounded k :=
  h.keeps.bounded hy.matched h.follows.sound.matched hk

/-- Every edge that is gone was counted. -/
theorem Trimmed.edges_add (h : Trimmed x y y') (hx : x < y.graph.varTotal) :
    y'.edges + y'.changes.unlinked = y.edges + y.changes.unlinked := by
  have hcard := h.card_add
  have hx := Finset.mem_range.2 hx
  rw [edges, edges, h.follows.step.alike.varTotal_eq, ← Finset.add_sum_erase _ _ hx,
    ← Finset.add_sum_erase _ _ hx,
    Finset.sum_congr rfl fun z hz => congrArg Finset.card (h.live_eq z (Finset.ne_of_mem_erase hz))]
  omega

theorem Trimmed.filled (h : Trimmed x y y') (hfilled : y.Filled) : y'.Filled := by
  rw [Filled, h.domains_eq, h.follows.step.alike.varTotal_eq, h.keeps.active_eq]
  exact hfilled

theorem Trimmed.clean (h : Trimmed x y y') {z : Nat} (hz : z ≠ x) (hclean : y.Clean z) :
    y'.Clean z := by
  rw [Clean, h.live_eq z hz, h.domains_eq, h.follows.step.alike.val_eq]
  exact hclean

/-- To note that a variable was touched changes nothing else. -/
theorem Follows.of_touch (h : y.Sound) (hx : x < y.graph.varTotal) : Follows y (y.touch x) := by
  refine ⟨.refl h.graph, ⟨h.graph, h.anchored, h.matched, h.fits, h.nodup, h.work_lt, ?_⟩,
    fun _ _ hle => hle, .refl, fun hf => Or.inr ⟨hf, fun _ hk => hk⟩, fun hc => hc, fun _ => ⟨rfl, rfl⟩,
    fun _ hz => Array.mem_push.2 (Or.inl hz)⟩
  intro z hz
  obtain hz | rfl := Array.mem_push.1 hz
  · exact h.touched_lt z hz
  · exact hx

/-- The variable `x` was visited. -/
structure Visited (x : Nat) (y : Sync) (verdict : Verdict) (y' : Sync) : Prop where
  follows : Follows y y'
  wiped : y'.Wiped verdict
  waiting : ∀ z ∈ y.work.waiting, z ∈ y'.work.waiting
  shorter : y'.work = y.work ∨ y'.snapshot.active.card < y.snapshot.active.card
  unlinked_le : y.changes.unlinked ≤ y'.changes.unlinked
  grounded_le : y.changes.grounded ≤ y'.changes.grounded
  same : y'.changes.unlinked = y.changes.unlinked → y'.changes.grounded = y.changes.grounded →
    y' = y
  filled : verdict = .consistent → y.Filled → y'.Filled
  alive : verdict = .consistent → y.store.Alive y'.store
  kept : verdict = .consistent → y.Kept → y'.Kept
  bounded : y.Kept → ∀ k, y.snapshot.Bounded k → y'.snapshot.Bounded k
  clean : verdict = .consistent → ∀ z < y.graph.varTotal,
    (y.Filled ∧ y.Kept ∨ z ∈ y'.snapshot.active) → (y.Clean z ∨ z = x) → z ∉ y'.work.waiting →
    y'.Clean z
  untouched : verdict = .consistent → ∀ z, z ∉ y'.changes.touched →
    y'.snapshot.live z = y.snapshot.live z ∧
      (z ∈ y.snapshot.active → z ∈ y'.snapshot.active)
  fresh : x ∈ y.snapshot.active → ∀ v ∈ y'.snapshot.live x, y.graph.val v ∈ y.domains x
  others : ∀ z ∈ y.snapshot.active, z ≠ x → z ∈ y'.snapshot.active
  edges_add : y'.edges + y'.changes.unlinked = y.edges + y.changes.unlinked
  active_add : y'.snapshot.active.card + y'.changes.grounded =
    y.snapshot.active.card + y.changes.grounded
  moved : verdict = .consistent →
    ∀ z < y.graph.varTotal, z ∉ y'.work.waiting → y'.domains z = y.domains z
  loose : verdict = .consistent → x ∈ y'.snapshot.active → (y'.domains x).card ≠ 1

/-- A visit without a grounding. -/
theorem Visited.of_trimmed (h : y.Sound) (hx : x ∈ y.snapshot.active) (htrim : Trimmed x y y')
    (hclean : y'.Clean x) (hloose : (y'.domains x).card ≠ 1) {touched : Bool}
    (hsame : touched = false → y' = y)
    (hmore : touched = true → y.changes.unlinked < y'.changes.unlinked) :
    Visited x y .consistent (if touched then y'.touch x else y') := by
  have hxn : x < y'.graph.varTotal := by
    rw [htrim.follows.step.alike.varTotal_eq]
    exact h.within.active_lt x hx
  cases touched with
  | false =>
    obtain rfl := hsame rfl
    exact ⟨.refl h, fun hv => absurd rfl hv, fun _ hz => hz, Or.inl rfl, Nat.le_refl _,
      Nat.le_refl _, fun _ _ => rfl, fun _ hf => hf, fun _ => .refl _, fun _ hk => hk,
      fun _ _ hk => hk, fun _ z _ _ hz _ => hz.elim id fun heq => heq ▸ hclean,
      fun _ _ _ => ⟨rfl, id⟩, fun _ => hclean, fun _ hz _ => hz, rfl, rfl, fun _ _ _ _ => rfl,
      fun _ _ => hloose⟩
  | true =>
    refine ⟨htrim.follows.trans (.of_touch htrim.follows.sound hxn), fun hv => absurd rfl hv,
      ?_, Or.inl htrim.work_eq, htrim.unlinked_le, Nat.le_of_eq htrim.grounded_eq.symm, ?_,
      fun _ hf => htrim.filled hf, fun _ => .of_eq htrim.domain_eq, fun _ hk => htrim.kept hk,
      fun _ k hk => htrim.bounded h hk, ?_, ?_, ?_, fun z hz _ => ?_,
      htrim.edges_add (h.within.active_lt x hx), ?_,
      fun _ z _ _ => congrFun htrim.domains_eq z, fun _ _ => hloose⟩
    · intro z hz
      have hw : (y'.touch x).work = y.work := htrim.work_eq
      rw [if_pos rfl, hw]
      exact hz
    · intro heq _
      exact absurd heq (Nat.ne_of_gt (hmore rfl))
    · intro _ z _ _ hz _
      by_cases hzx : z = x
      · subst hzx
        exact hclean
      · exact htrim.clean hzx (hz.resolve_right hzx)
    · intro _ z hz
      have hzx : z ≠ x := fun heq => hz (Array.mem_push.2 (Or.inr heq))
      refine ⟨htrim.live_eq z hzx, fun hza => ?_⟩
      show z ∈ y'.snapshot.active
      rw [htrim.keeps.active_eq]
      exact hza
    · intro _ v hv
      have hin := hclean v hv
      rw [htrim.domains_eq, htrim.follows.step.alike.val_eq] at hin
      exact hin
    · show z ∈ y'.snapshot.active
      rw [htrim.keeps.active_eq]
      exact hz
    · show y'.snapshot.active.card + y'.changes.grounded = _
      rw [htrim.keeps.active_eq, htrim.grounded_eq]

/-- A visit with a grounding. -/
theorem Visited.of_settled (h : y.Sound) (hx : x ∈ y.snapshot.active) (htrim : Trimmed x y y')
    (hclean : y'.Clean x) (hone : (y'.domains x).card = 1) {verdict : Verdict}
    (hs : Settled x y' verdict y'') {y₃ : Sync}
    (hy₃ : verdict = .consistent ∧ y₃ = y''.touch x ∨ verdict ≠ .consistent ∧ y₃ = y'') :
    Visited x y verdict y₃ := by
  have hn : y'.graph.varTotal = y.graph.varTotal := htrim.follows.step.alike.varTotal_eq
  have hn' : y''.graph.varTotal = y.graph.varTotal :=
    hs.follows.step.alike.varTotal_eq.trans hn
  have hxn := h.within.active_lt x hx
  have hfollows : Follows y'' y₃ ∧ y₃.snapshot = y''.snapshot ∧ y₃.domains = y''.domains ∧
      y₃.store = y''.store ∧
      y₃.work = y''.work ∧ y₃.graph = y''.graph ∧
      y₃.changes.unlinked = y''.changes.unlinked ∧
      y₃.changes.grounded = y''.changes.grounded := by
    obtain ⟨_, rfl⟩ | ⟨_, rfl⟩ := hy₃
    · exact ⟨.of_touch hs.follows.sound (hn' ▸ hxn), rfl, rfl, rfl, rfl, rfl, rfl, rfl⟩
    · exact ⟨.refl hs.follows.sound, rfl, rfl, rfl, rfl, rfl, rfl, rfl⟩
  obtain ⟨hf, hsnap, hdom, hstore, hwork, hgraph, hunlinked, hgrounded⟩ := hfollows
  have hactive : y₃.snapshot.active = y.snapshot.active.erase x := by
    rw [hsnap, hs.active_eq, htrim.keeps.active_eq]
  have hg := hs.grounded_eq
  have hg' := htrim.grounded_eq
  have hu := hs.unlinked_eq
  have hu' := htrim.unlinked_le
  have hedges := htrim.edges_add (h.within.active_lt x hx)
  have hcard := Finset.card_erase_add_one hx
  refine ⟨(htrim.follows.trans hs.follows).trans hf, by rw [Wiped, hdom, hgraph]; exact hs.wiped,
    fun z hz => ?_, Or.inr ?_, by omega, by omega, fun _ heq => by omega, fun hv hfilled => ?_,
    fun hv => ?_, fun hv hkept => ?_, fun hkept k hk => ?_, fun hv z hz _ hcl hnot => ?_,
    fun hv z hz => ?_, fun _ v hv => ?_, fun z hz hzx => ?_, ?_, by rw [hactive]; omega,
    fun hv z hz hnot => ?_, fun _ hxa => ?_⟩
  · rw [hwork]
    exact hs.waiting z (by rw [htrim.work_eq]; exact hz)
  · rw [hactive]
    exact Finset.card_erase_lt_of_mem hx
  · have := hs.filled hv (htrim.filled hfilled)
    rw [Filled, hsnap, hdom, hgraph]
    exact this
  · rw [hstore]
    exact (Store.Alive.of_eq htrim.domain_eq).trans (hs.alive hv)
  · have := hs.kept hv (htrim.kept hkept)
    rw [Kept, hsnap, hdom, hgraph]
    exact this
  · rw [hsnap]
    exact hs.bounded (htrim.kept hkept) k (htrim.bounded h hk)
  · have hcl' : y'.Clean z := by
      by_cases hzx : z = x
      · subst hzx
        exact hclean
      · exact htrim.clean hzx (hcl.resolve_right hzx)
    rw [hwork] at hnot
    rw [Clean, hsnap, hdom, hgraph, hs.live_eq, hs.moved hv z (hn ▸ hz) hnot,
      hs.follows.step.alike.val_eq]
    exact hcl'
  · obtain ⟨_, rfl⟩ | ⟨hv', _⟩ := hy₃
    · have hzx : z ≠ x := fun heq => hz (Array.mem_push.2 (Or.inr heq))
      rw [hsnap, hs.live_eq, htrim.live_eq z hzx, hs.active_eq, htrim.keeps.active_eq]
      exact ⟨rfl, fun hza => Finset.mem_erase.2 ⟨hzx, hza⟩⟩
    · exact absurd hv hv'
  · rw [hsnap, hs.live_eq] at hv
    have hin := hclean v hv
    rw [htrim.domains_eq, htrim.follows.step.alike.val_eq] at hin
    exact hin
  · rw [hactive]
    exact Finset.mem_erase.2 ⟨hzx, hz⟩
  · rw [edges, hsnap, hgraph, hs.live_eq, hs.follows.step.alike.varTotal_eq, ← edges]
    omega
  · rw [hwork] at hnot
    rw [hdom, hs.moved hv z (hn ▸ hz) hnot, htrim.domains_eq]
  · rw [hactive] at hxa
    exact absurd rfl (Finset.ne_of_mem_erase hxa)

/-- A grounded variable is left alone.  An active one loses its stale edges, and is grounded if one
value is left. -/
theorem visit_cases (h : y.Sound) (hx : x < y.graph.varTotal) :
    (x ∉ y.snapshot.active ∧ visit x y = .ok (.consistent, y)) ∨
    x ∈ y.snapshot.active ∧ ∃ es touched y₁,
      dropStale x (y.graph.varOf x) es y = .ok (touched, y₁) ∧
      (∀ e ∈ es, e < y.graph.edgeTotal ∧ y.graph.tail e = x) ∧ Trimmed x y y₁ ∧ y₁.Clean x ∧
      (touched = false → y₁ = y) ∧ (touched = true → y.changes.unlinked < y₁.changes.unlinked) ∧
      ((y₁.domains x).card ≠ 1 ∧
          visit x y = .ok (.consistent, if touched then y₁.touch x else y₁) ∨
        (y₁.domains x).card = 1 ∧ ∃ verdict y₂ y₃,
          settle x (y₁.graph.varOf x) y₁ = .ok (verdict, y₂) ∧ Settled x y₁ verdict y₂ ∧
          visit x y = .ok (verdict, y₃) ∧
          (verdict = .consistent ∧ y₃ = y₂.touch x ∨ verdict ≠ .consistent ∧ y₃ = y₂)) := by
  have hask : y.graph.isActive y.store x = .ok (decide (x ∈ y.snapshot.active)) :=
    h.graph.isActive_eq hx
  rw [visit, hask, ok_bind]
  by_cases hactive : x ∈ y.snapshot.active
  · refine Or.inr ⟨hactive, ?_⟩
    rw [if_neg (by rw [decide_eq_true hactive]; exact fun heq => by cases heq), var_eq hx, ok_bind]
    obtain ⟨es, hes, _, hmem⟩ := edgesOf_eq h.graph.layout hx
    have hedges := fun e he => (hmem e).1 he
    obtain ⟨touched, y₁, hdrop, htrim, hsame, hmore, hlive⟩ := dropStale_eq es h hedges hactive
    have halike := htrim.follows.step.alike
    have hclean : y₁.Clean x := by
      intro v hv
      obtain ⟨e, hl, ht, rfl⟩ := mem_live.1 hv
      rw [htrim.domains_eq, halike.val_eq, halike.head_eq]
      refine hlive e ((hmem e).2 ⟨?_, ?_⟩) hl
      · rw [← halike.edgeTotal_eq]
        exact hl.1
      · rw [← halike.tail_eq]
        exact ht
    have hsize : y₁.store.size (y.graph.varOf x) = .ok (y₁.domains x).card := by
      rw [← halike.varOf_eq]
      exact Store.size_eq htrim.follows.sound.graph.store
        (htrim.follows.sound.anchored.var_lt x (halike.varTotal_eq ▸ hx))
    refine ⟨es, touched, y₁, hdrop, hedges, htrim, hclean, hsame, hmore, ?_⟩
    rw [hes, ok_bind, hdrop, ok_bind]
    dsimp only
    rw [hsize, ok_bind]
    by_cases hone : (y₁.domains x).card = 1
    · obtain ⟨verdict, y₂, hsettle, hs⟩ := settle_eq htrim.follows.sound
        (by rw [htrim.keeps.active_eq]; exact hactive) hclean hone
      have hsettle' := hsettle
      rw [halike.varOf_eq] at hsettle'
      rw [if_pos hone, hsettle', ok_bind]
      refine Or.inr ⟨hone, verdict, y₂, ?_⟩
      cases verdict with
      | failed why => exact ⟨_, hsettle, hs, rfl, Or.inr ⟨nofun, rfl⟩⟩
      | consistent => exact ⟨_, hsettle, hs, rfl, Or.inl ⟨rfl, rfl⟩⟩
    · rw [if_neg hone]
      exact Or.inl ⟨hone, rfl⟩
  · rw [if_pos (by rw [decide_eq_false hactive]; rfl)]
    exact Or.inl ⟨hactive, rfl⟩

/-- One variable is brought in line with its domain. -/
theorem visit_eq (h : y.Sound) (hx : x < y.graph.varTotal) :
    ∃ verdict y', visit x y = .ok (verdict, y') ∧ Visited x y verdict y' := by
  obtain ⟨hactive, hvisit⟩ | ⟨hactive, _, touched, y₁, _, _, htrim, hclean, hsame, hmore, hcases⟩ :=
    visit_cases h hx
  · refine ⟨_, _, hvisit, .refl h, fun hv => absurd rfl hv, fun _ hz => hz, Or.inl rfl,
      Nat.le_refl _, Nat.le_refl _, fun _ _ => rfl, fun _ hf => hf, fun _ => .refl _,
      fun _ hk => hk, fun _ _ hk => hk, fun _ z _ hwhy hc _ => ?_,
      fun _ _ _ => ⟨rfl, id⟩, fun hx => absurd hx hactive, fun _ hz _ => hz, rfl, rfl,
      fun _ _ _ _ => rfl, fun _ hx => absurd hx hactive⟩
    obtain hc | rfl := hc
    · exact hc
    · obtain ⟨hf, hk⟩ | hza := hwhy
      · exact h.clean_of_kept hf hk hx hactive
      · exact absurd hza hactive
  · obtain ⟨hloose, hvisit⟩ | ⟨hone, verdict, y₂, y₃, _, hs, hvisit, hy₃⟩ := hcases
    · exact ⟨_, _, hvisit, .of_trimmed h hactive htrim hclean hloose hsame hmore⟩
    · exact ⟨_, _, hvisit, .of_settled h hactive htrim hclean hone hs hy₃⟩

/-! ## The loop -/

/-- Forward checking has ended. -/
structure Ran (y : Sync) (verdict : Verdict) (y' : Sync) : Prop where
  follows : Follows y y'
  wiped : y'.Wiped verdict
  done : verdict = .consistent → y'.work = .empty
  unlinked_le : y.changes.unlinked ≤ y'.changes.unlinked
  grounded_le : y.changes.grounded ≤ y'.changes.grounded
  same : y'.changes.unlinked = y.changes.unlinked → y'.changes.grounded = y.changes.grounded →
    y'.graph = y.graph ∧ y'.store = y.store
  filled : verdict = .consistent → y.Filled → y'.Filled
  alive : verdict = .consistent → y.store.Alive y'.store
  kept : verdict = .consistent → y.Kept → y'.Kept
  bounded : y.Kept → ∀ k, y.snapshot.Bounded k → y'.snapshot.Bounded k
  clean : verdict = .consistent → ∀ z < y.graph.varTotal,
    (y.Filled ∧ y.Kept ∨ z ∈ y'.snapshot.active) → (y.Clean z ∨ z ∈ y.work.waiting) → y'.Clean z
  untouched : verdict = .consistent → ∀ z, z ∉ y'.changes.touched →
    y'.snapshot.live z = y.snapshot.live z ∧
      (z ∈ y.snapshot.active → z ∈ y'.snapshot.active)
  fresh : verdict = .consistent → ∀ z ∈ y.work.waiting, z ∈ y.snapshot.active →
    ∀ v ∈ y'.snapshot.live z, y.graph.val v ∈ y.domains z
  edges_add : y'.edges + y'.changes.unlinked = y.edges + y.changes.unlinked
  active_add : y'.snapshot.active.card + y'.changes.grounded =
    y.snapshot.active.card + y.changes.grounded
  alert : verdict = .consistent → y.Alert → y'.Alert

theorem Ran.hopeless (h : Ran y verdict y') (hv : verdict ≠ .consistent) : y'.Hopeless :=
  h.wiped.hopeless hv

/-- A variable leaves the worklist. -/
theorem Follows.of_pop {graph : ValueGraph} {store : Store} {rest : List Nat} {changes : Changes}
    (h : Sound ⟨graph, store, ⟨x :: rest⟩, changes⟩) :
    Follows ⟨graph, store, ⟨x :: rest⟩, changes⟩ ⟨graph, store, ⟨rest⟩, changes⟩ :=
  ⟨.refl h.graph, ⟨h.graph, h.anchored, h.matched, h.fits, (List.nodup_cons.1 h.nodup).2,
    fun z hz => h.work_lt z (List.mem_cons_of_mem x hz), h.touched_lt⟩, fun _ _ hle => hle, .refl,
    fun hf => Or.inr ⟨hf, fun _ hk => hk⟩, fun hc => hc, fun _ => ⟨rfl, rfl⟩, fun _ hz => hz⟩

/-- After a visit, the rest of the loop. -/
theorem Ran.of_visited {graph : ValueGraph} {store : Store} {rest : List Nat} {changes : Changes}
    (h : Sound ⟨graph, store, ⟨x :: rest⟩, changes⟩)
    (hv : Visited x ⟨graph, store, ⟨rest⟩, changes⟩ .consistent y') {verdict : Verdict}
    (hr : Ran y' verdict y'') : Ran ⟨graph, store, ⟨x :: rest⟩, changes⟩ verdict y'' := by
  have hu := hv.unlinked_le
  have hu' := hr.unlinked_le
  have hg := hv.grounded_le
  have hg' := hr.grounded_le
  refine ⟨((Follows.of_pop h).trans hv.follows).trans hr.follows, hr.wiped, hr.done,
    Nat.le_trans hu hu', Nat.le_trans hg hg', fun hsu hsg => ?_,
    fun hc hf => hr.filled hc (hv.filled rfl hf), fun hc => (hv.alive rfl).trans (hr.alive hc),
    fun hc hk => hr.kept hc (hv.kept rfl hk),
    fun hkept k hk => hr.bounded (hv.kept rfl hkept) k (hv.bounded hkept k hk),
    fun hc z hz hwhy hcl => ?_, fun hc z hz => ?_, fun hc z hz hza v hlive => ?_,
    hr.edges_add.trans hv.edges_add, hr.active_add.trans hv.active_add,
    fun hc halert => hr.alert hc fun z hza hone => ?_⟩
  · dsimp only at hu hg hsu hsg
    obtain ⟨h₁, h₂⟩ := hr.same (by omega) (by omega)
    have h₃ := hv.same (by dsimp only; omega) (by dsimp only; omega)
    rw [h₁, h₂, h₃]
    exact ⟨rfl, rfl⟩
  · refine hr.clean hc z (by rw [hv.follows.step.alike.varTotal_eq]; exact hz)
      (hwhy.imp_left fun hand => ⟨hv.filled rfl hand.1, hv.kept rfl hand.2⟩) ?_
    by_cases hzw : z ∈ y'.work.waiting
    · exact Or.inr hzw
    · refine Or.inl (hv.clean rfl z hz
        (hwhy.imp_right fun hza => hr.follows.step.active_subset hza) ?_ hzw)
      obtain hcl | hcl := hcl
      · exact Or.inl hcl
      · obtain rfl | hcl := List.mem_cons.1 hcl
        · exact Or.inr rfl
        · exact absurd (hv.waiting z hcl) hzw
  · obtain ⟨h₁, h₂⟩ := hr.untouched hc z hz
    obtain ⟨h₃, h₄⟩ := hv.untouched rfl z fun hmem => hz (hr.follows.touched z hmem)
    exact ⟨h₁.trans h₃, fun hza => h₂ (h₄ hza)⟩
  · by_cases hzx : z = x
    · subst hzx
      exact hv.fresh hza v (hr.follows.step.live_subset z hlive)
    · have hzw := hv.waiting z ((List.mem_cons.1 hz).resolve_left hzx)
      have hin := hr.fresh hc z hzw (hv.others z hza hzx) v hlive
      rw [hv.follows.step.alike.val_eq] at hin
      exact hv.follows.domains_subset z hin
  · by_contra hnot
    have hzx : z ≠ x := fun heq => hv.loose rfl (heq ▸ hza) (heq ▸ hone)
    have hza := hv.follows.step.active_subset hza
    rw [hv.moved rfl z (h.within.active_lt z hza) hnot] at hone
    exact hnot (hv.waiting z ((List.mem_cons.1 (halert z hza hone)).resolve_left hzx))

/-- No more than `n` variables wait. -/
theorem Sound.length_le (h : y.Sound) : y.work.waiting.length ≤ y.graph.varTotal := by
  have hsub : y.work.waiting ⊆ List.range y.graph.varTotal :=
    fun x hx => List.mem_range.2 (h.work_lt x hx)
  have hle := (List.subperm_of_subset h.nodup hsub).length_le
  rw [List.length_range] at hle
  exact hle

/-- Each turn of the loop makes the worklist shorter, or grounds a variable. -/
theorem run_eq (fuel : Nat) :
    ∀ {y : Sync}, y.Sound →
      y.work.waiting.length + y.graph.varTotal * y.snapshot.active.card < fuel →
      ∃ verdict y', run fuel y = .ok (verdict, y') ∧ Ran y verdict y' := by
  induction fuel with
  | zero => exact fun _ hlt => absurd hlt (Nat.not_lt_zero _)
  | succ fuel ih =>
    intro y h hlt
    obtain ⟨graph, store, ⟨waiting⟩, changes⟩ := y
    cases waiting with
    | nil =>
      exact ⟨_, _, rfl, .refl h, fun hv => absurd rfl hv, fun _ => rfl, Nat.le_refl _,
        Nat.le_refl _, fun _ _ => ⟨rfl, rfl⟩, fun _ hf => hf, fun _ => .refl _,
        fun _ hk => hk, fun _ _ hk => hk, fun _ z _ _ hz => hz.elim id fun hmem => (by cases hmem),
        fun _ _ _ => ⟨rfl, id⟩, fun _ _ hz => (nomatch hz), rfl, rfl, fun _ halert => halert⟩
    | cons x rest =>
      have hpop := Follows.of_pop h
      obtain ⟨verdict, y', hvisit, hv⟩ := visit_eq hpop.sound
        (h.work_lt x (List.mem_cons_self ..))
      rw [run]
      dsimp only [Worklist.pop?]
      rw [hvisit, ok_bind]
      cases verdict with
      | failed why =>
        exact ⟨_, _, rfl, hpop.trans hv.follows, hv.wiped, fun heq => (by cases heq),
          hv.unlinked_le, hv.grounded_le, fun hu hg => by rw [hv.same hu hg]; exact ⟨rfl, rfl⟩,
          nofun, nofun, nofun, hv.bounded, nofun, nofun, nofun, hv.edges_add, hv.active_add,
          nofun⟩
      | consistent =>
        have hn : y'.graph.varTotal = graph.varTotal := hv.follows.step.alike.varTotal_eq
        have hlen : y'.work.waiting.length ≤ y'.graph.varTotal := hv.follows.sound.length_le
        have hcard : y'.snapshot.active.card ≤ (graph.snapshot (graph.now store)).active.card :=
          Finset.card_le_card hv.follows.step.active_subset
        have hlt : rest.length + 1 +
            graph.varTotal * (graph.snapshot (graph.now store)).active.card < fuel + 1 := hlt
        obtain ⟨verdict, y'', hrun, hr⟩ := ih hv.follows.sound (by
          rw [hn] at hlen ⊢
          obtain hwork | hless := hv.shorter
          · have := Nat.mul_le_mul_left graph.varTotal hcard
            rw [hwork]
            show rest.length + _ < fuel
            omega
          · have hless : y'.snapshot.active.card + 1 ≤
                (graph.snapshot (graph.now store)).active.card := hless
            have := Nat.mul_le_mul_left graph.varTotal hless
            rw [Nat.mul_add, Nat.mul_one] at this
            omega)
        exact ⟨verdict, y'', hrun, .of_visited h hv hr⟩

/-- The graph is brought in line with the domains. -/
theorem forwardCheck_eq (h : y.Sound) :
    ∃ verdict y', forwardCheck y = .ok (verdict, y') ∧ Ran y verdict y' := by
  refine run_eq _ h ?_
  have hcard : y.snapshot.active.card ≤ y.graph.varTotal := by
    refine Nat.le_trans (Finset.card_le_card fun x hx => ?_) (Finset.card_range _).le
    exact Finset.mem_range.2 (h.within.active_lt x hx)
  have := Nat.mul_le_mul_left y.graph.varTotal hcard
  unfold Word.countBound
  omega

/-- Only active variables are touched. -/
theorem visit_touched (h : y.Sound) (hx : x < y.graph.varTotal) {verdict : Verdict}
    (hret : visit x y = .ok (verdict, y')) :
    ∀ z ∈ y'.changes.touched, z ∈ y.changes.touched ∨ z ∈ y.snapshot.active := by
  intro z hz
  obtain ⟨_, hvisit⟩ | ⟨hactive, _, touched, y₁, _, _, htrim, _, _, _, hcases⟩ := visit_cases h hx
  · cases hret.symm.trans hvisit
    exact Or.inl hz
  have hpush : ∀ {y₂ : Sync}, y₂.changes.touched = y.changes.touched →
      z ∈ (y₂.touch x).changes.touched → z ∈ y.changes.touched ∨ z ∈ y.snapshot.active := by
    intro y₂ heq hz
    obtain hz | rfl := Array.mem_push.1 hz
    · exact Or.inl (heq ▸ hz)
    · exact Or.inr hactive
  obtain ⟨_, hvisit⟩ | ⟨_, verdict, y₂, y₃, _, hs, hvisit, ⟨_, rfl⟩ | ⟨_, rfl⟩⟩ := hcases
  · cases hret.symm.trans hvisit
    split at hz
    · exact hpush htrim.touched_eq hz
    · exact Or.inl (htrim.touched_eq ▸ hz)
  · cases hret.symm.trans hvisit
    exact hpush (hs.touched_eq.trans htrim.touched_eq) hz
  · cases hret.symm.trans hvisit
    exact Or.inl (htrim.touched_eq ▸ hs.touched_eq ▸ hz)

/-- The variables that are touched in the end were active at the beginning. -/
theorem run_touched {fuel : Nat} (h : y.Sound) {verdict : Verdict}
    (hret : run fuel y = .ok (verdict, y')) :
    ∀ z ∈ y'.changes.touched, z ∈ y.changes.touched ∨ z ∈ y.snapshot.active := by
  induction fuel generalizing y with
  | zero => cases hret
  | succ fuel ih =>
    obtain ⟨graph, store, ⟨waiting⟩, changes⟩ := y
    cases waiting with
    | nil =>
      cases hret
      exact fun _ hz => Or.inl hz
    | cons x rest =>
      have hpop := (Follows.of_pop h).sound
      have hx := h.work_lt x (List.mem_cons_self ..)
      obtain ⟨⟨verdict₁, y₁⟩, hvisit, hret⟩ := bind_eq_ok_iff.1 hret
      obtain ⟨_, _, hvisit', hv⟩ := visit_eq hpop hx
      cases hvisit.symm.trans hvisit'
      have htouched := visit_touched hpop hx hvisit
      cases verdict₁ with
      | failed why =>
        cases hret
        exact htouched
      | consistent =>
        intro z hz
        obtain hz | hz := ih hv.follows.sound hret z hz
        · exact htouched z hz
        · exact Or.inr (hv.follows.step.active_subset hz)

end Sync

end FiniteDomain.AllDifferent
