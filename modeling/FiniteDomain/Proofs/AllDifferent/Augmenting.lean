import FiniteDomain.Proofs.AllDifferent.Build
import FiniteDomain.Proofs.AllDifferent.Driving
import FiniteDomain.Proofs.AllDifferent.Matching

/-!
# What a repair decides

A repair of the matching finds out whether the active variables can be given distinct values along
live edges, none of which a grounded variable keeps.  It is right whatever its matcher was used for
before.

* `Matcher.InUse` are the matchers that repairs left behind, on any graphs.  They all have the sizes
  they were made with, and no mark from a round to come (`InUse.sized`).
* `rounds_total` says that the paths are counted right: as many as there were variables without a
  mate.
* `InUse.augment_iff` collects what a repair decides, what it does and what it leaves alone.
-/

namespace FiniteDomain.AllDifferent

open ValueGraph

variable {g : ValueGraph} {s s' : Store}

/-! ## What a repair does -/

/-- The matching is the same except that active variables may have other mates.  None has lost its
mate, and the grounded ones and what they own are left alone. -/
structure Snapshot.Mended (p q : Snapshot) : Prop where
  active_eq : q.active = p.active
  live_eq : q.live = p.live
  matched : q.Matched
  mated : ∀ x, p.mate x ≠ none → q.mate x ≠ none
  mate_eq : ∀ x, x ∉ p.active → q.mate x = p.mate x
  owner_eq : ∀ v x, x ∉ p.active → p.owner v = some x → q.owner v = some x

theorem Rematched.mended (h : Rematched g s s') (hm : (g.snapshot (g.now s)).Matched) :
    (g.snapshot (g.now s)).Mended (g.snapshot (g.now s')) where
  active_eq := h.keeps.active_eq
  live_eq := h.live_eq
  matched := h.matched
  mated := h.mates.mated
  mate_eq := h.mates.grounded
  owner_eq v x hx hv :=
    h.matched.owner_of_mate x v ((h.mates.grounded x hx).trans (hm.mate_of_owner v x hv))

namespace Snapshot.Mended

variable {p q : Snapshot}

/-- Other mates do not change what the variables may take. -/
theorem options_eq (h : p.Mended q) (hp : p.Matched) (x : Nat) : q.options x = p.options x := by
  ext v
  rw [mem_options, mem_options, h.live_eq, h.active_eq]
  refine and_congr_right fun _ => ⟨fun hown z hz => ?_, fun hown z hz => ?_⟩
  · by_contra hza
    exact hza (hown z (h.owner_eq v z hza hz))
  · by_contra hza
    have hmate := (h.mate_eq z hza).symm.trans (h.matched.mate_of_owner v z hz)
    exact hza (hown z (hp.owner_of_mate z v hmate))

theorem covering_iff (h : p.Mended q) (hp : p.Matched) (f : Nat → Nat) :
    q.Covering f ↔ p.Covering f := by
  have hmem : (∀ x ∈ q.active, f x ∈ q.options x) ↔ ∀ x ∈ p.active, f x ∈ p.options x := by
    simp only [h.active_eq, h.options_eq hp]
  exact ⟨fun hf => ⟨h.active_eq ▸ hf.injOn, hmem.1 hf.mem⟩,
    fun hf => ⟨h.active_eq.symm ▸ hf.injOn, hmem.2 hf.mem⟩⟩

end Snapshot.Mended

namespace Matcher

variable {n m v wanted fuel unmatched total total' found found' : Nat} {k k' : Matcher}
  {flips flips' : List (Nat × Nat)} {outcome : Outcome}

/-! ## Sizes -/

/-- The matcher is one for `n` variables and `m` values. -/
structure Sized (n m : Nat) (k : Matcher) : Prop where
  seen : k.seen.Fit n
  expanded : k.expanded.Fit m
  size_eq : k.nextEdge.size = m

theorem Sized.fit (h : Sized g.varTotal g.valueTotal k) : k.Fit g :=
  ⟨h.seen, h.expanded, h.size_eq⟩

theorem Sized.new (n m : Nat) : Sized n m (new n m) :=
  ⟨.blank n, .blank m, Array.size_replicate⟩

theorem Sized.beginRound (h : Sized n m k) : Sized n m k.beginRound :=
  ⟨h.seen.forget, h.expanded.forget, h.size_eq⟩

theorem Sized.setNext (h : Sized n m k) (v place : Nat) :
    Sized n m { k with nextEdge := k.nextEdge.setIfInBounds v place } :=
  ⟨h.seen, h.expanded, Array.size_setIfInBounds.trans h.size_eq⟩

theorem Sized.expand (h : Sized n m k) (hret : k.expand v = .ok k') : Sized n m k' := by
  obtain ⟨marked, _, hret⟩ := bind_eq_ok_iff.1 hret
  cases marked with
  | true =>
    cases hret
    exact h
  | false =>
    cases hret
    exact ⟨h.seen, h.expanded.mark v, (h.setNext v 0).size_eq⟩

theorem Sized.nextVar {count : Nat} {found : Option Nat} (h : Sized n m k)
    (hret : nextVar g s v count k = .ok (found, k')) : Sized n m k' := by
  induction count generalizing k with
  | zero =>
    cases hret
    exact h
  | succ count ih =>
    obtain ⟨place, _, hret⟩ := bind_eq_ok_iff.1 hret
    obtain ⟨y, _, hret⟩ := bind_eq_ok_iff.1 hret
    have hnext := h.setNext v (place + 1)
    obtain ⟨seen, _, hret⟩ := bind_eq_ok_iff.1 hret
    cases seen with
    | true => exact ih hnext hret
    | false =>
      obtain ⟨active, _, hret⟩ := bind_eq_ok_iff.1 hret
      cases active with
      | true =>
        cases hret
        exact ⟨hnext.seen.mark y, hnext.expanded, hnext.size_eq⟩
      | false => exact ih hnext hret

/-- The matcher after a step. -/
def StepResult.matcher : StepResult → Matcher
  | .found _ k => k
  | .exhausted k => k
  | .goOn q => q.matcher

theorem Sized.step {q : PathSearch} {r : StepResult} (h : Sized n m q.matcher)
    (hret : q.step g s = .ok r) : Sized n m r.matcher := by
  obtain ⟨k, values, vars⟩ := q
  cases values with
  | nil =>
    cases hret
    exact h
  | cons v earlier =>
    obtain ⟨count, _, hret⟩ := bind_eq_ok_iff.1 hret
    obtain ⟨place, _, hret⟩ := bind_eq_ok_iff.1 hret
    obtain ⟨⟨found, k₁⟩, hnext, hret⟩ := bind_eq_ok_iff.1 hret
    have h₁ := h.nextVar hnext
    cases found with
    | none =>
      cases hret
      exact h₁
    | some y =>
      obtain ⟨mate, _, hret⟩ := bind_eq_ok_iff.1 hret
      cases mate with
      | none =>
        cases hret
        exact h₁
      | some w =>
        obtain ⟨k₂, hexpand, hret⟩ := bind_eq_ok_iff.1 hret
        cases hret
        exact h₁.expand hexpand

theorem Sized.run {q : PathSearch} {path : Option (List (Nat × Nat))} (h : Sized n m q.matcher)
    (hret : q.run g s fuel = .ok (path, k')) : Sized n m k' := by
  induction fuel generalizing q with
  | zero => cases hret
  | succ fuel ih =>
    obtain ⟨r, hstep, hret⟩ := bind_eq_ok_iff.1 hret
    have hr := h.step hstep
    cases r with
    | found flips k =>
      cases hret
      exact hr
    | exhausted k =>
      cases hret
      exact hr
    | goOn q => exact ih hr hret

theorem Sized.findPath? {path : Option (List (Nat × Nat))} (h : Sized n m k)
    (hret : findPath? g s k v = .ok (path, k')) : Sized n m k' := by
  obtain ⟨k₁, hexpand, hret⟩ := bind_eq_ok_iff.1 hret
  exact (h.expand hexpand : Sized n m (PathSearch.matcher ⟨k₁, [v], []⟩)).run hret

theorem Sized.searchAll {rest : List Nat} (h : Sized n m k)
    (hret : searchAll g s wanted rest found flips k = .ok (found', flips', k')) :
    Sized n m k' := by
  induction rest generalizing found flips k with
  | nil =>
    cases hret
    exact h
  | cons v rest ih =>
    rw [Matcher.searchAll] at hret
    split at hret
    · cases hret
      exact h
    · obtain ⟨free, _, hret⟩ := bind_eq_ok_iff.1 hret
      cases free with
      | false => exact ih h hret
      | true =>
        obtain ⟨⟨path, k₁⟩, hfind, hret⟩ := bind_eq_ok_iff.1 hret
        cases path with
        | none => exact ih (h.findPath? hfind) hret
        | some path => exact ih (h.findPath? hfind) hret

theorem Sized.rounds (h : Sized n m k)
    (hret : rounds g fuel unmatched total k s = .ok (outcome, k', s')) : Sized n m k' := by
  induction fuel generalizing unmatched total k s with
  | zero =>
    cases unmatched with
    | zero =>
      cases hret
      exact h
    | succ unmatched => cases hret
  | succ fuel ih =>
    cases unmatched with
    | zero =>
      cases hret
      exact h
    | succ unmatched =>
      obtain ⟨⟨found, flips, k₁⟩, hsearch, hret⟩ := bind_eq_ok_iff.1 hret
      have h₁ := h.beginRound.searchAll hsearch
      dsimp only at hret
      split at hret
      · cases hret
        exact h₁
      · obtain ⟨s₁, _, hret⟩ := bind_eq_ok_iff.1 hret
        exact ih h₁ hret

/-- A matcher that repairs left behind, whatever the graphs were and whatever came of them. -/
inductive InUse (n m : Nat) : Matcher → Prop
  | new : InUse n m (new n m)
  | augment {g : ValueGraph} {k k' : Matcher} {s s' : Store} {outcome : Outcome} :
      InUse n m k → Matcher.augment g k s = .ok (outcome, k', s') → InUse n m k'

theorem InUse.sized (h : InUse n m k) : Sized n m k := by
  induction h with
  | new => exact .new n m
  | augment _ hret ih =>
    obtain ⟨unmatched, _, hret⟩ := bind_eq_ok_iff.1 hret
    exact ih.rounds hret

/-! ## Counting the paths -/

/-- No more paths are found than wanted. -/
theorem searchAll_le {rest : List Nat}
    (hret : searchAll g s wanted rest found flips k = .ok (found', flips', k'))
    (hle : found ≤ wanted) : found' ≤ wanted := by
  induction rest generalizing found flips k with
  | nil =>
    cases hret
    exact hle
  | cons v rest ih =>
    rw [searchAll] at hret
    split at hret
    · cases hret
      exact hle
    · rename_i hne
      obtain ⟨free, _, hret⟩ := bind_eq_ok_iff.1 hret
      cases free with
      | false => exact ih hret hle
      | true =>
        obtain ⟨⟨path, k₁⟩, _, hret⟩ := bind_eq_ok_iff.1 hret
        cases path with
        | none => exact ih hret hle
        | some path => exact ih hret (Nat.lt_of_le_of_ne hle hne)

/-- Each path gives a mate to one more variable. -/
theorem rounds_total (hret : rounds g fuel unmatched total k s = .ok (.covered total', k', s')) :
    total' = total + unmatched := by
  induction fuel generalizing unmatched total k s with
  | zero =>
    cases unmatched with
    | zero =>
      cases hret
      rfl
    | succ unmatched => cases hret
  | succ fuel ih =>
    cases unmatched with
    | zero =>
      cases hret
      rfl
    | succ unmatched =>
      obtain ⟨⟨found, flips, k₁⟩, hsearch, hret⟩ := bind_eq_ok_iff.1 hret
      have hle := searchAll_le hsearch (Nat.zero_le _)
      dsimp only at hret
      split at hret
      · cases hret
      · obtain ⟨s₁, _, hret⟩ := bind_eq_ok_iff.1 hret
        have := ih hret
        omega

/-! ## What a repair decides -/

/-- A repair always comes to an end.  It succeeds if and only if the active variables have a
covering, and tells how many of them had no mate; then they all have one.  Whatever it decides, the
matching is mended and nothing else of the graph has changed. -/
theorem InUse.augment_iff (hk : InUse g.varTotal g.valueTotal k) (hg : g.Sound s)
    (hm : (g.snapshot (g.now s)).Matched) :
    ∃ outcome k' s', Matcher.augment g k s = .ok (outcome, k', s') ∧ g.Sound s' ∧
      (g.snapshot (g.now s)).Mended (g.snapshot (g.now s')) ∧
      (∀ total, outcome = Outcome.covered total ↔
        (∃ f, (g.snapshot (g.now s)).Covering f) ∧
          total = (g.snapshot (g.now s)).unmatched.card) ∧
      (outcome = Outcome.impossible ↔ ¬ ∃ f, (g.snapshot (g.now s)).Covering f) ∧
      ((∃ f, (g.snapshot (g.now s)).Covering f) → (g.snapshot (g.now s')).Covered) := by
  obtain ⟨outcome, k', s', hret, _, hre, hsettles⟩ := augment_eq hg hm hk.sized.fit
  have hmended := hre.mended hm
  refine ⟨outcome, k', s', hret, hre.step.sound, hmended, ?_⟩
  cases outcome with
  | covered total =>
    have hcover : ∃ f, (g.snapshot (g.now s)).Covering f :=
      ⟨_, (hmended.covering_iff hm _).1 (hre.matched.covering hsettles)⟩
    have htotal : total = (g.snapshot (g.now s)).unmatched.card := by
      rw [Matcher.augment, unmatchedCount_eq hg, ok_bind] at hret
      exact (rounds_total hret).trans (Nat.zero_add _)
    refine ⟨fun total' => ⟨fun heq => ?_, fun hand => ?_⟩,
      ⟨fun heq => ?_, fun hnot => absurd hcover hnot⟩, fun _ => hsettles⟩
    · cases heq
      exact ⟨hcover, htotal⟩
    · rw [hand.2, htotal]
    · cases heq
  | impossible =>
    obtain ⟨u, hu, hnone, hstuck⟩ := hsettles
    have hnot : ¬ ∃ f, (g.snapshot (g.now s)).Covering f := by
      rintro ⟨f, hf⟩
      exact Snapshot.not_covering_of_stuck hre.matched hu hnone hstuck f
        ((hmended.covering_iff hm f).2 hf)
    refine ⟨fun total => ⟨fun heq => ?_, fun hand => absurd hand.1 hnot⟩,
      ⟨fun _ => hnot, fun _ => rfl⟩, fun hcover => absurd hcover hnot⟩
    cases heq

/-- A matching that is found greedily in a new graph. -/
theorem greedy_of_build {s₀ s₁ : Store} (hs : s₀.Sound) {vars : Array Var}
    (hvars : ∀ x ∈ vars, x.index < s₀.definitions.size) (hbuild : build s₀ vars = .ok (g, s₁))
    (hgreedy : greedy g s₁ = .ok s) : g.Sound s ∧ (g.snapshot (g.now s)).Matched := by
  have hb := build_eq hs hvars hbuild
  obtain ⟨_, hgreedy', hre⟩ := greedy_eq hb.sound hb.matched
  cases hgreedy.symm.trans hgreedy'
  exact ⟨hre.step.sound, hre.matched⟩

/-- The second variable needs the value that the first one was given. -/
theorem InUse.augment_iff_crossed : ∃ m g s k' s', (Model.empty .lastFirst).driveAll
      Model.Call.Installs .consistent [.declare (.primitive 0 1), .declare (.primitive 0 0)] =
        .ok (.consistent, m) ∧
      (build m.store #[⟨0⟩, ⟨1⟩] >>= fun made =>
        greedy made.1 made.2 >>= fun s => .ok (made.1, s)) = .ok (g, s) ∧
      Matcher.augment g (.new g.varTotal g.valueTotal) s = .ok (.covered 1, k', s') ∧
      (∃ f, (g.snapshot (g.now s)).Covering f) ∧ (g.snapshot (g.now s')).Covered := by
  have hrun : ((Model.empty .lastFirst).driveAll Model.Call.Installs .consistent
      [.declare (.primitive 0 1), .declare (.primitive 0 0)] >>= fun r =>
        build r.2.store #[⟨0⟩, ⟨1⟩] >>= fun made => greedy made.1 made.2 >>= fun s =>
          Matcher.augment made.1 (.new made.1.varTotal made.1.valueTotal) s >>= fun repaired =>
            .ok (r.1, r.2.store.definitions.size, repaired.1)) =
      .ok (.consistent, 2, .covered 1) := by decide +kernel
  obtain ⟨⟨last, m⟩, hm, hrun⟩ := bind_eq_ok_iff.1 hrun
  obtain ⟨⟨g, s₀⟩, hbuild, hrun⟩ := bind_eq_ok_iff.1 hrun
  obtain ⟨s, hgreedy, hrun⟩ := bind_eq_ok_iff.1 hrun
  obtain ⟨⟨outcome, k', s'⟩, hret, heq⟩ := bind_eq_ok_iff.1 hrun
  injection heq with heq
  simp only [Prod.mk.injEq] at heq
  obtain ⟨rfl, hsize, rfl⟩ := heq
  have hdriven : Model.Driven Model.Call.Installs m .consistent :=
    (Model.Driven.start .lastFirst).driveAll hm
  have hvars : ∀ x ∈ (#[⟨0⟩, ⟨1⟩] : Array Var), x.index < m.store.definitions.size := by
    rw [hsize]
    decide
  obtain ⟨hg, hmatched⟩ := greedy_of_build hdriven.reached.guarded.store hvars hbuild hgreedy
  obtain ⟨outcome, k₁, s₁, hret', _, _, hcovered, _, hall⟩ :=
    InUse.augment_iff .new hg hmatched
  cases hret.symm.trans hret'
  have hcover := ((hcovered 1).1 rfl).1
  refine ⟨m, g, s, k', s', hm, ?_, hret, hcover, hall hcover⟩
  rw [hbuild, ok_bind, hgreedy, ok_bind]

end Matcher

end FiniteDomain.AllDifferent
