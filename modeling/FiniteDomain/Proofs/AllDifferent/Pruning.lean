import FiniteDomain.Proofs.AllDifferent.Creation
import FiniteDomain.Proofs.AllDifferent.Deductions
import FiniteDomain.Proofs.AllDifferent.Driving

/-!
# One round of deductions is exact

Given a matching of all variables, the components and the variables that free values reach, one
round of deductions collects the right edges: those that no assignment of the active variables uses.

* `Snapshot.Assigns` is an assignment of distinct values along live edges, and `Snapshot.Led` says
  that an alternating path leads to a variable from a value that is no variable's mate.
* `Snapshot.Agreed.not_assigns_iff` is the characterisation of the edges to remove, and
  `Snapshot.Agreed.eq_of_alone` that of the values to fix.  An owner counts only as long as it has
  the value as its mate (`Snapshot.tidied`), so nothing is asked of other owners.
* `Informed` is what a round is given, and `Informed.deduces` what it collects then.
-/

namespace FiniteDomain.AllDifferent

namespace Snapshot

variable {p : Snapshot} {f : Nat → Nat} {x y v a : Nat}

/-! ## Assignments -/

/-- Distinct values for the active variables, each along a live edge. -/
structure Assigns (p : Snapshot) (f : Nat → Nat) : Prop where
  injOn : Set.InjOn f p.active
  mem : ∀ x ∈ p.active, f x ∈ p.live x

/-- No variable has the value as its mate. -/
def Single (p : Snapshot) (v : Nat) : Prop := ∀ x, p.mate x ≠ some v

/-- An alternating path leads to the variable from a value that is no mate. -/
inductive Led (p : Snapshot) : Nat → Prop
  | single {y v : Nat} : y ∈ p.active → v ∈ p.live y → p.Single v → Led p y
  | arc {x y : Nat} : Led p x → p.Arc x y → Led p y

/-- In a matching that is kept from both ends, a value is no mate if it has no owner. -/
theorem Matched.single_iff (h : p.Matched) : p.Single v ↔ p.owner v = none := by
  rw [Option.eq_none_iff_forall_ne_some]
  exact forall_congr' fun x => not_congr ⟨h.owner_of_mate x v, h.mate_of_owner v x⟩

theorem Matched.led_iff (h : p.Matched) : p.Led y ↔ p.Reached y := by
  constructor
  · intro hy
    induction hy with
    | single hy hlive hsingle => exact .free hy hlive (h.single_iff.1 hsingle)
    | arc _ harc ih => exact .arc ih harc
  · intro hy
    induction hy with
    | free hy hlive hnone => exact .single hy hlive (h.single_iff.2 hnone)
    | arc _ harc ih => exact .arc ih harc

/-- Every variable with a mate owns it along a live edge, and every active variable has a mate. -/
structure Agreed (p : Snapshot) : Prop where
  owner : ∀ x v, p.mate x = some v → p.owner v = some x
  live : ∀ x v, p.mate x = some v → v ∈ p.live x
  covered : p.Covered

/-- No value that a grounded variable owns can be taken by an active one. -/
def Denied (p : Snapshot) : Prop :=
  ∀ y ∈ p.active, ∀ v ∈ p.live y, ∀ z, p.owner v = some z → z ∈ p.active

/-! ## Owners that count -/

/-- Only a variable that has the value as its mate counts as its owner. -/
def tidied (p : Snapshot) : Snapshot :=
  { p with owner := fun v => (p.owner v).filter fun x => p.mate x = some v }

theorem tidied_owner : p.tidied.owner v = some x ↔ p.owner v = some x ∧ p.mate x = some v := by
  show (p.owner v).filter _ = some x ↔ _
  rw [Option.filter_eq_some_iff, decide_eq_true_iff]

/-- Where owners take nothing from the active variables, an assignment is a covering. -/
theorem Denied.tidied_covering_iff (h : p.Denied) : p.tidied.Covering f ↔ p.Assigns f := by
  refine ⟨fun hf => ⟨hf.injOn, fun x hx => (mem_options.1 (hf.mem x hx)).1⟩,
    fun hf => ⟨hf.injOn, fun x hx => mem_options.2 ⟨hf.mem x hx, fun z hz => ?_⟩⟩⟩
  exact h x hx _ (hf.mem x hx) z (tidied_owner.1 hz).1

namespace Agreed

theorem tidied_owner_iff (h : p.Agreed) : p.tidied.owner v = some x ↔ p.mate x = some v :=
  tidied_owner.trans ⟨And.right, fun hmate => ⟨h.owner x v hmate, hmate⟩⟩

theorem tidied_matched (h : p.Agreed) : p.tidied.Matched :=
  ⟨fun _ _ => h.tidied_owner_iff.2, fun _ _ => h.tidied_owner_iff.1, h.live⟩

/-- The mates are the same. -/
theorem tidied_reached_iff (h : p.Agreed) : p.tidied.Reached y ↔ p.Led y := by
  refine h.tidied_matched.led_iff.symm.trans ⟨fun hy => ?_, fun hy => ?_⟩
  · induction hy with
    | single hy hlive hsingle => exact .single hy hlive hsingle
    | arc _ harc ih => exact .arc ih harc
  · induction hy with
    | single hy hlive hsingle => exact .single hy hlive hsingle
    | arc _ harc ih => exact .arc ih harc

/-! ## Edges to remove and values to fix -/

/-- No assignment uses an edge if and only if its value is the mate of a variable to which no free
value leads and which is in another component. -/
theorem not_assigns_iff (h : p.Agreed) (hdenied : p.Denied) (hy : y ∈ p.active)
    (hlive : a ∈ p.live y) :
    (∀ f, p.Assigns f → f y ≠ a) ↔
      ∃ x ∈ p.active, ¬ p.Led x ∧ p.mate x = some a ∧ y ≠ x ∧ ¬ p.Together y x := by
  have hm := h.tidied_matched
  have ha : a ∈ p.tidied.options y :=
    mem_options.2 ⟨hlive, fun z hz => hdenied y hy a hlive z (tidied_owner.1 hz).1⟩
  constructor
  · intro hnone
    by_contra hno
    obtain ⟨f, hf, hfy⟩ := exists_covering hm h.covered hy ha fun x hx => by
      by_contra hnot
      rw [not_or, not_or] at hnot
      obtain ⟨hxy, hreached, hto⟩ := hnot
      exact hno ⟨x, hdenied y hy a hlive x (tidied_owner.1 hx).1,
        fun hled => hreached (h.tidied_reached_iff.2 hled), h.tidied_owner_iff.1 hx, Ne.symm hxy,
        fun htogether => hto htogether.1⟩
    exact hnone f (hdenied.tidied_covering_iff.1 hf) hfy
  · rintro ⟨x, hx, hled, hmate, _, hapart⟩ f hf hfy
    have hto := reflTransGen_of_covering hm (hdenied.tidied_covering_iff.2 hf) hx
      (fun hreached => hled (h.tidied_reached_iff.1 hreached)) hmate hy hfy
    exact hapart ⟨hto, .single ⟨hx, hy, a, hmate, hlive⟩⟩

/-- While all values that can be taken are mates, a value that one variable alone can take is given to
it by every assignment. -/
theorem eq_of_alone (h : p.Agreed) (hdenied : p.Denied)
    (hfull : ∀ x ∈ p.active, ∀ v ∈ p.live x, ¬ p.Single v) (hx : x ∈ p.active)
    (hmate : p.mate x = some a) (halone : ∀ y ∈ p.active, a ∈ p.live y → y = x)
    (hf : p.Assigns f) : f x = a :=
  covering_eq_of_forced h.tidied_matched (hdenied.tidied_covering_iff.2 hf)
    (fun y hy v hv hnone => hfull y hy v hv (h.tidied_matched.single_iff.2 hnone)) hx
    (h.tidied_owner_iff.2 hmate) halone

end Agreed

end Snapshot

open ValueGraph

variable {p : AllDifferent} {s : Store}

/-! ## What a round is given -/

open Classical in
/-- The matching is checked, no active variable can take what a grounded one owns, the tags are those
of the components, the marks are on the variables to which free values lead, and these values are
counted. -/
structure Informed (p : AllDifferent) (s : Store) : Prop where
  checked : p.graph.isCovered s = .ok true
  denied : (p.shown s).graph.Denied
  tags : ∀ x ∈ (p.shown s).graph.active, ∀ y ∈ (p.shown s).graph.active,
    (p.shown s).tag x = (p.shown s).tag y ↔ (p.shown s).graph.Together x y
  marks : ∀ x ∈ (p.shown s).graph.active, p.reach.reached.Has x ↔ (p.shown s).graph.Led x
  count : p.reach.freeCount = ((Finset.range p.graph.valueTotal).filter fun v =>
    (p.shown s).graph.Single v ∧ 0 < ValueGraph.count (p.graph.now s) v).card

/-- A matching that is checked agrees with the owners. -/
theorem agreed_of_checked (hg : p.graph.Sound s) (hcovered : p.graph.isCovered s = .ok true) :
    (p.shown s).graph.Agreed := by
  rw [hg.isCovered_eq, Except.ok.injEq, decide_eq_true_eq] at hcovered
  have hmate : ∀ x v, (p.shown s).graph.mate x = some v →
      (p.shown s).graph.owner v = some x ∧ v ∈ (p.shown s).graph.live x := by
    intro x v hv
    obtain ⟨v', hv', howner, hlive⟩ := hcovered x (hg.within.mate_lt x v hv).1
    cases hv.symm.trans hv'
    exact ⟨howner, hlive⟩
  refine ⟨fun x v hv => (hmate x v hv).1, fun x v hv => (hmate x v hv).2, fun x hx => ?_⟩
  obtain ⟨v, hv, _⟩ := hcovered x (hg.within.active_lt x hx)
  exact ⟨v, hv⟩

namespace Informed

theorem agreed (h : p.Informed s) (hg : p.graph.Sound s) : (p.shown s).graph.Agreed :=
  agreed_of_checked hg h.checked

/-- If no free value is counted, every value that can be taken is a mate. -/
theorem not_single (h : p.Informed s) (hg : p.graph.Sound s) (hnone : p.reach.freeCount = 0)
    {x v : Nat} (hlive : v ∈ (p.shown s).graph.live x) : ¬ (p.shown s).graph.Single v := by
  classical
  intro hsingle
  have hempty := h.count
  rw [hnone, eq_comm, Finset.card_eq_zero, Finset.filter_eq_empty_iff] at hempty
  have hv := (hg.within.live_lt x v hlive).2
  obtain ⟨k, hk, _⟩ := (mem_live_iff_nth hg.layout hg.intact hv).1 hlive
  exact hempty (Finset.mem_range.2 hv) ⟨hsingle, Nat.lt_of_le_of_lt (Nat.zero_le k) hk⟩

theorem apart_iff (h : p.Informed s) (hg : p.graph.Sound s) {y a : Nat} :
    p.Apart s y a ↔ y ∈ (p.shown s).graph.active ∧ a ∈ (p.shown s).graph.live y ∧
      ∀ f, (p.shown s).graph.Assigns f → f y ≠ a := by
  constructor
  · rintro ⟨hy, hlive, x, hx, hmark, hmate, hne, htag⟩
    refine ⟨hy, hlive, ((h.agreed hg).not_assigns_iff h.denied hy hlive).2 ⟨x, hx,
      fun hled => hmark ((h.marks x hx).2 hled), hmate, hne, fun htogether => htag ?_⟩⟩
    exact (h.tags y hy x hx).2 htogether
  · rintro ⟨hy, hlive, hnone⟩
    obtain ⟨x, hx, hled, hmate, hne, hapart⟩ :=
      ((h.agreed hg).not_assigns_iff h.denied hy hlive).1 hnone
    exact ⟨hy, hlive, x, hx, fun hmark => hled ((h.marks x hx).1 hmark), hmate, hne,
      fun htag => hapart ((h.tags y hy x hx).1 htag)⟩

theorem eq_of_forced (h : p.Informed s) (hg : p.graph.Sound s) {x a : Nat}
    (hforced : p.Forced s x a) : a ∈ (p.shown s).graph.live x ∧
      ∀ f, (p.shown s).graph.Assigns f → f x = a := by
  have hagreed := h.agreed hg
  have ha := (hg.within.owner_lt a x hforced.owner).2
  -- The one variable that can take the value has it as its mate, and so owns it.
  have hone : ValueGraph.count (p.graph.now s) a = 1 := hforced.alone
  have hlive : a ∈ (p.shown s).graph.live (p.graph.nth a 0) :=
    (mem_live_iff_nth hg.layout hg.intact ha).2 ⟨0, by omega, rfl⟩
  have halone : ∀ y, a ∈ (p.shown s).graph.live y → y = p.graph.nth a 0 := by
    intro y hy
    obtain ⟨k, hk, hky⟩ := (mem_live_iff_nth hg.layout hg.intact ha).1 hy
    obtain rfl : k = 0 := by omega
    exact hky.symm
  have hmate : (p.shown s).graph.mate x = some a := by
    have hsingle := h.not_single hg hforced.full hlive
    rw [Snapshot.Single, not_forall] at hsingle
    obtain ⟨z, hz⟩ := hsingle
    have hz := not_not.1 hz
    cases hforced.owner.symm.trans (hagreed.owner z a hz)
    exact hz
  have hx := hagreed.live x a hmate
  exact ⟨hx, fun f hf => hagreed.eq_of_alone h.denied
    (fun y _ v hv => h.not_single hg hforced.full hv) hforced.active hmate
    (fun y _ hy => (halone y hy).trans (halone x hx).symm) hf⟩

/-- The removals that are collected are the edges of active variables that no assignment uses, each of
them once, and every assignment uses the edges along which variables are fixed. -/
theorem deduces (h : p.Informed s) (hf : p.Fitted s) (hi : p.graph.Intact (p.graph.now s)) :
    (∃ removals, p.prunable s = .ok removals ∧ removals.Nodup ∧ ∀ y u, (y, u) ∈ removals ↔
      ∃ v, p.graph.val v = u ∧ y ∈ (p.shown s).graph.active ∧ v ∈ (p.shown s).graph.live y ∧
        ∀ f, (p.shown s).graph.Assigns f → f y ≠ v) ∧
    ∃ fixes, p.shortcuts s = .ok fixes ∧ ∀ x u, (x, u) ∈ fixes →
      ∃ v, p.graph.val v = u ∧ x ∈ (p.shown s).graph.active ∧ v ∈ (p.shown s).graph.live x ∧
        ∀ f, (p.shown s).graph.Assigns f → f x = v := by
  have hg := hf.graph hi
  constructor
  · obtain ⟨removals, hret, hmem, hnodup⟩ := prunable_eq hf hi
    refine ⟨removals, hret, hnodup fun x y v hx hy => ?_, fun y u => ?_⟩
    · have hagreed := h.agreed hg
      exact Option.some.inj ((hagreed.owner x v hx).symm.trans (hagreed.owner y v hy))
    · rw [hmem]
      constructor
      · rintro ⟨a, hapart, rfl⟩
        exact ⟨a, rfl, (h.apart_iff hg).1 hapart⟩
      · rintro ⟨a, rfl, hunused⟩
        exact ⟨a, (h.apart_iff hg).2 hunused, rfl⟩
  · obtain ⟨fixes, hret, hforced⟩ := shortcuts_eq hf hi
    refine ⟨fixes, hret, fun x u hmem => ?_⟩
    obtain ⟨a, ha, rfl⟩ := hforced (x, u) hmem
    exact ⟨a, rfl, ha.active, h.eq_of_forced hg ha⟩

end Informed

/-- A new constraint on the first three variables, up to its first deductions. -/
def informed (s : Store) : Except Fault (AllDifferent × Store) := do
  let (p, s) ← AllDifferent.new s #[⟨0⟩, ⟨1⟩, ⟨2⟩] .usual
  let (_, p, s) ← p.repair .nothing s
  let (p, s) ← p.retag .repaired [] s
  let (_, reach, s) ← p.reach.compute p.graph s
  return ({ p with reach }, s)

/-- After its first deductions a new constraint is informed, if the matching covers the variables and
no value is free. -/
theorem informed_eq {s' : Store} (hs : s.Sound) (hsize : s.definitions.size = 3)
    (hret : informed s = .ok (p, s')) (hchecked : p.graph.isCovered s' = .ok true)
    (hfree : p.reach.freeCount = 0) : p.Sound s' ∧ p.Informed s' := by
  obtain ⟨⟨p₀, s₀⟩, hnew, hret⟩ := bind_eq_ok_iff.1 hret
  obtain ⟨⟨repair, p₁, s₁⟩, hrepair, hret⟩ := bind_eq_ok_iff.1 hret
  obtain ⟨⟨p₂, s₂⟩, hretag, hret⟩ := bind_eq_ok_iff.1 hret
  obtain ⟨⟨number, reach, s₃⟩, hcompute, hret⟩ := bind_eq_ok_iff.1 hret
  cases hret
  have hvars : ∀ x ∈ (#[⟨0⟩, ⟨1⟩, ⟨2⟩] : Array Var), x.index < s.definitions.size := by
    rw [hsize]
    decide
  have hcreated := new_eq hs hvars hnew
  obtain ⟨_, _, _, hrepair', hrepaired⟩ := repair_eq hcreated.sound .nothing
  cases hrepair.symm.trans hrepair'
  have hretagged : Retagged p₁ s₁ .repaired [] p₂ s₂ := by
    obtain ⟨_, _, hretag', hretagged⟩ | ⟨_, _, hsame, _⟩ :=
      retag_cases hrepaired.advance.sound .repaired [] fun x hx => (nomatch hx)
    · cases hretag.symm.trans hretag'
      exact hretagged
    · cases hsame
  obtain ⟨_, _, _, hcompute', hmarked⟩ := compute_eq hretagged.advance.sound
  cases hcompute.symm.trans hcompute'
  have hsound₁ := hrepaired.advance.sound
  have hbounded := hrepaired.bounded hcreated.sound hcreated.trusted.bounded
  have hgraph₂ : (p₂.shown s₂).graph = (p₁.shown s₁).graph := by rw [hretagged.shown_eq]
  have hgraph : (shown { p₂ with reach := reach } s').graph = (p₁.shown s₁).graph :=
    (by rw [hmarked.shown_eq] : _ = (p₂.shown s₂).graph).trans hgraph₂
  have hsound := hmarked.advance.sound
  have hcovered := (agreed_of_checked hsound.graph hchecked).covered
  have hmatched : (shown { p₂ with reach := reach } s').graph.Matched := hsound.shows.matched
  rw [hgraph] at hcovered
  refine ⟨hsound, hchecked, fun y _ v _ z hz => ?_, ?_, fun x _ => ?_, ?_⟩
  · -- All variables are active.
    rw [hgraph] at hz ⊢
    have hlt := (hsound₁.within.owner_lt v z hz).1
    rw [hrepaired.keeps.active_eq]
    exact hcreated.active z (hrepaired.advance.alike.varTotal_eq ▸ hlt)
  · have hsharp := hretagged.sharp (Or.inl nofun)
    rw [hmarked.shown_eq]
    exact hsharp
  · -- The bound of a new propagator holds still.
    rw [hmatched.led_iff, hgraph, ← hgraph₂]
    refine hmarked.computed.exact hretagged.advance.sound.shows.matched (hgraph₂ ▸ hcovered) ?_ x
    rw [hretagged.shown_eq]
    exact hbounded
  · classical
    refine hfree.trans (Eq.symm (Finset.card_eq_zero.2 (Finset.filter_eq_empty_iff.2 ?_)))
    rintro v hv ⟨hsingle, hpos⟩
    have hv := Finset.mem_range.1 hv
    have hg := hsound.graph
    have hlive : v ∈ (shown { p₂ with reach := reach } s').graph.live (p₂.graph.nth v 0) :=
      (mem_live_iff_nth hg.layout hg.intact hv).2 ⟨0, hpos, rfl⟩
    rw [hgraph, ← hgraph₂] at hlive hmatched hsingle
    exact hmarked.computed.free hfree v hv _ hlive (hmatched.single_iff.1 hsingle)

/-- The first two variables share two values, so that the third one has to take its last value. -/
theorem Informed.deduces_shared : ∃ m p s, (Model.empty .lastFirst).driveAll Model.Call.Installs
      .consistent [.declare (.primitive 0 1), .declare (.primitive 0 1),
        .declare (.primitive 0 2)] = .ok (.consistent, m) ∧
      informed m.store = .ok (p, s) ∧ p.Informed s ∧
      p.prunable s = .ok [(2, 0), (2, 1)] ∧ p.shortcuts s = .ok [(2, 2)] ∧
      (∃ v, p.graph.val v = 1 ∧ ∀ f, (p.shown s).graph.Assigns f → f 2 ≠ v) ∧
      ∃ v, p.graph.val v = 2 ∧ ∀ f, (p.shown s).graph.Assigns f → f 2 = v := by
  have hrun : ((Model.empty .lastFirst).driveAll Model.Call.Installs .consistent
      [.declare (.primitive 0 1), .declare (.primitive 0 1), .declare (.primitive 0 2)] >>= fun r =>
        informed r.2.store >>= fun q =>
        q.1.graph.isCovered q.2 >>= fun checked =>
        q.1.prunable q.2 >>= fun removals =>
        q.1.shortcuts q.2 >>= fun fixes =>
        .ok (r.1, decide (r.2.store.definitions.size = 3 ∧ q.1.reach.freeCount = 0 ∧
          checked = true ∧ removals = [(2, 0), (2, 1)] ∧ fixes = [(2, 2)]))) =
      .ok (.consistent, true) := by decide +kernel
  obtain ⟨⟨last, m⟩, hm, hrun⟩ := bind_eq_ok_iff.1 hrun
  obtain ⟨⟨p, s⟩, hinformed, hrun⟩ := bind_eq_ok_iff.1 hrun
  obtain ⟨checked, hchecked, hrun⟩ := bind_eq_ok_iff.1 hrun
  obtain ⟨removals, hprunable, hrun⟩ := bind_eq_ok_iff.1 hrun
  obtain ⟨fixes, hshortcuts, heq⟩ := bind_eq_ok_iff.1 hrun
  injection heq with heq
  simp only [Prod.mk.injEq, decide_eq_true_eq] at heq
  obtain ⟨rfl, hsize, hfree, rfl, rfl, rfl⟩ := heq
  have hdriven : Model.Driven Model.Call.Installs m .consistent :=
    (Model.Driven.start .lastFirst).driveAll hm
  obtain ⟨hsound, hp⟩ :=
    informed_eq hdriven.reached.guarded.store hsize hinformed hchecked hfree
  obtain ⟨⟨removals, hret, _, hremovals⟩, fixes, hret', hfixes⟩ :=
    hp.deduces hsound.toFitted hsound.shows.intact
  cases hprunable.symm.trans hret
  cases hshortcuts.symm.trans hret'
  refine ⟨m, p, s, hm, hinformed, hp, hprunable, hshortcuts, ?_, ?_⟩
  · obtain ⟨v, hv, _, _, hunused⟩ := (hremovals 2 1).1 (by simp)
    exact ⟨v, hv, hunused⟩
  · obtain ⟨v, hv, _, _, hused⟩ := hfixes 2 2 (by simp)
    exact ⟨v, hv, hused⟩

end FiniteDomain.AllDifferent
