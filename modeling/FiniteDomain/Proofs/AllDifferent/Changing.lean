import FiniteDomain.Proofs.AllDifferent.Moves
import FiniteDomain.Proofs.AllDifferent.Reading

/-!
# Changing a value graph

* `ValueGraph.Step` says what stays when a graph is changed: the arrays that describe it, the counts
  never grow, and every frame that sees at least as much as the present sees the same live edges and
  active variables as before.
* `ValueGraph.Becomes` adds what the graph shows afterwards.  `assignMate_eq`, `releaseMate_eq`,
  `unlink_eq` and `ground_eq` describe the four changes by what they do to the snapshot.
-/

namespace FiniteDomain.AllDifferent

namespace ValueGraph

variable {g g' g'' : ValueGraph} {s s' s'' : Store} {ρ : Registers}

/-! ## What stays -/

/-- The arrays that describe two graphs are the same. -/
structure Alike (g g' : ValueGraph) : Prop where
  vars_eq : g'.vars = g.vars
  sources_eq : g'.sources = g.sources
  values_eq : g'.values = g.values
  edgeStart_eq : g'.edgeStart = g.edgeStart
  edgeVar_eq : g'.edgeVar = g.edgeVar
  edgeValue_eq : g'.edgeValue = g.edgeValue
  valueStart_eq : g'.valueStart = g.valueStart
  live_eq : g'.live = g.live
  liveTotal_eq : g'.liveTotal = g.liveTotal
  activeTotal_eq : g'.activeTotal = g.activeTotal
  mates_eq : g'.mates = g.mates
  owners_eq : g'.owners = g.owners

namespace Alike

theorem refl (g : ValueGraph) : Alike g g :=
  ⟨rfl, rfl, rfl, rfl, rfl, rfl, rfl, rfl, rfl, rfl, rfl, rfl⟩

theorem trans (h : Alike g g') (h' : Alike g' g'') : Alike g g'' :=
  ⟨h'.vars_eq.trans h.vars_eq, h'.sources_eq.trans h.sources_eq, h'.values_eq.trans h.values_eq,
    h'.edgeStart_eq.trans h.edgeStart_eq, h'.edgeVar_eq.trans h.edgeVar_eq,
    h'.edgeValue_eq.trans h.edgeValue_eq, h'.valueStart_eq.trans h.valueStart_eq,
    h'.live_eq.trans h.live_eq, h'.liveTotal_eq.trans h.liveTotal_eq,
    h'.activeTotal_eq.trans h.activeTotal_eq, h'.mates_eq.trans h.mates_eq,
    h'.owners_eq.trans h.owners_eq⟩

theorem cell?_eq (h : Alike g g') : g'.cell? = g.cell? := by
  funext r
  cases r with
  | live v => rw [cell?, cell?, h.live_eq]
  | liveTotal => rw [cell?, cell?, h.liveTotal_eq]
  | activeTotal => rw [cell?, cell?, h.activeTotal_eq]
  | mate x => rw [cell?, cell?, h.mates_eq]
  | owner v => rw [cell?, cell?, h.owners_eq]

theorem owns_iff (h : Alike g g') {c : Cell} : g'.Owns c ↔ g.Owns c := by
  rw [Owns, Owns, h.cell?_eq]

theorem registers_eq (h : Alike g g') : g'.registers = g.registers := by
  funext w r
  rw [registers, registers, h.cell?_eq]

theorem varTotal_eq (h : Alike g g') : g'.varTotal = g.varTotal := by
  rw [varTotal, varTotal, h.vars_eq]

theorem valueTotal_eq (h : Alike g g') : g'.valueTotal = g.valueTotal := by
  rw [valueTotal, valueTotal, h.values_eq]

theorem edgeTotal_eq (h : Alike g g') : g'.edgeTotal = g.edgeTotal := by
  rw [edgeTotal, edgeTotal, h.edgeVar_eq]

theorem tail_eq (h : Alike g g') : g'.tail = g.tail := by
  funext e
  rw [tail, tail, h.edgeVar_eq]

theorem head_eq (h : Alike g g') : g'.head = g.head := by
  funext e
  rw [head, head, h.edgeValue_eq]

theorem start_eq (h : Alike g g') : g'.start = g.start := by
  funext v
  rw [start, start, h.valueStart_eq]

theorem wired (h : Alike g g') (hw : g.Wired s) : g'.Wired s := by
  refine ⟨?_, fun c hc => hw.has c (h.owns_iff.1 hc), fun c hc => hw.free c (h.owns_iff.1 hc)⟩
  rw [h.cell?_eq]
  exact hw.distinct

end Alike

/-- The counts of one frame are at most those of another. -/
def Above (ρ ρ' : Registers) : Prop :=
  (∀ v, ρ (.live v) ≤ ρ' (.live v)) ∧ ρ .activeTotal ≤ ρ' .activeTotal

theorem Above.refl (ρ : Registers) : Above ρ ρ := ⟨fun _ => Int.le_refl _, Int.le_refl _⟩

theorem Above.trans {ρ ρ' ρ'' : Registers} (h : Above ρ ρ') (h' : Above ρ' ρ'') : Above ρ ρ'' :=
  ⟨fun v => Int.le_trans (h.1 v) (h'.1 v), Int.le_trans h.2 h'.2⟩

/-- A change to a graph.  Whoever sees at least what was live and active before sees no change. -/
structure Step (g : ValueGraph) (s : Store) (g' : ValueGraph) (s' : Store) : Prop where
  evolves : Store.Evolves g.Owns s s'
  alike : Alike g g'
  sound : g'.Sound s'
  below : Above (g.now s') (g.now s)
  live_iff : ∀ ρ, Above (g.now s) ρ → ∀ e, g'.Live ρ e ↔ g.Live ρ e
  active_iff : ∀ ρ, Above (g.now s) ρ → ∀ x, g'.Active ρ x ↔ g.Active ρ x

theorem Step.refl (h : g.Sound s) : Step g s g s :=
  ⟨.refl _ h.store, .refl g, h, .refl _, fun _ _ _ => Iff.rfl, fun _ _ _ => Iff.rfl⟩

theorem Alike.now_eq (h : Alike g g') (s : Store) : g'.now s = g.now s := by
  rw [now, now, h.registers_eq]

theorem Step.trans (h : Step g s g' s') (h' : Step g' s' g'' s'') : Step g s g'' s'' where
  evolves := h.evolves.trans (h'.evolves.mono fun _ hc => h.alike.owns_iff.1 hc)
  alike := h.alike.trans h'.alike
  sound := h'.sound
  below := by
    have hb := h'.below
    rw [h.alike.now_eq, h.alike.now_eq] at hb
    exact hb.trans h.below
  live_iff ρ hρ e := by
    rw [h'.live_iff ρ (by rw [h.alike.now_eq]; exact h.below.trans hρ), h.live_iff ρ hρ]
  active_iff ρ hρ x := by
    rw [h'.active_iff ρ (by rw [h.alike.now_eq]; exact h.below.trans hρ), h.active_iff ρ hρ]

/-- What is seen from above is the same picture. -/
theorem Step.snapshot_eq (h : Step g s g' s') (hρ : Above (g.now s) ρ) :
    g'.snapshot ρ = g.snapshot ρ := by
  rw [snapshot, snapshot, h.alike.varTotal_eq, h.alike.edgeTotal_eq, h.alike.tail_eq,
    h.alike.head_eq]
  congr 1
  · exact Finset.filter_congr fun x _ => h.active_iff ρ hρ x
  · funext x
    congr 1
    exact Finset.filter_congr fun e _ => and_congr_left fun _ => h.live_iff ρ hρ e

/-- The cells hold what they should for a graph in which the same edges are live. -/
theorem Intact.congr (h : g.Intact ρ) (ha : Alike g g') (hlive : ∀ e, g'.Live ρ e ↔ g.Live ρ e) :
    g'.Intact ρ := by
  have hfilter : (Finset.range g'.edgeTotal).filter (g'.Live ρ) =
      (Finset.range g.edgeTotal).filter (g.Live ρ) := by
    simp only [ha.edgeTotal_eq, hlive]
  refine ⟨?_, ?_, h.active_nonneg, ?_, ?_, ?_, ?_⟩
  · rw [ha.valueTotal_eq]
    exact h.live_nonneg
  · rw [ha.valueTotal_eq, ha.start_eq]
    exact h.live_le
  · rw [ha.varTotal_eq]
    exact h.active_le
  · rw [hfilter]
    exact h.total_eq
  · rw [ha.varTotal_eq, ha.valueTotal_eq]
    exact h.mate_eq
  · rw [ha.varTotal_eq, ha.valueTotal_eq]
    exact h.owner_eq

/-- What is live or active stays so where the counts are larger. -/
theorem Above.live {ρ' : Registers} (h : Above ρ ρ') {e : Nat} (he : g.Live ρ e) : g.Live ρ' e := by
  have hle : count ρ (g.head e) ≤ count ρ' (g.head e) := Int.toNat_le_toNat (h.1 _)
  exact ⟨he.1, Nat.lt_of_lt_of_le he.2 (by omega)⟩

theorem Above.active {ρ' : Registers} (h : Above ρ ρ') {x : Nat} (hx : g.Active ρ x) :
    g.Active ρ' x :=
  ⟨hx.1, Nat.lt_of_lt_of_le hx.2 (Int.toNat_le_toNat h.2)⟩

/-- No edge becomes live. -/
theorem Step.live_of_live (h : Step g s g' s') {e : Nat} (he : g'.Live (g'.now s') e) :
    g.Live (g.now s) e := by
  rw [h.alike.now_eq] at he
  exact (h.live_iff _ (.refl _) e).1 (h.below.live he)

theorem Step.live_subset (h : Step g s g' s') (x : Nat) :
    (g'.snapshot (g'.now s')).live x ⊆ (g.snapshot (g.now s)).live x := by
  intro v hv
  obtain ⟨e, hlive, ht, hv⟩ := mem_live.1 hv
  exact mem_live.2 ⟨e, h.live_of_live hlive, by rw [← h.alike.tail_eq]; exact ht,
    by rw [← h.alike.head_eq]; exact hv⟩

/-- No variable becomes active. -/
theorem Step.active_subset (h : Step g s g' s') :
    (g'.snapshot (g'.now s')).active ⊆ (g.snapshot (g.now s)).active := by
  intro x hx
  rw [h.alike.now_eq, mem_active] at hx
  exact mem_active.2 ((h.active_iff _ (.refl _) x).1 (h.below.active hx))

/-- A change after which the graph shows `p`, and which narrows no domain. -/
structure Becomes (g : ValueGraph) (s : Store) (g' : ValueGraph) (s' : Store) (p : Snapshot) : Prop
    extends Step g s g' s' where
  shows : g'.snapshot (g'.now s') = p
  domain_eq : ∀ x, s'.domain x = s.domain x

theorem Becomes.trans {p q : Snapshot} (h : Becomes g s g' s' p) (h' : Becomes g' s' g'' s'' q) :
    Becomes g s g'' s'' q :=
  ⟨h.toStep.trans h'.toStep, h'.shows, fun x => (h'.domain_eq x).trans (h.domain_eq x)⟩

/-! ## The matching cells -/

/-- A write into a matching cell changes neither the live edges nor the active variables. -/
theorem snapshot_update {r : Role} (hr : ∀ v, r ≠ .live v) (hr' : r ≠ .activeTotal) (a : Int) :
    (g.snapshot (Function.update ρ r a)).active = (g.snapshot ρ).active ∧
      (g.snapshot (Function.update ρ r a)).live = (g.snapshot ρ).live ∧
      (∀ e, g.Live (Function.update ρ r a) e ↔ g.Live ρ e) := by
  have hlive : ∀ e, g.Live (Function.update ρ r a) e ↔ g.Live ρ e := by
    intro e
    rw [Live, Live, count, count, Function.update_of_ne (Ne.symm (hr _))]
  refine ⟨?_, ?_, hlive⟩
  · rw [snapshot, snapshot]
    refine Finset.filter_congr fun x _ => ?_
    rw [Active, Active, Function.update_of_ne (Ne.symm hr')]
  · rw [snapshot, snapshot]
    funext x
    dsimp only
    congr 1
    exact Finset.filter_congr fun e _ => and_congr_left fun _ => hlive e

/-- The counts do not depend on the matching cells. -/
theorem Intact.update_matching (h : g.Intact ρ) {r : Role} {a : Int} (hr : ∀ v, r ≠ .live v)
    (hr' : r ≠ .activeTotal) (hr'' : r ≠ .liveTotal)
    (hmate : ∀ x, r = .mate x →
      a = -1 ∨ x < g.varTotal ∧ ∃ v < g.valueTotal, a = (v : Nat))
    (howner : ∀ v, r = .owner v →
      a = -1 ∨ v < g.valueTotal ∧ ∃ x < g.varTotal, a = (x : Nat)) :
    g.Intact (Function.update ρ r a) := by
  obtain ⟨_, _, hlive⟩ := snapshot_update (g := g) (ρ := ρ) hr hr' a
  refine ⟨fun v hv => ?_, fun v hv => ?_, ?_, ?_, ?_, fun x => ?_, fun v => ?_⟩
  · rw [Function.update_of_ne (Ne.symm (hr v))]
    exact h.live_nonneg v hv
  · rw [count, Function.update_of_ne (Ne.symm (hr v))]
    exact h.live_le v hv
  · rw [Function.update_of_ne (Ne.symm hr')]
    exact h.active_nonneg
  · rw [Function.update_of_ne (Ne.symm hr')]
    exact h.active_le
  · rw [Function.update_of_ne (Ne.symm hr''), h.total_eq, Finset.filter_congr fun e _ => hlive e]
  · by_cases hx : r = .mate x
    · subst hx
      rw [Function.update_self]
      exact hmate x rfl
    · rw [Function.update_of_ne (Ne.symm hx)]
      exact h.mate_eq x
  · by_cases hv : r = .owner v
    · subst hv
      rw [Function.update_self]
      exact howner v rfl
    · rw [Function.update_of_ne (Ne.symm hv)]
      exact h.owner_eq v

/-- A write into a matching cell. -/
theorem write_matching (h : g.Sound s) {r : Role} {c : Cell} (hc : g.cell? r = some c) {a : Int}
    (hr : ∀ v, r ≠ .live v) (hr' : r ≠ .activeTotal) (hr'' : r ≠ .liveTotal)
    (hmate : ∀ x, r = .mate x →
      a = -1 ∨ x < g.varTotal ∧ ∃ v < g.valueTotal, a = (v : Nat))
    (howner : ∀ v, r = .owner v →
      a = -1 ∨ v < g.valueTotal ∧ ∃ x < g.varTotal, a = (x : Nat)) :
    ∃ s', s.write c a = .ok s' ∧ Step g s g s' ∧ g.now s' = Function.update (g.now s) r a ∧
      ∀ x, s'.domain x = s.domain x := by
  obtain ⟨s', hwrite, hev, hdom, hnow, hwired⟩ := write_eq h.store h.wired hc a
  refine ⟨s', hwrite, ⟨hev, .refl g, ⟨hev.sound, h.layout, hwired, ?_⟩, ?_, fun _ _ _ => Iff.rfl,
    fun _ _ _ => Iff.rfl⟩, hnow, hdom⟩
  · rw [hnow]
    exact h.intact.update_matching hr hr' hr'' hmate howner
  · rw [hnow]
    refine ⟨fun v => ?_, ?_⟩
    · rw [Function.update_of_ne (Ne.symm (hr v))]
    · rw [Function.update_of_ne (Ne.symm hr')]

/-- What a write into the cell of a mate shows. -/
theorem snapshot_update_mate (ρ : Registers) (x : Nat) (a : Int) :
    g.snapshot (Function.update ρ (.mate x) a) =
      { g.snapshot ρ with mate := Function.update (g.snapshot ρ).mate x (partner a) } := by
  obtain ⟨h1, h2, _⟩ := snapshot_update (g := g) (ρ := ρ) (r := .mate x) (fun _ h => by cases h)
    (fun h => by cases h) a
  refine Snapshot.ext h1 h2 ?_ ?_
  · funext y
    show partner (Function.update ρ (.mate x) a (.mate y)) =
      Function.update (g.snapshot ρ).mate x (partner a) y
    by_cases hy : y = x
    · subst hy
      rw [Function.update_self, Function.update_self]
    · rw [Function.update_of_ne (fun h => hy (Role.mate.inj h)), Function.update_of_ne hy]
      rfl
  · funext v
    show partner (Function.update ρ (.mate x) a (.owner v)) = _
    rw [Function.update_of_ne (fun h => by cases h)]
    rfl

/-- What a write into the cell of an owner shows. -/
theorem snapshot_update_owner (ρ : Registers) (v : Nat) (a : Int) :
    g.snapshot (Function.update ρ (.owner v) a) =
      { g.snapshot ρ with owner := Function.update (g.snapshot ρ).owner v (partner a) } := by
  obtain ⟨h1, h2, _⟩ := snapshot_update (g := g) (ρ := ρ) (r := .owner v) (fun _ h => by cases h)
    (fun h => by cases h) a
  refine Snapshot.ext h1 h2 ?_ ?_
  · funext x
    show partner (Function.update ρ (.owner v) a (.mate x)) = _
    rw [Function.update_of_ne (fun h => by cases h)]
    rfl
  · funext u
    show partner (Function.update ρ (.owner v) a (.owner u)) =
      Function.update (g.snapshot ρ).owner v (partner a) u
    by_cases hu : u = v
    · subst hu
      rw [Function.update_self, Function.update_self]
    · rw [Function.update_of_ne (fun h => hu (Role.owner.inj h)), Function.update_of_ne hu]
      rfl

theorem partner_natCast (n : Nat) : partner (n : Int) = some n := partner_eq_some.2 rfl

/-- A variable and a value are matched. -/
theorem assignMate_eq (h : g.Sound s) {x v : Nat} (hx : x < g.varTotal) (hv : v < g.valueTotal) :
    ∃ s', g.assignMate s x v = .ok s' ∧
      Becomes g s g s' ((g.snapshot (g.now s)).assign x v) := by
  obtain ⟨c, hc, hfetch⟩ := h.layout.cell_mate hx
  obtain ⟨d, hd, hfetch'⟩ := h.layout.cell_owner hv
  obtain ⟨s₁, hw₁, hstep₁, hnow₁, hdom₁⟩ := write_matching (a := (v : Nat)) h hc (fun _ => nofun)
    nofun nofun (fun y hy => Or.inr ⟨Role.mate.inj hy ▸ hx, v, hv, rfl⟩) (fun _ => nofun)
  obtain ⟨s₂, hw₂, hstep₂, hnow₂, hdom₂⟩ := write_matching (a := (x : Nat)) hstep₁.sound hd
    (fun _ => nofun) nofun nofun (fun _ => nofun)
    (fun u hu => Or.inr ⟨Role.owner.inj hu ▸ hv, x, hx, rfl⟩)
  refine ⟨s₂, ?_, hstep₁.trans hstep₂, ?_, fun y => (hdom₂ y).trans (hdom₁ y)⟩
  · rw [assignMate, hfetch, ok_bind, hw₁, ok_bind, hfetch', ok_bind, hw₂]
  · rw [hnow₂, snapshot_update_owner, hnow₁, snapshot_update_mate, partner_natCast,
      partner_natCast]
    rfl

/-- The mate of a variable is taken away. -/
theorem releaseMate_eq (h : g.Sound s) {x : Nat} (hx : x < g.varTotal) :
    ∃ s', g.releaseMate s x = .ok s' ∧ Becomes g s g s' ((g.snapshot (g.now s)).release x) := by
  rw [releaseMate, h.mate?_eq hx, ok_bind]
  cases hmate : (g.snapshot (g.now s)).mate x with
  | none =>
    refine ⟨s, rfl, .refl h, ?_, fun _ => rfl⟩
    rw [Snapshot.release, hmate]
  | some v =>
    obtain ⟨_, hv⟩ := h.intact.mate_lt hmate
    obtain ⟨c, hc, hfetch⟩ := h.layout.cell_mate hx
    obtain ⟨d, hd, hfetch'⟩ := h.layout.cell_owner hv
    obtain ⟨s₁, hw₁, hstep₁, hnow₁, hdom₁⟩ := write_matching (a := -1) h hc (by simp)
      (by simp) (by simp) (fun _ _ => Or.inl rfl) (by simp)
    have hshow₁ := snapshot_update_mate (g := g) (g.now s) x (-1)
    rw [← hnow₁] at hshow₁
    have howner : (g.snapshot (g.now s₁)).owner v = (g.snapshot (g.now s)).owner v := by
      rw [hshow₁]
    dsimp only
    rw [hfetch, ok_bind, hw₁, ok_bind, hstep₁.sound.owner?_eq hv, ok_bind, howner]
    have hnone : partner (-1) = none := rfl
    by_cases hx' : (g.snapshot (g.now s)).owner v = some x
    · obtain ⟨s₂, hw₂, hstep₂, hnow₂, hdom₂⟩ := write_matching (a := -1) hstep₁.sound hd
        (by simp) (by simp) (by simp) (by simp) (fun _ _ => Or.inl rfl)
      refine ⟨s₂, ?_, hstep₁.trans hstep₂, ?_, fun y => (hdom₂ y).trans (hdom₁ y)⟩
      · rw [if_pos hx', hfetch', ok_bind, hw₂]
      · rw [hnow₂, snapshot_update_owner, hshow₁, Snapshot.release, hmate, hnone]
        dsimp only
        rw [if_pos hx']
    · refine ⟨s₁, by rw [if_neg hx']; rfl, hstep₁, ?_, hdom₁⟩
      rw [hshow₁, Snapshot.release, hmate, hnone]
      dsimp only
      rw [if_neg hx']

/-! ## Removals -/

/-- What is live or active is counted down by one. -/
theorem decrement_eq (h : s.Sound) (hw : g.Wired s) {r : Role} {c : Cell}
    (hc : g.cell? r = some c) (hpos : 0 < g.now s r) (hle : g.now s r ≤ Word.greatest) :
    ∃ s', s.decrement c = .ok (g.now s r - 1, s') ∧ Store.Evolves g.Owns s s' ∧
      (∀ p, s'.domain p = s.domain p) ∧
      g.now s' = Function.update (g.now s) r (g.now s r - 1) ∧ g.Wired s' := by
  obtain ⟨s', hwrite, hrest⟩ := write_eq h hw hc (g.now s r - 1)
  refine ⟨s', ?_, hrest⟩
  have hread := read_eq hw hc
  rw [Store.read] at hread
  have hin : Word.InRange (g.now s r - 1) := by
    unfold Word.InRange Word.least
    unfold Word.greatest at *
    omega
  rw [Store.write, Store.updateTrail_eq] at hwrite
  obtain ⟨t, ht, hs'⟩ := bind_eq_ok_iff.1 hwrite
  cases hs'
  rw [Store.decrement, Store.onTrail_eq, Trail.decrement, hread, ok_bind, Word.sub,
    Word.check_of_inRange hin, ok_bind, ht]
  rfl

/-- Two arrays that list the numbers below `n` and their places. -/
structure Listed (xs ys : Array Nat) (n : Nat) : Prop where
  size_left : xs.size = n
  size_right : ys.size = n
  entry : ∀ a < n, ys.getD a 0 < n ∧ xs.getD (ys.getD a 0) 0 = a
  place : ∀ k < n, xs.getD k 0 < n ∧ ys.getD (xs.getD k 0) 0 = k

/-- Each array is the inverse of the other one. -/
theorem Listed.getElem?_iff {xs ys : Array Nat} {n : Nat} (h : Listed xs ys n) {k a : Nat} :
    xs[k]? = some a ↔ ys[a]? = some k := by
  have hleft : ∀ {k}, k < n → xs[k]? = some (xs.getD k 0) := fun hk => by
    rw [Array.getD_eq_getD_getElem?, Array.getElem?_eq_getElem (h.size_left.symm ▸ hk)]
    rfl
  have hright : ∀ {a}, a < n → ys[a]? = some (ys.getD a 0) := fun ha => by
    rw [Array.getD_eq_getD_getElem?, Array.getElem?_eq_getElem (h.size_right.symm ▸ ha)]
    rfl
  constructor
  · intro hk
    have hlt : k < n := h.size_left ▸ (Array.getElem?_eq_some_iff.1 hk).1
    obtain ⟨ha, hplace⟩ := h.place k hlt
    obtain rfl := Option.some.inj ((hleft hlt).symm.trans hk)
    rw [hright ha, hplace]
  · intro ha
    have hlt : a < n := h.size_right ▸ (Array.getElem?_eq_some_iff.1 ha).1
    obtain ⟨hk, hentry⟩ := h.entry a hlt
    obtain rfl := Option.some.inj ((hright hlt).symm.trans ha)
    rw [hleft hk, hentry]

theorem Layout.listed_edges (h : g.Layout) : Listed g.adjacency g.slot g.edgeTotal :=
  ⟨h.size_adjacency, h.size_slot, h.place_edge, h.edge_place⟩

theorem Layout.listed_vars (h : g.Layout) : Listed g.active g.activePlace g.varTotal :=
  ⟨h.size_active, h.size_activePlace, h.rank_var, h.var_rank⟩

/-- A number changes places with the one that stands at `last`. -/
theorem Listed.exchange {xs ys : Array Nat} {n a last : Nat} (h : Listed xs ys n) (ha : a < n)
    (hlast : last < n) :
    Listed (xs.swapIfInBounds (ys.getD a 0) last)
        ((ys.setIfInBounds (xs.getD last 0) (ys.getD a 0)).setIfInBounds a last) n ∧
      ∀ b < n, ((ys.setIfInBounds (xs.getD last 0) (ys.getD a 0)).setIfInBounds a last).getD b 0 =
        Equiv.swap (ys.getD a 0) last (ys.getD b 0) := by
  obtain ⟨hpa, hxa⟩ := h.entry a ha
  obtain ⟨hother, hyl⟩ := h.place last hlast
  have hright : ∀ b < n,
      ((ys.setIfInBounds (xs.getD last 0) (ys.getD a 0)).setIfInBounds a last).getD b 0 =
        Equiv.swap (ys.getD a 0) last (ys.getD b 0) := by
    intro b hb
    obtain ⟨_, hxb⟩ := h.entry b hb
    rw [Array.getD_eq_getD_getElem?, Array.getElem?_setIfInBounds, Array.size_setIfInBounds,
      h.size_right]
    by_cases hba : b = a
    · subst hba
      rw [if_pos rfl, if_pos hb, Equiv.swap_apply_left]
      rfl
    · have hne : ys.getD b 0 ≠ ys.getD a 0 := fun heq => hba (by rw [← hxb, heq, hxa])
      rw [if_neg (Ne.symm hba), Array.getElem?_setIfInBounds, h.size_right]
      by_cases hbl : b = xs.getD last 0
      · subst hbl
        rw [if_pos rfl, if_pos hb, hyl, Equiv.swap_apply_right]
        rfl
      · have hnl : ys.getD b 0 ≠ last := fun heq => hbl (by rw [← hxb, heq])
        rw [if_neg (Ne.symm hbl), Equiv.swap_apply_of_ne_of_ne hne hnl,
          Array.getD_eq_getD_getElem?]
  have hleft : ∀ k, (xs.swapIfInBounds (ys.getD a 0) last).getD k 0 =
      xs.getD (Equiv.swap (ys.getD a 0) last k) 0 := by
    intro k
    rw [Array.getD_eq_getD_getElem?,
      Trail.getElem?_swapIfInBounds (by rw [h.size_left]; exact hpa)
        (by rw [h.size_left]; exact hlast),
      ← Array.getD_eq_getD_getElem?]
  have hlt : ∀ k < n, Equiv.swap (ys.getD a 0) last k < n := fun _ => Trail.swap_lt hpa hlast
  refine ⟨⟨?_, ?_, fun b hb => ?_, fun k hk => ?_⟩, hright⟩
  · rw [Array.size_swapIfInBounds, h.size_left]
  · rw [Array.size_setIfInBounds, Array.size_setIfInBounds, h.size_right]
  · rw [hright b hb, hleft, Equiv.swap_apply_self]
    exact ⟨hlt _ (h.entry b hb).1, (h.entry b hb).2⟩
  · obtain ⟨hx, hy⟩ := h.place _ (hlt k hk)
    rw [hleft, hright _ hx, hy, Equiv.swap_apply_self]
    exact ⟨hx, rfl⟩

/-- An exchange below a bound is not seen from there. -/
theorem swap_lt_iff {p q k b : Nat} (hp : p < b) (hq : q < b) :
    Equiv.swap p q k < b ↔ k < b := by
  rw [Equiv.swap_apply_def]
  split_ifs <;> omega

/-- An exchange above a bound is not seen from there. -/
theorem le_swap_iff {p q k b : Nat} (hp : b ≤ p) (hq : b ≤ q) :
    b ≤ Equiv.swap p q k ↔ b ≤ k := by
  rw [Equiv.swap_apply_def]
  split_ifs <;> omega

/-- What changes places with the last one below a bound is cut off when the bound goes down. -/
theorem swap_lt_pred_iff {p k n : Nat} (hp : p < n) :
    Equiv.swap p (n - 1) k < n - 1 ↔ k < n ∧ k ≠ p := by
  rw [Equiv.swap_apply_def]
  split_ifs <;> omega

/-- The graph after the edge `e` changed places with the one at `last`. -/
def exchangeEdge (g : ValueGraph) (e last : Nat) : ValueGraph :=
  { g with
    adjacency := g.adjacency.swapIfInBounds (g.place e) last
    slot := (g.slot.setIfInBounds (g.edgeAt last) (g.place e)).setIfInBounds e last }

theorem Alike.of_exchangeEdge (g : ValueGraph) (e last : Nat) : Alike g (g.exchangeEdge e last) :=
  ⟨rfl, rfl, rfl, rfl, rfl, rfl, rfl, rfl, rfl, rfl, rfl, rfl⟩

/-- Edges of one value change places. -/
theorem Layout.exchangeEdge (h : g.Layout) {e last : Nat} (he : e < g.edgeTotal)
    (hge : g.start (g.head e) ≤ last) (hlt : last < g.start (g.head e + 1)) :
    (g.exchangeEdge e last).Layout ∧
      ∀ e' < g.edgeTotal, (g.exchangeEdge e last).place e' =
        Equiv.swap (g.place e) last (g.place e') := by
  have hv := h.head_lt e he
  have hlast : last < g.edgeTotal := Nat.lt_of_lt_of_le hlt (h.start_le _ hv).2
  obtain ⟨hlisted, hplace⟩ := h.listed_edges.exchange he hlast
  have hown := (h.head_eq_iff e he _ hv).1 rfl
  refine ⟨{ h with
    size_adjacency := hlisted.size_left
    size_slot := hlisted.size_right
    place_edge := hlisted.entry
    edge_place := hlisted.place
    head_eq_iff := fun e' he' v hv' => ?_ }, hplace⟩
  have hp : (g.exchangeEdge e last).place e' =
      Equiv.swap (g.place e) last (g.place e') := hplace e' he'
  rw [hp]
  refine (h.head_eq_iff e' he' v hv').trans ?_
  show _ ↔ g.start v ≤ _ ∧ _ < g.start (v + 1)
  -- Both places belong to the value of `e`, or neither does.
  by_cases hev : g.head e = v
  · subst hev
    rw [le_swap_iff hown.1 hge, swap_lt_iff hown.2 hlt]
  have hne : ∀ k, g.start v ≤ k ∧ k < g.start (v + 1) → k ≠ g.place e ∧ k ≠ last := by
    rintro k ⟨hk, hk'⟩
    refine ⟨?_, ?_⟩
    · rintro rfl
      exact hev ((h.head_eq_iff e he v hv').2 ⟨hk, hk'⟩)
    · rintro rfl
      obtain ⟨hedge, hpe⟩ := h.edge_place k hlast
      have h₁ := (h.head_eq_iff _ hedge v hv').2 (by rw [hpe]; exact ⟨hk, hk'⟩)
      have h₂ := (h.head_eq_iff _ hedge _ hv).2 (by rw [hpe]; exact ⟨hge, hlt⟩)
      exact hev (h₂.symm.trans h₁)
  constructor
  · intro hk
    obtain ⟨h₁, h₂⟩ := hne _ hk
    rw [Equiv.swap_apply_of_ne_of_ne h₁ h₂]
    exact hk
  · intro hk
    obtain ⟨h₁, h₂⟩ := hne _ hk
    rw [← Equiv.swap_apply_self (g.place e) last (g.place e'),
      Equiv.swap_apply_of_ne_of_ne h₁ h₂]
    exact hk

/-- The edges of other values stay where they are. -/
theorem place_exchangeEdge (h : g.Layout) {e last : Nat} (he : e < g.edgeTotal)
    (hge : g.start (g.head e) ≤ last) (hlt : last < g.start (g.head e + 1)) {e' : Nat}
    (he' : e' < g.edgeTotal) (hhead : g.head e' ≠ g.head e) :
    (g.exchangeEdge e last).place e' = g.place e' := by
  have hne : g.place e' ≠ g.place e := fun heq => hhead (by rw [h.place_injective he' he heq])
  have hne' : g.place e' ≠ last := by
    rintro rfl
    exact hhead ((h.head_eq_iff e' he' _ (h.head_lt e he)).2 ⟨hge, hlt⟩)
  rw [(h.exchangeEdge he hge hlt).2 e' he', Equiv.swap_apply_of_ne_of_ne hne hne']

/-- Whoever sees both places as live sees no change. -/
theorem live_exchangeEdge (h : g.Layout) {e last : Nat} (he : e < g.edgeTotal)
    (hge : g.start (g.head e) ≤ last) (hlt : last < g.start (g.head e + 1))
    (hplace : g.place e < g.start (g.head e) + count ρ (g.head e))
    (hlast : last < g.start (g.head e) + count ρ (g.head e)) (e' : Nat) :
    (g.exchangeEdge e last).Live ρ e' ↔ g.Live ρ e' := by
  refine and_congr_right fun he' => ?_
  have he' : e' < g.edgeTotal := he'
  show _ < g.start (g.head e') + count ρ (g.head e') ↔ _
  by_cases hhead : g.head e' = g.head e
  · rw [hhead, (h.exchangeEdge he hge hlt).2 e' he']
    exact swap_lt_iff hplace hlast
  · rw [place_exchangeEdge h he hge hlt he' hhead]

/-! ### One edge less -/

/-- The counts after the edge `e` was counted out. -/
def countOut (g : ValueGraph) (ρ : Registers) (e : Nat) : Registers :=
  Function.update (Function.update ρ (.live (g.head e)) (ρ (.live (g.head e)) - 1)) .liveTotal
    (ρ .liveTotal - 1)

/-- The place of the last live edge to the value of `e`. -/
def lastPlace (g : ValueGraph) (ρ : Registers) (e : Nat) : Nat :=
  g.start (g.head e) + count ρ (g.head e) - 1

section

variable {e : Nat}

theorem countOut_live_self : g.countOut ρ e (.live (g.head e)) = ρ (.live (g.head e)) - 1 := by
  rw [countOut, Function.update_of_ne (fun h => by cases h), Function.update_self]

theorem countOut_live_of_ne {v : Nat} (hv : v ≠ g.head e) :
    g.countOut ρ e (.live v) = ρ (.live v) := by
  rw [countOut, Function.update_of_ne (fun h => by cases h),
    Function.update_of_ne fun h => hv (Role.live.inj h)]

theorem countOut_liveTotal : g.countOut ρ e .liveTotal = ρ .liveTotal - 1 :=
  Function.update_self ..

theorem countOut_of_ne {r : Role} (hlive : ∀ v, r ≠ .live v) (htotal : r ≠ .liveTotal) :
    g.countOut ρ e r = ρ r := by
  rw [countOut, Function.update_of_ne htotal, Function.update_of_ne (hlive _)]

theorem countOut_activeTotal : g.countOut ρ e .activeTotal = ρ .activeTotal :=
  countOut_of_ne (fun _ => nofun) nofun

theorem count_countOut_self : count (g.countOut ρ e) (g.head e) = count ρ (g.head e) - 1 := by
  rw [count, countOut_live_self, count]
  omega

theorem above_countOut : Above (g.countOut ρ e) ρ := by
  refine ⟨fun v => ?_, Int.le_of_eq countOut_activeTotal⟩
  by_cases hv : v = g.head e
  · subst hv
    rw [countOut_live_self]
    omega
  · rw [countOut_live_of_ne hv]

variable (hl : g.Layout) (hi : g.Intact ρ) (hlive : g.Live ρ e)

include hl hi hlive

/-- The last live edge to a value that has one is an edge to this value. -/
theorem lastPlace_mem :
    g.start (g.head e) ≤ g.lastPlace ρ e ∧ g.lastPlace ρ e < g.start (g.head e + 1) := by
  have hv := hl.head_lt e hlive.1
  have hle := hi.live_le _ hv
  have hge := ((hl.head_eq_iff e hlive.1 _ hv).1 rfl).1
  have hplace := hlive.2
  unfold lastPlace
  omega

/-- The edge is no longer live, and the others stay what they are. -/
theorem live_countOut (e' : Nat) :
    (g.exchangeEdge e (g.lastPlace ρ e)).Live (g.countOut ρ e) e' ↔ g.Live ρ e' ∧ e' ≠ e := by
  obtain ⟨hge, hlt⟩ := lastPlace_mem hl hi hlive
  have hpos : 0 < count ρ (g.head e) := by
    have hplace := hlive.2
    have hstart := ((hl.head_eq_iff e hlive.1 _ (hl.head_lt e hlive.1)).1 rfl).1
    omega
  show e' < g.edgeTotal ∧ _ < g.start (g.head e') + count (g.countOut ρ e) (g.head e') ↔ _
  rw [Live, and_assoc]
  refine and_congr_right fun he' => ?_
  by_cases hhead : g.head e' = g.head e
  · have hne : e' ≠ e ↔ g.place e' ≠ g.place e :=
      not_congr ⟨fun heq => by rw [heq], hl.place_injective he' hlive.1⟩
    rw [(hl.exchangeEdge hlive.1 hge hlt).2 e' he', hhead, count_countOut_self, hne,
      ← Nat.add_sub_assoc hpos]
    exact swap_lt_pred_iff hlive.2
  · rw [place_exchangeEdge hl hlive.1 hge hlt he' hhead, count, count, countOut_live_of_ne hhead]
    exact ⟨fun hk => ⟨hk, fun heq => hhead (by rw [heq])⟩, And.left⟩

/-- The live edges are counted. -/
theorem card_live_countOut :
    ((Finset.range g.edgeTotal).filter
      ((g.exchangeEdge e (g.lastPlace ρ e)).Live (g.countOut ρ e))).card + 1 =
      ((Finset.range g.edgeTotal).filter (g.Live ρ)).card := by
  have hmem : e ∈ (Finset.range g.edgeTotal).filter (g.Live ρ) :=
    Finset.mem_filter.2 ⟨Finset.mem_range.2 hlive.1, hlive⟩
  have heq : (Finset.range g.edgeTotal).filter
        ((g.exchangeEdge e (g.lastPlace ρ e)).Live (g.countOut ρ e)) =
      ((Finset.range g.edgeTotal).filter (g.Live ρ)).erase e := by
    ext e'
    rw [Finset.mem_erase, Finset.mem_filter, Finset.mem_filter, live_countOut hl hi hlive]
    exact ⟨fun hm => ⟨hm.2.2, hm.1, hm.2.1⟩, fun hm => ⟨hm.2.1, hm.2.2, hm.1⟩⟩
  rw [heq, Finset.card_erase_add_one hmem]

/-- The counts stay right. -/
theorem Intact.countOut : (g.exchangeEdge e (g.lastPlace ρ e)).Intact (g.countOut ρ e) := by
  obtain ⟨hge, hlt⟩ := lastPlace_mem hl hi hlive
  have hv := hl.head_lt e hlive.1
  have hcount := hi.count_eq hv
  have hplace := hlive.2
  have hstart := ((hl.head_eq_iff e hlive.1 _ hv).1 rfl).1
  constructor
  case live_nonneg =>
    intro v hv'
    by_cases hne : v = g.head e
    · subst hne
      rw [countOut_live_self]
      omega
    · rw [countOut_live_of_ne hne]
      exact hi.live_nonneg v hv'
  case live_le =>
    intro v hv'
    show g.start v + count (g.countOut ρ e) v ≤ g.start (v + 1)
    by_cases hne : v = g.head e
    · subst hne
      have hle := hi.live_le _ hv
      rw [count_countOut_self]
      omega
    · rw [count, countOut_live_of_ne hne]
      exact hi.live_le v hv'
  case active_nonneg => rw [countOut_activeTotal]; exact hi.active_nonneg
  case active_le => rw [countOut_activeTotal]; exact hi.active_le
  case total_eq =>
    have hcard := card_live_countOut hl hi hlive
    rw [countOut_liveTotal, hi.total_eq, ← hcard, Int.natCast_succ, Int.add_sub_cancel]
    rfl
  case mate_eq => exact fun x => countOut_of_ne (r := .mate x) (fun _ => nofun) nofun ▸ hi.mate_eq x
  case owner_eq =>
    exact fun v => countOut_of_ne (r := .owner v) (fun _ => nofun) nofun ▸ hi.owner_eq v

/-- What the graph shows without the edge. -/
theorem snapshot_countOut :
    (g.exchangeEdge e (g.lastPlace ρ e)).snapshot (g.countOut ρ e) =
      (g.snapshot ρ).unlink (g.tail e) (g.head e) := by
  have hiff := live_countOut hl hi hlive
  refine Snapshot.ext ?_ ?_ ?_ ?_
  · show Finset.filter
      (fun x => x < g.varTotal ∧ g.rank x < (g.countOut ρ e .activeTotal).toNat) _ = _
    rw [countOut_activeTotal]
    rfl
  · funext x
    ext v
    rw [mem_live]
    show (∃ e', (g.exchangeEdge e (g.lastPlace ρ e)).Live (g.countOut ρ e) e' ∧
        g.tail e' = x ∧ g.head e' = v) ↔
      v ∈ Function.update (g.snapshot ρ).live (g.tail e)
        (((g.snapshot ρ).live (g.tail e)).erase (g.head e)) x
    by_cases hx : x = g.tail e
    · subst hx
      rw [Function.update_self, Finset.mem_erase, mem_live]
      constructor
      · rintro ⟨e', hl', ht, rfl⟩
        obtain ⟨hl', hne⟩ := (hiff e').1 hl'
        exact ⟨fun heq => hne (hl.simple e' hl'.1 e hlive.1 ht heq), e', hl', ht, rfl⟩
      · rintro ⟨hne, e', hl', ht, rfl⟩
        exact ⟨e', (hiff e').2 ⟨hl', fun heq => hne (by rw [heq])⟩, ht, rfl⟩
    · rw [Function.update_of_ne hx, mem_live]
      constructor
      · rintro ⟨e', hl', ht, hv⟩
        exact ⟨e', ((hiff e').1 hl').1, ht, hv⟩
      · rintro ⟨e', hl', ht, hv⟩
        exact ⟨e', (hiff e').2 ⟨hl', fun heq => hx (by rw [← ht, heq])⟩, ht, hv⟩
  · funext x
    exact congrArg partner (countOut_of_ne (r := .mate x) (fun _ => nofun) nofun)
  · funext v
    exact congrArg partner (countOut_of_ne (r := .owner v) (fun _ => nofun) nofun)

end

/-- A live edge is taken out. -/
theorem unlink_eq (h : g.Sound s) {e : Nat} (hlive : g.Live (g.now s) e) :
    ∃ g' s', g.unlink s e = .ok (g', s') ∧
      Becomes g s g' s' ((g.snapshot (g.now s)).unlink (g.tail e) (g.head e)) := by
  obtain ⟨he, hplace⟩ := hlive
  have hv := h.layout.head_lt e he
  have hle := h.intact.count_le h.layout hv
  have hstart := ((h.layout.head_eq_iff e he _ hv).1 rfl).1
  have hbound := h.count_bound hv
  have hcount := h.intact.count_eq hv
  have hword := h.layout.edgeTotal_le
  obtain ⟨c, hc, hfetch⟩ := h.layout.cell_live hv
  obtain ⟨s₁, hdec₁, hev₁, hdom₁, hnow₁, hwired₁⟩ := decrement_eq h.store h.wired hc (by omega)
    (by omega)
  have hold : g.now s₁ .liveTotal = g.now s .liveTotal := by
    rw [hnow₁, Function.update_of_ne (fun h => by cases h)]
  have htotal := h.intact.total_eq
  have hmem : e ∈ (Finset.range g.edgeTotal).filter (g.Live (g.now s)) :=
    Finset.mem_filter.2 ⟨Finset.mem_range.2 he, he, hplace⟩
  have hpos := Finset.card_pos.2 ⟨e, hmem⟩
  have hcard := Finset.card_filter_le (Finset.range g.edgeTotal) (g.Live (g.now s))
  rw [Finset.card_range] at hcard
  obtain ⟨s₂, hdec₂, hev₂, hdom₂, hnow₂, hwired₂⟩ :=
    decrement_eq (r := .liveTotal) hev₁.sound hwired₁ rfl (by omega) (by omega)
  have hnow : g.now s₂ = g.countOut (g.now s) e := by
    rw [hnow₂, hold, hnow₁, countOut]
  obtain ⟨hge, hlt⟩ := lastPlace_mem h.layout h.intact ⟨he, hplace⟩
  have hlast : g.start (g.head e) + count (g.now s) (g.head e) - 1 = g.lastPlace (g.now s) e := rfl
  refine ⟨g.exchangeEdge e (g.lastPlace (g.now s) e), s₂, ?_, ⟨hev₁.trans hev₂,
    .of_exchangeEdge .., ⟨hev₂.sound, (h.layout.exchangeEdge he hge hlt).1,
    (Alike.of_exchangeEdge ..).wired hwired₂, ?_⟩, hnow ▸ above_countOut, ?_,
    fun _ _ _ => Iff.rfl⟩, ?_, fun p => (hdom₂ p).trans (hdom₁ p)⟩
  · rw [unlink, h.layout.fetch_edgeValue he, ok_bind, h.layout.fetch_valueStart hv, ok_bind,
      h.liveCount_eq hv, ok_bind, Word.addCount, if_pos hbound, ok_bind, Word.subCount,
      if_pos (by omega), ok_bind, h.layout.fetch_slot he, ok_bind, hlast,
      h.layout.fetch_adjacency (by omega), ok_bind, hfetch, ok_bind, hdec₁, ok_bind]
    dsimp only
    rw [hdec₂, ok_bind]
    rfl
  · show (g.exchangeEdge e _).Intact (g.now s₂)
    rw [hnow]
    exact h.intact.countOut h.layout ⟨he, hplace⟩
  · intro ρ hρ e'
    have hmore : count (g.now s) (g.head e) ≤ count ρ (g.head e) := Int.toNat_le_toNat (hρ.1 _)
    exact live_exchangeEdge h.layout he hge hlt (by omega) (by omega) e'
  · show (g.exchangeEdge e _).snapshot (g.now s₂) = _
    rw [hnow]
    exact snapshot_countOut h.layout h.intact ⟨he, hplace⟩

/-- The graph after the variable `x` changed places with the one at `last`. -/
def exchangeVar (g : ValueGraph) (x last : Nat) : ValueGraph :=
  { g with
    active := g.active.swapIfInBounds (g.rank x) last
    activePlace := (g.activePlace.setIfInBounds (g.varAt last) (g.rank x)).setIfInBounds x last }

theorem Alike.of_exchangeVar (g : ValueGraph) (x last : Nat) : Alike g (g.exchangeVar x last) :=
  ⟨rfl, rfl, rfl, rfl, rfl, rfl, rfl, rfl, rfl, rfl, rfl, rfl⟩

/-- Two variables change places. -/
theorem Layout.exchangeVar (h : g.Layout) {x last : Nat} (hx : x < g.varTotal)
    (hlast : last < g.varTotal) :
    (g.exchangeVar x last).Layout ∧
      ∀ y < g.varTotal, (g.exchangeVar x last).rank y =
        Equiv.swap (g.rank x) last (g.rank y) := by
  obtain ⟨hlisted, hrank⟩ := h.listed_vars.exchange hx hlast
  refine ⟨?_, hrank⟩
  exact { h with
    size_active := hlisted.size_left
    size_activePlace := hlisted.size_right
    rank_var := hlisted.entry
    var_rank := hlisted.place }

/-! ### One active variable less -/

/-- The counts after an active variable was counted out. -/
def countVarOut (ρ : Registers) : Registers :=
  Function.update ρ .activeTotal (ρ .activeTotal - 1)

theorem countVarOut_activeTotal : countVarOut ρ .activeTotal = ρ .activeTotal - 1 :=
  Function.update_self ..

theorem countVarOut_of_ne {r : Role} (hr : r ≠ .activeTotal) : countVarOut ρ r = ρ r :=
  Function.update_of_ne hr ..

theorem above_countVarOut : Above (countVarOut ρ) ρ := by
  refine ⟨fun v => Int.le_of_eq (countVarOut_of_ne nofun), ?_⟩
  rw [countVarOut_activeTotal]
  omega

section

variable {x last : Nat}

/-- The exchange is not seen in the live edges. -/
theorem live_countVarOut (e : Nat) : (g.exchangeVar x last).Live (countVarOut ρ) e ↔ g.Live ρ e := by
  show _ ∧ _ < g.start (g.head e) + (countVarOut ρ (.live (g.head e))).toNat ↔ _
  rw [countVarOut_of_ne fun h => by cases h]
  rfl

/-- The counts stay right. -/
theorem Intact.countVarOut (hi : g.Intact ρ) (hpos : 0 < ρ .activeTotal) :
    (g.exchangeVar x last).Intact (countVarOut ρ) := by
  constructor
  case live_nonneg => exact fun v hv => countVarOut_of_ne (r := .live v) nofun ▸ hi.live_nonneg v hv
  case live_le =>
    intro v hv
    rw [count, countVarOut_of_ne fun h => by cases h]
    exact hi.live_le v hv
  case active_nonneg =>
    rw [countVarOut_activeTotal]
    omega
  case active_le =>
    rw [countVarOut_activeTotal]
    exact Int.le_trans (by omega) hi.active_le
  case total_eq =>
    rw [countVarOut_of_ne (r := .liveTotal) nofun, hi.total_eq]
    exact congrArg (fun es => ((es : Finset Nat).card : Int))
      (Finset.filter_congr fun e _ => (live_countVarOut e).symm)
  case mate_eq => exact fun y => countVarOut_of_ne (r := .mate y) nofun ▸ hi.mate_eq y
  case owner_eq => exact fun v => countVarOut_of_ne (r := .owner v) nofun ▸ hi.owner_eq v

/-- The variable is no longer active, and the others stay what they are. -/
theorem active_countVarOut (hl : g.Layout) (hi : g.Intact ρ) (hx : g.Active ρ x) (y : Nat) :
    (g.exchangeVar x ((ρ .activeTotal).toNat - 1)).Active (countVarOut ρ) y ↔
      g.Active ρ y ∧ y ≠ x := by
  have hle := hi.active_le
  have hrank := hx.2
  have hlt : (ρ .activeTotal).toNat - 1 < g.varTotal := by omega
  rw [Active, Active, and_assoc]
  refine and_congr_right fun hy => ?_
  have hne : y ≠ x ↔ g.rank y ≠ g.rank x :=
    not_congr ⟨fun heq => by rw [heq], hl.rank_injective hy hx.1⟩
  have hless : (ρ .activeTotal - 1).toNat = (ρ .activeTotal).toNat - 1 := by omega
  rw [(hl.exchangeVar hx.1 hlt).2 y hy, countVarOut_activeTotal, hless, hne]
  exact swap_lt_pred_iff hrank

/-- What the graph shows without the variable. -/
theorem snapshot_countVarOut (hl : g.Layout) (hi : g.Intact ρ) (hx : g.Active ρ x) :
    (g.exchangeVar x ((ρ .activeTotal).toNat - 1)).snapshot (countVarOut ρ) =
      (g.snapshot ρ).ground x := by
  refine Snapshot.ext ?_ ?_ ?_ ?_
  · ext y
    rw [mem_active, active_countVarOut hl hi hx]
    show _ ↔ y ∈ (g.snapshot ρ).active.erase x
    rw [Finset.mem_erase, mem_active, and_comm]
  · funext y
    exact congrArg (Finset.image g.head)
      (Finset.filter_congr fun e _ => and_congr_left fun _ => live_countVarOut e)
  · funext y
    exact congrArg partner (countVarOut_of_ne (r := .mate y) nofun)
  · funext v
    exact congrArg partner (countVarOut_of_ne (r := .owner v) nofun)

end

/-- An active variable is taken out. -/
theorem ground_eq (h : g.Sound s) {x : Nat} (hactive : g.Active (g.now s) x) :
    ∃ g' s', g.ground s x = .ok (g', s') ∧
      Becomes g s g' s' ((g.snapshot (g.now s)).ground x) := by
  have hrank := hactive.2
  have hle := h.intact.active_le
  have hword := h.layout.varTotal_le
  obtain ⟨s', hdec, hev, hdom, hnow, hwired⟩ :=
    decrement_eq (r := .activeTotal) h.store h.wired rfl (by omega) (by omega)
  have hnow : g.now s' = countVarOut (g.now s) := hnow
  have hlt : (g.now s .activeTotal).toNat - 1 < g.varTotal := by omega
  obtain ⟨hlayout, hswap⟩ := h.layout.exchangeVar hactive.1 hlt
  refine ⟨g.exchangeVar x ((g.now s .activeTotal).toNat - 1), s', ?_, ⟨hev, .of_exchangeVar ..,
    ⟨hev.sound, hlayout, (Alike.of_exchangeVar ..).wired hwired, ?_⟩, hnow ▸ above_countVarOut,
    fun _ _ _ => Iff.rfl, fun ρ hρ y => ?_⟩, ?_, hdom⟩
  · rw [ground, h.activeCount_eq, ok_bind, Word.subCount, if_pos (by omega), ok_bind,
      h.layout.fetch_activePlace hactive.1, ok_bind, h.layout.fetch_active hlt, ok_bind, hdec,
      ok_bind]
    rfl
  · show (g.exchangeVar x _).Intact (g.now s')
    rw [hnow]
    exact h.intact.countVarOut (by omega)
  · refine and_congr_right fun hy => ?_
    have hmore : (g.now s .activeTotal).toNat ≤ (ρ .activeTotal).toNat := Int.toNat_le_toNat hρ.2
    rw [hswap y hy]
    exact swap_lt_iff (by omega) (by omega)
  · show (g.exchangeVar x _).snapshot (g.now s') = _
    rw [hnow]
    exact snapshot_countVarOut h.layout h.intact hactive

end ValueGraph

end FiniteDomain.AllDifferent
