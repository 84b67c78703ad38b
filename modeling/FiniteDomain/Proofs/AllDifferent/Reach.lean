import FiniteDomain.AllDifferent.Reach
import FiniteDomain.Proofs.AllDifferent.Anchors
import FiniteDomain.Proofs.AllDifferent.Marks

/-!
# What a search from the free values reaches

* `Reach.Spread` is the invariant of the breadth first search: what is marked is reached, the values
  that wait are free or mates of marked variables, and the edges of those before the head of the
  queue were all followed.
* `compute_eq` says that the search ends, either with all variables that are reached or with as many
  as the limit.
* `Computed.bounded` and `Computed.exact` say why the limit does no harm: no more variables can be
  reached than the last time.
-/

namespace FiniteDomain.AllDifferent

namespace Reach

open ValueGraph

variable {g : ValueGraph} {s s' : Store} {w w' : Wave} {limit v : Nat}

/-- The number of marked variables. -/
def marked (g : ValueGraph) (m : Marks) : Finset Nat := (Finset.range g.varTotal).filter m.Has

theorem mem_marked {m : Marks} (h : m.Fit g.varTotal) {x : Nat} : x ∈ marked g m ↔ m.Has x := by
  rw [marked, Finset.mem_filter, Finset.mem_range]
  exact ⟨And.right, fun hx => ⟨h.lt_of_has hx, hx⟩⟩

theorem card_marked_mark {m : Marks} (h : m.Fit g.varTotal) {y : Nat} (hy : y < g.varTotal)
    (hnew : ¬ m.Has y) : (marked g (m.mark y)).card = (marked g m).card + 1 := by
  have heq : marked g (m.mark y) = insert y (marked g m) := by
    ext x
    rw [mem_marked (h.mark y), h.has_mark hy, Finset.mem_insert, mem_marked h]
  rw [heq, Finset.card_insert_of_notMem]
  rw [mem_marked h]
  exact hnew

/-- What holds of a search at all times. -/
structure Spread (g : ValueGraph) (s : Store) (limit : Nat) (free : List Nat) (w : Wave) : Prop where
  fit : w.reached.Fit g.varTotal
  reached : ∀ x, w.reached.Has x → (g.snapshot (g.now s)).Reached x
  count_eq : w.count = (marked g w.reached).card
  count_le : w.count ≤ limit
  queue_lt : ∀ v ∈ w.queue, v < g.valueTotal
  queue_why : ∀ v ∈ w.queue, (g.snapshot (g.now s)).owner v = none ∨
    ∃ x, w.reached.Has x ∧ (g.snapshot (g.now s)).mate x = some v
  size_le : w.queue.size ≤ free.length + w.count
  free_mem : ∀ v ∈ free, v ∈ w.queue

theorem Spread.count_le_vars {free : List Nat} (h : Spread g s limit free w) :
    w.count ≤ g.varTotal := by
  rw [h.count_eq]
  refine Nat.le_trans (Finset.card_filter_le _ _) ?_
  rw [Finset.card_range]

/-- As long as the limit is not reached, the mates of the marked variables wait. -/
def Waits (g : ValueGraph) (s : Store) (w : Wave) : Prop :=
  ∀ x, w.reached.Has x → ∀ a, (g.snapshot (g.now s)).mate x = some a → a ∈ w.queue

/-- The search went on. -/
structure Onward (w w' : Wave) : Prop where
  marks : ∀ x, w.reached.Has x → w'.reached.Has x
  queue : ∃ more : List Nat, w'.queue.toList = w.queue.toList ++ more

theorem Onward.refl (w : Wave) : Onward w w := ⟨fun _ hx => hx, [], (List.append_nil _).symm⟩

theorem Onward.trans {w'' : Wave} (h : Onward w w') (h' : Onward w' w'') : Onward w w'' := by
  obtain ⟨more, hmore⟩ := h.queue
  obtain ⟨more', hmore'⟩ := h'.queue
  exact ⟨fun x hx => h'.marks x (h.marks x hx), more ++ more', by
    rw [hmore', hmore, List.append_assoc]⟩

/-- The search enters the variable `y`, whose mate does not wait yet. -/
def Wave.enter (w : Wave) (y : Nat) : Wave :=
  { w with reached := w.reached.mark y, count := w.count + 1 }

/-- The search lets the value `v` wait. -/
def Wave.await (w : Wave) (v : Nat) : Wave := { w with queue := w.queue.push v }

theorem Spread.has_enter {free : List Nat} (hs : Spread g s limit free w) {y : Nat}
    (hy : y < g.varTotal) {x : Nat} : (w.enter y).reached.Has x ↔ x = y ∨ w.reached.Has x :=
  hs.fit.has_mark hy

theorem Onward.enter {free : List Nat} (hs : Spread g s limit free w) {y : Nat}
    (hy : y < g.varTotal) : Onward w (w.enter y) :=
  ⟨fun _ hx => (hs.has_enter hy).2 (Or.inr hx), [], (List.append_nil _).symm⟩

theorem Onward.await (w : Wave) (v : Nat) : Onward w (w.await v) :=
  ⟨fun _ hx => hx, [v], Array.toList_push⟩

theorem Onward.getElem?_queue (h : Onward w w') {i : Nat} (hi : w.queue[i]? = some v) :
    w'.queue[i]? = some v := by
  obtain ⟨more, hmore⟩ := h.queue
  rw [← Array.getElem?_toList] at hi ⊢
  rw [hmore, List.getElem?_append_left (List.getElem?_eq_some_iff.1 hi).1, hi]

theorem Onward.mem_queue (h : Onward w w') (hv : v ∈ w.queue) : v ∈ w'.queue := by
  obtain ⟨i, hi⟩ := Array.mem_iff_getElem?.1 hv
  exact Array.mem_of_getElem? (h.getElem?_queue hi)

/-- A variable is marked, before its mate waits. -/
theorem Spread.enter {free : List Nat} (hs : Spread g s limit free w) (hlt : w.count < limit)
    {y : Nat} (hy : y < g.varTotal) (hnew : ¬ w.reached.Has y)
    (hr : (g.snapshot (g.now s)).Reached y) : Spread g s limit free (w.enter y) := by
  refine ⟨hs.fit.mark y, fun x hx => ?_, ?_, hlt, hs.queue_lt, fun u hu => ?_, ?_, hs.free_mem⟩
  · obtain rfl | hx := (hs.has_enter hy).1 hx
    · exact hr
    · exact hs.reached x hx
  · show w.count + 1 = (marked g (w.reached.mark y)).card
    rw [card_marked_mark hs.fit hy hnew, ← hs.count_eq]
  · obtain ho | ⟨x, hx, hmate⟩ := hs.queue_why u hu
    · exact Or.inl ho
    · exact Or.inr ⟨x, (hs.has_enter hy).2 (Or.inr hx), hmate⟩
  · exact Nat.le_succ_of_le hs.size_le

/-- The mate of a marked variable waits.  There is room for it, because the variable was counted. -/
theorem Spread.await {free : List Nat} (hs : Spread g s limit free w)
    (hroom : w.queue.size < free.length + w.count) {y a : Nat} (ha : a < g.valueTotal)
    (hmate : (g.snapshot (g.now s)).mate y = some a) (hy : w.reached.Has y) :
    Spread g s limit free (w.await a) := by
  refine ⟨hs.fit, hs.reached, hs.count_eq, hs.count_le, fun u hu => ?_, fun u hu => ?_, ?_,
    fun u hu => Array.mem_push.2 (Or.inl (hs.free_mem u hu))⟩
  · obtain hu | rfl := Array.mem_push.1 hu
    · exact hs.queue_lt u hu
    · exact ha
  · obtain hu | rfl := Array.mem_push.1 hu
    · exact hs.queue_why u hu
    · exact Or.inr ⟨y, hy, hmate⟩
  · show (w.queue.push a).size ≤ free.length + w.count
    rw [Array.size_push]
    exact hroom

/-- A variable that is not matched has nothing that waits. -/
theorem Waits.enter {free : List Nat} (hw : Waits g s w) (hs : Spread g s limit free w) {y : Nat}
    (hy : y < g.varTotal) (hmate : (g.snapshot (g.now s)).mate y = none) :
    Waits g s (w.enter y) := by
  intro x hx a ha
  obtain rfl | hx := (hs.has_enter hy).1 hx
  · cases hmate.symm.trans ha
  · exact hw x hx a ha

theorem Waits.enter_await {free : List Nat} (hw : Waits g s w) (hs : Spread g s limit free w)
    {y a : Nat} (hy : y < g.varTotal) (hmate : (g.snapshot (g.now s)).mate y = some a) :
    Waits g s ((w.enter y).await a) := by
  intro x hx b hb
  obtain rfl | hx := (hs.has_enter hy).1 hx
  · cases hmate.symm.trans hb
    exact Array.mem_push_self
  · exact Array.mem_push.2 (Or.inl (hw x hx b hb))

/-- What waits is free or the mate of a variable that is reached. -/
theorem Spread.reached_of_live {free : List Nat} (hs : Spread g s limit free w) (hv : v ∈ w.queue)
    {y : Nat} (hy : y ∈ (g.snapshot (g.now s)).active)
    (hlive : v ∈ (g.snapshot (g.now s)).live y) : (g.snapshot (g.now s)).Reached y := by
  obtain ho | ⟨x, hx, hmate⟩ := hs.queue_why v hv
  · exact .free hy hlive ho
  · have hr := hs.reached x hx
    exact .arc hr ⟨hr.mem_active, hy, v, hmate, hlive⟩

/-- The search followed the edges of the value `v` from the place `k` on, and `stop` says whether it
reached as many variables as it may. -/
structure Expands (g : ValueGraph) (s : Store) (limit : Nat) (free : List Nat) (v k : Nat) (w : Wave)
    (stop : Bool) (w' : Wave) : Prop where
  spread : Spread g s limit free w'
  onward : Onward w w'
  count_eq : stop = true → w'.count = limit
  waits : stop = false → Waits g s w'
  all : stop = false → ∀ j, k ≤ j → j < count (g.now s) v →
    g.nth v j ∈ (g.snapshot (g.now s)).active → w'.reached.Has (g.nth v j)

/-- Once the edge at the place `k` is dealt with, those behind it are left. -/
theorem Expands.step {free : List Nat} {k : Nat} {w₁ : Wave} {stop : Bool}
    (h : Expands g s limit free v (k + 1) w₁ stop w') (ho : Onward w w₁)
    (hdone : g.nth v k ∈ (g.snapshot (g.now s)).active → w₁.reached.Has (g.nth v k)) :
    Expands g s limit free v k w stop w' where
  spread := h.spread
  onward := ho.trans h.onward
  count_eq := h.count_eq
  waits := h.waits
  all := by
    intro hgo j hle hj hactive
    obtain rfl | hlt := Nat.eq_or_lt_of_le hle
    · exact h.onward.marks _ (hdone hactive)
    · exact h.all hgo j hlt hj hactive

/-- The edges of one value are followed. -/
theorem expand_eq (hg : g.Sound s) {free : List Nat} (hv : v < g.valueTotal) (left : Nat) :
    ∀ {k : Nat} {w : Wave}, left = count (g.now s) v - k → Spread g s limit free w →
      w.count < limit → v ∈ w.queue → Waits g s w →
      ∃ stop w', expand g s limit v left k w = .ok (stop, w') ∧
        Expands g s limit free v k w stop w' := by
  induction left with
  | zero =>
    intro k w hleft hs _ _ hw
    exact ⟨false, w, rfl, hs, .refl w, nofun, fun _ => hw,
      fun _ j hle hj => absurd hleft (by omega)⟩
  | succ left ih =>
    intro k w hleft hs hlt hq hw
    have hk : k < count (g.now s) v := by omega
    have hy := nth_lt hg.layout hg.intact hv hk
    have hlive := (mem_live_iff_nth hg.layout hg.intact hv).2 ⟨_, hk, rfl⟩
    -- Once the present variable is dealt with, the rest is the induction hypothesis.
    have hgo : ∀ {w₁ : Wave}, Spread g s limit free w₁ → w₁.count < limit → Waits g s w₁ →
        Onward w w₁ →
        (g.nth v k ∈ (g.snapshot (g.now s)).active → w₁.reached.Has (g.nth v k)) →
        ∃ stop w', expand g s limit v left (k + 1) w₁ = .ok (stop, w') ∧
          Expands g s limit free v k w stop w' := by
      intro w₁ hs₁ hlt₁ hw₁ ho₁ hdone
      obtain ⟨stop, w', hexpand, hex⟩ :=
        ih (k := k + 1) (by omega) hs₁ hlt₁ (ho₁.mem_queue hq) hw₁
      exact ⟨stop, w', hexpand, hex.step ho₁ hdone⟩
    rw [expand, hg.liveVar_eq hv hk, ok_bind, hs.fit.isMarked_eq hy, ok_bind]
    by_cases hmarked : w.reached.Has (g.nth v k)
    · rw [if_pos (decide_eq_true hmarked)]
      exact hgo hs hlt hw (.refl w) fun _ => hmarked
    rw [if_neg (by simpa using hmarked), hg.isActive_eq hy, ok_bind]
    by_cases hactive : g.nth v k ∈ (g.snapshot (g.now s)).active
    · have henter := hs.enter hlt hy hmarked (hs.reached_of_live hq hactive hlive)
      have honward := Onward.enter hs hy
      have hself := (hs.has_enter hy).2 (Or.inl rfl)
      rw [if_pos (decide_eq_true hactive)]
      dsimp only
      by_cases hlimit : w.count + 1 = limit
      · rw [if_pos hlimit]
        exact ⟨true, _, rfl, henter, honward, fun _ => hlimit, nofun, nofun⟩
      · rw [if_neg hlimit, hg.mate?_eq hy, ok_bind]
        have hlt' : (w.enter (g.nth v k)).count < limit := Nat.lt_of_le_of_ne hlt hlimit
        cases hmate : (g.snapshot (g.now s)).mate (g.nth v k) with
        | none => exact hgo henter hlt' (hw.enter hs hy hmate) honward fun _ => hself
        | some a =>
          have hroom : w.queue.size < free.length + (w.count + 1) := Nat.lt_succ_of_le hs.size_le
          exact hgo (henter.await hroom (hg.intact.mate_lt hmate).2 hmate hself) hlt'
            (hw.enter_await hs hy hmate) (honward.trans (.await _ a)) fun _ => hself
    · rw [if_neg (by simpa using hactive)]
      exact hgo hs hlt hw (.refl w) fun hmem => absurd hmem hactive

/-- The edges of the values before the head of the queue were followed. -/
def Followed (g : ValueGraph) (s : Store) (head : Nat) (w : Wave) : Prop :=
  ∀ i < head, ∀ v, w.queue[i]? = some v → ∀ y ∈ (g.snapshot (g.now s)).active,
    v ∈ (g.snapshot (g.now s)).live y → w.reached.Has y

/-- The value at the head of the queue is dealt with. -/
theorem Followed.step (hg : g.Sound s) {free : List Nat} {head : Nat} (hf : Followed g s head w)
    (hhead : head ≤ w.queue.size) (hv : w.queue[head]? = some v) (hvn : v < g.valueTotal)
    (h : Expands g s limit free v 0 w false w') : Followed g s (head + 1) w' := by
  intro i hi u hu y hy hlive
  obtain hlt | rfl := Nat.lt_or_eq_of_le (Nat.le_of_lt_succ hi)
  · have hold := Array.getElem?_eq_getElem (Nat.lt_of_lt_of_le hlt hhead)
    cases hu.symm.trans (h.onward.getElem?_queue hold)
    exact h.onward.marks y (hf i hlt _ hold y hy hlive)
  · cases hu.symm.trans (h.onward.getElem?_queue hv)
    obtain ⟨j, hj, rfl⟩ := (mem_live_iff_nth hg.layout hg.intact hvn).1 hlive
    exact h.all rfl j (Nat.zero_le j) hj hy

/-- When all values of the queue are dealt with, everything that is reached is marked. -/
theorem has_of_reached (hg : g.Sound s) {free : List Nat} (hs : Spread g s limit free w)
    (hw : Waits g s w) (hf : Followed g s w.queue.size w)
    (hfree : ∀ v < g.valueTotal, (g.snapshot (g.now s)).owner v = none → 0 < count (g.now s) v →
      v ∈ free) {y : Nat} (hy : (g.snapshot (g.now s)).Reached y) : w.reached.Has y := by
  have hall : ∀ v ∈ w.queue, ∀ y ∈ (g.snapshot (g.now s)).active,
      v ∈ (g.snapshot (g.now s)).live y → w.reached.Has y := by
    intro v hv
    obtain ⟨i, hi, hget⟩ := Array.mem_iff_getElem.1 hv
    exact hf i hi v (by rw [Array.getElem?_eq_getElem hi, hget])
  induction hy with
  | @free y v hy hlive hnone =>
    have hvn := (lt_of_mem_live hg.layout hlive).2
    obtain ⟨j, hj, _⟩ := (mem_live_iff_nth hg.layout hg.intact hvn).1 hlive
    exact hall v (hs.free_mem v (hfree v hvn hnone (Nat.lt_of_le_of_lt (Nat.zero_le j) hj))) y hy
      hlive
  | arc _ harc ih =>
    obtain ⟨_, hy, v, hmate, hlive⟩ := harc
    exact hall v (hw _ ih v hmate) _ hy hlive

/-- The values that wait are dealt with one after the other. -/
theorem spread_eq (hg : g.Sound s) {free : List Nat}
    (hfree : ∀ v < g.valueTotal, (g.snapshot (g.now s)).owner v = none → 0 < count (g.now s) v →
      v ∈ free) (fuel : Nat) :
    ∀ {head : Nat} {w : Wave}, Spread g s limit free w → head ≤ w.queue.size →
      free.length + g.varTotal + 1 ≤ fuel + head →
      (w.count < limit → Waits g s w ∧ Followed g s head w) →
      ∃ w', spread g s limit fuel head w = .ok w' ∧ Spread g s limit free w' ∧
        (w'.count = limit ∨ ∀ y, (g.snapshot (g.now s)).Reached y → w'.reached.Has y) := by
  induction fuel with
  | zero =>
    intro head w hs hhead hfuel _
    have hsize := hs.size_le
    have hcount := hs.count_le_vars
    omega
  | succ fuel ih =>
    intro head w hs hhead hfuel hgo
    have hle := hs.count_le
    rw [spread]
    cases hv : w.queue[head]? with
    | none =>
      have hend : head = w.queue.size := Nat.le_antisymm hhead (Array.getElem?_eq_none_iff.1 hv)
      refine ⟨w, rfl, hs, ?_⟩
      by_cases hlt : w.count < limit
      · obtain ⟨hw, hf⟩ := hgo hlt
        exact Or.inr fun y hy => has_of_reached hg hs hw (hend ▸ hf) hfree hy
      · exact Or.inl (by omega)
    | some v =>
      obtain ⟨hlt', hget⟩ := Array.getElem?_eq_some_iff.1 hv
      have hq : v ∈ w.queue := hget ▸ Array.getElem_mem hlt'
      have hvn := hs.queue_lt v hq
      dsimp only
      by_cases hlt : w.count < limit
      · obtain ⟨hw, hf⟩ := hgo hlt
        obtain ⟨stop, w', hexpand, hex⟩ :=
          expand_eq hg hvn _ (k := 0) (Nat.sub_zero _).symm hs hlt hq hw
        rw [if_pos hlt, hg.liveCount_eq hvn, ok_bind, hexpand, ok_bind]
        cases stop with
        | true => exact ⟨w', rfl, hex.spread, Or.inl (hex.count_eq rfl)⟩
        | false =>
          have hhead' := (Array.getElem?_eq_some_iff.1 (hex.onward.getElem?_queue hv)).1
          exact ih hex.spread hhead' (by omega) fun _ => ⟨hex.waits rfl, hf.step hg hhead hv hvn hex⟩
      · rw [if_neg hlt]
        exact ⟨w, rfl, hs, Or.inl (by omega)⟩

/-! ## The whole search -/

/-- A search from all free values ends, either with all variables that are reached or with as many as
the limit. -/
theorem search_eq (hg : g.Sound s) {m : Marks} (hfit : m.Fit g.varTotal) (limit : Nat) :
    ∃ free w, (List.range g.valueTotal).filterM (g.isFree s) = .ok free ∧
      spread g s limit (g.valueTotal + g.varTotal + 1) 0 ⟨m.forget, 0, free.toArray⟩ = .ok w ∧
      Spread g s limit free w ∧
      (w.count = limit ∨ ∀ y, (g.snapshot (g.now s)).Reached y → w.reached.Has y) ∧
      (free = [] → ∀ v < g.valueTotal, ∀ x, v ∈ (g.snapshot (g.now s)).live x →
        (g.snapshot (g.now s)).owner v ≠ none) := by
  have hlist : (List.range g.valueTotal).filterM (g.isFree s) =
      .ok ((List.range g.valueTotal).filter fun v =>
        decide ((g.snapshot (g.now s)).owner v = none ∧ 0 < ValueGraph.count (g.now s) v)) :=
    filterM_eq_ok fun v hv => hg.isFree_eq (List.mem_range.1 hv)
  obtain ⟨free, hfreedef⟩ : ∃ free, free = (List.range g.valueTotal).filter fun v =>
      decide ((g.snapshot (g.now s)).owner v = none ∧ 0 < ValueGraph.count (g.now s) v) :=
    ⟨_, rfl⟩
  have hmem : ∀ v, v ∈ free ↔ v < g.valueTotal ∧ (g.snapshot (g.now s)).owner v = none ∧
      0 < ValueGraph.count (g.now s) v := by
    intro v
    rw [hfreedef, List.mem_filter, List.mem_range, decide_eq_true_iff]
  have hlen : free.length ≤ g.valueTotal := by
    have := List.length_filter_le (fun v =>
      decide ((g.snapshot (g.now s)).owner v = none ∧ 0 < ValueGraph.count (g.now s) v))
      (List.range g.valueTotal)
    rw [List.length_range, ← hfreedef] at this
    exact this
  have hstart : Spread g s limit free ⟨m.forget, 0, free.toArray⟩ := by
    refine ⟨hfit.forget, fun x hx => absurd hx hfit.not_has_forget, ?_, Nat.zero_le _,
      fun v hv => ?_, fun v hv => ?_, ?_, fun v hv => ?_⟩
    · refine (Finset.card_eq_zero.2 (Finset.filter_eq_empty_iff.2 fun x _ => ?_)).symm
      exact hfit.not_has_forget
    · exact ((hmem v).1 (List.mem_toArray.1 hv)).1
    · exact Or.inl ((hmem v).1 (List.mem_toArray.1 hv)).2.1
    · exact Nat.le_of_eq (List.size_toArray ..)
    · exact List.mem_toArray.2 hv
  obtain ⟨w, hspread, hs, hend⟩ := spread_eq hg (fun v hv ho hpos => (hmem v).2 ⟨hv, ho, hpos⟩)
    (g.valueTotal + g.varTotal + 1) hstart (Nat.zero_le _) (by omega)
    (fun _ => ⟨fun x hx => absurd hx hfit.not_has_forget, fun i hi => absurd hi (Nat.not_lt_zero i)⟩)
  refine ⟨free, w, hfreedef ▸ hlist, hspread, hs, hend, fun hnone v hv x hlive ho => ?_⟩
  obtain ⟨j, hj, _⟩ := (mem_live_iff_nth hg.layout hg.intact hv).1 hlive
  have hin := (hmem v).2 ⟨hv, ho, Nat.lt_of_le_of_lt (Nat.zero_le j) hj⟩
  rw [hnone] at hin
  cases hin

/-- What a search that may reach no more than `previous` variables has marked. -/
structure Computed (p : Snapshot) (m : Nat) (previous count : Nat) (r : Reach) : Prop where
  reached : ∀ x, r.reached.Has x → p.Reached x
  complete : count = min previous p.active.card ∨ ∀ x, p.Reached x → r.reached.Has x
  count_eq : ∀ S : Finset Nat, (∀ x, x ∈ S ↔ r.reached.Has x) → S.card = count
  count_le : count ≤ previous
  free : r.freeCount = 0 → ∀ v < m, ∀ x, v ∈ p.live x → p.owner v ≠ none

theorem Spread.card_eq {free : List Nat} (h : Spread g s limit free w) {S : Finset Nat}
    (hS : ∀ x, x ∈ S ↔ w.reached.Has x) : S.card = w.count := by
  rw [h.count_eq]
  congr 1
  ext x
  rw [hS, mem_marked h.fit]

/-- The variables that the free values reach are marked, and counted in a cell of its own. -/
theorem compute_eq (hg : g.Sound s) {r : Reach} (hfit : r.reached.Fit g.varTotal)
    (hhas : s.trail.now.Has r.previous) (hfree : s.Free r.previous)
    {previous : Nat} (hprev : s.trail.now.get r.previous = previous)
    (hle : previous ≤ g.varTotal) :
    ∃ count r' s', compute g r s = .ok (count, r', s') ∧
      Computed (g.snapshot (g.now s)) g.valueTotal previous count r' ∧
      r'.reached.Fit g.varTotal ∧ r'.previous = r.previous ∧
      Store.Wrote s s' r.previous count := by
  have hbound := hg.layout.varTotal_le
  have hread : s.readCount r.previous = .ok previous := by
    refine Trail.readCount_eq hhas hprev ?_
    unfold Word.greatest at hbound
    unfold Word.countBound
    omega
  obtain ⟨free, w, hlist, hspread, hs, hend, hnone⟩ :=
    search_eq hg hfit (min previous (g.now s .activeTotal).toNat)
  have hcount := hs.count_le
  obtain ⟨s', hwrite, hwrote⟩ := Store.write_eq hg.store hhas hfree (w.count : Int)
  refine ⟨w.count, { r with reached := w.reached, freeCount := free.length }, s', ?_,
    ⟨hs.reached, ?_, fun S => hs.card_eq, by omega,
      fun hzero => hnone (List.length_eq_zero_iff.1 hzero)⟩, hs.fit, rfl, hwrote⟩
  · rw [compute, hlist, ok_bind, hread, ok_bind, hg.activeCount_eq, ok_bind]
    dsimp only
    rw [hspread, ok_bind, if_neg (by omega), hwrite, ok_bind]
    rfl
  · rw [card_active hg.layout hg.intact]
    exact hend

variable {p : Snapshot} {m previous count : Nat} {r : Reach}

open Classical in
/-- The number of variables that are reached bounds those that are reached later. -/
theorem Computed.bounded (h : Computed p m previous count r) (hm : p.Matched)
    (hb : p.Bounded previous) : p.Bounded count := by
  obtain hmin | hall := h.complete
  · by_cases hle : previous ≤ p.active.card
    · rw [hmin, Nat.min_eq_left hle]
      exact hb
    · rw [hmin, Nat.min_eq_right (by omega)]
      refine ⟨∅, ⟨Finset.empty_subset _, ?_⟩, ?_⟩
      · rw [Finset.biUnion_empty]
      · rw [Finset.sdiff_empty]
  · rw [← h.count_eq (p.active.filter p.Reached) fun x => ?_]
    · exact hm.bounded_card_reached
    · rw [Finset.mem_filter]
      exact ⟨fun hx => hall x hx.2, fun hx => ⟨(h.reached x hx).mem_active, h.reached x hx⟩⟩

open Classical in
/-- Exactly the variables that are reached are marked. -/
theorem Computed.exact (h : Computed p m previous count r) (hm : p.Matched) (hc : p.Covered)
    (hb : p.Bounded previous) (x : Nat) : r.reached.Has x ↔ p.Reached x := by
  refine ⟨h.reached x, fun hx => ?_⟩
  obtain hmin | hall := h.complete
  · -- As many are marked as can be reached at all.
    have hsub : p.active.filter (fun x => r.reached.Has x) ⊆ p.active.filter p.Reached := by
      intro y hy
      obtain ⟨hy, hmark⟩ := Finset.mem_filter.1 hy
      exact Finset.mem_filter.2 ⟨hy, h.reached y hmark⟩
    have hcard : (p.active.filter fun x => r.reached.Has x).card = count := by
      refine h.count_eq _ fun y => ?_
      rw [Finset.mem_filter]
      exact ⟨And.right, fun hy => ⟨(h.reached y hy).mem_active, hy⟩⟩
    have hle : (p.active.filter p.Reached).card ≤ count := by
      rw [hmin]
      exact Nat.le_min.2 ⟨hb.card_reached_le hm hc, Finset.card_filter_le _ _⟩
    have heq := Finset.eq_of_subset_of_card_le hsub (by rw [hcard]; exact hle)
    have hmem : x ∈ p.active.filter p.Reached := Finset.mem_filter.2 ⟨hx.mem_active, hx⟩
    rw [← heq] at hmem
    exact (Finset.mem_filter.1 hmem).2
  · exact hall x hx

end Reach

end FiniteDomain.AllDifferent
