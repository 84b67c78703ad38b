import FiniteDomain.AllDifferent.ValueGraph
import FiniteDomain.Proofs.AllDifferent.Snapshot
import FiniteDomain.Proofs.Store.Levels

/-!
# What a value graph shows

The cells of a value graph have roles, and a frame tells what each of them holds: `Registers`.
Together with the permutations of the graph this gives a snapshot (`ValueGraph.snapshot`), in which
all further reasoning takes place.

* `ValueGraph.Layout` is the shape of the arrays, which never changes: the edges of a variable are
  consecutive, those of a value fill a segment of `adjacency`, and `slot` and `activePlace` are the
  inverses of `adjacency` and `active`.
* `ValueGraph.Intact` says that the cells hold counts that fit, and numbers of variables and values.
* `ValueGraph.Wired` says that the cells are distinct and belong to the graph alone.

Under these three, which `ValueGraph.Sound` collects, each question to the graph is answered from
its snapshot.
-/

namespace FiniteDomain

/-- An entry that exists is read. -/
theorem fetch_getD {α : Type} {xs : Array α} {i : Nat} (h : i < xs.size) (d : α) :
    fetch xs i = .ok (xs.getD i d) := by
  rw [fetch_eq_ok_iff, Array.getD_eq_getD_getElem?, Array.getElem?_eq_getElem h]
  rfl

theorem getD_setIfInBounds {α : Type} {xs : Array α} {i : Nat} (h : i < xs.size) (a d : α) :
    (fun j => (xs.setIfInBounds i a).getD j d) = Function.update (fun j => xs.getD j d) i a := by
  funext j
  rw [Array.getD_eq_getD_getElem?, Array.getElem?_setIfInBounds, Function.update_apply]
  by_cases hj : i = j
  · rw [if_pos hj, if_pos (hj ▸ h), if_pos hj.symm, Option.getD_some]
  · rw [if_neg hj, if_neg (Ne.symm hj), Array.getD_eq_getD_getElem?]

theorem getD_modify {α : Type} {xs : Array α} {i : Nat} (h : i < xs.size) (f : α → α) (d : α) :
    (fun j => (xs.modify i f).getD j d) =
      Function.update (fun j => xs.getD j d) i (f (xs.getD i d)) := by
  funext j
  rw [Array.getD_eq_getD_getElem?, Array.getElem?_modify, Function.update_apply]
  by_cases hj : i = j
  · subst hj
    rw [if_pos rfl, if_pos rfl, Array.getD_eq_getD_getElem?, Array.getElem?_eq_getElem h]
    rfl
  · rw [if_neg hj, if_neg (Ne.symm hj), Array.getD_eq_getD_getElem?]

namespace AllDifferent

/-- The roles of the cells of a value graph. -/
inductive Role where
  | live (v : Nat)
  | liveTotal
  | activeTotal
  | mate (x : Nat)
  | owner (v : Nat)
  deriving DecidableEq

/-- What the cells hold, by their roles. -/
abbrev Registers := Role → Int

/-- The number that a matching cell holds. -/
def partner (v : Int) : Option Nat := if 0 ≤ v then some v.toNat else none

namespace ValueGraph

variable {g : ValueGraph} {s : Store} {ρ : Registers}

/-! ## Edges and places -/

/-- The variable of an edge. -/
def tail (g : ValueGraph) (e : Nat) : Nat := g.edgeVar.getD e 0

/-- The value of an edge. -/
def head (g : ValueGraph) (e : Nat) : Nat := g.edgeValue.getD e 0

/-- Where an edge stands among the edges of its value. -/
def place (g : ValueGraph) (e : Nat) : Nat := g.slot.getD e 0

/-- The edge that stands at a place. -/
def edgeAt (g : ValueGraph) (k : Nat) : Nat := g.adjacency.getD k 0

/-- Where the places of a value begin. -/
def start (g : ValueGraph) (v : Nat) : Nat := g.valueStart.getD v 0

/-- Where the edges of a variable begin. -/
def firstEdge (g : ValueGraph) (x : Nat) : Nat := g.edgeStart.getD x 0

/-- Where a variable stands among all variables. -/
def rank (g : ValueGraph) (x : Nat) : Nat := g.activePlace.getD x 0

/-- The variable that stands at a place. -/
def varAt (g : ValueGraph) (k : Nat) : Nat := g.active.getD k 0

/-- The shape of the arrays. -/
structure Layout (g : ValueGraph) : Prop where
  size_sources : g.sources.size = g.varTotal
  size_edgeStart : g.edgeStart.size = g.varTotal + 1
  size_edgeValue : g.edgeValue.size = g.edgeTotal
  size_valueStart : g.valueStart.size = g.valueTotal + 1
  size_adjacency : g.adjacency.size = g.edgeTotal
  size_slot : g.slot.size = g.edgeTotal
  size_live : g.live.size = g.valueTotal
  size_active : g.active.size = g.varTotal
  size_activePlace : g.activePlace.size = g.varTotal
  size_mates : g.mates.size = g.varTotal
  size_owners : g.owners.size = g.valueTotal
  edgeTotal_le : (g.edgeTotal : Int) ≤ Word.greatest
  varTotal_le : (g.varTotal : Int) ≤ Word.greatest
  values_nodup : g.values.toList.Nodup
  tail_lt : ∀ e < g.edgeTotal, g.tail e < g.varTotal
  head_lt : ∀ e < g.edgeTotal, g.head e < g.valueTotal
  firstEdge_le : ∀ x < g.varTotal,
    g.firstEdge x ≤ g.firstEdge (x + 1) ∧ g.firstEdge (x + 1) ≤ g.edgeTotal
  tail_eq_iff : ∀ e < g.edgeTotal, ∀ x < g.varTotal,
    g.tail e = x ↔ g.firstEdge x ≤ e ∧ e < g.firstEdge (x + 1)
  simple : ∀ e < g.edgeTotal, ∀ e' < g.edgeTotal, g.tail e = g.tail e' → g.head e = g.head e' →
    e = e'
  start_le : ∀ v < g.valueTotal, g.start v ≤ g.start (v + 1) ∧ g.start (v + 1) ≤ g.edgeTotal
  place_edge : ∀ e < g.edgeTotal, g.place e < g.edgeTotal ∧ g.edgeAt (g.place e) = e
  edge_place : ∀ k < g.edgeTotal, g.edgeAt k < g.edgeTotal ∧ g.place (g.edgeAt k) = k
  head_eq_iff : ∀ e < g.edgeTotal, ∀ v < g.valueTotal,
    g.head e = v ↔ g.start v ≤ g.place e ∧ g.place e < g.start (v + 1)
  rank_var : ∀ x < g.varTotal, g.rank x < g.varTotal ∧ g.varAt (g.rank x) = x
  var_rank : ∀ k < g.varTotal, g.varAt k < g.varTotal ∧ g.rank (g.varAt k) = k

/-! ## Cells -/

/-- The cell with a role. -/
def cell? (g : ValueGraph) : Role → Option Cell
  | .live v => g.live[v]?
  | .liveTotal => some g.liveTotal
  | .activeTotal => some g.activeTotal
  | .mate x => g.mates[x]?
  | .owner v => g.owners[v]?

/-- A cell of the graph. -/
def Owns (g : ValueGraph) (c : Cell) : Prop := ∃ r, g.cell? r = some c

/-- What the cells of the graph hold in a frame.  Where there is no cell, there is no partner. -/
def registers (g : ValueGraph) (w : Frame) : Registers := fun r =>
  match g.cell? r with
  | some c => w.get c
  | none => -1

/-- What the cells of the graph hold now. -/
def now (g : ValueGraph) (s : Store) : Registers := g.registers s.trail.now

/-- The cells of the graph are distinct, and keep nothing else. -/
structure Wired (g : ValueGraph) (s : Store) : Prop where
  distinct : ∀ r r' c, g.cell? r = some c → g.cell? r' = some c → r = r'
  has : ∀ c, g.Owns c → s.trail.now.Has c
  free : ∀ c, g.Owns c → s.Free c

theorem registers_eq {r : Role} {c : Cell} (h : g.cell? r = some c) (w : Frame) :
    g.registers w r = w.get c := by
  rw [registers, h]

theorem read_eq (hw : g.Wired s) {r : Role} {c : Cell} (h : g.cell? r = some c) :
    s.read c = .ok (g.now s r) := by
  rw [Store.read, Trail.read_eq (hw.has c ⟨r, h⟩), now, registers_eq h]

theorem readCount_eq (hw : g.Wired s) {r : Role} {c : Cell} (h : g.cell? r = some c)
    (hpos : 0 ≤ g.now s r) (hle : g.now s r ≤ Word.greatest) :
    s.readCount c = .ok (g.now s r).toNat := by
  rw [now, registers_eq h] at *
  refine Trail.readCount_eq (hw.has c ⟨r, h⟩) (by omega) ?_
  unfold Word.greatest at hle
  unfold Word.countBound
  omega

/-- A write changes what the cell with one role holds. -/
theorem write_eq (h : s.Sound) (hw : g.Wired s) {r : Role} {c : Cell} (hc : g.cell? r = some c)
    (v : Int) :
    ∃ s', s.write c v = .ok s' ∧ Store.Evolves g.Owns s s' ∧ (∀ p, s'.domain p = s.domain p) ∧
      g.now s' = Function.update (g.now s) r v ∧ g.Wired s' := by
  have hhas := hw.has c ⟨r, hc⟩
  obtain ⟨s', hwrite, hwrote⟩ := Store.write_eq h hhas (hw.free c ⟨r, hc⟩) v
  refine ⟨s', hwrite, hwrote.toEvolves.mono fun d hd => ⟨r, hd ▸ hc⟩, hwrote.domain_eq, ?_,
    hw.distinct, fun d hd => hwrote.toEvolves.has (hw.has d hd),
    fun d hd => hwrote.toEvolves.free (hw.free d hd)⟩
  funext r'
  rw [now, now, hwrote.now_eq, Function.update_apply, registers, registers]
  cases hc' : g.cell? r' with
  | none =>
    rw [if_neg]
    rintro rfl
    rw [hc] at hc'
    cases hc'
  | some d =>
    dsimp only
    rw [Frame.get_put hhas]
    by_cases hr : r' = r
    · subst hr
      rw [if_pos (Option.some.inj (hc'.symm.trans hc)), if_pos rfl]
    · rw [if_neg hr, if_neg]
      rintro rfl
      exact hr (hw.distinct _ _ _ hc' hc)

/-- Where the graph's cells are left alone, they hold what they held. -/
theorem now_of_evolves {C : Cell → Prop} {s' : Store} (hw : g.Wired s)
    (he : Store.Evolves C s s') (hC : ∀ c, g.Owns c → ¬ C c) : g.now s' = g.now s := by
  funext r
  rw [now, now, registers, registers]
  cases hc : g.cell? r with
  | none => rfl
  | some c => exact he.get_eq c (hw.free c ⟨r, hc⟩).not_isSetCell (hC c ⟨r, hc⟩)

/-- The cells stay distinct and free. -/
theorem Wired.of_evolves {C : Cell → Prop} {s' : Store} (hw : g.Wired s)
    (he : Store.Evolves C s s') : g.Wired s' :=
  ⟨hw.distinct, fun c hc => he.has (hw.has c hc), fun c hc => he.free (hw.free c hc)⟩

/-! ## The snapshot -/

/-- The number of live edges of a value. -/
def count (ρ : Registers) (v : Nat) : Nat := (ρ (.live v)).toNat

/-- An edge is live. -/
def Live (g : ValueGraph) (ρ : Registers) (e : Nat) : Prop :=
  e < g.edgeTotal ∧ g.place e < g.start (g.head e) + count ρ (g.head e)

instance (g : ValueGraph) (ρ : Registers) : DecidablePred (g.Live ρ) :=
  fun _ => inferInstanceAs (Decidable (_ ∧ _))

/-- A variable is not grounded. -/
def Active (g : ValueGraph) (ρ : Registers) (x : Nat) : Prop :=
  x < g.varTotal ∧ g.rank x < (ρ .activeTotal).toNat

instance (g : ValueGraph) (ρ : Registers) : DecidablePred (g.Active ρ) :=
  fun _ => inferInstanceAs (Decidable (_ ∧ _))

/-- What the graph shows. -/
def snapshot (g : ValueGraph) (ρ : Registers) : Snapshot where
  active := (Finset.range g.varTotal).filter (g.Active ρ)
  live x := ((Finset.range g.edgeTotal).filter fun e => g.Live ρ e ∧ g.tail e = x).image g.head
  mate x := partner (ρ (.mate x))
  owner v := partner (ρ (.owner v))

@[simp]
theorem mem_active {x : Nat} : x ∈ (g.snapshot ρ).active ↔ g.Active ρ x := by
  rw [snapshot, Finset.mem_filter, Finset.mem_range]
  exact ⟨fun h => h.2, fun h => ⟨h.1, h⟩⟩

theorem mem_live {x v : Nat} :
    v ∈ (g.snapshot ρ).live x ↔ ∃ e, g.Live ρ e ∧ g.tail e = x ∧ g.head e = v := by
  rw [snapshot, Finset.mem_image]
  simp only [Finset.mem_filter, Finset.mem_range]
  constructor
  · rintro ⟨e, ⟨_, hl, ht⟩, hv⟩
    exact ⟨e, hl, ht, hv⟩
  · rintro ⟨e, hl, ht, hv⟩
    exact ⟨e, ⟨hl.1, hl, ht⟩, hv⟩

/-- The cells hold counts that fit, and numbers of variables and values. -/
structure Intact (g : ValueGraph) (ρ : Registers) : Prop where
  live_nonneg : ∀ v < g.valueTotal, 0 ≤ ρ (.live v)
  live_le : ∀ v < g.valueTotal, g.start v + count ρ v ≤ g.start (v + 1)
  active_nonneg : 0 ≤ ρ .activeTotal
  active_le : ρ .activeTotal ≤ g.varTotal
  total_eq : ρ .liveTotal = (((Finset.range g.edgeTotal).filter (g.Live ρ)).card : Nat)
  mate_eq : ∀ x, ρ (.mate x) = -1 ∨
    x < g.varTotal ∧ ∃ v < g.valueTotal, ρ (.mate x) = (v : Nat)
  owner_eq : ∀ v, ρ (.owner v) = -1 ∨
    v < g.valueTotal ∧ ∃ x < g.varTotal, ρ (.owner v) = (x : Nat)

/-- What holds of a value graph that is changed through its operations only. -/
structure Sound (g : ValueGraph) (s : Store) : Prop where
  store : s.Sound
  layout : g.Layout
  wired : g.Wired s
  intact : g.Intact (g.now s)

/-- Writes into other cells do not concern a graph. -/
theorem Sound.of_evolves {s' : Store} (h : g.Sound s) {C : Cell → Prop}
    (he : Store.Evolves C s s') (hC : ∀ c, g.Owns c → ¬ C c) : g.Sound s' ∧ g.now s' = g.now s := by
  have hnow := now_of_evolves h.wired he hC
  exact ⟨⟨he.sound, h.layout, h.wired.of_evolves he, by rw [hnow]; exact h.intact⟩, hnow⟩

end ValueGraph

end AllDifferent

end FiniteDomain
