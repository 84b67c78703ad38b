import FiniteDomain.AllDifferent.ValueGraph.Build
import FiniteDomain.Proofs.AllDifferent.Anchors
import Mathlib.Algebra.GroupWithZero.Nat

/-!
# The graph of given variables is sound

* `Draft.Holds` and `Draft.Reads` are the invariants of reading the domains: the edges are the pairs
  of a variable and one of its values, each once, one variable after the other.
* `byValue_eq`, `starts_eq` and `places_eq` describe the sorting of the edges.
* `build_eq` collects what is true of the graph that comes out: it is sound, it shows the domains,
  and nothing is matched or grounded.
-/

namespace FiniteDomain.AllDifferent.ValueGraph

/-! ## Sorting the edges -/

/-- What several pushes into segments come to. -/
theorem getElem?_foldl_push (pairs : List (Nat × Nat)) :
    ∀ (segments : Array (Array Nat)) (v : Nat),
      (pairs.foldl (fun segments (v, e) => segments.modify v (·.push e)) segments)[v]? =
        segments[v]?.map (· ++ ((pairs.filter fun pair => pair.1 = v).map Prod.snd).toArray) := by
  induction pairs with
  | nil =>
    intro segments v
    cases hv : segments[v]? with
    | none => rw [List.foldl_nil, hv]; rfl
    | some segment => rw [List.foldl_nil, hv]; simp
  | cons pair rest ih =>
    intro segments v
    obtain ⟨u, e⟩ := pair
    rw [List.foldl_cons, ih, Array.getElem?_modify]
    by_cases huv : u = v
    · subst huv
      rw [if_pos rfl, List.filter_cons_of_pos (by simp)]
      cases segments[u]? with
      | none => rfl
      | some segment => simp
    · rw [if_neg huv, List.filter_cons_of_neg (by simpa using huv)]

/-- The edges of a value, in increasing order. -/
def Draft.edgesWith (d : Draft) (v : Nat) : List Nat :=
  ((d.edgeValue.toList.zipIdx).filter fun pair => pair.1 = v).map Prod.snd

theorem Draft.mem_edgesWith {d : Draft} {v e : Nat} :
    e ∈ d.edgesWith v ↔ d.edgeValue[e]? = some v := by
  rw [edgesWith, List.mem_map]
  constructor
  · rintro ⟨⟨u, e'⟩, hmem, rfl⟩
    obtain ⟨hmem, hu⟩ := List.mem_filter.1 hmem
    rw [List.mem_zipIdx_iff_getElem?, Array.getElem?_toList] at hmem
    rw [hmem]
    exact congrArg some (of_decide_eq_true hu)
  · intro he
    refine ⟨(v, e), List.mem_filter.2 ⟨?_, decide_eq_true rfl⟩, rfl⟩
    rw [List.mem_zipIdx_iff_getElem?, Array.getElem?_toList]
    exact he

theorem Draft.nodup_edgesWith (d : Draft) (v : Nat) : (d.edgesWith v).Nodup := by
  have hsub := (List.filter_sublist (l := d.edgeValue.toList.zipIdx)
    (p := fun pair => pair.1 = v)).map Prod.snd
  refine hsub.nodup ?_
  rw [List.zipIdx_map_snd]
  exact List.nodup_range'

/-- The segments are the edges of the values. -/
theorem Draft.byValue_eq (d : Draft) :
    d.byValue.toList.map Array.toList = (List.range d.values.size).map d.edgesWith := by
  refine List.ext_getElem? fun v => ?_
  rw [List.getElem?_map, Array.getElem?_toList, Draft.byValue, getElem?_foldl_push,
    Array.getElem?_replicate, List.getElem?_map]
  by_cases hv : v < d.values.size
  · rw [if_pos hv, List.getElem?_range hv]
    show some (#[] ++ (d.edgesWith v).toArray).toList = some (d.edgesWith v)
    rw [Array.empty_append]
  · rw [if_neg hv, List.getElem?_eq_none (by rw [List.length_range]; omega)]
    rfl

section

variable {α : Type}

/-- Where the segment `v` begins. -/
def offset (lists : List (List α)) (v : Nat) : Nat := ((lists.take v).map List.length).sum

theorem offset_succ {lists : List (List α)} {v : Nat} {l : List α} (h : lists[v]? = some l) :
    offset lists (v + 1) = offset lists v + l.length := by
  rw [offset, offset, List.take_add_one, h, Option.toList_some, List.map_append, List.sum_append]
  rfl

theorem offset_mono (lists : List (List α)) {v w : Nat} (h : v ≤ w) :
    offset lists v ≤ offset lists w := by
  obtain ⟨k, rfl⟩ := Nat.exists_eq_add_of_le h
  rw [offset, offset, List.take_add, List.map_append, List.sum_append]
  exact Nat.le_add_right _ _

theorem offset_le (lists : List (List α)) (v : Nat) :
    offset lists v ≤ lists.flatten.length := by
  rw [List.length_flatten]
  have hle := offset_mono lists (Nat.le_max_left v lists.length)
  rw [offset, offset, List.take_of_length_le (i := max v lists.length) (Nat.le_max_right ..)] at hle
  exact hle

/-- The segments together. -/
theorem offset_length (lists : List (List α)) :
    offset lists lists.length = lists.flatten.length := by
  rw [offset, List.take_length, List.length_flatten]

/-- Each place below the end lies in one segment. -/
theorem exists_offset (lists : List (List α)) :
    ∀ {k : Nat}, k < offset lists lists.length →
      ∃ v l, lists[v]? = some l ∧ ∃ j < l.length, k = offset lists v + j := by
  induction lists with
  | nil =>
    intro k hk
    cases hk
  | cons l rest ih =>
    intro k hk
    by_cases hl : k < l.length
    · exact ⟨0, l, rfl, k, hl, (Nat.zero_add k).symm⟩
    · have hshift : ∀ v, offset (l :: rest) (v + 1) = l.length + offset rest v := fun v => rfl
      rw [List.length_cons, hshift] at hk
      obtain ⟨v, l', hl', j, hj, heq⟩ := ih (k := k - l.length) (by omega)
      exact ⟨v + 1, l', hl', j, hj, by rw [hshift]; omega⟩

/-- What stands at a place of a segment. -/
theorem getElem?_flatten_offset (lists : List (List α)) :
    ∀ {v j : Nat} {l : List α}, lists[v]? = some l → j < l.length →
      lists.flatten[offset lists v + j]? = l[j]? := by
  induction lists with
  | nil =>
    intro v j l hl
    cases hl
  | cons l₀ rest ih =>
    intro v j l hl hj
    cases v with
    | zero =>
      cases hl
      rw [List.flatten_cons, offset, List.take_zero, List.map_nil, List.sum_nil, Nat.zero_add,
        List.getElem?_append_left hj]
    | succ v =>
      have hshift : offset (l₀ :: rest) (v + 1) = l₀.length + offset rest v := rfl
      rw [List.flatten_cons, hshift, Nat.add_assoc, List.getElem?_append_right (by omega),
        Nat.add_sub_cancel_left]
      exact ih hl hj

/-- Two places in different segments are ordered like the segments. -/
theorem eq_of_offset {lists : List (List α)} {v w k : Nat} (hv : offset lists v ≤ k)
    (hv' : k < offset lists (v + 1)) (hw : offset lists w ≤ k) (hw' : k < offset lists (w + 1)) :
    v = w := by
  obtain hlt | heq | hlt := Nat.lt_trichotomy v w
  · have := offset_mono lists (show v + 1 ≤ w from hlt)
    omega
  · exact heq
  · have := offset_mono lists (show w + 1 ≤ v from hlt)
    omega

end

/-- The starts are the sums of the lengths. -/
theorem getElem?_starts (segments : Array (Array Nat)) {v : Nat} (hv : v ≤ segments.size) :
    (starts segments)[v]? = some (offset (segments.toList.map Array.toList) v) := by
  -- The induction is on the segments that are left, after starts that end with `b`.
  have main : ∀ (rest : List (Array Nat)) (done : Array Nat) (b : Nat),
      (∀ i < done.size, (rest.foldl (fun starts segment =>
        starts.push (starts.back?.getD 0 + segment.size)) (done.push b))[i]? = done[i]?) ∧
      ∀ v ≤ rest.length, (rest.foldl (fun starts segment =>
        starts.push (starts.back?.getD 0 + segment.size)) (done.push b))[done.size + v]? =
          some (b + offset (rest.map Array.toList) v) := by
    intro rest
    induction rest with
    | nil =>
      intro done b
      refine ⟨fun i hi => by rw [List.foldl_nil, Array.getElem?_push_lt hi,
        Array.getElem?_eq_getElem hi], fun v hv => ?_⟩
      obtain rfl : v = 0 := Nat.le_zero.1 hv
      rw [List.foldl_nil, Nat.add_zero, Array.getElem?_push_size]
      rfl
    | cons segment rest ih =>
      intro done b
      obtain ⟨hold, hnew⟩ := ih (done.push b) (b + segment.size)
      rw [Array.size_push] at hold hnew
      rw [List.foldl_cons, Array.back?_push, Option.getD_some]
      refine ⟨fun i hi => ?_, fun v hv => ?_⟩
      · rw [hold i (by omega), Array.getElem?_push_lt hi, Array.getElem?_eq_getElem hi]
      · cases v with
        | zero =>
          rw [Nat.add_zero, hold done.size (by omega), Array.getElem?_push_size]
          rfl
        | succ v =>
          have := hnew v (Nat.le_of_succ_le_succ hv)
          rw [show done.size + (v + 1) = done.size + 1 + v by omega, this, List.map_cons, offset,
            offset, List.take_succ_cons, List.map_cons, List.sum_cons, Array.length_toList]
          congr 1
          omega
  have := (main segments.toList #[] 0).2 v (by rw [Array.length_toList]; exact hv)
  rw [starts, ← Array.foldl_toList]
  simpa using this

/-- Each number of a list without repetitions gets its place. -/
theorem getElem?_places {xs : Array Nat} (hnodup : xs.toList.Nodup)
    (hlt : ∀ x ∈ xs, x < xs.size) {k x : Nat} (hx : xs[k]? = some x) :
    (places xs)[x]? = some k := by
  have main : ∀ (pairs : List (Nat × Nat)) (acc : Array Nat), (pairs.map Prod.fst).Nodup →
      (∀ pair ∈ pairs, pair.1 < acc.size) → ∀ x k, (x, k) ∈ pairs ∨
        x ∉ pairs.map Prod.fst ∧ acc[x]? = some k →
      (pairs.foldl (fun places (x, place) => places.setIfInBounds x place) acc)[x]? = some k := by
    intro pairs
    induction pairs with
    | nil =>
      intro acc _ _ x k hor
      exact (hor.resolve_left List.not_mem_nil).2
    | cons pair rest ih =>
      intro acc hnodup hlt x k hor
      obtain ⟨y, j⟩ := pair
      obtain ⟨hy, hnodup⟩ := List.nodup_cons.1 hnodup
      have hyacc : y < acc.size := hlt (y, j) (List.mem_cons_self ..)
      refine ih _ hnodup (fun pair hp => ?_) x k ?_
      · rw [Array.size_setIfInBounds]
        exact hlt pair (List.mem_cons_of_mem _ hp)
      · obtain hmem | ⟨hnot, hacc⟩ := hor
        · obtain heq | hmem := List.mem_cons.1 hmem
          · cases heq
            exact Or.inr ⟨hy, by rw [Array.getElem?_setIfInBounds_self_of_lt hyacc]⟩
          · exact Or.inl hmem
        · rw [List.map_cons, List.mem_cons, not_or] at hnot
          exact Or.inr ⟨hnot.2, by rw [Array.getElem?_setIfInBounds_ne (Ne.symm hnot.1), hacc]⟩
  rw [places]
  refine main _ _ ?_ (fun pair hp => ?_) x k (Or.inl ?_)
  · rw [List.zipIdx_map_fst]
    exact hnodup
  · obtain ⟨y, j⟩ := pair
    rw [List.mk_mem_zipIdx_iff_getElem?, Array.getElem?_toList] at hp
    rw [Array.size_replicate]
    exact hlt y (Array.mem_of_getElem? hp)
  · rw [List.mk_mem_zipIdx_iff_getElem?, Array.getElem?_toList]
    exact hx

/-! ## Reading the domains -/

/-- The edges of the variables that were read, whose values are the `rows`: one variable after the
other, and the values of a variable in the order of its row. -/
structure Draft.Holds (d : Draft) (rows : List (List Int)) : Prop where
  values_nodup : d.values.toList.Nodup
  size_edgeValue : d.edgeValue.size = d.edgeVar.size
  size_edgeStart : d.edgeStart.size = rows.length
  size_sources : d.sources.size = rows.length
  edgeTotal_eq : d.edgeVar.size = offset rows rows.length
  start_eq : ∀ x < rows.length, d.edgeStart[x]? = some (offset rows x)
  edge_eq : ∀ (x : Nat) (row : List Int), rows[x]? = some row → ∀ (j : Nat) (u : Int),
    row[j]? = some u → d.edgeVar[offset rows x + j]? = some x ∧
      ∃ v, d.edgeValue[offset rows x + j]? = some v ∧ d.values[v]? = some u

/-- Some values of the variable at position `x` were added to a draft. -/
structure Draft.Extended (x : Nat) (d : Draft) (row : List Int) (d' : Draft) : Prop where
  sources_eq : d'.sources = d.sources
  edgeStart_eq : d'.edgeStart = d.edgeStart
  values_nodup : d'.values.toList.Nodup
  values_eq : ∀ (v : Nat) (u : Int), d.values[v]? = some u → d'.values[v]? = some u
  size_edgeVar : d'.edgeVar.size = d.edgeVar.size + row.length
  size_edgeValue : d'.edgeValue.size = d.edgeValue.size + row.length
  edgeVar_eq : ∀ e < d.edgeVar.size, d'.edgeVar[e]? = d.edgeVar[e]?
  edgeValue_eq : ∀ e < d.edgeValue.size, d'.edgeValue[e]? = d.edgeValue[e]?
  new : ∀ (j : Nat) (u : Int), row[j]? = some u → d'.edgeVar[d.edgeVar.size + j]? = some x ∧
    ∃ v, d'.edgeValue[d.edgeValue.size + j]? = some v ∧ d'.values[v]? = some u

/-- One more value. -/
theorem Draft.Extended.addEdge {x : Nat} {d d' : Draft} {row : List Int}
    (h : Draft.Extended x d row d') (u : Int) :
    Draft.Extended x d (row ++ [u]) (d'.addEdge x u) := by
  -- The value has a number, or gets the next one.
  obtain ⟨v, values, hadd, hnodup, hvalues, hv⟩ : ∃ v values,
      d'.addEdge x u = { d' with
        values := values, edgeVar := d'.edgeVar.push x, edgeValue := d'.edgeValue.push v } ∧
      values.toList.Nodup ∧ (∀ (w : Nat) (a : Int), d'.values[w]? = some a → values[w]? = some a) ∧
      values[v]? = some u := by
    rw [Draft.addEdge]
    cases hfind : d'.values.findIdx? (· == u) with
    | some v =>
      obtain ⟨hlt, heq, _⟩ := Array.findIdx?_eq_some_iff_getElem.1 hfind
      refine ⟨v, d'.values, rfl, h.values_nodup, fun _ _ => id, ?_⟩
      rw [Array.getElem?_eq_getElem hlt, eq_of_beq heq]
    | none =>
      refine ⟨d'.values.size, d'.values.push u, rfl, ?_, fun w a hw => ?_,
        Array.getElem?_push_size⟩
      · rw [Array.toList_push]
        refine List.nodup_append.2 ⟨h.values_nodup, List.nodup_singleton _, fun a ha b hb heq => ?_⟩
        rw [Array.findIdx?_eq_none_iff] at hfind
        have := hfind a (Array.mem_toList_iff.1 ha)
        rw [heq, List.mem_singleton.1 hb] at this
        simp at this
      · have hlt : w < d'.values.size := (Array.getElem?_eq_some_iff.1 hw).1
        rw [Array.getElem?_push_lt hlt, ← hw, Array.getElem?_eq_getElem hlt]
  rw [hadd]
  constructor
  · exact h.sources_eq
  · exact h.edgeStart_eq
  · exact hnodup
  · exact fun w a hw => hvalues w a (h.values_eq w a hw)
  · simp [h.size_edgeVar, Nat.add_assoc]
  · simp [h.size_edgeValue, Nat.add_assoc]
  · intro e he
    dsimp only
    rw [← h.edgeVar_eq e he, Array.getElem?_push_lt (by rw [h.size_edgeVar]; omega),
      Array.getElem?_eq_getElem]
  · intro e he
    dsimp only
    rw [← h.edgeValue_eq e he, Array.getElem?_push_lt (by rw [h.size_edgeValue]; omega),
      Array.getElem?_eq_getElem]
  · intro j a ha
    dsimp only
    by_cases hj : j < row.length
    · rw [List.getElem?_append_left hj] at ha
      obtain ⟨hvar, w, hw, ha⟩ := h.new j a ha
      refine ⟨?_, w, ?_, hvalues w a ha⟩
      · rw [← hvar, Array.getElem?_push_lt (by rw [h.size_edgeVar]; omega),
          Array.getElem?_eq_getElem]
      · rw [← hw, Array.getElem?_push_lt (by rw [h.size_edgeValue]; omega),
          Array.getElem?_eq_getElem]
    · rw [List.getElem?_append_right (by omega)] at ha
      obtain ⟨hlt, rfl⟩ := List.getElem?_eq_some_iff.1 ha
      rw [List.length_singleton] at hlt
      obtain rfl : j = row.length := by omega
      refine ⟨?_, v, ?_, ?_⟩
      · rw [← h.size_edgeVar]
        exact Array.getElem?_push_size
      · rw [← h.size_edgeValue]
        exact Array.getElem?_push_size
      · simpa using hv

/-- All values of a variable. -/
theorem Draft.extended_foldl {x : Nat} {d : Draft} (hnodup : d.values.toList.Nodup)
    (row : List Int) : Draft.Extended x d row (row.foldl (Draft.addEdge x) d) := by
  have main : ∀ (rest done : List Int) (d' : Draft), Draft.Extended x d done d' →
      Draft.Extended x d (done ++ rest) (rest.foldl (Draft.addEdge x) d') := by
    intro rest
    induction rest with
    | nil =>
      intro done d' h
      rw [List.append_nil]
      exact h
    | cons u rest ih =>
      intro done d' h
      rw [List.append_cons]
      exact ih _ _ (h.addEdge u)
  exact main row [] d ⟨rfl, rfl, hnodup, fun _ _ => id, rfl, rfl, fun _ _ => rfl, fun _ _ => rfl,
    nofun⟩

theorem Draft.Holds.empty : Draft.empty.Holds [] :=
  ⟨List.nodup_nil, rfl, rfl, rfl, rfl, nofun, nofun⟩

/-- One more variable. -/
theorem Draft.Holds.addRow {d d' : Draft} {rows : List (List Int)} {row : List Int}
    {sources : Array Var} (h : d.Holds rows) (hsources : sources.size = rows.length + 1)
    (he : Draft.Extended rows.length { d with edgeStart := d.edgeStart.push d.edgeVar.size } row d') :
    ({ d' with sources := sources } : Draft).Holds (rows ++ [row]) := by
  have hoffset : ∀ x ≤ rows.length, offset (rows ++ [row]) x = offset rows x := by
    intro x hx
    rw [offset, offset, List.take_append_of_le_length hx]
  have hlast : offset (rows ++ [row]) (rows.length + 1) = d.edgeVar.size + row.length := by
    rw [offset_succ (l := row) (by simp), hoffset _ (Nat.le_refl _), h.edgeTotal_eq]
  have hstart := he.edgeStart_eq
  have hsizeVar := he.size_edgeVar
  have hsizeValue := he.size_edgeValue
  dsimp only at hstart hsizeVar hsizeValue
  constructor
  · exact he.values_nodup
  · dsimp only
    rw [hsizeValue, hsizeVar, h.size_edgeValue]
  · dsimp only
    rw [hstart, Array.size_push, h.size_edgeStart, List.length_append]
    rfl
  · rw [hsources, List.length_append]
    rfl
  · rw [List.length_append, List.length_singleton, hlast]
    exact hsizeVar
  · intro x hx
    rw [List.length_append, List.length_singleton] at hx
    dsimp only
    rw [hstart, hoffset x (by omega)]
    obtain hlt | rfl := Nat.lt_or_eq_of_le (Nat.le_of_lt_succ hx)
    · rw [Array.getElem?_push_lt (by rw [h.size_edgeStart]; exact hlt), ← h.start_eq x hlt,
        Array.getElem?_eq_getElem]
    · rw [← h.edgeTotal_eq, ← h.size_edgeStart]
      exact Array.getElem?_push_size
  · intro x r hr j u hu
    have hx := (List.getElem?_eq_some_iff.1 hr).1
    rw [List.length_append, List.length_singleton] at hx
    rw [hoffset x (by omega)]
    obtain hlt | rfl := Nat.lt_or_eq_of_le (Nat.le_of_lt_succ hx)
    · rw [List.getElem?_append_left hlt] at hr
      obtain ⟨hvar, v, hv, hval⟩ := h.edge_eq x r hr j u hu
      have hlt' : offset rows x + j < d.edgeVar.size := (Array.getElem?_eq_some_iff.1 hvar).1
      refine ⟨?_, v, ?_, he.values_eq v u hval⟩
      · rw [← hvar]
        exact he.edgeVar_eq _ hlt'
      · rw [← hv]
        exact he.edgeValue_eq _ (by dsimp only; rw [h.size_edgeValue]; exact hlt')
    · rw [List.getElem?_append_right (Nat.le_refl _), Nat.sub_self] at hr
      cases hr
      have hnew := he.new j u hu
      dsimp only at hnew
      rw [h.size_edgeValue, h.edgeTotal_eq] at hnew
      exact hnew

/-- The variables that were read: their primitive variables, and rows that are their domains. -/
structure Draft.Reads (s : Store) (xs : List Var) (d : Draft) (rows : List (List Int)) : Prop where
  holds : d.Holds rows
  length_eq : rows.length = xs.length
  source_eq : ∀ (i : Nat) (x : Var), xs[i]? = some x → ∃ b, (s.path x).source = .ok b ∧
    d.sources[i]? = some b.var
  row_eq : ∀ (i : Nat) (x : Var) (row : List Int), xs[i]? = some x → rows[i]? = some row →
    s.Readable x ∧ row.Nodup ∧ ∀ u, u ∈ row ↔ u ∈ s.view x

/-- Each variable has a row, which holds its domain. -/
theorem Draft.Reads.exists_row {s : Store} {xs : List Var} {d : Draft} {rows : List (List Int)}
    (h : Draft.Reads s xs d rows) {i : Nat} {x : Var} (hx : xs[i]? = some x) :
    ∃ row, rows[i]? = some row ∧ s.Readable x ∧ row.Nodup ∧ ∀ u, u ∈ row ↔ u ∈ s.view x := by
  have hi : i < rows.length := h.length_eq.symm ▸ (List.getElem?_eq_some_iff.1 hx).1
  exact ⟨_, List.getElem?_eq_getElem hi, h.row_eq i x _ hx (List.getElem?_eq_getElem hi)⟩

theorem Draft.Reads.nodup {s : Store} {xs : List Var} {d : Draft} {rows : List (List Int)}
    (h : Draft.Reads s xs d rows) : ∀ row ∈ rows, row.Nodup := by
  intro row hrow
  obtain ⟨i, hi⟩ := List.mem_iff_getElem?.1 hrow
  have hlt : i < xs.length := h.length_eq ▸ (List.getElem?_eq_some_iff.1 hi).1
  exact (h.row_eq i _ row (List.getElem?_eq_getElem hlt) hi).2.1

/-- One more variable is read. -/
theorem Draft.Reads.addVar {s : Store} (hs : s.Sound) {xs : List Var} {d d' : Draft}
    {rows : List (List Int)} (h : Draft.Reads s xs d rows) {x : Var}
    (hx : x.index < s.definitions.size) (hret : Draft.addVar s d x = .ok d') :
    ∃ row, Draft.Reads s (xs ++ [x]) d' (rows ++ [row]) := by
  obtain ⟨source, hsource, hret⟩ := bind_eq_ok_iff.1 hret
  obtain ⟨row, hrow, hret⟩ := bind_eq_ok_iff.1 hret
  cases hret
  have hread := Store.readable_of_values hs hx hrow
  obtain ⟨row', hrow', hnodup, hmem⟩ := Store.values_eq hs hx hread
  rw [hrow] at hrow'
  cases hrow'
  obtain ⟨b, hb, heq⟩ := bind_eq_ok_iff.1 hsource
  cases heq
  have hlen : d.sources.size = xs.length := h.holds.size_sources.trans h.length_eq
  have hext := Draft.extended_foldl (x := d.sources.size)
    (d := { d with edgeStart := d.edgeStart.push d.edgeVar.size }) h.holds.values_nodup row
  have hsources : (row.foldl (Draft.addEdge d.sources.size)
      { d with edgeStart := d.edgeStart.push d.edgeVar.size }).sources = d.sources :=
    hext.sources_eq
  refine ⟨row, ?_, ?_, fun i z hz => ?_, fun i z r hz hr => ?_⟩
  · refine h.holds.addRow ?_ (h.holds.size_sources ▸ hext)
    rw [hsources, Array.size_push, h.holds.size_sources]
  · rw [List.length_append, List.length_append, h.length_eq]
    rfl
  · dsimp only
    rw [hsources]
    by_cases hi : i < xs.length
    · rw [List.getElem?_append_left hi] at hz
      obtain ⟨b', hb', hget⟩ := h.source_eq i z hz
      exact ⟨b', hb', by rw [Array.getElem?_push_lt (by omega), ← hget, Array.getElem?_eq_getElem]⟩
    · rw [List.getElem?_append_right (by omega)] at hz
      obtain ⟨hlt, rfl⟩ := List.getElem?_eq_some_iff.1 hz
      rw [List.length_singleton] at hlt
      obtain rfl : i = d.sources.size := by omega
      exact ⟨b, by simpa using hb, Array.getElem?_push_size⟩
  · by_cases hi : i < xs.length
    · rw [List.getElem?_append_left hi] at hz
      rw [List.getElem?_append_left (h.length_eq ▸ hi)] at hr
      exact h.row_eq i z r hz hr
    · rw [List.getElem?_append_right (by omega)] at hz
      rw [List.getElem?_append_right (by have := h.length_eq; omega)] at hr
      obtain ⟨hlt, rfl⟩ := List.getElem?_eq_some_iff.1 hz
      obtain ⟨hlt', rfl⟩ := List.getElem?_eq_some_iff.1 hr
      simp only [List.getElem_singleton]
      exact ⟨hread, hnodup, hmem⟩

/-- All variables are read. -/
theorem Draft.reads_foldlM {s : Store} (hs : s.Sound) {vars : List Var}
    (hvars : ∀ x ∈ vars, x.index < s.definitions.size) {d : Draft}
    (hret : vars.foldlM (Draft.addVar s) Draft.empty = .ok d) :
    ∃ rows, Draft.Reads s vars d rows := by
  have main : ∀ (rest done : List Var) (d₀ : Draft) (rows : List (List Int)),
      Draft.Reads s done d₀ rows → (∀ x ∈ rest, x.index < s.definitions.size) →
      rest.foldlM (Draft.addVar s) d₀ = .ok d → ∃ rows, Draft.Reads s (done ++ rest) d rows := by
    intro rest
    induction rest with
    | nil =>
      intro done d₀ rows h _ hret
      cases hret
      rw [List.append_nil]
      exact ⟨rows, h⟩
    | cons x rest ih =>
      intro done d₀ rows h hrest hret
      rw [List.foldlM_cons] at hret
      obtain ⟨d₁, hd₁, hret⟩ := bind_eq_ok_iff.1 hret
      obtain ⟨row, h₁⟩ := h.addVar hs (hrest x (List.mem_cons_self ..)) hd₁
      rw [List.append_cons]
      exact ih _ _ _ h₁ (fun z hz => hrest z (List.mem_cons_of_mem _ hz)) hret
  exact main vars [] Draft.empty [] ⟨.empty, rfl, nofun, nofun⟩ hvars hret

/-! ## The arrays of the graph -/

/-- The graph with the edges of a draft and the given cells. -/
def Draft.graph (d : Draft) (vars : Array Var) (live : Array Cell) (liveTotal activeTotal : Cell)
    (mates owners : Array Cell) : ValueGraph where
  vars
  sources := d.sources
  values := d.values
  edgeStart := d.edgeStart.push d.edgeVar.size
  edgeVar := d.edgeVar
  edgeValue := d.edgeValue
  valueStart := starts d.byValue
  adjacency := d.byValue.flatten
  slot := places d.byValue.flatten
  live
  liveTotal
  active := Array.range vars.size
  activePlace := Array.range vars.size
  activeTotal
  mates
  owners

theorem size_starts (segments : Array (Array Nat)) :
    (starts segments).size = segments.size + 1 := by
  have main : ∀ (rest : List (Array Nat)) (done : Array Nat),
      (rest.foldl (fun starts segment => starts.push (starts.back?.getD 0 + segment.size))
        done).size = done.size + rest.length := by
    intro rest
    induction rest with
    | nil => exact fun _ => rfl
    | cons segment rest ih =>
      intro done
      rw [List.foldl_cons, ih, Array.size_push, List.length_cons]
      omega
  rw [starts, ← Array.foldl_toList, main, Array.length_toList]
  exact Nat.add_comm 1 _

theorem size_places (xs : Array Nat) : (places xs).size = xs.size := by
  have main : ∀ (pairs : List (Nat × Nat)) (acc : Array Nat),
      (pairs.foldl (fun places (x, place) => places.setIfInBounds x place) acc).size = acc.size := by
    intro pairs
    induction pairs with
    | nil => exact fun _ => rfl
    | cons pair rest ih =>
      intro acc
      rw [List.foldl_cons, ih, Array.size_setIfInBounds]
  rw [places, main, Array.size_replicate]

theorem Draft.toList_flatten (d : Draft) : d.byValue.flatten.toList =
    ((List.range d.values.size).map d.edgesWith).flatten := by
  rw [Array.toList_flatten, byValue_eq]

theorem Draft.size_byValue (d : Draft) : d.byValue.size = d.values.size := by
  have hlength := congrArg List.length d.byValue_eq
  rwa [List.length_map, Array.length_toList, List.length_map, List.length_range] at hlength

theorem Draft.start_eq (d : Draft) {vars : Array Var} {live : Array Cell}
    {liveTotal activeTotal : Cell} {mates owners : Array Cell} {v : Nat} (hv : v ≤ d.values.size) :
    (d.graph vars live liveTotal activeTotal mates owners).start v =
      offset ((List.range d.values.size).map d.edgesWith) v := by
  rw [start, graph, Array.getD_eq_getD_getElem?, getElem?_starts _ (d.size_byValue ▸ hv), byValue_eq]
  rfl

/-- The place of an edge is in the segment of its value. -/
theorem Draft.place_mem {d : Draft} {k e v : Nat} (hk : d.byValue.flatten[k]? = some e)
    (hv : d.edgeValue[e]? = some v) :
    offset ((List.range d.values.size).map d.edgesWith) v ≤ k ∧
      k < offset ((List.range d.values.size).map d.edgesWith) (v + 1) := by
  rw [← Array.getElem?_toList, d.toList_flatten] at hk
  have hlt := (List.getElem?_eq_some_iff.1 hk).1
  rw [← offset_length] at hlt
  obtain ⟨w, l, hl, j, hj, rfl⟩ := exists_offset _ hlt
  rw [getElem?_flatten_offset _ hl hj] at hk
  have hmem := List.mem_of_getElem? hk
  have hsucc := offset_succ hl
  rw [List.getElem?_map] at hl
  obtain ⟨w', hw', rfl⟩ := Option.map_eq_some_iff.1 hl
  obtain ⟨hw, rfl⟩ := List.getElem?_eq_some_iff.1 hw'
  rw [List.getElem_range, mem_edgesWith] at hmem
  obtain rfl := Option.some.inj (hmem.symm.trans hv)
  omega

namespace Draft.Holds

variable {d : Draft} {rows : List (List Int)}

/-- Every edge comes from one value of one variable. -/
theorem edge_cases (h : d.Holds rows) {e : Nat} (he : e < d.edgeVar.size) :
    ∃ x row j u v, rows[x]? = some row ∧ row[j]? = some u ∧ e = offset rows x + j ∧
      d.edgeVar[e]? = some x ∧ d.edgeValue[e]? = some v ∧ d.values[v]? = some u := by
  obtain ⟨x, row, hrow, j, hj, rfl⟩ := exists_offset rows (h.edgeTotal_eq ▸ he)
  obtain ⟨hvar, v, hv, hval⟩ := h.edge_eq x row hrow j _ (List.getElem?_eq_getElem hj)
  exact ⟨x, row, j, _, v, hrow, List.getElem?_eq_getElem hj, rfl, hvar, hv, hval⟩

/-- The places list the edges. -/
theorem flatten_perm (h : d.Holds rows) :
    ((List.range d.values.size).map d.edgesWith).flatten.Perm (List.range d.edgeVar.size) := by
  refine (List.perm_ext_iff_of_nodup ?_ List.nodup_range).2 fun e => ?_
  · refine List.nodup_flatten.2 ⟨?_, ?_⟩
    · intro l hl
      obtain ⟨v, _, rfl⟩ := List.mem_map.1 hl
      exact d.nodup_edgesWith v
    · refine List.pairwise_map.2 (List.nodup_range.imp fun {v w} hne e hv hw => hne ?_)
      rw [mem_edgesWith] at hv hw
      exact Option.some.inj (hv.symm.trans hw)
  · rw [List.mem_flatten, List.mem_range]
    constructor
    · rintro ⟨l, hl, he⟩
      obtain ⟨v, _, rfl⟩ := List.mem_map.1 hl
      rw [← h.size_edgeValue]
      exact (Array.getElem?_eq_some_iff.1 (mem_edgesWith.1 he)).1
    · intro he
      obtain ⟨x, row, j, u, v, _, _, _, _, hv, hval⟩ := h.edge_cases he
      have hlt : v < d.values.size := (Array.getElem?_eq_some_iff.1 hval).1
      exact ⟨_, List.mem_map_of_mem (List.mem_range.2 hlt), mem_edgesWith.2 hv⟩

theorem size_flatten (h : d.Holds rows) : d.byValue.flatten.size = d.edgeVar.size := by
  rw [← Array.length_toList, d.toList_flatten, h.flatten_perm.length_eq, List.length_range]

variable {vars : Array Var} {live : Array Cell} {liveTotal activeTotal : Cell}
  {mates owners : Array Cell}

theorem firstEdge_eq (h : d.Holds rows) {x : Nat} (hx : x ≤ rows.length) :
    (d.graph vars live liveTotal activeTotal mates owners).firstEdge x = offset rows x := by
  rw [firstEdge, graph]
  obtain hlt | rfl := Nat.lt_or_eq_of_le hx
  · rw [Array.getD_eq_getD_getElem?, Array.getElem?_push_lt (by rw [h.size_edgeStart]; exact hlt),
      ← Array.getElem?_eq_getElem, h.start_eq x hlt]
    rfl
  · rw [Array.getD_eq_getD_getElem?, ← h.size_edgeStart, Array.getElem?_push_size,
      h.size_edgeStart, ← h.edgeTotal_eq]
    rfl

/-- An entry of the sorted edges stands in its place. -/
theorem place_eq (h : d.Holds rows) {k e : Nat} (hk : d.byValue.flatten[k]? = some e) :
    (d.graph vars live liveTotal activeTotal mates owners).place e = k := by
  have hperm := d.toList_flatten ▸ h.flatten_perm
  have hplaces := getElem?_places (hperm.nodup_iff.2 List.nodup_range) (fun x hx => ?_) hk
  · rw [place, graph, Array.getD_eq_getD_getElem?, hplaces]
    rfl
  · rw [h.size_flatten]
    exact List.mem_range.1 (hperm.mem_iff.1 (Array.mem_toList_iff.2 hx))

theorem tail_eq {e x : Nat} (hx : d.edgeVar[e]? = some x) :
    (d.graph vars live liveTotal activeTotal mates owners).tail e = x := by
  rw [tail, graph, Array.getD_eq_getD_getElem?, hx]
  rfl

theorem head_eq {e v : Nat} (hv : d.edgeValue[e]? = some v) :
    (d.graph vars live liveTotal activeTotal mates owners).head e = v := by
  rw [head, graph, Array.getD_eq_getD_getElem?, hv]
  rfl

theorem edgeAt_eq {k e : Nat} (hk : d.byValue.flatten[k]? = some e) :
    (d.graph vars live liveTotal activeTotal mates owners).edgeAt k = e := by
  rw [edgeAt, graph, Array.getD_eq_getD_getElem?, hk]
  rfl

/-- Every edge has a place. -/
theorem exists_place (h : d.Holds rows) {e : Nat} (he : e < d.edgeVar.size) :
    ∃ k < d.edgeVar.size, d.byValue.flatten[k]? = some e := by
  have hmem := (d.toList_flatten ▸ h.flatten_perm).mem_iff.2 (List.mem_range.2 he)
  obtain ⟨k, hk⟩ := Array.mem_iff_getElem?.1 (Array.mem_toList_iff.1 hmem)
  exact ⟨k, h.size_flatten ▸ (Array.getElem?_eq_some_iff.1 hk).1, hk⟩

theorem edge_lt_of_place (h : d.Holds rows) {k e : Nat} (hk : d.byValue.flatten[k]? = some e) :
    e < d.edgeVar.size :=
  List.mem_range.1 ((d.toList_flatten ▸ h.flatten_perm).mem_iff.1
    (Array.mem_toList_iff.2 (Array.mem_of_getElem? hk)))

/-- An edge comes from one of the variables. -/
theorem tail_lt (h : d.Holds rows) {e : Nat} (he : e < d.edgeVar.size) :
    (d.graph vars live liveTotal activeTotal mates owners).tail e < rows.length := by
  obtain ⟨x, row, _, _, _, hrow, _, _, hvar, _⟩ := h.edge_cases he
  rw [tail_eq hvar]
  exact (List.getElem?_eq_some_iff.1 hrow).1

/-- An edge leads to one of the values. -/
theorem head_lt (h : d.Holds rows) {e : Nat} (he : e < d.edgeVar.size) :
    (d.graph vars live liveTotal activeTotal mates owners).head e < d.values.size := by
  obtain ⟨_, _, _, _, v, _, _, _, _, hv, hval⟩ := h.edge_cases he
  rw [head_eq hv]
  exact (Array.getElem?_eq_some_iff.1 hval).1

/-- The edges of the variables follow each other. -/
theorem firstEdge_le (h : d.Holds rows) {x : Nat} (hx : x < rows.length) :
    (d.graph vars live liveTotal activeTotal mates owners).firstEdge x ≤
        (d.graph vars live liveTotal activeTotal mates owners).firstEdge (x + 1) ∧
      (d.graph vars live liveTotal activeTotal mates owners).firstEdge (x + 1) ≤
        d.edgeVar.size := by
  rw [h.firstEdge_eq (Nat.le_of_lt hx), h.firstEdge_eq hx, h.edgeTotal_eq]
  exact ⟨offset_mono _ (Nat.le_succ x), offset_mono _ hx⟩

/-- The edges of a variable stand together. -/
theorem tail_eq_iff (h : d.Holds rows) {e x : Nat} (he : e < d.edgeVar.size)
    (hx : x < rows.length) :
    (d.graph vars live liveTotal activeTotal mates owners).tail e = x ↔
      (d.graph vars live liveTotal activeTotal mates owners).firstEdge x ≤ e ∧
        e < (d.graph vars live liveTotal activeTotal mates owners).firstEdge (x + 1) := by
  obtain ⟨x', row, j, u, v, hrow, hu, rfl, hvar, hv, hval⟩ := h.edge_cases he
  have hj := (List.getElem?_eq_some_iff.1 hu).1
  have hlast := offset_succ hrow
  rw [tail_eq hvar, h.firstEdge_eq (Nat.le_of_lt hx), h.firstEdge_eq (x := x + 1) hx]
  constructor
  · rintro rfl
    omega
  · rintro ⟨hle, hlt⟩
    exact eq_of_offset (Nat.le_add_right ..) (by omega) hle hlt

/-- The places of the values follow each other. -/
theorem start_le (h : d.Holds rows) {v : Nat} (hv : v < d.values.size) :
    (d.graph vars live liveTotal activeTotal mates owners).start v ≤
        (d.graph vars live liveTotal activeTotal mates owners).start (v + 1) ∧
      (d.graph vars live liveTotal activeTotal mates owners).start (v + 1) ≤ d.edgeVar.size := by
  rw [d.start_eq (Nat.le_of_lt hv), d.start_eq hv,
    ← h.flatten_perm.length_eq.trans List.length_range]
  exact ⟨offset_mono _ (Nat.le_succ v), offset_le _ _⟩

/-- The places of a value stand together. -/
theorem head_eq_iff (h : d.Holds rows) {e v : Nat} (he : e < d.edgeVar.size)
    (hv : v < d.values.size) :
    (d.graph vars live liveTotal activeTotal mates owners).head e = v ↔
      (d.graph vars live liveTotal activeTotal mates owners).start v ≤
          (d.graph vars live liveTotal activeTotal mates owners).place e ∧
        (d.graph vars live liveTotal activeTotal mates owners).place e <
          (d.graph vars live liveTotal activeTotal mates owners).start (v + 1) := by
  obtain ⟨x, row, j, u, v', _, _, _, _, hv', _⟩ := h.edge_cases he
  obtain ⟨k, _, hke⟩ := h.exists_place he
  obtain ⟨hle, hlt⟩ := Draft.place_mem hke hv'
  rw [head_eq hv', h.place_eq hke, d.start_eq (Nat.le_of_lt hv), d.start_eq hv]
  constructor
  · rintro rfl
    exact ⟨hle, hlt⟩
  · rintro ⟨hle', hlt'⟩
    exact eq_of_offset hle hlt hle' hlt'

/-- At the place of an edge stands that edge. -/
theorem place_edge (h : d.Holds rows) {e : Nat} (he : e < d.edgeVar.size) :
    (d.graph vars live liveTotal activeTotal mates owners).place e < d.edgeVar.size ∧
      (d.graph vars live liveTotal activeTotal mates owners).edgeAt
        ((d.graph vars live liveTotal activeTotal mates owners).place e) = e := by
  obtain ⟨k, hk, hke⟩ := h.exists_place he
  rw [h.place_eq hke, edgeAt_eq hke]
  exact ⟨hk, rfl⟩

/-- The edge at a place has that place. -/
theorem edge_place (h : d.Holds rows) {k : Nat} (hk : k < d.edgeVar.size) :
    (d.graph vars live liveTotal activeTotal mates owners).edgeAt k < d.edgeVar.size ∧
      (d.graph vars live liveTotal activeTotal mates owners).place
        ((d.graph vars live liveTotal activeTotal mates owners).edgeAt k) = k := by
  have hke := Array.getElem?_eq_getElem (h.size_flatten.symm ▸ hk)
  rw [edgeAt_eq hke, h.place_eq hke]
  exact ⟨h.edge_lt_of_place hke, rfl⟩

/-- No two edges lead from one variable to one value. -/
theorem simple (h : d.Holds rows) (hrows : ∀ row ∈ rows, row.Nodup) {e e' : Nat}
    (he : e < d.edgeVar.size) (he' : e' < d.edgeVar.size)
    (htail : (d.graph vars live liveTotal activeTotal mates owners).tail e =
      (d.graph vars live liveTotal activeTotal mates owners).tail e')
    (hhead : (d.graph vars live liveTotal activeTotal mates owners).head e =
      (d.graph vars live liveTotal activeTotal mates owners).head e') : e = e' := by
  obtain ⟨x, row, j, u, v, hrow, hu, rfl, hx, hv, hval⟩ := h.edge_cases he
  obtain ⟨x', row', j', u', v', hrow', hu', rfl, hx', hv', hval'⟩ := h.edge_cases he'
  rw [tail_eq hx, tail_eq hx'] at htail
  rw [head_eq hv, head_eq hv'] at hhead
  subst htail hhead
  cases hrow.symm.trans hrow'
  cases hval.symm.trans hval'
  obtain ⟨hj, hju⟩ := List.getElem?_eq_some_iff.1 hu
  obtain ⟨hj', hju'⟩ := List.getElem?_eq_some_iff.1 hu'
  rw [(hrows row (List.mem_of_getElem? hrow)).getElem_inj_iff.1 (hju.trans hju'.symm)]

/-- At first every variable stands at its own number. -/
theorem rank_eq {x : Nat} (hx : x < vars.size) :
    (d.graph vars live liveTotal activeTotal mates owners).rank x = x := by
  simp [rank, graph, Array.getD_eq_getD_getElem?, hx]

theorem varAt_eq {x : Nat} (hx : x < vars.size) :
    (d.graph vars live liveTotal activeTotal mates owners).varAt x = x := by
  simp [varAt, graph, Array.getD_eq_getD_getElem?, hx]

theorem rank_var {x : Nat} (hx : x < vars.size) :
    (d.graph vars live liveTotal activeTotal mates owners).rank x < vars.size ∧
      (d.graph vars live liveTotal activeTotal mates owners).varAt
        ((d.graph vars live liveTotal activeTotal mates owners).rank x) = x := by
  rw [rank_eq hx]
  exact ⟨hx, varAt_eq hx⟩

theorem var_rank {x : Nat} (hx : x < vars.size) :
    (d.graph vars live liveTotal activeTotal mates owners).varAt x < vars.size ∧
      (d.graph vars live liveTotal activeTotal mates owners).rank
        ((d.graph vars live liveTotal activeTotal mates owners).varAt x) = x := by
  rw [varAt_eq hx]
  exact ⟨hx, rank_eq hx⟩

/-- The arrays of the graph have the right shape. -/
theorem layout (h : d.Holds rows) (hrows : ∀ row ∈ rows, row.Nodup) (hvars : vars.size = rows.length)
    (hlive : live.size = d.values.size) (hmates : mates.size = vars.size)
    (howners : owners.size = d.values.size) (hedges : (d.edgeVar.size : Int) ≤ Word.greatest)
    (hn : (vars.size : Int) ≤ Word.greatest) :
    (d.graph vars live liveTotal activeTotal mates owners).Layout where
  size_sources := h.size_sources.trans hvars.symm
  size_edgeStart := by
    rw [graph, Array.size_push, h.size_edgeStart, ← hvars]
    rfl
  size_edgeValue := h.size_edgeValue
  size_valueStart := (size_starts _).trans (congrArg (· + 1) d.size_byValue)
  size_adjacency := h.size_flatten
  size_slot := (size_places _).trans h.size_flatten
  size_live := hlive
  size_active := Array.size_range
  size_activePlace := Array.size_range
  size_mates := hmates
  size_owners := howners
  edgeTotal_le := hedges
  varTotal_le := hn
  values_nodup := h.values_nodup
  tail_lt _ he := (h.tail_lt he).trans_eq hvars.symm
  head_lt _ he := h.head_lt he
  firstEdge_le _ hx := h.firstEdge_le (hvars ▸ hx)
  tail_eq_iff _ he _ hx := h.tail_eq_iff he (hvars ▸ hx)
  simple _ he _ he' := h.simple hrows he he'
  start_le _ hv := h.start_le hv
  place_edge _ he := h.place_edge he
  edge_place _ hk := h.edge_place hk
  head_eq_iff _ he _ hv := h.head_eq_iff he hv
  rank_var _ hx := rank_var hx
  var_rank _ hx := var_rank hx

end Draft.Holds

/-! ## The whole graph -/

/-- The graph `g` of the variables `vars` was made, which shows their domains, and in which nothing is
matched or grounded. -/
structure Built (s : Store) (vars : Array Var) (g : ValueGraph) (s' : Store) : Prop where
  grown : Store.Grown s s'
  definitions_eq : s'.definitions = s.definitions
  vars_eq : g.vars = vars
  sound : g.Sound s'
  anchored : g.Anchored s'
  new : ∀ c, g.Owns c → ¬ s.trail.now.Has c
  active : ∀ x < g.varTotal, x ∈ (g.snapshot (g.now s')).active
  mate : ∀ x, (g.snapshot (g.now s')).mate x = none
  owner : ∀ v, (g.snapshot (g.now s')).owner v = none
  live : ∀ x < g.varTotal, ∀ u, u ∈ g.domains s' x ↔
    ∃ v ∈ (g.snapshot (g.now s')).live x, g.val v = u

/-- Where nothing is matched, nothing is matched wrongly. -/
theorem Built.matched {s s' : Store} {vars : Array Var} {g : ValueGraph} (h : Built s vars g s') :
    (g.snapshot (g.now s')).Matched :=
  ⟨fun x _ hv => (nomatch (h.mate x).symm.trans hv),
    fun v _ hx => (nomatch (h.owner v).symm.trans hx),
    fun x _ hv => (nomatch (h.mate x).symm.trans hv)⟩

/-- What the cells of a new graph hold. -/
def Draft.initial (d : Draft) (n : Nat) : Registers
  | .live v => (d.edgesWith v).length
  | .liveTotal => d.edgeVar.size
  | .activeTotal => n
  | .mate _ => -1
  | .owner _ => -1

/-- The cells of a graph were made. -/
structure Equipped (s : Store) (g : ValueGraph) (ρ : Registers) (s' : Store) : Prop where
  grown : Store.Grown s s'
  definitions_eq : s'.definitions = s.definitions
  wired : g.Wired s'
  new : ∀ c, g.Owns c → ¬ s.trail.now.Has c
  now_eq : ∀ r c, g.cell? r = some c → g.now s' r = ρ r

/-- Where the cell with a role stands among the cells of a graph with `m` values and `n` variables. -/
def cellPlace (m n : Nat) : Role → Nat
  | .live v => v
  | .liveTotal => m
  | .activeTotal => m + 1
  | .mate x => m + 2 + x
  | .owner v => m + 2 + n + v

section

variable (d : Draft) {vars : Array Var} {live mates owners : Array Cell}
  {liveTotal activeTotal : Cell} (hlive : live.size = d.values.size)
  (hmates : mates.size = vars.size)

include hlive hmates

/-- Only values have counts of live edges, and only variables have mates. -/
theorem Draft.role_lt {r : Role} {c : Cell}
    (hc : (d.graph vars live liveTotal activeTotal mates owners).cell? r = some c) :
    (∀ v, r = .live v → v < d.values.size) ∧ ∀ x, r = .mate x → x < vars.size := by
  constructor
  · rintro v rfl
    exact hlive ▸ (Array.getElem?_eq_some_iff.1 hc).1
  · rintro x rfl
    exact hmates ▸ (Array.getElem?_eq_some_iff.1 hc).1

/-- Every role has its place among the cells. -/
theorem Draft.getElem?_cells {r : Role} {c : Cell}
    (hc : (d.graph vars live liveTotal activeTotal mates owners).cell? r = some c) :
    (live ++ #[liveTotal, activeTotal] ++ mates ++ owners)[cellPlace d.values.size vars.size r]? =
      some c := by
  cases r <;> dsimp only [cell?, graph] at hc <;> dsimp only [cellPlace]
  case live v =>
    have hv : v < live.size := (Array.getElem?_eq_some_iff.1 hc).1
    rw [Array.getElem?_append_left (by simp; omega), Array.getElem?_append_left (by simp; omega),
      Array.getElem?_append_left hv, hc]
  case liveTotal =>
    rw [Array.getElem?_append_left (by simp; omega), Array.getElem?_append_left (by simp; omega),
      Array.getElem?_append_right (by omega), ← hlive, Nat.sub_self]
    exact hc
  case activeTotal =>
    rw [Array.getElem?_append_left (by simp; omega), Array.getElem?_append_left (by simp; omega),
      Array.getElem?_append_right (by omega), ← hlive, Nat.add_sub_cancel_left]
    exact hc
  case mate x =>
    have hx : x < mates.size := (Array.getElem?_eq_some_iff.1 hc).1
    rw [Array.getElem?_append_left (by simp; omega), Array.getElem?_append_right (by simp; omega),
      ← hc]
    congr 1
    simp
    omega
  case owner v =>
    have hv : v < owners.size := (Array.getElem?_eq_some_iff.1 hc).1
    rw [Array.getElem?_append_right (by simp; omega), ← hc]
    congr 1
    simp
    omega

/-- In the same place stands what the cell is made with. -/
theorem Draft.getElem?_initial (howners : owners.size = d.values.size) {r : Role} {c : Cell}
    (hc : (d.graph vars live liveTotal activeTotal mates owners).cell? r = some c) :
    ((d.byValue.toList.map fun segment => (segment.size : Int)) ++
      [(d.edgeVar.size : Int), (vars.size : Int)] ++ List.replicate vars.size (-1) ++
      List.replicate d.values.size (-1))[cellPlace d.values.size vars.size r]? =
      some (d.initial vars.size r) := by
  have hsize := d.size_byValue
  cases r <;> dsimp only [cell?, graph] at hc <;> dsimp only [cellPlace, initial]
  case live v =>
    have hv : v < d.values.size := hlive ▸ (Array.getElem?_eq_some_iff.1 hc).1
    have hsegment := congrArg (·[v]?) d.byValue_eq
    rw [List.getElem?_map, List.getElem?_map, List.getElem?_range hv, Array.getElem?_toList,
      Array.getElem?_eq_getElem (hsize ▸ hv)] at hsegment
    rw [List.getElem?_append_left (by simp; omega), List.getElem?_append_left (by simp; omega),
      List.getElem?_append_left (by simp; omega), List.getElem?_map, Array.getElem?_toList,
      Array.getElem?_eq_getElem (hsize ▸ hv), ← Option.some.inj hsegment, Array.length_toList]
    rfl
  case liveTotal =>
    rw [List.getElem?_append_left (by simp; omega), List.getElem?_append_left (by simp; omega),
      List.getElem?_append_right (by simp; omega)]
    simp [hsize]
  case activeTotal =>
    rw [List.getElem?_append_left (by simp; omega), List.getElem?_append_left (by simp; omega),
      List.getElem?_append_right (by simp; omega)]
    simp [hsize]
  case mate x =>
    have hx : x < vars.size := hmates ▸ (Array.getElem?_eq_some_iff.1 hc).1
    rw [List.getElem?_append_left (by simp; omega), List.getElem?_append_right (by simp; omega),
      List.getElem?_replicate]
    simp [hsize, hx]
  case owner v =>
    have hv : v < d.values.size := howners ▸ (Array.getElem?_eq_some_iff.1 hc).1
    rw [List.getElem?_append_right (by simp; omega), List.getElem?_replicate]
    simp only [List.length_append, List.length_map, Array.length_toList, hsize, List.length_cons,
      List.length_nil, List.length_replicate]
    rw [if_pos (by omega)]

/-- A graph whose cells were made one group after the other. -/
theorem Draft.equipped {s s' : Store} (howners : owners.size = d.values.size)
    (h : Store.Made s s' (live ++ #[liveTotal, activeTotal] ++ mates ++ owners)
      ((d.byValue.toList.map fun segment => (segment.size : Int)) ++
        [(d.edgeVar.size : Int), (vars.size : Int)] ++ List.replicate vars.size (-1) ++
        List.replicate d.values.size (-1))) :
    Equipped s (d.graph vars live liveTotal activeTotal mates owners) (d.initial vars.size) s' := by
  have hplace : ∀ r c, (d.graph vars live liveTotal activeTotal mates owners).cell? r = some c →
      (live ++ #[liveTotal, activeTotal] ++ mates ++
        owners)[cellPlace d.values.size vars.size r]? = some c :=
    fun r c => d.getElem?_cells hlive hmates
  have hmem : ∀ c, (d.graph vars live liveTotal activeTotal mates owners).Owns c →
      c ∈ live ++ #[liveTotal, activeTotal] ++ mates ++ owners :=
    fun c ⟨r, hr⟩ => Array.mem_of_getElem? (hplace r c hr)
  refine ⟨h.grown, h.definitions_eq, ⟨fun r r' c hr hr' => ?_, fun c hc => h.has c (hmem c hc),
    fun c hc => h.free c (hmem c hc)⟩, fun c hc => h.new c (hmem c hc), fun r c hr => ?_⟩
  · -- A cell stands in one place, and no two roles share a place.
    have hplaces : cellPlace d.values.size vars.size r = cellPlace d.values.size vars.size r' := by
      have h1 := hplace r c hr
      have h2 := hplace r' c hr'
      rw [← Array.getElem?_toList] at h1 h2
      exact (List.getElem?_inj (List.getElem?_eq_some_iff.1 h1).1 h.nodup).1 (h1.trans h2.symm)
    obtain ⟨hv, hx⟩ := d.role_lt hlive hmates hr
    obtain ⟨hv', hx'⟩ := d.role_lt hlive hmates hr'
    cases r <;> cases r' <;> simp [cellPlace] at hplaces hv hx hv' hx' ⊢ <;> omega
  · rw [now, registers_eq hr]
    have hget := h.get_eq _ c (hplace r c hr)
    rw [d.getElem?_initial hlive hmates howners hr] at hget
    exact (Option.some.inj hget).symm

end

/-- What reading and sorting and the making of the cells come to. -/
theorem exists_draft {s s' : Store} (hs : s.Sound) {vars : Array Var} {g : ValueGraph}
    (hret : build s vars = .ok (g, s')) :
    ∃ d live liveTotal activeTotal mates owners,
      vars.toList.foldlM (Draft.addVar s) Draft.empty = .ok d ∧
      (d.edgeVar.size : Int) ≤ Word.greatest ∧ (vars.size : Int) ≤ Word.greatest ∧
      g = d.graph vars live liveTotal activeTotal mates owners ∧
      live.size = d.values.size ∧ mates.size = vars.size ∧ owners.size = d.values.size ∧
      Equipped s g (d.initial vars.size) s' := by
  obtain ⟨d, hd, hret⟩ := bind_eq_ok_iff.1 hret
  obtain ⟨edgeTotal, hedges, hret⟩ := bind_eq_ok_iff.1 hret
  obtain ⟨varTotal, hn, hret⟩ := bind_eq_ok_iff.1 hret
  obtain ⟨hedges', rfl⟩ := Word.check_eq_ok_iff.1 hedges
  obtain ⟨hn', rfl⟩ := Word.check_eq_ok_iff.1 hn
  rw [← Array.foldlM_toList] at hd
  have hlive := Store.newCells_made hs (d.byValue.toList.map fun segment => (segment.size : Int))
  dsimp only at hret
  generalize s.newCells (d.byValue.toList.map fun segment => (segment.size : Int)) = made
    at hret hlive
  obtain ⟨live, s₁⟩ := made
  have hliveTotal := Store.made_newCell hlive.grown.sound (d.edgeVar.size : Int)
  dsimp only at hret hliveTotal
  generalize s₁.newCell (d.edgeVar.size : Int) = made at hret hliveTotal
  obtain ⟨liveTotal, s₂⟩ := made
  have hactiveTotal := Store.made_newCell hliveTotal.grown.sound (vars.size : Int)
  dsimp only at hret hactiveTotal
  generalize s₂.newCell (vars.size : Int) = made at hret hactiveTotal
  obtain ⟨activeTotal, s₃⟩ := made
  have hmates := Store.newCells_made hactiveTotal.grown.sound (List.replicate vars.size (-1))
  dsimp only at hret hmates
  generalize s₃.newCells (List.replicate vars.size (-1)) = made at hret hmates
  obtain ⟨mates, s₄⟩ := made
  have howners := Store.newCells_made hmates.grown.sound (List.replicate d.values.size (-1))
  dsimp only at hret howners
  generalize s₄.newCells (List.replicate d.values.size (-1)) = made at hret howners
  obtain ⟨owners, s₅⟩ := made
  dsimp only at hret hlive hliveTotal hactiveTotal hmates howners
  have hlive_size := hlive.size_eq
  have hmates_size := hmates.size_eq
  have howners_size := howners.size_eq
  rw [List.length_map, Array.length_toList, d.size_byValue] at hlive_size
  rw [List.length_replicate] at hmates_size howners_size
  obtain ⟨rfl, rfl⟩ := Prod.mk.inj (Except.ok.inj hret)
  have hcounts : Store.Made s₁ s₃ #[liveTotal, activeTotal]
      [(d.edgeVar.size : Int), (vars.size : Int)] := hliveTotal.append hactiveTotal
  refine ⟨d, live, liveTotal, activeTotal, mates, owners, hd, hedges'.2, hn'.2, rfl, hlive_size,
    hmates_size, howners_size, d.equipped hlive_size hmates_size howners_size
      (((hlive.append hcounts).append hmates).append howners)⟩

/-- The graph `g` has the edges of a draft. -/
structure Drawn (d : Draft) (vars : Array Var) (g : ValueGraph) : Prop where
  layout : g.Layout
  vars_eq : g.vars = vars
  sources_eq : g.sources = d.sources
  values_eq : g.values = d.values
  edgeTotal_eq : g.edgeTotal = d.edgeVar.size
  tail_eq : ∀ (e x : Nat), d.edgeVar[e]? = some x → g.tail e = x
  head_eq : ∀ (e v : Nat), d.edgeValue[e]? = some v → g.head e = v
  start_succ : ∀ v < d.values.size, g.start (v + 1) = g.start v + (d.edgesWith v).length

theorem Draft.Holds.drawn {d : Draft} {rows : List (List Int)} (h : d.Holds rows)
    (hrows : ∀ row ∈ rows, row.Nodup) {vars : Array Var} (hvars : vars.size = rows.length)
    {live mates owners : Array Cell} {liveTotal activeTotal : Cell}
    (hlive : live.size = d.values.size) (hmates : mates.size = vars.size)
    (howners : owners.size = d.values.size) (hedges : (d.edgeVar.size : Int) ≤ Word.greatest)
    (hn : (vars.size : Int) ≤ Word.greatest) :
    Drawn d vars (d.graph vars live liveTotal activeTotal mates owners) where
  layout := h.layout hrows hvars hlive hmates howners hedges hn
  vars_eq := rfl
  sources_eq := rfl
  values_eq := rfl
  edgeTotal_eq := rfl
  tail_eq _ _ hx := Draft.Holds.tail_eq hx
  head_eq _ _ hv := Draft.Holds.head_eq hv
  start_succ v hv := by
    rw [d.start_eq hv, d.start_eq (Nat.le_of_lt hv)]
    refine offset_succ ?_
    rw [List.getElem?_map, List.getElem?_range hv]
    rfl

section

variable {s s' : Store} {vars : Array Var} {g : ValueGraph} {d : Draft} {rows : List (List Int)}

/-- Mates and owners of a new graph: there are none. -/
theorem Equipped.now_matching (h : Equipped s g (d.initial vars.size) s') {r : Role}
    (hr : d.initial vars.size r = -1) : g.now s' r = -1 := by
  cases hc : g.cell? r with
  | none => rw [now, registers, hc]
  | some c => rw [h.now_eq r c hc, hr]

theorem Equipped.count_eq (h : Equipped s g (d.initial vars.size) s') (hd : Drawn d vars g) {v : Nat}
    (hv : v < g.valueTotal) : g.now s' (.live v) = ((d.edgesWith v).length : Int) := by
  obtain ⟨c, hc, _⟩ := hd.layout.cell_live hv
  exact h.now_eq _ c hc

/-- All edges of a new graph are live. -/
theorem Equipped.live_iff (h : Equipped s g (d.initial vars.size) s') (hd : Drawn d vars g) (e : Nat) :
    g.Live (g.now s') e ↔ e < g.edgeTotal := by
  refine ⟨fun he => he.1, fun he => ⟨he, ?_⟩⟩
  have hv := hd.layout.head_lt e he
  have hplace := ((hd.layout.head_eq_iff e he _ hv).1 rfl).2
  rw [valueTotal, hd.values_eq] at hv
  rw [hd.start_succ _ hv] at hplace
  rw [count, h.count_eq hd (by rw [valueTotal, hd.values_eq]; exact hv), Int.toNat_natCast]
  exact hplace

/-- The cells of a new graph hold counts that fit. -/
theorem Equipped.intact (h : Equipped s g (d.initial vars.size) s') (hd : Drawn d vars g) :
    g.Intact (g.now s') := by
  have hactive : g.now s' .activeTotal = (vars.size : Int) := h.now_eq _ _ rfl
  constructor
  · intro v hv
    rw [h.count_eq hd hv]
    exact Int.natCast_nonneg _
  · intro v hv
    rw [count, h.count_eq hd hv, Int.toNat_natCast, hd.start_succ]
    rwa [← hd.values_eq]
  · rw [hactive]
    exact Int.natCast_nonneg _
  · rw [hactive, varTotal, hd.vars_eq]
  · rw [Finset.filter_true_of_mem fun e he => (h.live_iff hd e).2 (Finset.mem_range.1 he),
      Finset.card_range, hd.edgeTotal_eq]
    exact h.now_eq _ _ rfl
  · exact fun x => Or.inl (h.now_matching rfl)
  · exact fun v => Or.inl (h.now_matching rfl)

/-- The edges of a new graph are the values of its variables. -/
theorem Equipped.mem_live (h : Equipped s g (d.initial vars.size) s') (hd : Drawn d vars g)
    (hholds : d.Holds rows) {x : Nat} {row : List Int} (hrow : rows[x]? = some row) (u : Int) :
    u ∈ row ↔ ∃ v ∈ (g.snapshot (g.now s')).live x, g.val v = u := by
  have hval : ∀ {v : Nat} {u : Int}, d.values[v]? = some u → g.val v = u := by
    intro v u hu
    rw [val, hd.values_eq, Array.getD_eq_getD_getElem?, hu]
    rfl
  constructor
  · intro hu
    obtain ⟨j, hj⟩ := List.mem_iff_getElem?.1 hu
    obtain ⟨hx, v, hv, hv'⟩ := hholds.edge_eq x row hrow j u hj
    refine ⟨v, ValueGraph.mem_live.2 ⟨_, (h.live_iff hd _).2 ?_, hd.tail_eq _ _ hx, hd.head_eq _ _ hv⟩,
      hval hv'⟩
    rw [hd.edgeTotal_eq]
    exact (Array.getElem?_eq_some_iff.1 hx).1
  · rintro ⟨v, hv, rfl⟩
    obtain ⟨e, he, rfl, rfl⟩ := ValueGraph.mem_live.1 hv
    obtain ⟨x, row', j, u, v, hrow', hu, _, hx, hv, hv'⟩ :=
      hholds.edge_cases (hd.edgeTotal_eq ▸ he.1)
    rw [hd.tail_eq _ _ hx, hrow'] at hrow
    cases hrow
    rw [hd.head_eq _ _ hv, hval hv']
    exact List.mem_of_getElem? hu

theorem Drawn.varTotal_eq (hd : Drawn d vars g) : g.varTotal = vars.size := by
  rw [varTotal, hd.vars_eq]

theorem getElem?_vars {x : Nat} (hx : x < g.varTotal) : g.vars.toList[x]? = some (g.varOf x) := by
  have hx : x < g.vars.size := hx
  rw [Array.getElem?_toList, Array.getElem?_eq_getElem hx, varOf, ← Array.getElem_eq_getD]

theorem Drawn.getElem?_varOf (hd : Drawn d vars g) {x : Nat} (hx : x < g.varTotal) :
    vars.toList[x]? = some (g.varOf x) :=
  hd.vars_eq ▸ getElem?_vars hx

theorem Drawn.varOf_lt (hd : Drawn d vars g) (hvars : ∀ x ∈ vars, x.index < s.definitions.size) :
    ∀ x < g.varTotal, (g.varOf x).index < s.definitions.size := fun _ hx =>
  hvars _ (Array.mem_toList_iff.1 (List.mem_of_getElem? (hd.getElem?_varOf hx)))

/-- A variable has the values of its edges. -/
theorem Equipped.mem_domains (h : Equipped s g (d.initial vars.size) s') (hd : Drawn d vars g)
    (hs : s.Sound) (hvars : ∀ x ∈ vars, x.index < s.definitions.size)
    (hreads : d.Reads s vars.toList rows) : ∀ x < g.varTotal, ∀ u, u ∈ g.domains s' x ↔
      ∃ v ∈ (g.snapshot (g.now s')).live x, g.val v = u := by
  intro x hx u
  obtain ⟨row, hrow, _, _, hmem⟩ := hreads.exists_row (hd.getElem?_varOf hx)
  rw [domains_eq, h.grown.view_eq hs (hd.varOf_lt hvars x hx), ← hmem]
  exact h.mem_live hd hreads.holds hrow u

/-- The variables are made of the sources that were noted, and can be read at their values. -/
theorem Equipped.anchored (h : Equipped s g (d.initial vars.size) s') (hd : Drawn d vars g)
    (hs : s.Sound) (hvars : ∀ x ∈ vars, x.index < s.definitions.size)
    (hreads : d.Reads s vars.toList rows) : g.Anchored s' := by
  have hlt := hd.varOf_lt hvars
  refine ⟨fun x hx => ?_, fun x hx => ?_, fun e he => ?_⟩
  · rw [h.definitions_eq]
    exact hlt x hx
  · obtain ⟨b, hb, hsource⟩ := hreads.source_eq x _ (hd.getElem?_varOf hx)
    refine ⟨b, by rw [h.grown.path_eq hs (hlt x hx), hb], ?_⟩
    rw [sourceOf, hd.sources_eq, Array.getD_eq_getD_getElem?, hsource]
    rfl
  · have hx := hd.layout.tail_lt e he
    obtain ⟨row, _, hreadable, _⟩ := hreads.exists_row (hd.getElem?_varOf hx)
    refine h.grown.reads hs (hlt _ hx) (hreadable _ ?_)
    rw [← h.grown.view_eq hs (hlt _ hx)]
    exact (h.mem_domains hd hs hvars hreads _ hx _).2
      ⟨_, ValueGraph.mem_live.2 ⟨e, (h.live_iff hd e).2 he, rfl, rfl⟩, rfl⟩

/-- Nothing is grounded in a new graph. -/
theorem Equipped.mem_active (h : Equipped s g (d.initial vars.size) s') (hd : Drawn d vars g) :
    ∀ x < g.varTotal, x ∈ (g.snapshot (g.now s')).active := by
  intro x hx
  refine ValueGraph.mem_active.2 ⟨hx, ?_⟩
  rw [h.now_eq .activeTotal _ rfl]
  show g.rank x < (vars.size : Int).toNat
  rw [Int.toNat_natCast, ← hd.varTotal_eq]
  exact (hd.layout.rank_var x hx).1

end

/-- The graph of variables that exist is sound, and shows their domains. -/
theorem build_eq {s s' : Store} (hs : s.Sound) {vars : Array Var}
    (hvars : ∀ x ∈ vars, x.index < s.definitions.size) {g : ValueGraph}
    (hret : build s vars = .ok (g, s')) : Built s vars g s' := by
  obtain ⟨d, live, liveTotal, activeTotal, mates, owners, hfold, hedges, hn, hg, hlive, hmates,
    howners, he⟩ := exists_draft hs hret
  obtain ⟨rows, hreads⟩ := Draft.reads_foldlM hs
    (fun x hx => hvars x (Array.mem_toList_iff.1 hx)) hfold
  have hlength : vars.size = rows.length := by
    rw [hreads.length_eq, Array.length_toList]
  have hd : Drawn d vars g := by
    rw [hg]
    exact hreads.holds.drawn hreads.nodup hlength hlive hmates howners hedges hn
  refine ⟨he.grown, he.definitions_eq, hd.vars_eq,
    ⟨he.grown.sound, hd.layout, he.wired, he.intact hd⟩, he.anchored hd hs hvars hreads, he.new,
    he.mem_active hd, fun x => ?_, fun v => ?_, he.mem_domains hd hs hvars hreads⟩
  · show partner (g.now s' (.mate x)) = none
    rw [he.now_matching rfl]
    rfl
  · show partner (g.now s' (.owner v)) = none
    rw [he.now_matching rfl]
    rfl

end FiniteDomain.AllDifferent.ValueGraph
