import FiniteDomain.Fault

/-!
# Loops over lists

If each call of a loop over a list succeeds with a known answer, the loop does what the loop over the
known answers does.  If some call fails, and there is one way to fail, the loop fails in this way.
-/

namespace FiniteDomain

variable {α β : Type}

theorem mapM_eq_ok {f : α → Except Fault β} {g : α → β} {l : List α}
    (h : ∀ a ∈ l, f a = .ok (g a)) : l.mapM f = .ok (l.map g) := by
  induction l with
  | nil => rfl
  | cons a rest ih =>
    rw [List.mapM_cons, h a (List.mem_cons_self ..), ok_bind,
      ih fun b hb => h b (List.mem_cons_of_mem _ hb)]
    rfl

/-- In a loop that got through every call succeeded. -/
theorem exists_of_mapM_eq_ok {f : α → Except Fault β} {l : List α} {bs : List β}
    (h : l.mapM f = .ok bs) {a : α} (ha : a ∈ l) : ∃ b ∈ bs, f a = .ok b := by
  induction l generalizing bs with
  | nil => exact absurd ha List.not_mem_nil
  | cons a' rest ih =>
    rw [List.mapM_cons] at h
    obtain ⟨b, hb, h⟩ := bind_eq_ok_iff.1 h
    obtain ⟨bs', hbs', h⟩ := bind_eq_ok_iff.1 h
    cases h
    obtain rfl | ha := List.mem_cons.1 ha
    · exact ⟨b, List.mem_cons_self .., hb⟩
    · obtain ⟨b', hb', heq⟩ := ih hbs' ha
      exact ⟨b', List.mem_cons_of_mem _ hb', heq⟩

/-- A loop whose calls succeed with answers of the property `P`, and what is done with the answers. -/
theorem exists_bind_mapM [Inhabited β] {γ : Type} {f : α → Except Fault β}
    {k : List β → Except Fault γ} {l : List α} {P : α → β → Prop} {Q : γ → Prop}
    (h : ∀ a ∈ l, ∃ b, f a = .ok b ∧ P a b)
    (hk : ∀ answer : α → β, (∀ a ∈ l, P a (answer a)) →
      ∃ c, k (l.map answer) = .ok c ∧ Q c) : ∃ c, (l.mapM f >>= k) = .ok c ∧ Q c := by
  have hall : ∀ a, ∃ b, a ∈ l → f a = .ok b ∧ P a b := by
    intro a
    by_cases ha : a ∈ l
    · obtain ⟨b, hb⟩ := h a ha
      exact ⟨b, fun _ => hb⟩
    · exact ⟨default, fun hin => absurd hin ha⟩
  obtain ⟨answer, hanswer⟩ := Classical.axiomOfChoice hall
  rw [mapM_eq_ok fun a ha => (hanswer a ha).1, ok_bind]
  exact hk answer fun a ha => (hanswer a ha).2

/-- A loop in which some call fails, and no other way to fail is known, fails in this way. -/
theorem mapM_eq_error {f : α → Except Fault β} {e : Fault} {l : List α}
    (h : ∀ a ∈ l, (∃ b, f a = .ok b) ∨ f a = .error e) (hfail : ∃ a ∈ l, f a = .error e) :
    l.mapM f = .error e := by
  induction l with
  | nil =>
    obtain ⟨a, ha, _⟩ := hfail
    cases ha
  | cons a rest ih =>
    rw [List.mapM_cons]
    rcases h a (List.mem_cons_self ..) with ⟨b, hb⟩ | hb
    · have hrest : ∃ a ∈ rest, f a = .error e := by
        obtain ⟨a', ha', he⟩ := hfail
        rcases List.mem_cons.1 ha' with rfl | ha'
        · rw [hb] at he
          cases he
        · exact ⟨a', ha', he⟩
      rw [hb, ok_bind, ih (fun b hb => h b (List.mem_cons_of_mem _ hb)) hrest]
      rfl
    · rw [hb]
      rfl

theorem filterMapM_eq_ok {f : α → Except Fault (Option β)} {g : α → Option β} {l : List α}
    (h : ∀ a ∈ l, f a = .ok (g a)) : l.filterMapM f = .ok (l.filterMap g) := by
  induction l with
  | nil => rfl
  | cons a rest ih =>
    rw [List.filterMapM_cons, h a (List.mem_cons_self ..), ok_bind, List.filterMap_cons]
    cases g a with
    | none => exact ih fun b hb => h b (List.mem_cons_of_mem _ hb)
    | some b =>
      dsimp only
      rw [ih fun b hb => h b (List.mem_cons_of_mem _ hb)]
      rfl

theorem filterM_eq_ok {f : α → Except Fault Bool} {g : α → Bool} {l : List α}
    (h : ∀ a ∈ l, f a = .ok (g a)) : l.filterM f = .ok (l.filter g) := by
  -- The loop collects in reverse what it keeps.
  have main : ∀ (l acc : List α), (∀ a ∈ l, f a = .ok (g a)) →
      List.filterAuxM f l acc = .ok ((l.filter g).reverse ++ acc) := by
    intro l
    induction l with
    | nil => exact fun _ _ => rfl
    | cons a rest ih =>
      intro acc h
      rw [List.filterAuxM, h a (List.mem_cons_self ..), ok_bind,
        ih _ fun b hb => h b (List.mem_cons_of_mem _ hb), List.filter_cons]
      cases g a with
      | false => rfl
      | true =>
        rw [if_pos rfl, List.reverse_cons, List.append_assoc]
        rfl
  rw [List.filterM, main l [] h, ok_bind, List.append_nil, List.reverse_reverse]
  rfl

theorem anyM_eq_ok {f : α → Except Fault Bool} {g : α → Bool} {l : List α}
    (h : ∀ a ∈ l, f a = .ok (g a)) : l.anyM f = .ok (l.any g) := by
  induction l with
  | nil => rfl
  | cons a rest ih =>
    rw [List.anyM, h a (List.mem_cons_self ..), ok_bind, List.any_cons]
    cases g a with
    | false => exact ih fun b hb => h b (List.mem_cons_of_mem _ hb)
    | true => rfl

theorem allM_eq_ok {f : α → Except Fault Bool} {g : α → Bool} {l : List α}
    (h : ∀ a ∈ l, f a = .ok (g a)) : l.allM f = .ok (l.all g) := by
  induction l with
  | nil => rfl
  | cons a rest ih =>
    rw [List.allM, h a (List.mem_cons_self ..), ok_bind, List.all_cons]
    cases g a with
    | false => rfl
    | true => exact ih fun b hb => h b (List.mem_cons_of_mem _ hb)

end FiniteDomain
