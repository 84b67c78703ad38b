import FiniteDomain.Proofs.Model.Recording
import FiniteDomain.Script
import Mathlib.Data.List.Nodup

/-!
# Who is told, and who runs

The propagators of a model are told and run for two reasons only: they were scheduled, or something
happened that they listen to.

* `Event.tells` are the flags of an event, `Model.heard` the variables that a constraint is told of in
  the round that begins, and `Model.block` what happens to it in this round.
* `Model.starts` are the models at the beginnings of the rounds of a fixpoint.
* `tellAll_notices` and `runAll_notices` say what the two halves of a round put into the records, and
  `runRounds_notices` puts the rounds together.
* `fixpoint_notices` is the result: what happened to a constraint is what its rounds ask for, no more
  and no less.
-/

namespace FiniteDomain

/-! ## Events and conditions -/

/-- The flag of an event that a condition asks for. -/
def Event.tells (e : Event) : Condition.Kind → Bool
  | .fixed => e.fixed
  | .minChanged => e.minChanged
  | .maxChanged => e.maxChanged
  | .domainChanged => e.domainChanged

/-- Nothing is told after the events were cleared. -/
theorem Store.news_clearEvents (s : Store) : s.clearEvents.news = [] := by
  rw [Store.news, List.filter_eq_nil_iff]
  intro e he
  obtain ⟨e', _, rfl⟩ := Array.mem_map.1 (Array.mem_toList_iff.1 he)
  exact Bool.false_ne_true

namespace Model

variable {π : Type}

theorem mem_met {e : Event} {condition : Condition} :
    condition ∈ met e ↔ condition.var = e.var ∧ e.tells condition.kind = true := by
  obtain ⟨kind, x⟩ := condition
  cases kind <;> by_cases h1 : e.fixed <;> by_cases h2 : e.minChanged <;>
    by_cases h3 : e.maxChanged <;> by_cases h4 : e.domainChanged <;>
    simp [met, Event.tells, h1, h2, h3, h4]

/-- An event with a flag of its own tells of something. -/
theorem isSet_of_tells {e : Event} {kind : Condition.Kind} (h : e.tells kind = true) :
    e.isSet = true := by
  cases kind <;> simp_all [Event.tells, Event.isSet]

/-! ## The pairs of a round -/

theorem comesBefore_iff {a b : Constraint × Var} :
    comesBefore a b = true ↔
      a.1.index < b.1.index ∨ a.1.index = b.1.index ∧ a.2.index < b.2.index := by
  simp [comesBefore]

/-- Two different pairs are ordered one way or the other. -/
theorem comesBefore_of_ne {a b : Constraint × Var} (hne : a ≠ b) (h : ¬ comesBefore a b = true) :
    comesBefore b a = true := by
  rw [comesBefore_iff] at *
  by_contra hback
  refine hne ?_
  obtain ⟨⟨c⟩, ⟨x⟩⟩ := a
  obtain ⟨⟨d⟩, ⟨y⟩⟩ := b
  dsimp only at h hback
  have hc : c = d := by omega
  have hx : x = y := by omega
  rw [hc, hx]

/-- The list stays ordered. -/
theorem pairwise_insertPair {a : Constraint × Var} {pairs : List (Constraint × Var)}
    (h : pairs.Pairwise fun a b => comesBefore a b = true) :
    (insertPair a pairs).Pairwise fun a b => comesBefore a b = true := by
  induction pairs with
  | nil => exact List.pairwise_singleton _ _
  | cons b rest ih =>
    obtain ⟨hb, hrest⟩ := List.pairwise_cons.1 h
    rw [insertPair]
    by_cases heq : a = b
    · rw [if_pos heq]
      exact h
    rw [if_neg heq]
    by_cases hlt : comesBefore a b = true
    · rw [if_pos hlt]
      refine List.pairwise_cons.2 ⟨fun d hd => ?_, h⟩
      rcases List.mem_cons.1 hd with rfl | hd
      · exact hlt
      · have := hb d hd
        rw [comesBefore_iff] at *
        omega
    · rw [if_neg hlt]
      refine List.pairwise_cons.2 ⟨fun d hd => ?_, ih hrest⟩
      rcases mem_insertPair.1 hd with rfl | hd
      · exact comesBefore_of_ne heq hlt
      · exact hb d hd

theorem pairwise_fired (m : Model π) : m.fired.Pairwise fun a b => comesBefore a b = true := by
  rw [fired]
  generalize m.store.news.flatMap m.concerned = pairs
  induction pairs with
  | nil => exact List.Pairwise.nil
  | cons a pairs ih => exact pairwise_insertPair ih

/-- No constraint is told of a variable twice. -/
theorem nodup_fired (m : Model π) : m.fired.Nodup := by
  refine (pairwise_fired m).imp fun {a b} h heq => ?_
  rw [comesBefore_iff, heq] at h
  omega

/-- A constraint is told of a variable when it listens to something that happened to it. -/
theorem mem_fired {m : Model π} {c : Constraint} {x : Var} :
    (c, x) ∈ m.fired ↔
      ∃ e ∈ m.store.events, e.var = x ∧ ∃ kind, e.tells kind = true ∧ c ∈ m.listening ⟨kind, x⟩ := by
  have hfold : ∀ pairs : List (Constraint × Var), (c, x) ∈ pairs.foldr insertPair [] ↔
      (c, x) ∈ pairs := by
    intro pairs
    induction pairs with
    | nil => simp
    | cons a pairs ih => rw [List.foldr_cons, mem_insertPair, ih, List.mem_cons]
  rw [fired, hfold, List.mem_flatMap]
  constructor
  · rintro ⟨e, he, hmem⟩
    obtain ⟨condition, hmet, hmem⟩ := List.mem_flatMap.1 hmem
    obtain ⟨d, hd, hpair⟩ := List.mem_map.1 hmem
    cases hpair
    obtain ⟨hvar, htells⟩ := mem_met.1 hmet
    refine ⟨e, Array.mem_toList_iff.1 (List.mem_filter.1 he).1, rfl, condition.kind, htells, ?_⟩
    rw [← hvar]
    exact hd
  · rintro ⟨e, he, rfl, kind, htells, hc⟩
    refine ⟨e, List.mem_filter.2 ⟨Array.mem_toList_iff.2 he, isSet_of_tells htells⟩, ?_⟩
    exact List.mem_flatMap.2 ⟨⟨kind, e.var⟩, mem_met.2 ⟨rfl, htells⟩, List.mem_map.2 ⟨c, hc, rfl⟩⟩

/-! ## Rounds -/

/-- The variables that a constraint is told of in the round that begins. -/
def heard (m : Model π) (c : Constraint) : List Var :=
  (m.fired.filter fun pair => pair.1 = c).map Prod.snd

/-- What happens to a constraint in the round that begins. -/
def block (m : Model π) (c : Constraint) : List Notice :=
  (m.heard c).map .told ++ if c ∈ m.scheduled ∨ m.heard c ≠ [] then [.ran] else []

/-- The models at the beginnings of the rounds. -/
def startsFrom [Propagator π] : Nat → Model π → List (Model π)
  | 0, _ => []
  | fuel + 1, m =>
    m :: match m.wake with
      | .error _ => []
      | .ok w =>
        if w.scheduled.isEmpty then
          []
        else
          match w.drain with
          | .ok (.consistent, m') => startsFrom fuel m'
          | _ => []

/-- The models at the beginnings of the rounds of a fixpoint. -/
def starts [Propagator π] (m : Model π) : List (Model π) :=
  m.startsFrom (m.capacity + Word.countBound)

theorem mem_heard {m : Model π} {c : Constraint} {x : Var} :
    x ∈ m.heard c ↔ (c, x) ∈ m.fired := by
  rw [heard, List.mem_map]
  constructor
  · rintro ⟨⟨d, y⟩, hmem, rfl⟩
    obtain ⟨hfired, hd⟩ := List.mem_filter.1 hmem
    have hd' : d = c := of_decide_eq_true hd
    rwa [hd'] at hfired
  · intro hmem
    exact ⟨(c, x), List.mem_filter.2 ⟨hmem, decide_eq_true rfl⟩, rfl⟩

theorem nodup_heard (m : Model π) (c : Constraint) : (m.heard c).Nodup := by
  refine List.Nodup.map_on ?_ ((nodup_fired m).filter _)
  rintro ⟨d, x⟩ hd ⟨d', x'⟩ hd' rfl
  have h1 : d = c := of_decide_eq_true (List.mem_filter.1 hd).2
  have h2 : d' = c := of_decide_eq_true (List.mem_filter.1 hd').2
  rw [h1, h2]

/-! ## What the records say -/

section

variable [Propagator π]

omit [Propagator π] in
/-- What happened to a constraint so far. -/
def notices (m : Model (Recorded π)) (c : Constraint) : List Notice :=
  match m.propagators[c.index]? with
  | none => []
  | some p => p.notices

variable {m m' : Model (Recorded π)}

theorem tell_notices {pair : Constraint × Var} (h : m.tell pair = .ok m') (c : Constraint) :
    m'.notices c = m.notices c ++ if pair.1 = c then [.told pair.2] else [] := by
  rw [tell] at h
  split at h
  swap
  · cases h
  rename_i hlt
  have hprop : m'.propagators =
      m.propagators.modify pair.1.index (Propagator.notify · pair.2) := by
    rw [← Except.ok.inj h, schedule]
    split <;> rfl
  rw [notices, notices, hprop, Array.getElem?_modify]
  by_cases hc : pair.1 = c
  · subst hc
    rw [if_pos rfl, if_pos rfl, Array.getElem?_eq_getElem hlt]
    rfl
  · rw [if_neg hc, if_neg fun hi => hc ?_, List.append_nil]
    obtain ⟨⟨i⟩, x⟩ := pair
    obtain ⟨j⟩ := c
    exact congrArg Constraint.mk hi

omit [Propagator π] in
theorem mem_schedule {m : Model π} {c d : Constraint} :
    d ∈ (m.schedule c).scheduled ↔ d = c ∨ d ∈ m.scheduled := by
  rw [schedule]
  split
  · rename_i hc
    exact ⟨Or.inr, fun h => h.elim (fun heq => heq ▸ hc) id⟩
  · exact List.mem_cons

omit [Propagator π] in
theorem nodup_schedule {m : Model π} (h : m.scheduled.Nodup) (c : Constraint) :
    (m.schedule c).scheduled.Nodup := by
  rw [schedule]
  split
  · exact h
  · rename_i hc
    exact List.nodup_cons.2 ⟨hc, h⟩

/-- What telling a constraint does to the model around the propagators. -/
theorem tell_eq {m m' : Model π} {pair : Constraint × Var} (h : m.tell pair = .ok m') :
    m'.store = m.store ∧ m'.listeners = m.listeners ∧ m'.order = m.order ∧ m'.rounds = m.rounds ∧
      (∀ c, c ∈ m'.scheduled ↔ c = pair.1 ∨ c ∈ m.scheduled) ∧
      (m.scheduled.Nodup → m'.scheduled.Nodup) := by
  rw [tell] at h
  split at h
  swap
  · cases h
  have hscheduled : m'.scheduled = (m.schedule pair.1).scheduled := by
    rw [← Except.ok.inj h, schedule, schedule]
    split <;> rfl
  refine ⟨?_, ?_, ?_, ?_, fun c => hscheduled ▸ mem_schedule, fun hnodup => ?_⟩
  · rw [← Except.ok.inj h, schedule]
    split <;> rfl
  · rw [← Except.ok.inj h, schedule]
    split <;> rfl
  · rw [← Except.ok.inj h, schedule]
    split <;> rfl
  · rw [← Except.ok.inj h, schedule]
    split <;> rfl
  · rw [hscheduled]
    exact nodup_schedule hnodup _

/-- The constraints are told in the order of the pairs, and scheduled. -/
theorem tellAll_eq {pairs : List (Constraint × Var)} {m m' : Model π}
    (h : pairs.foldlM tell m = .ok m') :
    m'.store = m.store ∧ m'.listeners = m.listeners ∧ m'.order = m.order ∧ m'.rounds = m.rounds ∧
      (∀ c, c ∈ m'.scheduled ↔ (∃ x, (c, x) ∈ pairs) ∨ c ∈ m.scheduled) ∧
      (m.scheduled.Nodup → m'.scheduled.Nodup) := by
  induction pairs generalizing m with
  | nil =>
    cases h
    simp
  | cons pair pairs ih =>
    rw [List.foldlM_cons] at h
    obtain ⟨m₁, htell, h⟩ := bind_eq_ok_iff.1 h
    obtain ⟨h1, h2, h3, h4, h5, h6⟩ := tell_eq htell
    obtain ⟨k1, k2, k3, k4, k5, k6⟩ := ih h
    refine ⟨k1.trans h1, k2.trans h2, k3.trans h3, k4.trans h4, fun c => ?_, k6 ∘ h6⟩
    rw [k5, h5]
    constructor
    · rintro (⟨x, hx⟩ | rfl | hc)
      · exact Or.inl ⟨x, List.mem_cons_of_mem _ hx⟩
      · exact Or.inl ⟨pair.2, List.mem_cons_self ..⟩
      · exact Or.inr hc
    · rintro (⟨x, hx⟩ | hc)
      · rcases List.mem_cons.1 hx with rfl | hx
        · exact Or.inr (Or.inl rfl)
        · exact Or.inl ⟨x, hx⟩
      · exact Or.inr (Or.inr hc)

theorem tellAll_notices {pairs : List (Constraint × Var)} (h : pairs.foldlM tell m = .ok m')
    (c : Constraint) :
    m'.notices c =
      m.notices c ++ ((pairs.filter fun pair => pair.1 = c).map Prod.snd).map .told := by
  induction pairs generalizing m with
  | nil =>
    cases h
    exact (List.append_nil _).symm
  | cons pair pairs ih =>
    rw [List.foldlM_cons] at h
    obtain ⟨m₁, htell, h⟩ := bind_eq_ok_iff.1 h
    rw [ih h, tell_notices htell]
    by_cases hc : pair.1 = c
    · rw [if_pos hc, List.filter_cons_of_pos (by simpa using hc), List.append_assoc]
      rfl
    · rw [if_neg hc, List.append_nil, List.filter_cons_of_neg (by simpa using hc)]

/-- A run of one constraint that does not fail. -/
theorem runOne_eq {m m' : Model π} {c : Constraint} {v : Verdict} (h : m.runOne c = .ok (v, m')) :
    ∃ p q s, m.propagators[c.index]? = some p ∧ Propagator.propagate p m.store = .ok (v, q, s) ∧
      m' = { m with store := s, propagators := m.propagators.setIfInBounds c.index q } := by
  rw [runOne] at h
  obtain ⟨p, hp, h⟩ := bind_eq_ok_iff.1 h
  obtain ⟨⟨⟨v', q⟩, m₁⟩, hrun, h⟩ := bind_eq_ok_iff.1 h
  cases h
  rw [onStore] at hrun
  obtain ⟨⟨⟨v'', q'⟩, s⟩, hrun, heq⟩ := bind_eq_ok_iff.1 hrun
  obtain ⟨⟨v₃, q₃, s₃⟩, hprop, hret⟩ := bind_eq_ok_iff.1 hrun
  cases hret
  cases heq
  exact ⟨p, _, _, fetch_eq_ok_iff.1 hp, hprop, rfl⟩

theorem runOne_notices {c : Constraint} {v : Verdict} (h : m.runOne c = .ok (v, m'))
    (d : Constraint) : m'.notices d = m.notices d ++ if c = d then [.ran] else [] := by
  obtain ⟨p, q, s, hp, hprop, rfl⟩ := runOne_eq h
  obtain ⟨⟨v', inner, s'⟩, _, hret⟩ := bind_eq_ok_iff.1 hprop
  cases hret
  have hlt : c.index < m.propagators.size := (Array.getElem?_eq_some_iff.1 hp).1
  rw [notices, notices]
  dsimp only
  by_cases hd : c = d
  · subst hd
    rw [if_pos rfl, Array.getElem?_setIfInBounds_self_of_lt hlt, hp]
  · have hne : c.index ≠ d.index := fun hi => hd (by cases c; cases d; exact congrArg _ hi)
    rw [if_neg hd, Array.getElem?_setIfInBounds_ne hne, List.append_nil]

theorem runAll_eq {m m' : Model π} {cs : List Constraint}
    (h : runAll cs m = .ok (.consistent, m')) :
    m'.scheduled = m.scheduled ∧ m'.listeners = m.listeners ∧ m'.order = m.order := by
  induction cs generalizing m with
  | nil =>
    cases h
    exact ⟨rfl, rfl, rfl⟩
  | cons c cs ih =>
    rw [runAll] at h
    obtain ⟨⟨_ | why, m₁⟩, hrun, h⟩ := bind_eq_ok_iff.1 h
    · obtain ⟨h1, h2, h3⟩ := ih h
      obtain ⟨p, q, s, _, _, rfl⟩ := runOne_eq hrun
      exact ⟨h1, h2, h3⟩
    · cases h

theorem runAll_notices {cs : List Constraint} (hnodup : cs.Nodup)
    (h : runAll cs m = .ok (.consistent, m')) (d : Constraint) :
    m'.notices d = m.notices d ++ if d ∈ cs then [.ran] else [] := by
  induction cs generalizing m with
  | nil =>
    cases h
    exact (List.append_nil _).symm
  | cons c cs ih =>
    obtain ⟨hc, hcs⟩ := List.nodup_cons.1 hnodup
    rw [runAll] at h
    obtain ⟨⟨_ | why, m₁⟩, hrun, h⟩ := bind_eq_ok_iff.1 h
    swap
    · cases h
    rw [ih hcs h, runOne_notices hrun]
    by_cases hd : c = d
    · subst hd
      rw [if_pos rfl, if_neg hc, if_pos (List.mem_cons_self ..), List.append_nil]
    · rw [if_neg hd, List.append_nil]
      by_cases hmem : d ∈ cs
      · rw [if_pos hmem, if_pos (List.mem_cons_of_mem _ hmem)]
      · rw [if_neg hmem, if_neg fun h => (List.mem_cons.1 h).elim (fun h => hd h.symm) hmem]

/-! ## Whole rounds -/

/-- The first half of a round: the constraints that something happened to are told and scheduled. -/
theorem wake_eq {m w : Model π} (h : m.wake = .ok w) :
    w.store = m.store.clearEvents ∧ w.listeners = m.listeners ∧
      (∀ c, c ∈ w.scheduled ↔ m.heard c ≠ [] ∨ c ∈ m.scheduled) ∧
      (m.scheduled.Nodup → w.scheduled.Nodup) := by
  obtain ⟨h1, h2, _, _, h3, h4⟩ := tellAll_eq (m := { m with store := m.store.clearEvents }) h
  refine ⟨h1, h2, fun c => ?_, h4⟩
  rw [h3]
  refine or_congr_left ?_
  constructor
  · rintro ⟨x, hx⟩
    exact List.ne_nil_of_mem (mem_heard.2 hx)
  · intro hne
    obtain ⟨x, hx⟩ := List.exists_mem_of_ne_nil _ hne
    exact ⟨x, mem_heard.1 hx⟩

/-- The second half: the scheduled constraints run, each once, and none is scheduled then. -/
theorem drain_eq {m m' : Model π} (h : m.drain = .ok (.consistent, m')) :
    m'.scheduled = [] ∧ m'.listeners = m.listeners := by
  obtain ⟨h1, h2, _⟩ := runAll_eq h
  exact ⟨h1, h2⟩

theorem wake_notices {w : Model (Recorded π)} (h : m.wake = .ok w) (c : Constraint) :
    w.notices c = m.notices c ++ (m.heard c).map .told :=
  tellAll_notices h c

theorem drain_notices (hnodup : m.scheduled.Nodup) (h : m.drain = .ok (.consistent, m'))
    (c : Constraint) : m'.notices c = m.notices c ++ if c ∈ m.scheduled then [.ran] else [] := by
  have hperm := m.order.arrange_perm m.rounds m.scheduled
  rw [runAll_notices (hperm.nodup_iff.2 hnodup) h]
  simp only [hperm.mem_iff]
  rfl

/-- The two halves together are what the round asks for. -/
theorem append_block {w : Model (Recorded π)} (h : m.wake = .ok w) (c : Constraint) :
    w.notices c ++ (if c ∈ w.scheduled then [.ran] else []) = m.notices c ++ m.block c := by
  rw [wake_notices h, List.append_assoc, block]
  simp only [(wake_eq h).2.2.1 c, or_comm]

/-- The rounds one after the other.  The induction is on the number of rounds that are allowed; after
the first one nothing is scheduled when a round begins. -/
theorem runRounds_notices {fuel : Nat} (hnodup : m.scheduled.Nodup)
    (h : m.runRounds fuel = .ok (.consistent, m')) :
    m'.scheduled = [] ∧ m'.store.news = [] ∧
      (∀ c, m'.notices c = m.notices c ++ (m.startsFrom fuel).flatMap fun r => r.block c) ∧
      (m.startsFrom fuel).head? = some m ∧
      (∀ r ∈ (m.startsFrom fuel).tail, r.scheduled = []) ∧
      ∀ r ∈ m.startsFrom fuel, r.listeners = m.listeners := by
  induction fuel generalizing m with
  | zero => cases h
  | succ fuel ih =>
    rw [runRounds] at h
    obtain ⟨w, hwake, h⟩ := bind_eq_ok_iff.1 h
    obtain ⟨hstore, hlisteners, _, hnodupW⟩ := wake_eq hwake
    have hblock := append_block hwake
    rw [startsFrom, hwake]
    dsimp only
    by_cases hempty : w.scheduled.isEmpty = true
    · rw [if_pos hempty] at h ⊢
      cases h
      have hnil := List.isEmpty_iff.1 hempty
      refine ⟨hnil, ?_, fun c => ?_, rfl, fun r hr => absurd hr (List.not_mem_nil),
        fun r hr => ?_⟩
      · rw [hstore]
        exact Store.news_clearEvents m.store
      · rw [List.flatMap_singleton, ← hblock c, hnil, if_neg (List.not_mem_nil), List.append_nil]
      · rw [List.mem_singleton.1 hr]
    · rw [if_neg hempty] at h ⊢
      obtain ⟨⟨_ | why, m₂⟩, hdrain, h⟩ := bind_eq_ok_iff.1 h
      swap
      · cases h
      obtain ⟨hnone, hlisteners₂⟩ := drain_eq hdrain
      obtain ⟨h1, h2, h3, h4, h5, h6⟩ := ih (hnone ▸ List.nodup_nil) h
      rw [hdrain]
      dsimp only at h ⊢
      refine ⟨h1, h2, fun c => ?_, rfl, fun r hr => ?_, fun r hr => ?_⟩
      · rw [h3, drain_notices (hnodupW hnodup) hdrain, hblock, List.flatMap_cons, List.append_assoc]
      · cases hstarts : startsFrom fuel m₂ with
        | nil => rw [List.tail_cons, hstarts] at hr; cases hr
        | cons r₀ rest =>
          rw [hstarts] at h4 h5
          rw [List.tail_cons, hstarts] at hr
          rcases List.mem_cons.1 hr with rfl | hr
          · rw [Option.some.inj h4]
            exact hnone
          · exact h5 r hr
      · rcases List.mem_cons.1 hr with rfl | hr
        · rfl
        · rw [h6 r hr, hlisteners₂, hlisteners]

/-! ### The first round -/

/-- A constraint that is run is run once, whatever the verdict; one that is left out is so because
another one failed. -/
theorem runAll_notices_cases {cs : List Constraint} {v : Verdict} (hnodup : cs.Nodup)
    (h : runAll cs m = .ok (v, m')) (d : Constraint) :
    m'.notices d = m.notices d ++ (if d ∈ cs then [.ran] else []) ∨
      (∃ why, v = .failed why) ∧ m'.notices d = m.notices d := by
  induction cs generalizing m with
  | nil =>
    cases h
    exact Or.inl (List.append_nil _).symm
  | cons c cs ih =>
    obtain ⟨hc, hcs⟩ := List.nodup_cons.1 hnodup
    rw [runAll] at h
    obtain ⟨⟨_ | why, m₁⟩, hrun, h⟩ := bind_eq_ok_iff.1 h
    · by_cases hd : c = d
      · subst hd
        obtain h' | ⟨hfailed, h'⟩ := ih hcs h <;> rw [h', runOne_notices hrun, if_pos rfl]
        · rw [if_neg hc, if_pos (List.mem_cons_self ..), List.append_nil]
          exact Or.inl rfl
        · rw [if_pos (List.mem_cons_self ..)]
          exact Or.inl rfl
      · have hmem : d ∈ c :: cs ↔ d ∈ cs := by
          rw [List.mem_cons, or_iff_right fun heq => hd heq.symm]
        have hsame := runOne_notices hrun d
        rw [if_neg hd, List.append_nil] at hsame
        simp only [hmem, ← hsame]
        exact ih hcs h
    · cases h
      by_cases hd : c = d
      · subst hd
        rw [if_pos (List.mem_cons_self ..), runOne_notices hrun, if_pos rfl]
        exact Or.inl rfl
      · rw [runOne_notices hrun, if_neg hd, List.append_nil]
        exact Or.inr ⟨⟨why, rfl⟩, rfl⟩

theorem drain_notices_cases {v : Verdict} (hnodup : m.scheduled.Nodup) (h : m.drain = .ok (v, m'))
    (c : Constraint) :
    m'.notices c = m.notices c ++ (if c ∈ m.scheduled then [.ran] else []) ∨
      (∃ why, v = .failed why) ∧ m'.notices c = m.notices c := by
  have hperm := m.order.arrange_perm m.rounds m.scheduled
  have hcases := runAll_notices_cases (hperm.nodup_iff.2 hnodup) h c
  simp only [hperm.mem_iff] at hcases
  exact hcases

/-- What is recorded stays recorded. -/
theorem runAll_extends {cs : List Constraint} {v : Verdict} (h : runAll cs m = .ok (v, m'))
    (d : Constraint) : m.notices d <+: m'.notices d := by
  induction cs generalizing m with
  | nil =>
    cases h
    exact List.prefix_rfl
  | cons c cs ih =>
    rw [runAll] at h
    obtain ⟨⟨_ | why, m₁⟩, hrun, h⟩ := bind_eq_ok_iff.1 h
    · exact (runOne_notices hrun d ▸ List.prefix_append ..).trans (ih h)
    · cases h
      exact runOne_notices hrun d ▸ List.prefix_append ..

theorem runRounds_extends {fuel : Nat} {v : Verdict} (h : m.runRounds fuel = .ok (v, m'))
    (c : Constraint) : m.notices c <+: m'.notices c := by
  induction fuel generalizing m with
  | zero => cases h
  | succ fuel ih =>
    rw [runRounds] at h
    obtain ⟨w, hwake, h⟩ := bind_eq_ok_iff.1 h
    refine (wake_notices hwake c ▸ List.prefix_append ..).trans ?_
    split at h
    · cases h
      exact List.prefix_rfl
    · obtain ⟨⟨_ | why, m₂⟩, hdrain, h⟩ := bind_eq_ok_iff.1 h
      · exact (runAll_extends hdrain c).trans (ih h)
      · cases h
        exact runAll_extends hdrain c

/-- The first round of a run: every constraint is told what it hears of.  Those that heard of something
or were scheduled run, unless another one fails before.  What follows comes after that. -/
theorem runRounds_first {fuel : Nat} {v : Verdict} (hnodup : m.scheduled.Nodup)
    (h : m.runRounds fuel = .ok (v, m')) :
    ∃ w, m.wake = .ok w ∧ ((w.scheduled = [] ∧ v = .consistent ∧ m' = w) ∨
      ∃ v₁ m₁, w.drain = .ok (v₁, m₁) ∧ (∀ why, v₁ = .failed why → v = v₁ ∧ m' = m₁) ∧
        ∀ c, m₁.notices c <+: m'.notices c ∧ (m₁.notices c = m.notices c ++ m.block c ∨
          (∃ why, v₁ = .failed why) ∧ m₁.notices c = m.notices c ++ (m.heard c).map .told)) := by
  cases fuel with
  | zero => cases h
  | succ fuel =>
    rw [runRounds] at h
    obtain ⟨w, hwake, h⟩ := bind_eq_ok_iff.1 h
    refine ⟨w, hwake, ?_⟩
    split at h
    · rename_i hempty
      cases h
      exact Or.inl ⟨List.isEmpty_iff.1 hempty, rfl, rfl⟩
    obtain ⟨⟨v₁, m₁⟩, hdrain, h⟩ := bind_eq_ok_iff.1 h
    have hround : ∀ c, m₁.notices c = m.notices c ++ m.block c ∨
        (∃ why, v₁ = .failed why) ∧ m₁.notices c = m.notices c ++ (m.heard c).map .told := by
      intro c
      rw [← append_block hwake, ← wake_notices hwake]
      exact drain_notices_cases ((wake_eq hwake).2.2.2 hnodup) hdrain c
    refine Or.inr ⟨v₁, m₁, hdrain, ?_⟩
    cases v₁ with
    | consistent => exact ⟨fun _ hw => absurd hw (by simp), fun c => ⟨runRounds_extends h c, hround c⟩⟩
    | failed why =>
      cases h
      exact ⟨fun _ _ => ⟨rfl, rfl⟩, fun c => ⟨List.prefix_rfl, hround c⟩⟩

/-- The rounds are those of the model without records. -/
theorem startsFrom_map {ρ : Type} [Propagator ρ] {f : ρ → π} (hf : Propagator.Maps f) (fuel : Nat)
    (m : Model ρ) :
    (m.mapPropagators f).startsFrom fuel = (m.startsFrom fuel).map (mapPropagators f) := by
  induction fuel generalizing m with
  | zero => rfl
  | succ fuel ih =>
    rw [startsFrom, startsFrom, wake_map hf, List.map_cons]
    congr 1
    cases m.wake with
    | error e => rfl
    | ok w =>
      show (if w.scheduled.isEmpty then _ else _) = List.map _ (if w.scheduled.isEmpty then _ else _)
      split
      · rfl
      · rw [drain_map hf]
        cases w.drain with
        | error e => rfl
        | ok answer =>
          obtain ⟨_ | why, m'⟩ := answer
          · exact ih m'
          · rfl

omit [Propagator π] in
/-- At first nothing is recorded. -/
theorem notices_record (m : Model π) (c : Constraint) : m.record.notices c = [] := by
  rw [notices, record, mapPropagators]
  dsimp only
  rw [Array.getElem?_map]
  cases m.propagators[c.index]? <;> rfl

/-- When a fixpoint is reached, nothing is pending and nothing is scheduled.  What happened to a
constraint is what its rounds ask for: it is told once of each variable to which something happened
that it listens to, and runs after that; it runs if it was scheduled; and there is nothing else. -/
theorem fixpoint_notices {m m' : Model π} (hnodup : m.scheduled.Nodup)
    (h : m.fixpoint = .ok (.consistent, m')) :
    m'.store.news = [] ∧ m'.scheduled = [] ∧
      (∃ w, m.record.fixpoint = .ok (.consistent, w) ∧ w.mapPropagators Recorded.inner = m' ∧
        (∀ c, w.notices c = m.starts.flatMap fun r => r.block c) ∧
        ∀ c ∈ m.scheduled, .ran ∈ w.notices c) ∧
      m.starts.head? = some m ∧ (∀ r ∈ m.starts.tail, r.scheduled = []) ∧
      ∀ r ∈ m.starts, ∀ c, (r.heard c).Nodup ∧
        ∀ x, x ∈ r.heard c ↔ ∃ e ∈ r.store.events, e.var = x ∧
          ∃ kind, e.tells kind = true ∧ c ∈ m.listening ⟨kind, x⟩ := by
  rw [fixpoint_record] at h
  obtain ⟨⟨v, w⟩, hw, heq⟩ : ∃ p, m.record.fixpoint = .ok p ∧
      (p.1, p.2.mapPropagators Recorded.inner) = (Verdict.consistent, m') := by
    cases hfix : m.record.fixpoint with
    | error e =>
      rw [hfix] at h
      cases h
    | ok p =>
      rw [hfix] at h
      exact ⟨p, rfl, Except.ok.inj h⟩
  obtain ⟨rfl, rfl⟩ := Prod.mk.inj heq
  obtain ⟨h1, h2, h3, h4, h5, h6⟩ := runRounds_notices (m := m.record) hnodup hw
  have hstarts : m.starts = (m.record.startsFrom (m.capacity + Word.countBound)).map
      (mapPropagators Recorded.inner) := by
    rw [← startsFrom_map Recorded.maps_inner, map_inner_record]
    rfl
  have hcapacity : m.record.capacity = m.capacity := rfl
  rw [hcapacity] at h3 h4 h5 h6
  have hnotices : ∀ c, w.notices c = m.starts.flatMap fun r => r.block c := by
    intro c
    rw [h3, notices_record, List.nil_append, hstarts, List.flatMap_map]
    rfl
  refine ⟨h2, h1, ⟨w, hw, rfl, hnotices, fun c hc => ?_⟩, ?_, ?_, fun r hr c => ?_⟩
  · rw [hnotices]
    have hmem : m ∈ m.starts := by
      rw [hstarts]
      refine List.mem_map.2 ⟨m.record, List.mem_of_mem_head? h4, map_inner_record m⟩
    refine List.mem_flatMap.2 ⟨m, hmem, List.mem_append_right _ ?_⟩
    rw [if_pos (Or.inl hc)]
    exact List.mem_singleton_self _
  · rw [hstarts, List.head?_map, h4]
    exact congrArg some (map_inner_record m)
  · intro r hr
    rw [hstarts, ← List.map_tail] at hr
    obtain ⟨r', hr', rfl⟩ := List.mem_map.1 hr
    exact h5 r' hr'
  · refine ⟨nodup_heard r c, fun x => ?_⟩
    have hlisteners : r.listeners = m.listeners := by
      rw [hstarts] at hr
      obtain ⟨r', hr', rfl⟩ := List.mem_map.1 hr
      exact h6 r' hr'
    rw [mem_heard, mem_fired]
    simp only [listening, hlisteners]

end

/-! ### An instance -/

/-- One constraint raises the least value of a variable, and another one listens to its least value
and to its domain. -/
def raising : Except Fault (Model Script) := do
  let (x, m) ← (empty .lastFirst : Model Script).onStore (·.newPrimitive 1 3)
  let (c, m) ← m.post (.new [.removeBelow x 2] none)
  let (d, m) ← m.post (.new [] none)
  let m ← m.listen d .minChanged x
  let m ← m.listen d .domainChanged x
  return m.schedule c

/-- The second constraint is told once, although two of its conditions are met, and then runs. -/
theorem fixpoint_notices_raising : ∃ m m' w, raising = .ok m ∧
    m.fixpoint = .ok (.consistent, m') ∧ m.record.fixpoint = .ok (.consistent, w) ∧
    w.notices ⟨0⟩ = [.ran] ∧ w.notices ⟨1⟩ = [.told ⟨0⟩, .ran] := by
  have hscheduled : (raising >>= fun m => .ok m.scheduled) = .ok [⟨0⟩] := by decide +kernel
  have hfixpoint : (raising >>= fun m => m.fixpoint >>= fun p => .ok p.1) = .ok .consistent := by
    decide +kernel
  have hblocks : (raising >>= fun m => .ok ((m.starts.flatMap fun r => r.block ⟨0⟩),
      m.starts.flatMap fun r => r.block ⟨1⟩)) = .ok ([.ran], [.told ⟨0⟩, .ran]) := by
    decide +kernel
  obtain ⟨m, hm, hfixpoint⟩ := bind_eq_ok_iff.1 hfixpoint
  obtain ⟨⟨v, m'⟩, hm', hv⟩ := bind_eq_ok_iff.1 hfixpoint
  cases hv
  rw [hm, ok_bind] at hscheduled hblocks
  obtain ⟨h1, h2⟩ := Prod.mk.inj (Except.ok.inj hblocks)
  have hnodup : m.scheduled.Nodup := by
    rw [Except.ok.inj hscheduled]
    exact List.nodup_singleton _
  obtain ⟨_, _, ⟨w, hw, _, hnotices, _⟩, _⟩ := fixpoint_notices hnodup hm'
  exact ⟨m, m', w, hm, hm', hw, (hnotices _).trans h1, (hnotices _).trans h2⟩

end Model

end FiniteDomain
