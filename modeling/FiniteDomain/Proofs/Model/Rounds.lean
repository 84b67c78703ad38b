import FiniteDomain.Proofs.Model.Counters
import FiniteDomain.Proofs.Model.Wakeups
import FiniteDomain.Proofs.Store.Weights

/-!
# The rounds of a run

The rounds of a run come to an end when propagators only take values away: each round but the last
two follows the loss of a value, and the weight of the domains bounds how many there are to lose.

* `Store.Lessens` is what a store looks like after values were taken away.
* `Turns` gathers what has to be known of one step of a run: `I due m` holds while the constraints
  `due` are still going to run, and `E` of the faults that can happen.
* `Turns.runRounds_cases` and `Turns.fixpoint_cases` lift that to the whole run, which gets an answer
  or ends with one of those faults, but never for want of turns.
* `Model.runs` lists the constraints that run in a fixpoint.  `Turning` gathers what the steps keep
  that go well, whatever the propagators are, and `Turning.mem_runs` says that it holds whenever a
  constraint runs.
-/

namespace FiniteDomain

/-! ## Stores that lose values -/

/-- The variables are the same, domains have lost values, and something happened where they did. -/
structure Store.Lessens (s s' : Store) : Prop where
  size_eq : s'.definitions.size = s.definitions.size
  subset : ∀ q, s'.domain q ⊆ s.domain q
  pending : ∀ q, s'.Pending q → s.Pending q ∨ s'.domain q ≠ s.domain q

namespace Store.Lessens

variable {C : Cell → Prop} {s s' s'' : Store}

theorem refl (s : Store) : Lessens s s := ⟨rfl, fun _ => Finset.Subset.refl _, fun _ => Or.inl⟩

theorem of_evolves (h : Evolves C s s') : Lessens s s' :=
  ⟨by rw [h.definitions_eq], h.subset, fun q => (h.pending_iff q).1⟩

theorem trans (h : Lessens s s') (h' : Lessens s' s'') : Lessens s s'' where
  size_eq := h'.size_eq.trans h.size_eq
  subset q := (h'.subset q).trans (h.subset q)
  pending q hq := by
    obtain hq | hne := h'.pending q hq
    · obtain hq | hne := h.pending q hq
      · exact Or.inl hq
      · exact Or.inr fun heq => hne ((h.subset q).antisymm (heq ▸ h'.subset q))
    · exact Or.inr fun heq => hne ((h'.subset q).antisymm (heq ▸ h.subset q))

theorem weight_le (h : Lessens s s') : s'.weight ≤ s.weight := Store.weight_le h.size_eq h.subset

theorem weight_lt (h : Lessens s s') {q : Var} (hq : s'.domain q ≠ s.domain q) :
    s'.weight < s.weight := Store.weight_lt h.size_eq h.subset hq

end Store.Lessens

/-- Nothing happened if no domain has changed. -/
theorem Store.news_eq_nil {s : Store} (h : s.Sound) (hnone : ∀ q, ¬ s.Pending q) : s.news = [] :=
  List.eq_nil_iff_forall_not_mem.2 fun e he =>
    hnone e.var ⟨e, (h.mem_news.1 he).1, rfl, (h.mem_news.1 he).2⟩

theorem Store.not_pending_of_news {s : Store} (h : s.Sound) (hnews : s.news = []) (q : Var) :
    ¬ s.Pending q := by
  rintro ⟨e, he, _, hchanged⟩
  have hmem := h.mem_news.2 ⟨he, hchanged⟩
  rw [hnews] at hmem
  exact List.not_mem_nil hmem

namespace Model

variable {π : Type} {m m' : Model π} {due due' : List Constraint}

/-! ## Waking constraints -/

/-- Nothing happened since the propagators have run. -/
def Quiet (m : Model π) : Prop := m.store.news = [] ∧ m.scheduled = []

theorem Quiet.not_pending (h : m.Quiet) (hs : m.store.Sound) (q : Var) : ¬ m.store.Pending q :=
  Store.not_pending_of_news hs h.1 q

/-- Only constraints that exist are told of something. -/
theorem Tallied.fired_lt (h : m.Tallied) {pair : Constraint × Var} (hpair : pair ∈ m.fired) :
    pair.1.index < m.propagators.size := by
  obtain ⟨_, _, _, _, _, hlistening⟩ := mem_fired.1 hpair
  exact h.listening_lt hlistening

/-- A quiet model has nobody to tell. -/
theorem fired_eq_nil (h : m.store.news = []) : m.fired = [] := by
  rw [fired, h]
  rfl

variable [Propagator π]

/-- What telling several constraints does to the propagators, and that it does nothing else. -/
theorem told_eq {pairs : List (Constraint × Var)} (h : pairs.foldlM tell m = .ok m') :
    m' = { m with propagators := m'.propagators, scheduled := m'.scheduled } ∧
      m'.propagators.size = m.propagators.size ∧
      ∀ i : Nat, m'.propagators[i]? = (m.propagators[i]?).map fun p =>
        ((pairs.filter fun pair => pair.1 = ⟨i⟩).map Prod.snd).foldl Propagator.notify p := by
  induction pairs generalizing m with
  | nil =>
    cases h
    exact ⟨rfl, rfl, fun i => by simp⟩
  | cons pair rest ih =>
    rw [List.foldlM_cons] at h
    obtain ⟨m₁, htell, hrest⟩ := bind_eq_ok_iff.1 h
    obtain ⟨heq, hsize, hget⟩ := ih hrest
    rw [tell] at htell
    split at htell
    · cases htell
      have hstep : ∀ {m : Model π} {c : Constraint}, (m.schedule c).propagators = m.propagators ∧
          m.schedule c = { m with scheduled := (m.schedule c).scheduled } := by
        intro m c
        rw [schedule]
        split
        · exact ⟨rfl, rfl⟩
        · exact ⟨rfl, rfl⟩
      rw [hstep.1] at hsize hget
      refine ⟨?_, hsize.trans (Array.size_modify ..), fun i => ?_⟩
      · rw [heq, hstep.2]
      · rw [hget, Array.getElem?_modify]
        by_cases hi : pair.1 = ⟨i⟩
        · rw [if_pos (by rw [hi]), List.filter_cons_of_pos (by simpa using hi), Option.map_map]
          rfl
        · rw [if_neg fun heq => hi (by rw [← heq]), List.filter_cons_of_neg (by simpa using hi)]
    · cases htell

/-- Constraints that exist can be told. -/
theorem exists_told {pairs : List (Constraint × Var)}
    (h : ∀ pair ∈ pairs, pair.1.index < m.propagators.size) :
    ∃ m', pairs.foldlM tell m = .ok m' := by
  induction pairs generalizing m with
  | nil => exact ⟨m, rfl⟩
  | cons pair rest ih =>
    have hhead := h pair (List.mem_cons_self ..)
    have htell : m.tell pair = .ok (Model.schedule { m with
        propagators := m.propagators.modify pair.1.index (Propagator.notify · pair.2) } pair.1) :=
      if_pos hhead
    have hsize : (Model.schedule { m with
        propagators := m.propagators.modify pair.1.index (Propagator.notify · pair.2) }
          pair.1).propagators.size = m.propagators.size := by
      rw [Model.schedule]
      split
      · exact Array.size_modify ..
      · exact Array.size_modify ..
    obtain ⟨m', hrest⟩ := ih fun p hp => by
      rw [hsize]
      exact h p (List.mem_cons_of_mem _ hp)
    refine ⟨m', ?_⟩
    rw [List.foldlM_cons, htell, ok_bind]
    exact hrest

/-- Waking the constraints never faults. -/
theorem Tallied.exists_wake (h : m.Tallied) : ∃ w, m.wake = .ok w :=
  exists_told fun _ hpair => h.fired_lt hpair

/-- If nothing happened, nobody wakes. -/
theorem wake_of_news (h : m.store.news = []) :
    m.wake = .ok { m with store := m.store.clearEvents } := by
  rw [wake, fired_eq_nil h]
  rfl

/-! ## Steps of a run -/

/-- What a propagator answers, its run answers. -/
theorem runOne_of_propagate {c : Constraint} {p : π}
    (hp : m.propagators[c.index]? = some p) :
    (∀ fault, Propagator.propagate p m.store = .error fault → m.runOne c = .error fault) ∧
      ∀ verdict p' s', Propagator.propagate p m.store = .ok (verdict, p', s') →
        m.runOne c = .ok (verdict, { m with
          store := s', propagators := m.propagators.setIfInBounds c.index p' }) := by
  have hfetch : fetch m.propagators c.index = .ok p := fetch_eq_ok_iff.2 hp
  constructor
  · intro fault hret
    rw [runOne, hfetch, ok_bind, onStore, hret]
    rfl
  · intro verdict p' s' hret
    rw [runOne, hfetch, ok_bind, onStore, hret]
    rfl

/-- What is known of the steps of a run.  `I due m` holds of a model in which the constraints `due`
are still going to run, and `E` of the faults that their propagators have. -/
structure Turns (I : List Constraint → Model π → Prop) (E : Fault → Prop) : Prop where
  sound : ∀ {due : List Constraint} {m : Model π}, I due m → m.store.Sound
  wakes : ∀ {m : Model π}, I m.scheduled m → ∃ w, m.wake = .ok w ∧ I w.scheduled w
  plans : ∀ {due due' : List Constraint} {m : Model π}, due'.Perm due → I due m →
    I due' { m with scheduled := [], rounds := m.rounds + 1 }
  runs : ∀ {c : Constraint} {rest : List Constraint} {m : Model π}, I (c :: rest) m →
    (∃ m', m.runOne c = .ok (.consistent, m') ∧ I rest m' ∧ m.store.Lessens m'.store) ∨
    (∃ why m', m.runOne c = .ok (.failed why, m')) ∨
    ∃ fault, m.runOne c = .error fault ∧ E fault

namespace Turns

variable {I : List Constraint → Model π → Prop} {E : Fault → Prop}

/-- Several constraints run. -/
theorem runAll_cases (h : Turns I E) {cs : List Constraint} (hm : I cs m) :
    (∃ m', runAll cs m = .ok (.consistent, m') ∧ I [] m' ∧ m.store.Lessens m'.store) ∨
    (∃ why m', runAll cs m = .ok (.failed why, m')) ∨
    ∃ fault, runAll cs m = .error fault ∧ E fault := by
  induction cs generalizing m with
  | nil => exact Or.inl ⟨m, rfl, hm, .refl _⟩
  | cons c rest ih =>
    obtain ⟨m₁, hone, hrest, hless⟩ | ⟨why, m₁, hone⟩ | ⟨fault, hone, hfault⟩ := h.runs hm
    · have hstep : runAll (c :: rest) m = runAll rest m₁ := by
        rw [runAll, hone]
        rfl
      rw [hstep]
      obtain ⟨m', hall, hm', hless'⟩ | hother := ih hrest
      · exact Or.inl ⟨m', hall, hm', hless.trans hless'⟩
      · exact Or.inr hother
    · refine Or.inr (Or.inl ⟨why, m₁, ?_⟩)
      rw [runAll, hone]
      rfl
    · refine Or.inr (Or.inr ⟨fault, ?_, hfault⟩)
      rw [runAll, hone]
      rfl

/-- A round that is drained leaves nothing scheduled, and either no news or less weight. -/
theorem drain_cases (h : Turns I E) (hm : I m.scheduled m) (hnews : ∀ q, ¬ m.store.Pending q) :
    (∃ m', m.drain = .ok (.consistent, m') ∧ I m'.scheduled m' ∧ m'.store.weight ≤ m.store.weight ∧
      (m'.Quiet ∨ m'.store.weight < m.store.weight)) ∨
    (∃ why m', m.drain = .ok (.failed why, m')) ∨
    ∃ fault, m.drain = .error fault ∧ E fault := by
  have hplan := h.plans (m.order.arrange_perm m.rounds m.scheduled) hm
  obtain ⟨m', hdrain, hm', hless⟩ | hother := h.runAll_cases hplan
  · have hscheduled : m'.scheduled = [] := (drain_eq hdrain).1
    refine Or.inl ⟨m', hdrain, by rw [hscheduled]; exact hm', hless.weight_le, ?_⟩
    by_cases hsame : ∀ q, m'.store.domain q = m.store.domain q
    · -- Nothing was lost, so nothing happened.
      refine Or.inl ⟨Store.news_eq_nil (h.sound hm') fun q hq => ?_, hscheduled⟩
      exact (hless.pending q hq).elim (hnews q) fun hne => hne (hsame q)
    · obtain ⟨q, hq⟩ := not_forall.1 hsame
      exact Or.inr (hless.weight_lt hq)
  · exact Or.inr hother

/-- Rounds follow each other.  The induction is on the turns that are left: one is enough for a quiet
model, and each value that can be lost may cost one more, after a first round. -/
theorem runRounds_cases (h : Turns I E) {fuel : Nat} (hm : I m.scheduled m)
    (hfuel : 0 < fuel ∧ (m.Quiet ∨ m.store.weight + 2 ≤ fuel)) :
    (∃ m', m.runRounds fuel = .ok (.consistent, m') ∧ I [] m' ∧ m'.Quiet) ∨
    (∃ why m', m.runRounds fuel = .ok (.failed why, m')) ∨
    ∃ fault, m.runRounds fuel = .error fault ∧ E fault := by
  induction fuel generalizing m with
  | zero => exact absurd hfuel.1 (Nat.lt_irrefl 0)
  | succ fuel ih =>
    obtain ⟨w, hwake, hw⟩ := h.wakes hm
    obtain ⟨hstore, _, hmem, _⟩ := wake_eq hwake
    have hnews : w.store.news = [] := by
      rw [hstore]
      exact Store.news_clearEvents _
    rw [runRounds, hwake, ok_bind]
    by_cases hidle : w.scheduled = []
    · rw [if_pos (by rw [hidle]; rfl)]
      refine Or.inl ⟨w, rfl, ?_, hnews, hidle⟩
      rw [← hidle]
      exact hw
    · rw [if_neg (by rw [List.isEmpty_iff]; exact hidle)]
      -- A quiet model has nothing to run, so there is weight to spare.
      have hspare : m.store.weight + 2 ≤ fuel + 1 := by
        refine hfuel.2.resolve_left fun hquiet => hidle ?_
        rw [wake_of_news hquiet.1] at hwake
        cases hwake
        exact hquiet.2
      have hweight : w.store.weight ≤ m.store.weight := by
        rw [hstore]
        exact le_refl _
      obtain ⟨m₁, hdrain, hm₁, hle, hnext⟩ | ⟨why, m₁, hdrain⟩ | ⟨fault, hdrain, hfault⟩ :=
        h.drain_cases hw (Store.not_pending_of_news (h.sound hw) hnews)
      · rw [hdrain, ok_bind]
        refine ih hm₁ ⟨by omega, hnext.imp_right fun hlt => by omega⟩
      · rw [hdrain]
        exact Or.inr (Or.inl ⟨why, m₁, rfl⟩)
      · rw [hdrain]
        exact Or.inr (Or.inr ⟨fault, rfl, hfault⟩)

/-- The run to the fixpoint gets an answer, unless a propagator faults. -/
theorem fixpoint_cases (h : Turns I E) (hm : I m.scheduled m) :
    (∃ m', m.fixpoint = .ok (.consistent, m') ∧ I [] m' ∧ m'.Quiet) ∨
    (∃ why m', m.fixpoint = .ok (.failed why, m')) ∨
    ∃ fault, m.fixpoint = .error fault ∧ E fault := by
  have hweight : m.store.weight ≤ m.capacity := (h.sound hm).weight_le_capacity
  have hbound : 2 ≤ Word.countBound := by decide
  exact h.runRounds_cases hm ⟨by omega, Or.inr (by omega)⟩

end Turns

/-! ## The propagators that run -/

/-- The constraints that run one after the other, until one fails, each with the model in which it
runs. -/
def runsOf : List Constraint → Model π → List (Constraint × Model π)
  | [], _ => []
  | c :: rest, m =>
    (c, m) :: match m.runOne c with
      | .ok (.consistent, m') => runsOf rest m'
      | _ => []

/-- The constraints that run in a round, each with the model in which it runs. -/
def roundRuns (m : Model π) : List (Constraint × Model π) :=
  match m.wake with
  | .error _ => []
  | .ok w =>
    runsOf (w.order.arrange w.rounds w.scheduled) { w with scheduled := [], rounds := w.rounds + 1 }

/-- The constraints that run in a fixpoint, each with the model in which it runs. -/
def runs (m : Model π) : List (Constraint × Model π) := m.starts.flatMap roundRuns

/-- The first constraint of the first round runs. -/
theorem mem_runs_of_wake {w : Model π} {c : Constraint} {rest : List Constraint}
    (hwake : m.wake = .ok w) (harrange : w.order.arrange w.rounds w.scheduled = c :: rest) :
    (c, { w with scheduled := [], rounds := w.rounds + 1 }) ∈ m.runs := by
  refine List.mem_flatMap.2 ⟨m, ?_, ?_⟩
  · obtain ⟨fuel, hfuel⟩ : ∃ fuel, m.capacity + Word.countBound = fuel + 1 :=
      ⟨m.capacity + (Word.countBound - 1), rfl⟩
    rw [starts, hfuel, startsFrom]
    exact List.mem_cons_self ..
  · rw [roundRuns, hwake]
    dsimp only
    rw [harrange, runsOf]
    exact List.mem_cons_self ..

/-- What the steps of a run keep that go well.  `I due m` holds of a model in which the constraints
`due` are still going to run. -/
structure Turning (I : List Constraint → Model π → Prop) : Prop where
  wakes : ∀ {m w : Model π}, I m.scheduled m → m.wake = .ok w → I w.scheduled w
  plans : ∀ {due due' : List Constraint} {m : Model π}, due'.Perm due → I due m →
    I due' { m with scheduled := [], rounds := m.rounds + 1 }
  runs : ∀ {c : Constraint} {rest : List Constraint} {m m' : Model π}, I (c :: rest) m →
    m.runOne c = .ok (.consistent, m') → I rest m'

/-- What the steps need they keep. -/
theorem Turns.turning {I : List Constraint → Model π → Prop} {E : Fault → Prop} (h : Turns I E) :
    Turning I where
  wakes hm hret := by
    obtain ⟨w, hwake, hw⟩ := h.wakes hm
    cases hret.symm.trans hwake
    exact hw
  plans := h.plans
  runs hm hret := by
    obtain ⟨m', hone, hm', _⟩ | ⟨_, _, hone⟩ | ⟨_, hone, _⟩ := h.runs hm
    · cases hret.symm.trans hone
      exact hm'
    · cases hret.symm.trans hone
    · cases hret.symm.trans hone

namespace Turning

variable {I : List Constraint → Model π → Prop} {c : Constraint}

theorem runAll (h : Turning I) {cs : List Constraint} (hm : I cs m)
    (hret : runAll cs m = .ok (.consistent, m')) : I [] m' := by
  induction cs generalizing m with
  | nil =>
    cases hret
    exact hm
  | cons c rest ih =>
    obtain ⟨⟨_ | why, m₁⟩, hone, hret⟩ := bind_eq_ok_iff.1 hret
    · exact ih (h.runs hm hone) hret
    · cases hret

theorem mem_runsOf (h : Turning I) {cs : List Constraint} (hm : I cs m)
    (hmem : (c, m') ∈ runsOf cs m) : ∃ rest, I (c :: rest) m' := by
  induction cs generalizing m with
  | nil => cases hmem
  | cons d rest ih =>
    rw [runsOf] at hmem
    obtain heq | hmem := List.mem_cons.1 hmem
    · cases heq
      exact ⟨rest, hm⟩
    · split at hmem
      · rename_i hone
        exact ih (h.runs hm hone) hmem
      · cases hmem

theorem mem_startsFrom (h : Turning I) {fuel : Nat} (hm : I m.scheduled m)
    (hmem : m' ∈ m.startsFrom fuel) : I m'.scheduled m' := by
  induction fuel generalizing m with
  | zero => cases hmem
  | succ fuel ih =>
    rw [startsFrom] at hmem
    obtain rfl | hmem := List.mem_cons.1 hmem
    · exact hm
    · split at hmem
      · cases hmem
      · rename_i w hwake
        split at hmem
        · cases hmem
        · split at hmem
          · rename_i m₁ hdrain
            have hm₁ : I [] m₁ := h.runAll
              (h.plans (w.order.arrange_perm w.rounds w.scheduled) (h.wakes hm hwake)) hdrain
            rw [← (drain_eq hdrain).1] at hm₁
            exact ih hm₁ hmem
          · cases hmem

/-- What holds while a constraint is due holds whenever it runs. -/
theorem mem_runs (h : Turning I) (hm : I m.scheduled m) (hmem : (c, m') ∈ m.runs) :
    ∃ rest, I (c :: rest) m' := by
  obtain ⟨m₁, hstart, hmem⟩ := List.mem_flatMap.1 hmem
  rw [roundRuns] at hmem
  split at hmem
  · cases hmem
  · rename_i w hwake
    have hw := h.wakes (h.mem_startsFrom hm hstart) hwake
    exact h.mem_runsOf (h.plans (w.order.arrange_perm w.rounds w.scheduled) hw) hmem

end Turning

end Model

end FiniteDomain
