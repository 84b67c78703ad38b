import FiniteDomain.Proofs.Model.GivenBack

/-!
# A limit cuts a search short

A search with a limit does what the search without limit does, until it has enough solutions.

* `upTo` is a list of moments up to the solution with a given number.
* `Search.course` is what is kept of the trace of the search without limit.
* `Search.replay` counts moments until there are enough solutions.  `Follows` says that a part of a
  search does what the trace of the search without limit says, as far as the replay goes;
  `traceNode_follows` is about a node with all that is below it, and `course_follows` about a whole
  search.
* `Model.Reachable.limit_cuts_short` is the result.
-/

namespace FiniteDomain

variable {π ρ : Type}

/-! ## Moments -/

/-- The moments up to the `k`-th solution, all of them if there are fewer solutions. -/
def upTo : Nat → List (Moment ρ) → List (Moment ρ)
  | 0, _ => []
  | _ + 1, [] => []
  | k + 1, moment :: rest => moment :: upTo (if moment.isSolution then k else k + 1) rest

theorem upTo_prefix (k : Nat) (moments : List (Moment ρ)) : upTo k moments <+: moments := by
  induction moments generalizing k with
  | nil => cases k <;> exact List.prefix_refl []
  | cons moment rest ih =>
    cases k with
    | zero => exact List.nil_prefix
    | succ k =>
      rw [upTo, List.prefix_cons_inj]
      exact ih _

namespace Tally

variable {t : Tally ρ}

theorem count_solutions (t : Tally ρ) (moment : Moment ρ) :
    (t.count moment).solutions = t.solutions + if moment.isSolution then 1 else 0 := by
  cases moment <;> rfl

theorem solutions_le_after (t : Tally ρ) (moments : List (Moment ρ)) :
    t.solutions ≤ (t.after moments).solutions := by
  induction moments generalizing t with
  | nil => exact Nat.le_refl _
  | cons moment rest ih =>
    have hcount := t.count_solutions moment
    have hrest := ih (t.count moment)
    rw [after, List.foldl_cons, ← after]
    omega

/-- There are as many reports as solutions. -/
theorem after_size (h : t.reports.size = t.solutions) (moments : List (Moment ρ)) :
    (t.after moments).reports.size = (t.after moments).solutions := by
  induction moments generalizing t with
  | nil => exact h
  | cons moment rest ih =>
    refine ih ?_
    cases moment with
    | node => exact h
    | failure => exact h
    | solution report => simp [count, solved, h]

/-- The reports are kept in their order. -/
theorem reports_prefix_after (t : Tally ρ) (moments : List (Moment ρ)) :
    t.reports.toList <+: (t.after moments).reports.toList := by
  induction moments generalizing t with
  | nil => exact List.prefix_refl _
  | cons moment rest ih =>
    refine List.IsPrefix.trans ?_ (ih (t.count moment))
    cases moment with
    | node => exact List.prefix_refl _
    | failure => exact List.prefix_refl _
    | solution report => simp [count, solved]

/-- Of the moments up to the `k`-th solution `k` are solutions, or all that there are. -/
theorem after_upTo_solutions (t : Tally ρ) (k : Nat) (moments : List (Moment ρ)) :
    (t.after (upTo k moments)).solutions = min (t.solutions + k) (t.after moments).solutions := by
  induction moments generalizing t k with
  | nil =>
    have hnil : upTo k ([] : List (Moment ρ)) = [] := by cases k <;> rfl
    rw [hnil, after, List.foldl_nil]
    omega
  | cons moment rest ih =>
    have hle := solutions_le_after (t.count moment) rest
    have hcount := t.count_solutions moment
    cases k with
    | zero =>
      rw [upTo, after, after, List.foldl_nil, List.foldl_cons, ← after]
      omega
    | succ k =>
      have hrest := ih (t.count moment) (if moment.isSolution then k else k + 1)
      rw [upTo, after, List.foldl_cons, ← after, hrest, after, after, List.foldl_cons, hcount]
      congr 1
      split <;> omega

/-- With fewer than `k` solutions, the moments up to the `k`-th are all there are. -/
theorem upTo_eq (t : Tally ρ) {k : Nat} {moments : List (Moment ρ)}
    (h : (t.after moments).solutions < t.solutions + k) : upTo k moments = moments := by
  induction moments generalizing t k with
  | nil => cases k <;> rfl
  | cons moment rest ih =>
    have hle := solutions_le_after t (moment :: rest)
    obtain _ | k := k
    · omega
    · have hcount := t.count_solutions moment
      have hsame : t.after (moment :: rest) = (t.count moment).after rest := rfl
      rw [hsame] at h
      rw [upTo, ih (t.count moment)]
      split at hcount
      · rename_i hsolution
        rw [if_pos hsolution]
        omega
      · rename_i hsolution
        rw [if_neg hsolution]
        omega

/-- With `k` solutions or more, the moments up to the `k`-th end with a solution. -/
theorem upTo_eq_append (t : Tally ρ) {k : Nat} {moments : List (Moment ρ)} (hk : 0 < k)
    (h : t.solutions + k ≤ (t.after moments).solutions) :
    ∃ before report, upTo k moments = before ++ [.solution report] := by
  induction moments generalizing t k with
  | nil =>
    rw [after, List.foldl_nil] at h
    omega
  | cons moment rest ih =>
    obtain ⟨k, rfl⟩ : ∃ j, k = j + 1 := ⟨k - 1, by omega⟩
    have hcount := t.count_solutions moment
    have hsame : t.after (moment :: rest) = (t.count moment).after rest := rfl
    rw [hsame] at h
    have hnext : ∀ j, 0 < j → (t.count moment).solutions + j ≤ t.solutions + (k + 1) →
        ∃ before report, moment :: upTo j rest = before ++ [.solution report] := by
      intro j hj hle
      obtain ⟨before, report, heq⟩ := ih (t.count moment) hj (Nat.le_trans hle h)
      exact ⟨moment :: before, report, by rw [heq, List.cons_append]⟩
    rw [upTo]
    split at hcount
    · rename_i hsolution
      rw [if_pos hsolution]
      obtain _ | k := k
      · -- The last solution that is wanted.
        cases moment with
        | solution report => exact ⟨[], report, by rw [upTo, List.nil_append]⟩
        | node => cases hsolution
        | failure => cases hsolution
      · exact hnext (k + 1) (by omega) (by omega)
    · rename_i hsolution
      rw [if_neg hsolution]
      exact hnext (k + 1) (by omega) (by omega)

end Tally

/-! ## Courses -/

namespace Search

/-- The course of a whole search without limit: its moments, and the model after it unless there was
a fault. -/
def course [Propagator π] (q : Search) (observe : Model π → Except Fault ρ) (m : Model π) :
    Traced ρ (Model π) :=
  Prod.snd <$> { q with limit := none }.trace observe m

/-! ## Replays -/

/-- Counts moments until there are enough solutions, and tells whether there were. -/
def replay (q : Search) : Tally ρ → List (Moment ρ) → Bool × Tally ρ
  | t, [] => (false, t)
  | t, moment :: rest =>
    if moment.isSolution && q.isEnough (t.count moment) then (true, t.count moment)
    else q.replay (t.count moment) rest

theorem replay_append (q : Search) (t : Tally ρ) (moments others : List (Moment ρ)) :
    q.replay t (moments ++ others) = if (q.replay t moments).1 then q.replay t moments
      else q.replay (q.replay t moments).2 others := by
  induction moments generalizing t with
  | nil => rfl
  | cons moment rest ih =>
    rw [List.cons_append, replay, replay]
    split
    · rfl
    · exact ih _

/-- If there are not enough solutions, all moments are counted. -/
theorem replay_eq_after {q : Search} {t : Tally ρ} {moments : List (Moment ρ)}
    (h : (q.replay t moments).1 = false) : q.replay t moments = (false, t.after moments) := by
  induction moments generalizing t with
  | nil => rfl
  | cons moment rest ih =>
    rw [replay] at h ⊢
    split at h
    · cases h
    · rename_i henough
      rw [if_neg henough]
      exact ih h

/-- Without limit there are never enough solutions. -/
theorem replay_unlimited {q : Search} (h : q.limit = none) (t : Tally ρ)
    (moments : List (Moment ρ)) : q.replay t moments = (false, t.after moments) := by
  refine replay_eq_after ?_
  induction moments generalizing t with
  | nil => rfl
  | cons moment rest ih =>
    rw [replay, isEnough, h, Bool.and_false, if_neg Bool.false_ne_true]
    exact ih _

/-- The solution that makes enough is the last one that is counted, but a first one always is. -/
theorem replay_limited {q : Search} {limit : Nat} (h : q.limit = some limit) (t : Tally ρ)
    (moments : List (Moment ρ)) :
    q.replay t moments =
      (decide (max limit (t.solutions + 1) ≤ (t.after moments).solutions),
        t.after (upTo (max limit (t.solutions + 1) - t.solutions) moments)) := by
  induction moments generalizing t with
  | nil =>
    have hnil : ∀ k, upTo k ([] : List (Moment ρ)) = [] := fun k => by cases k <;> rfl
    have hlt : ¬ max limit (t.solutions + 1) ≤ t.solutions := by omega
    rw [replay, hnil, Tally.after, List.foldl_nil, decide_eq_false hlt]
  | cons moment rest ih =>
    obtain ⟨k, hk⟩ : ∃ k, max limit (t.solutions + 1) - t.solutions = k + 1 :=
      ⟨max limit (t.solutions + 1) - t.solutions - 1, by omega⟩
    have hcount := t.count_solutions moment
    have hle := (t.count moment).solutions_le_after rest
    have hsame : ∀ rest, t.after (moment :: rest) = (t.count moment).after rest := fun _ => rfl
    rw [replay, isEnough, h, hk, upTo, hsame, hsame]
    dsimp only
    cases hsolution : moment.isSolution with
    | false =>
      rw [hsolution, if_neg Bool.false_ne_true, Nat.add_zero] at hcount
      rw [Bool.false_and, if_neg Bool.false_ne_true, if_neg Bool.false_ne_true, ih, hcount, hk]
    | true =>
      rw [hsolution, if_pos rfl] at hcount
      rw [Bool.true_and, if_pos rfl]
      by_cases henough : limit ≤ (t.count moment).solutions
      · have hzero : k = 0 := by omega
        have hmet : max limit (t.solutions + 1) ≤ ((t.count moment).after rest).solutions := by omega
        rw [if_pos (decide_eq_true henough), hzero, upTo, decide_eq_true hmet]
        rfl
      · have hmax : max limit ((t.count moment).solutions + 1) = max limit (t.solutions + 1) := by
          omega
        have hless : max limit (t.solutions + 1) - (t.count moment).solutions = k := by omega
        rw [if_neg (by simpa using henough), ih, hmax, hless]

end Search

/-! ## Searches follow their courses -/

open Tame

/-- A level that was saved can be restored after a part of a search, which takes the model back. -/
theorem Model.Orderly.comes_back [Propagator π] [Tame π] {m m₁ m₂ : Model π} {n : Nat}
    (h : m.Orderly) (hstays : Stays m.save m₁) (hback : Back n m₁ m₂) :
    ∃ m', m₂.restore = .ok m' ∧ Back (n + 1) m m' := by
  obtain ⟨m', hret, _⟩ := h.toTallied.resumes hback.orderly.toTallied
    (hstays.keeps.trans hback.resumed.toSameBelow.keeps)
  exact ⟨m', hret, (h.back hstays hback hret).2⟩

namespace Search

variable [Propagator π] [Tame π] {q : Search} {observe : Model π → Except Fault ρ} {m : Model π}
  {t : Tally ρ} {chain : List Attempt} {c : Traced ρ (Bool × Model π × Tally ρ)}
  {result : Except Fault (Bool × Model π × Tally ρ)}

/-- A part of a search that begins at the model `m` does what the part `c` of the search without limit
does, unless there are enough solutions on the way.  Then it stops, and gives the model back. -/
def Follows (q : Search) (m : Model π) (t : Tally ρ) (c : Traced ρ (Bool × Model π × Tally ρ))
    (result : Except Fault (Bool × Model π × Tally ρ)) : Prop :=
  if (q.replay t c.moments).1 then
    ∃ n m', m.Back n m' ∧ result = .ok (true, m', (q.replay t c.moments).2)
  else result = c.outcome

/-- What the search without limit does after `c` does not matter if the search stops in `c`. -/
theorem Follows.of_stop {c' : Traced ρ (Bool × Model π × Tally ρ)} {more : List (Moment ρ)}
    {n : Nat} {m' : Model π} (hmoments : c'.moments = c.moments ++ more)
    (hstop : (q.replay t c.moments).1 = true) (hback : m.Back n m')
    (hresult : result = .ok (true, m', (q.replay t c.moments).2)) : q.Follows m t c' result := by
  have hreplay : q.replay t c'.moments = q.replay t c.moments := by
    rw [hmoments, replay_append, if_pos hstop]
  rw [Follows, hreplay, if_pos hstop]
  exact ⟨n, m', hback, hresult⟩

/-- One part of a search follows, and so does the next one unless the search stops. -/
theorem Follows.andThen (h : q.Follows m t c result)
    (hthrough : ∀ r, c.outcome = .ok r →
      r.1 = false ∧ r.2.2 = t.after c.moments ∧ ∃ n, m.Back n r.2.1)
    {next : Model π → Tally ρ → Traced ρ (Bool × Model π × Tally ρ)}
    {go : Model π → Tally ρ → Except Fault (Bool × Model π × Tally ρ)}
    (hnext : ∀ n m' t', m.Back n m' → q.Follows m' t' (next m' t') (go m' t')) :
    q.Follows m t
      (c >>= fun r =>
        match r with
        | (true, m, t) => pure (true, m, t)
        | (false, m, t) => next m t)
      (result >>= fun r =>
        match r with
        | (true, m, t) => .ok (true, m, t)
        | (false, m, t) => go m t) := by
  cases hstop : (q.replay t c.moments).1 with
  | true =>
    rw [Follows, if_pos hstop] at h
    obtain ⟨n, m', hback, rfl⟩ := h
    obtain ⟨more, hmore⟩ := c.moments_bind fun r =>
      match r with
      | (true, m, t) => pure (true, m, t)
      | (false, m, t) => next m t
    exact .of_stop hmore hstop hback rfl
  | false =>
    rw [Follows, hstop, if_neg Bool.false_ne_true] at h
    subst h
    cases houtcome : c.outcome with
    | error fault =>
      rw [Traced.bind_of_error houtcome, Follows, hstop, if_neg Bool.false_ne_true, error_bind]
    | ok r =>
      obtain ⟨stop, m', t'⟩ := r
      obtain ⟨rfl, rfl, n, hback⟩ := hthrough _ houtcome
      have hreplay : ∀ moments, q.replay t (c.moments ++ moments) =
          q.replay (t.after c.moments) moments := by
        intro moments
        rw [replay_append, replay_eq_after hstop, if_neg Bool.false_ne_true]
      have hnext := hnext n m' (t.after c.moments) hback
      rw [Traced.bind_of_ok houtcome, ok_bind]
      rw [Follows] at hnext ⊢
      rw [hreplay]
      split at hnext
      · rename_i hstop'
        obtain ⟨n', m'', hback', hret⟩ := hnext
        rw [if_pos hstop']
        exact ⟨n + n', m'', hback.trans hback', hret⟩
      · rename_i hstop'
        rwa [if_neg hstop']

/-- A node is entered by both searches. -/
theorem Follows.enter {visit : Visit} (h : q.Follows m t.visited c result) :
    q.Follows m t ⟨.node visit :: c.moments, c.outcome⟩ result := h

/-- A solution is shown to the observer of both searches. -/
theorem Follows.solution (hm : m.Orderly) {report : ρ} :
    q.Follows m t ⟨[.solution report], .ok (false, m, t.solved report)⟩
      (.ok (q.isEnough (t.solved report), m, t.solved report)) := by
  have hreplay : q.replay t [.solution report] =
      (q.isEnough (t.solved report), t.solved report) := by
    simp only [replay, Moment.isSolution, Tally.count, Bool.true_and]
    cases q.isEnough (t.solved report) <;> rfl
  rw [Follows, hreplay]
  cases q.isEnough (t.solved report) with
  | true => exact ⟨0, m, .refl hm, rfl⟩
  | false => rfl

/-- A part of a search on a level of its own follows, also when the level is restored. -/
theorem Follows.restored {m₁ : Model π} (h : q.Follows m₁ t c result) (hm : m.Orderly)
    (hstays : m.save.Stays m₁) :
    q.Follows m t (c >>= fun r => Traced.of r.2.1.restore >>= fun m => pure (r.1, m, r.2.2))
      (result >>= fun r => r.2.1.restore >>= fun m => .ok (r.1, m, r.2.2)) := by
  cases hstop : (q.replay t c.moments).1 with
  | true =>
    rw [Follows, if_pos hstop] at h
    obtain ⟨n, m₂, hback, rfl⟩ := h
    obtain ⟨m', hrestore, hback'⟩ := hm.comes_back hstays hback
    obtain ⟨more, hmore⟩ := c.moments_bind fun r =>
      Traced.of r.2.1.restore >>= fun m => pure (r.1, m, r.2.2)
    refine .of_stop hmore hstop hback' ?_
    rw [ok_bind, hrestore, ok_bind]
  | false =>
    rw [Follows, hstop, if_neg Bool.false_ne_true] at h
    subst h
    rw [Follows, c.moments_bind_eq fun r => Traced.moments_of_bind_pure _ _, hstop,
      if_neg Bool.false_ne_true]
    simp only [Traced.outcome_bind]
    rfl

/-- A branch follows if the node at its end does. -/
theorem traceBranch_follows (hm : m.Orderly)
    {go : Model π → Tally ρ → Traced ρ (Bool × Model π × Tally ρ)}
    {explore : Model π → Tally ρ → Except Fault (Bool × Model π × Tally ρ)} (a : Attempt)
    (hgo : ∀ m₁ t, m₁.Orderly → q.Follows m₁ t (go m₁ t) (explore m₁ t)) (t : Tally ρ) :
    q.Follows m t (traceBranch go a m t) (branch explore (·.apply (.attempt a)) m t) := by
  unfold traceBranch branch
  cases hattempt : attempt (·.apply (.attempt a)) m.save with
  | error fault =>
    rw [Traced.of_error_bind, error_bind]
    rfl
  | ok r =>
    have hstays := hm.save.stays_attempt hattempt
    rw [Traced.of_ok_bind, ok_bind]
    obtain ⟨_ | why, m₁⟩ := r
    · exact (hgo m₁ t hstays.orderly).restored hm hstays
    · obtain ⟨m', hrestore, hback⟩ := hm.comes_back hstays (.refl hstays.orderly)
      dsimp only
      rw [hrestore, Traced.tell_bind, Traced.of_ok_bind]
      rfl

/-- A node is explored with all that is below it.  The induction is on the turns. -/
theorem traceNode_follows (hm : m.Orderly) (q : Search) (observe : Model π → Except Fault ρ)
    (fuel : Nat) (chain : List Attempt) (t : Tally ρ) :
    q.Follows m t ({ q with limit := none }.traceNode observe fuel chain m t)
      (q.explore observe fuel m t) := by
  induction fuel generalizing m chain t with
  | zero => rfl
  | succ fuel ih =>
    rw [traceNode, Traced.tell_bind, explore]
    refine .enter ?_
    have hdecide : { q with limit := none }.decide? m = q.decide? m := rfl
    rw [hdecide]
    obtain fault | _ | ⟨x, v⟩ := q.decide? m
    · rw [Traced.of_error_bind, error_bind]
      rfl
    · rw [Traced.of_ok_bind, ok_bind]
      dsimp only
      obtain fault | report := observe m
      · rw [Traced.of_error_bind, error_bind]
        rfl
      · rw [Traced.of_ok_bind, Traced.tell_bind, ok_bind]
        exact .solution hm
    · rw [Traced.of_ok_bind, ok_bind]
      have hleft := traceBranch_follows hm (.fix x v)
        (fun m₁ t hm₁ => ih hm₁ (.fix x v :: chain) t) t.visited
      refine hleft.andThen (fun r hret => ?_) fun n m' t' hback =>
        traceBranch_follows hback.orderly (.remove x v)
          (fun m₁ t hm₁ => ih hm₁ (.remove x v :: chain) t) t'
      exact (traceBranch_walked hm traceNode_walked (Traced.eq_mk hret)).goes_on rfl

/-- A whole search does what its course says.  It stops when there are enough solutions. -/
def Comes (q : Search) (c : Traced ρ (Model π)) (result : Except Fault (Tally ρ × Model π)) : Prop :=
  (∃ t m, q.replay .zero c.moments = (true, t) ∧ result = .ok (t, m)) ∨
    ∃ t, q.replay .zero c.moments = (false, t) ∧ result = (fun m => (t, m)) <$> c.outcome

/-- The root is explored on a level of its own. -/
theorem traceRoot_comes (hm : m.Orderly) (q : Search) (observe : Model π → Except Fault ρ)
    (fuel : Nat) :
    q.Comes (Prod.snd <$> { q with limit := none }.traceRoot observe fuel m)
      (q.explore observe fuel m.save .zero >>= fun r =>
        r.2.1.restore >>= fun m => .ok (r.2.2, m)) := by
  have h := traceNode_follows hm.save q observe fuel [] .zero
  have htally : ∀ r, ({ q with limit := none }.traceNode observe fuel [] m.save .zero).outcome =
      .ok r → r.2.2 = _ := fun r hret => (traceNode_walked hm.save (Traced.eq_mk hret)).tally_eq
  unfold traceRoot
  generalize { q with limit := none }.traceNode observe fuel [] m.save .zero = c at h htally ⊢
  have hmoments : (c >>= fun r => Traced.of r.2.1.restore >>= fun m => pure (r.2.2, m)).moments =
      c.moments := c.moments_bind_eq fun r => Traced.moments_of_bind_pure _ _
  rw [Comes, Traced.moments_map]
  cases hstop : (q.replay .zero c.moments).1 with
  | true =>
    rw [Follows, if_pos hstop] at h
    obtain ⟨n, m₂, hback, heq⟩ := h
    obtain ⟨m', hrestore, _⟩ := hm.comes_back (.of_same hm.save (.refl _) fun _ _ hp => hp) hback
    refine Or.inl ⟨(q.replay .zero c.moments).2, m', ?_, ?_⟩
    · rw [hmoments, ← hstop]
    · rw [heq, ok_bind, hrestore, ok_bind]
  | false =>
    rw [Follows, hstop, if_neg Bool.false_ne_true] at h
    refine Or.inr ⟨_, by rw [hmoments, replay_eq_after hstop], ?_⟩
    rw [h, Traced.outcome_map, Traced.outcome_bind]
    cases houtcome : c.outcome with
    | error fault => rfl
    | ok r =>
      obtain ⟨stop, m₂, t⟩ := r
      obtain rfl : t = _ := htally _ houtcome
      rw [ok_bind, ok_bind]
      cases m₂.restore <;> rfl

/-- A whole search follows its course. -/
theorem course_follows (hm : m.Orderly) (q : Search) (observe : Model π → Except Fault ρ) :
    q.Comes (q.course observe m) (q.solve observe m) := by
  unfold course
  cases hfixpoint : m.fixpoint with
  | error fault =>
    rw [trace_of_error hfixpoint, solve, hfixpoint]
    exact Or.inr ⟨_, rfl, rfl⟩
  | ok r =>
    obtain ⟨_ | why, m₁⟩ := r
    · rw [trace_of_fixpoint hfixpoint, solve_of_fixpoint hfixpoint]
      exact traceRoot_comes (hm.fixpoint hfixpoint).orderly q observe _
    · rw [trace_of_failed hfixpoint, solve_of_failed hfixpoint]
      exact Or.inr ⟨_, rfl, rfl⟩

end Search

/-! ## The result -/

/-- A search for `k` solutions, of which the search without limit has the course `c`, is cut short. -/
structure CutShort (k : Nat) (c : Traced ρ (Model π))
    (unlimited limited : Except Fault (Tally ρ × Model π)) : Prop where
  /-- The search without limit counts all moments. -/
  unlimited_eq : unlimited = (fun m => (Tally.zero.after c.moments, m)) <$> c.outcome
  /-- If there are `k` solutions, it stops at the `k`-th, with what was counted by then. -/
  reached : k ≤ (Tally.zero.after c.moments).solutions →
    (∃ before report, upTo k c.moments = before ++ [.solution report]) ∧
      ∃ m, limited = .ok (Tally.zero.after (upTo k c.moments), m)
  /-- If there are fewer, it does what the search without limit does. -/
  missed : (Tally.zero.after c.moments).solutions < k →
    upTo k c.moments = c.moments ∧ limited = unlimited
  counted : upTo k c.moments <+: c.moments
  solutions_eq : (Tally.zero.after (upTo k c.moments)).solutions =
    min k (Tally.zero.after c.moments).solutions
  reports_eq : (Tally.zero.after (upTo k c.moments)).reports.toList =
    (Tally.zero.after c.moments).reports.toList.take (min k (Tally.zero.after c.moments).solutions)

/-- A search that follows a course with a limit is cut short. -/
theorem CutShort.of_replays {q q' : Search} {limit : Nat} {c : Traced ρ (Model π)}
    {unlimited limited : Except Fault (Tally ρ × Model π)} (hq : q.limit = none)
    (hq' : q'.limit = some limit) (h : q.Comes c unlimited) (h' : q'.Comes c limited) :
    CutShort (max limit 1) c unlimited limited := by
  have hzero : (Tally.zero : Tally ρ).solutions = 0 := rfl
  have hunlimited : unlimited = (fun m => (Tally.zero.after c.moments, m)) <$> c.outcome := by
    rw [Search.Comes, Search.replay_unlimited hq] at h
    obtain ⟨t, m, heq, _⟩ | ⟨t, heq, hret⟩ := h
    · cases heq
    · cases heq
      exact hret
  rw [Search.Comes, Search.replay_limited hq', hzero, Nat.zero_add, Nat.sub_zero] at h'
  have hsolutions := Tally.after_upTo_solutions .zero (max limit 1) c.moments
  rw [hzero, Nat.zero_add] at hsolutions
  refine ⟨hunlimited, fun hmet => ?_, fun hmissed => ?_, upTo_prefix _ _, hsolutions, ?_⟩
  · refine ⟨Tally.upTo_eq_append .zero (by omega) (by omega), ?_⟩
    rw [decide_eq_true hmet] at h'
    obtain ⟨t, m, heq, hret⟩ | ⟨t, heq, _⟩ := h'
    · cases heq
      exact ⟨m, hret⟩
    · cases heq
  · have hall : upTo (max limit 1) c.moments = c.moments := Tally.upTo_eq .zero (by omega)
    rw [decide_eq_false (Nat.not_le_of_lt hmissed), hall] at h'
    obtain ⟨t, m, heq, _⟩ | ⟨t, heq, hret⟩ := h'
    · cases heq
    · cases heq
      exact ⟨hall, hret.trans hunlimited.symm⟩
  · -- The reports of the moments that are counted come first among all reports.
    obtain ⟨rest, hrest⟩ := upTo_prefix (max limit 1) c.moments
    have hsize := Tally.after_size (t := .zero) rfl (upTo (max limit 1) c.moments)
    have hprefix := (Tally.zero.after (upTo (max limit 1) c.moments)).reports_prefix_after rest
    rw [← Tally.after_append, hrest] at hprefix
    rw [← hsolutions, ← hsize, ← Array.length_toList]
    exact List.prefix_iff_eq_take.1 hprefix

namespace Model

variable [Propagator π] [Tame π] {m : Model π}

/-- A search with a limit is the search without limit, cut short at the solution that makes enough,
which is the first one if the limit is zero. -/
theorem Reachable.limit_cuts_short (h : m.Reachable) (q : Search)
    (observe : Model π → Except Fault ρ) (limit : Nat) :
    CutShort (max limit 1) (q.course observe m) ({ q with limit := none }.solve observe m)
      ({ q with limit := some limit }.solve observe m) := by
  -- The course is that of the search without limit, whatever the limit is.
  have hcomes : ∀ limit, Search.Comes { q with limit } (q.course observe m)
      ({ q with limit }.solve observe m) :=
    fun limit => Search.course_follows h.orderly { q with limit } observe
  exact .of_replays rfl rfl (hcomes none) (hcomes (some limit))

/-- A limit of zero stops the search at its first solution, before the last node and the failure that
the search without limit comes to. -/
theorem Reachable.limit_cuts_short_contested : ∃ m t m' t₀ m₀,
    (Model.empty .lastFirst).applyAll contested = .ok m ∧
    Search.solve ⟨[⟨0⟩, ⟨1⟩], .hinted, none⟩ (·.store.values ⟨1⟩) m = .ok (t₀, m₀) ∧
    t₀.nodes = 4 ∧ t₀.failures = 1 ∧ t₀.reports = #[[2], [3]] ∧
    Search.solve ⟨[⟨0⟩, ⟨1⟩], .hinted, some 0⟩ (·.store.values ⟨1⟩) m = .ok (t, m') ∧
    t.nodes = 3 ∧ t.failures = 0 ∧ t.reports = #[[2]] ∧
    CutShort 1 (Search.course ⟨[⟨0⟩, ⟨1⟩], .hinted, none⟩ (·.store.values ⟨1⟩) m) (.ok (t₀, m₀))
      (.ok (t, m')) := by
  have hrun : ((Model.empty .lastFirst).applyAll contested >>= fun m =>
      Search.solve ⟨[⟨0⟩, ⟨1⟩], .hinted, none⟩ (·.store.values ⟨1⟩) m >>= fun whole =>
      Search.solve ⟨[⟨0⟩, ⟨1⟩], .hinted, some 0⟩ (·.store.values ⟨1⟩) m >>= fun cut =>
        .ok (whole.1, cut.1)) =
      .ok (⟨4, 1, 2, #[[2], [3]]⟩, ⟨3, 0, 1, #[[2]]⟩) := by decide +kernel
  obtain ⟨m, hm, hrun⟩ := bind_eq_ok_iff.1 hrun
  obtain ⟨⟨t₀, m₀⟩, hwhole, hrun⟩ := bind_eq_ok_iff.1 hrun
  obtain ⟨⟨t, m'⟩, hcut, heq⟩ := bind_eq_ok_iff.1 hrun
  simp only [Except.ok.injEq, Prod.mk.injEq] at heq
  obtain ⟨rfl, rfl⟩ := heq
  refine ⟨m, _, m', _, m₀, hm, hwhole, rfl, rfl, rfl, hcut, rfl, rfl, rfl, ?_⟩
  rw [← hwhole, ← hcut]
  exact (Reachable.of_applyAll welcome_contested hm).limit_cuts_short _ _ 0

end Model

end FiniteDomain
