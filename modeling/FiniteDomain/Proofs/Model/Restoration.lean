import FiniteDomain.Proofs.Script

/-!
# A model is put back

What clients do to a model between saving a level and restoring it is undone: variables, domains,
constraints, and who listens to what.  Only the propagators remember, and they are told.

* `Operation` is what clients do, `Model.Applies` a list of such operations and
  `Model.Reachable` what they can make of a new model.
* `Operation.Balanced` holds of operations that restore every level that they save, and no other.
* `Model.Above` is what holds of a model in which levels were saved after a given one.
* `Reachable.reinstates` is the result.
-/

namespace FiniteDomain

open Tame

variable {π : Type}

/-! ## What clients do -/

/-- What clients do to a model. -/
inductive Operation (π : Type) where
  | declare (d : Declaration)
  /-- Makes a propagator, for which cells may be needed, and posts it. -/
  | post (make : Store → Except Fault (π × Store))
  | listen (c : Constraint) (kind : Condition.Kind) (x : Var)
  | schedule (c : Constraint)
  | attempt (a : Attempt)
  | save
  | restore
  | fixpoint

namespace Operation

/-- The number of levels that are open after the operations, if `n` were before.  None of the `n`
is restored below. -/
def openLevels : Nat → List (Operation π) → Option Nat
  | n, [] => some n
  | n, .save :: ops => openLevels (n + 1) ops
  | 0, .restore :: _ => none
  | n + 1, .restore :: ops => openLevels n ops
  | n, _ :: ops => openLevels n ops

/-- Every level that is saved is restored, and no other is. -/
def Balanced (ops : List (Operation π)) : Prop := openLevels 0 ops = some 0

/-- The number of levels that are restored. -/
def restores : List (Operation π) → Nat
  | [] => 0
  | .restore :: ops => restores ops + 1
  | _ :: ops => restores ops

theorem openLevels_of_within {op : Operation π} (hsave : op ≠ .save) (hrestore : op ≠ .restore)
    (n : Nat) (ops : List (Operation π)) : openLevels n (op :: ops) = openLevels n ops := by
  cases op with
  | save => exact absurd rfl hsave
  | restore => exact absurd rfl hrestore
  | _ => cases n <;> rfl

theorem restores_of_ne {op : Operation π} (hrestore : op ≠ .restore) (ops : List (Operation π)) :
    restores (op :: ops) = restores ops := by
  cases op with
  | restore => exact absurd rfl hrestore
  | _ => rfl

/-- The operation is about variables and constraints that exist. -/
def InRange (m : Model π) : Operation π → Prop
  | declare d => d.Valid m.store
  | listen c _ x => c.index < m.propagators.size ∧ x.index < m.store.definitions.size
  | schedule c => c.index < m.propagators.size
  | attempt a => a.var.index < m.store.definitions.size
  | post _ | save | restore | fixpoint => True

/-- Whether a propagator is posted. -/
def posts : Operation π → Bool
  | post _ => true
  | _ => false

/-- Posts an all different propagator. -/
def making (wrap : AllDifferent → π) (vars : List Var) (options : AllDifferent.Options) :
    Operation π :=
  .post fun s => do
    let (p, s) ← AllDifferent.new s vars.toArray options
    return (wrap p, s)

/-- Installs an all different constraint, which becomes the constraint `c`. -/
def installing (wrap : AllDifferent → π) (vars : List Var) (options : AllDifferent.Options)
    (c : Constraint) : List (Operation π) :=
  making wrap vars options :: (vars.map (.listen c .domainChanged) ++ [.schedule c, .fixpoint])

end Operation

namespace Model

variable [Propagator π] {m m' m₀ m₁ : Model π} {op : Operation π} {ops : List (Operation π)}
  {verdict : Verdict}

/-- Does an operation. -/
def apply (m : Model π) : Operation π → Except Fault (Verdict × Model π)
  | .declare d => do
    let (_, m) ← m.onStore (·.declare d)
    return (.consistent, m)
  | .post make => do
    let (p, m) ← m.onStore make
    let (_, m) ← m.post p
    return (.consistent, m)
  | .listen c kind x => do
    let m ← m.listen c kind x
    return (.consistent, m)
  | .schedule c => .ok (.consistent, m.schedule c)
  | .attempt a => m.onStore (·.attempt a)
  | .save => .ok (.consistent, m.save)
  | .restore => do
    let m ← m.restore
    return (.consistent, m)
  | .fixpoint => m.fixpoint

theorem apply_post {make : Store → Except Fault (π × Store)} {p : π} {s : Store} {c : Constraint}
    (hmake : make m.store = .ok (p, s))
    (hpost : ({ m with store := s } : Model π).post p = .ok (c, m')) :
    m.apply (.post make) = .ok (.consistent, m') := by
  rw [Model.apply, onStore_eq_ok_iff.2 ⟨s, hmake, rfl⟩, ok_bind]
  dsimp only
  rw [hpost, ok_bind]
  rfl

variable [Tame π]

/-- The operation is about variables and constraints that exist, and a propagator that it posts fits
the model. -/
structure Allows (m : Model π) (op : Operation π) : Prop where
  inRange : op.InRange m
  posts : ∀ make, op = .post make → ∀ p s, make m.store = .ok (p, s) →
    m.store.Grown s ∧ Admits { m with store := s } p

/-- Several operations are done, whatever their answers are. -/
inductive Applies : Model π → List (Operation π) → Model π → Prop
  | nil (m : Model π) : Applies m [] m
  | cons {m m₁ m' : Model π} {op : Operation π} {ops : List (Operation π)} {verdict : Verdict}
      (hallows : m.Allows op) (hret : m.apply op = .ok (verdict, m₁)) :
      Applies m₁ ops m' → Applies m (op :: ops) m'

/-- What operations make of a new model. -/
inductive Reachable : Model π → Prop
  | start (order : DrainOrder) : Reachable (Model.empty order)
  | step {m m' : Model π} {op : Operation π} {verdict : Verdict} (hallows : m.Allows op)
      (hret : m.apply op = .ok (verdict, m')) : Reachable m → Reachable m'

/-- Operations that neither save nor restore a level. -/
theorem Orderly.stays_apply (h : m.Orderly) (hallows : m.Allows op) (hsave : op ≠ .save)
    (hrestore : op ≠ .restore) (hret : m.apply op = .ok (verdict, m')) : Stays m m' := by
  cases op with
  | declare d =>
    obtain ⟨⟨x, m₁⟩, hdeclare, hret⟩ := bind_eq_ok_iff.1 hret
    obtain ⟨s, hs, rfl⟩ := onStore_eq_ok_iff.1 hdeclare
    cases hret
    have hgrown := Declaration.declare_grown h.store hallows.inRange hs
    exact .of_same (h.of_grown hgrown) (.of_store (.of_grown h.store hgrown)) fun _ _ hp => hp
  | post make =>
    obtain ⟨⟨p, m₁⟩, hmake, hret⟩ := bind_eq_ok_iff.1 hret
    obtain ⟨s, hs, rfl⟩ := onStore_eq_ok_iff.1 hmake
    obtain ⟨⟨c, m₂⟩, hpost, hret⟩ := bind_eq_ok_iff.1 hret
    cases hret
    obtain ⟨hgrown, hadmits⟩ := hallows.posts make rfl p s hs
    have horderly := h.of_grown hgrown
    obtain ⟨horderly', _, hpush, _⟩ := horderly.post hadmits hpost
    refine .of_same horderly' (.trans (.of_store (.of_grown h.store hgrown))
      (horderly.toTallied.keeps_post hpost)) fun i q hq => ?_
    rw [hpush, Array.getElem?_push_lt (Array.getElem?_eq_some_iff.1 hq).1]
    exact (Array.getElem?_eq_getElem _).symm.trans hq
  | listen c kind x =>
    obtain ⟨m₁, hlisten, hret⟩ := bind_eq_ok_iff.1 hret
    cases hret
    obtain ⟨horderly, hsame⟩ := h.listen hallows.inRange.1 hlisten
    refine .of_same horderly (h.toTallied.keeps_listen hallows.inRange.1 hlisten) fun i p hp => ?_
    rw [hsame]
    exact hp
  | schedule c =>
    cases hret
    refine .of_same (h.schedule c) (schedule_keeps m c) fun i p hp => ?_
    rw [Model.schedule]
    split <;> exact hp
  | attempt a =>
    have hret : m.onStore (·.attempt a) = .ok (verdict, m') := hret
    obtain ⟨s, hs, rfl⟩ := onStore_eq_ok_iff.1 hret
    obtain ⟨_, _, _, _, hshrinks, _⟩ := Store.attempt_spec h.store hs
    exact .of_same (h.of_evolves hshrinks.toEvolves)
      (.of_store (.of_evolves h.store hshrinks.toEvolves)) fun _ _ hp => hp
  | save => exact absurd rfl hsave
  | restore => exact absurd rfl hrestore
  | fixpoint => exact h.fixpoint hret

/-- Whatever is done, the model stays orderly. -/
theorem Orderly.apply (h : m.Orderly) (hallows : m.Allows op)
    (hret : m.apply op = .ok (verdict, m')) : m'.Orderly := by
  by_cases hsave : op = .save
  · subst hsave
    cases hret
    exact h.save
  by_cases hrestore : op = .restore
  · subst hrestore
    obtain ⟨m₁, hret, heq⟩ := bind_eq_ok_iff.1 hret
    cases heq
    exact (h.restore hret).1
  · exact (h.stays_apply hallows hsave hrestore hret).orderly

theorem Reachable.orderly (h : m.Reachable) : m.Orderly := by
  induction h with
  | start order => exact .empty order
  | step hallows hret _ ih => exact ih.apply hallows hret

/-! ### Constraints are installed -/

theorem Orderly.allows_making (h : m.Orderly) {wrap : AllDifferent → π} (hwrap : Wraps wrap)
    (vars : List Var) (options : AllDifferent.Options) :
    m.Allows (.making wrap vars options) := by
  refine ⟨trivial, fun make hmake p s hret => ?_⟩
  cases hmake
  obtain ⟨⟨q, s₁⟩, hnew, heq⟩ := bind_eq_ok_iff.1 hret
  cases heq
  exact h.admits_new hwrap hnew

/-- Listening to all variables is an operation for each. -/
theorem Orderly.applies_listenAll (h : m.Orderly) {c : Constraint}
    (hc : c.index < m.propagators.size) {vars : List Var}
    (hvars : ∀ x ∈ vars, x.index < m.store.definitions.size)
    (hret : listenAll c vars m = .ok m₁) (hrun : m₁.Orderly → m₁.propagators = m.propagators →
      Applies m₁ ops m') : Applies m (vars.map (.listen c .domainChanged) ++ ops) m' := by
  induction vars generalizing m with
  | nil =>
    cases hret
    exact hrun h rfl
  | cons x rest ih =>
    obtain ⟨m₂, hlisten, hret⟩ := bind_eq_ok_iff.1 hret
    obtain ⟨hm₂, hsame⟩ := h.listen hc hlisten
    have hdefinitions : m₂.store.definitions = m.store.definitions := by
      obtain ⟨_, _, _, ⟨_, rfl⟩ | ⟨s, hwrote, rfl⟩⟩ := h.toTallied.listen_cases hc hlisten
      · rfl
      · exact hwrote.definitions_eq
    have hlistens : m.apply (.listen c .domainChanged x) = .ok (.consistent, m₂) := by
      rw [Model.apply, hlisten, ok_bind]
      rfl
    refine .cons ⟨⟨hc, hvars x (List.mem_cons_self ..)⟩, fun make hmake => by cases hmake⟩ hlistens
      (ih hm₂ (hsame ▸ hc) (fun y hy => ?_) hret fun hm hsame' => hrun hm (hsame'.trans hsame))
    rw [hdefinitions]
    exact hvars y (List.mem_cons_of_mem _ hy)

/-- Installing a constraint is a list of operations. -/
theorem Orderly.applies_install (h : m.Orderly) {wrap : AllDifferent → π} (hwrap : Wraps wrap)
    {vars : List Var} {options : AllDifferent.Options}
    (hret : m.install wrap vars options = .ok (verdict, m')) :
    Applies m (Operation.installing wrap vars options ⟨m.propagators.size⟩) m' := by
  obtain ⟨m₄, henlist, hfixpoint⟩ := bind_eq_ok_iff.1 hret
  obtain ⟨⟨p, m₁⟩, hnew, henlist⟩ := bind_eq_ok_iff.1 henlist
  obtain ⟨s, hs, rfl⟩ := onStore_eq_ok_iff.1 hnew
  obtain ⟨⟨c, m₂⟩, hpost, henlist⟩ := bind_eq_ok_iff.1 henlist
  obtain ⟨m₃, hlisten, heq⟩ := bind_eq_ok_iff.1 henlist
  cases heq
  obtain ⟨hgrown, hadmits⟩ := h.admits_new hwrap hs
  obtain ⟨hm₂, hc, hpush, _⟩ := (h.of_grown hgrown).post hadmits hpost
  obtain ⟨s₂, hwrote, _, hm₂', _⟩ := (h.of_grown hgrown).toTallied.post_eq hpost
  cases hc
  have hlt : m.propagators.size < m₂.propagators.size := by
    rw [hpush, Array.size_push]
    exact Nat.lt_succ_self _
  have hmake : m.apply (.making wrap vars options) = .ok (.consistent, m₂) :=
    apply_post (bind_eq_ok_iff.2 ⟨(p, s), hs, rfl⟩) hpost
  refine .cons (h.allows_making hwrap vars options) hmake (hm₂.applies_listenAll hlt (fun x hx => ?_)
    hlisten fun hm₃ hsame => ?_)
  · rw [hm₂']
    dsimp only
    rw [hwrote.definitions_eq]
    exact Nat.lt_of_lt_of_le (AllDifferent.lt_of_new hs x hx) hgrown.definitions_le
  · have hschedules : m₃.apply (.schedule ⟨m.propagators.size⟩ : Operation π) =
        .ok (.consistent, m₃.schedule ⟨m.propagators.size⟩) := rfl
    refine .cons ⟨?_, fun make hmake => by cases hmake⟩ hschedules
      (.cons ⟨trivial, fun make hmake => by cases hmake⟩ hfixpoint (.nil _))
    show m.propagators.size < m₃.propagators.size
    rw [hsame]
    exact hlt

/-! ## Levels above a level -/

section

omit [Tame π]

/-- `n` levels were saved above the one that was saved at `m₀`. -/
inductive Above (m₀ : Model π) : Nat → Model π → Prop
  | ground {m : Model π} (hkeeps : m₀.save.Keeps m) : Above m₀ 0 m
  | level {n : Nat} {m₁ m : Model π} (htallied : m₁.Tallied) (hkeeps : m₁.save.Keeps m) :
      Above m₀ n m₁ → Above m₀ (n + 1) m

namespace Above

variable {n : Nat}

omit [Propagator π] in
theorem later (h : Above m₀ n m) (hkeeps : m.Keeps m') : Above m₀ n m' := by
  cases h with
  | ground h => exact .ground (h.trans hkeeps)
  | level htallied h hbelow => exact .level htallied (h.trans hkeeps) hbelow

/-- A level above it is restored. -/
theorem restore (h : Above m₀ (n + 1) m) (hm : m.Tallied) (hret : m.restore = .ok m') :
    Above m₀ n m' := by
  cases h with
  | level htallied hkeeps hbelow =>
    obtain ⟨_, hret', _, hresumed⟩ := htallied.resumes hm hkeeps
    cases hret.symm.trans hret'
    exact hbelow.later hresumed.toSameBelow.keeps

omit [Propagator π] in
/-- The saved level is among the frames. -/
theorem mem_past (h : Above m₀ n m) (hm₀ : m₀.Tallied) :
    m₀.store.trail.now ∈ m.store.trail.past ∧ m.propagatorCount = m₀.propagatorCount := by
  have hsave : ∀ {m : Model π}, m.Tallied →
      m.save.store.trail.past = m.store.trail.now :: m.store.trail.past :=
    fun hm => (Trail.save_eq hm.store.trail.tracked).2.1
  induction h with
  | ground hkeeps =>
    rw [hkeeps.store.past_eq, hsave hm₀]
    exact ⟨List.mem_cons_self .., hkeeps.propagatorCount_eq⟩
  | level htallied hkeeps _ ih =>
    rw [hkeeps.store.past_eq, hsave htallied]
    exact ⟨List.mem_cons_of_mem _ ih.1, hkeeps.propagatorCount_eq.trans ih.2⟩

omit [Propagator π] in
theorem size_le (h : Above m₀ n m) (hm₀ : m₀.Tallied) (hm : m.Tallied) :
    m₀.propagators.size ≤ m.propagators.size := by
  obtain ⟨hmem, hcount⟩ := h.mem_past hm₀
  have hle := (hm.past_le hmem).1
  rwa [constraintsIn, hcount, ← constraintsIn, hm₀.propagators_now] at hle

end Above

end

/-- The propagators of `m₀` are still there, and were told of `k` restored levels. -/
def Told (m₀ : Model π) (k : Nat) (m : Model π) : Prop :=
  ∀ (i : Nat) (p : π), m₀.propagators[i]? = some p →
    ∃ p', m.propagators[i]? = some p' ∧ Lived p k p'

/-- A restored level is told to the propagators that are left. -/
theorem Told.restore {k : Nat} (h : Told m₀ k m) (hm : m.Orderly) (hret : m.restore = .ok m')
    (hle : m₀.propagators.size ≤ m'.propagators.size) : Told m₀ (k + 1) m' := by
  intro i p hp
  obtain ⟨p', hp', hlived⟩ := h i p hp
  have hlt := (Array.getElem?_eq_some_iff.1 hp).1
  refine ⟨Propagator.onRestore p', ?_, hlived.restored⟩
  rw [(hm.restore hret).2.2, Array.getElem?_map, Trail.getElem?_shrink,
    if_pos (Nat.lt_of_lt_of_le hlt hle), hp', Option.map_some]

/-- Operations are done above a saved level.  The induction is on the operations; the levels that are
open meanwhile lie above the saved one, which therefore stays. -/
theorem Applies.above {n n' k : Nat} (h : Applies m ops m') (hm : m.Orderly) (hm₀ : m₀.Tallied)
    (habove : Above m₀ n m) (htold : Told m₀ k m) (hopen : Operation.openLevels n ops = some n') :
    m'.Orderly ∧ Above m₀ n' m' ∧ Told m₀ (k + Operation.restores ops) m' := by
  induction h generalizing n k with
  | nil m =>
    cases hopen
    exact ⟨hm, habove, htold⟩
  | @cons m m₁ m' op ops verdict hallows hret _ ih =>
    have horderly := hm.apply hallows hret
    by_cases hsave : op = .save
    · subst hsave
      cases hret
      have hopen' : Operation.openLevels (n + 1) ops = some n' := by
        cases n with
        | zero => exact hopen
        | succ n => exact hopen
      exact ih horderly (.level hm.toTallied (.refl _) habove) htold hopen'
    by_cases hrestore : op = .restore
    · subst hrestore
      obtain ⟨m₂, hret, heq⟩ := bind_eq_ok_iff.1 hret
      cases heq
      cases n with
      | zero => cases hopen
      | succ n =>
        have hbelow := habove.restore hm.toTallied hret
        have htold' := htold.restore hm hret (hbelow.size_le hm₀ horderly.toTallied)
        rw [Operation.restores, Nat.add_comm _ 1, ← Nat.add_assoc]
        exact ih horderly hbelow htold' hopen
    · rw [Operation.openLevels_of_within hsave hrestore] at hopen
      have hstays := hm.stays_apply hallows hsave hrestore hret
      rw [Operation.restores_of_ne hrestore]
      refine ih horderly (habove.later hstays.keeps) (fun i p hp => ?_) hopen
      obtain ⟨p', hp', hlived⟩ := htold i p hp
      obtain ⟨p'', hp'', hlived'⟩ := hstays.lived i p' hp'
      exact ⟨p'', hp'', hlived.trans hlived'⟩

/-! ## The result -/

/-- The table of the listeners holds the pairs that are listed, and no condition without listeners. -/
structure Listed (m : Model π) : Prop where
  listening_iff : ∀ condition c, c ∈ m.listening condition ↔ (condition, c) ∈ m.conditions
  nodup : m.conditions.toList.Nodup
  tidy : m.listeners.Tidy

/-- The model `m'` is `m` again, after `n` levels were restored, the last one at `m₁`.  The
propagators are those of `m` and heard of all these levels. -/
structure Reinstated (n : Nat) (m m₁ m' : Model π) : Prop where
  definitions_eq : m'.store.definitions = m.store.definitions
  domain_eq : ∀ q, m'.store.domain q = m.store.domain q
  view_eq : ∀ x, m'.store.view x = m.store.view x
  conditions_eq : m'.conditions = m.conditions
  listening_iff : ∀ condition c, c ∈ m'.listening condition ↔ c ∈ m.listening condition
  listed : m'.Listed
  quiet : m'.Quiet
  propagators_eq : m'.propagators =
    (m₁.propagators.shrink m.propagators.size).map Propagator.onRestore
  told : Told m n m'

theorem Orderly.listed (h : m.Orderly) : m.Listed :=
  ⟨h.listening_iff, h.conditions_nodup, h.keys_nodup, h.filled⟩

/-- However a model was used, its table of listeners holds what is listed.  And a level that is saved
can be restored after any operations that restore all other levels that they save: the model is then
what it was, nothing happened and nothing is scheduled.  The propagators that it had were told of
every level that was restored, and only they are told of the last one. -/
theorem Reachable.reinstates (h : m.Reachable) : m.Listed ∧
    ∀ ops m₁, Operation.Balanced ops → Applies m.save ops m₁ →
      ∃ m', m₁.restore = .ok m' ∧ Reinstated (Operation.restores ops + 1) m m₁ m' := by
  have hm := h.orderly
  refine ⟨hm.listed, fun ops m₁ hbalanced hrun => ?_⟩
  obtain ⟨hm₁, habove, htold⟩ := hrun.above (k := 0) hm.save hm.toTallied (.ground (.refl _))
    (fun i p hp => ⟨p, hp, .now⟩) hbalanced
  rw [Nat.zero_add] at htold
  cases habove with
  | ground hkeeps =>
    obtain ⟨m', hret, _, hresumed⟩ := hm.toTallied.resumes hm₁.toTallied hkeeps
    obtain ⟨hm', hquiet, hpropagators⟩ := hm₁.restore hret
    refine ⟨m', hret, hresumed.resumed.definitions_eq, hresumed.resumed.domain_eq,
      hresumed.resumed.view_eq, hresumed.conditions_eq, fun condition c => ?_, hm'.listed, hquiet, ?_,
      htold.restore hm₁ hret (Nat.le_of_eq hresumed.size_eq.symm)⟩
    · rw [hm'.listening_iff, hm.listening_iff, hresumed.conditions_eq]
    · rw [hpropagators, hresumed.size_eq]

/-! ### A run -/

instance (m : Model π) : DecidablePred (Operation.InRange m)
  | .declare (.primitive _ _) => inferInstanceAs (Decidable (_ ∧ _))
  | .declare (.plus _ _) | .declare (.minus _ _) | .declare (.negate _) | .declare (.times _ _) =>
    inferInstanceAs (Decidable (_ < _))
  | .listen _ _ _ => inferInstanceAs (Decidable (_ ∧ _))
  | .schedule _ | .attempt _ => inferInstanceAs (Decidable (_ < _))
  | .post _ | .save | .restore | .fixpoint => .isTrue trivial

/-- Does several operations, as long as they are about variables and constraints that exist. -/
def applyAll (m : Model π) : List (Operation π) → Except Fault (Model π)
  | [] => .ok m
  | op :: ops =>
    if op.InRange m then do
      let (_, m) ← m.apply op
      m.applyAll ops
    else
      .error .outOfBounds

/-- The operation is allowed in every orderly model that has the variables and constraints that it
is about. -/
def Welcome (op : Operation π) : Prop := ∀ m : Model π, m.Orderly → op.InRange m → m.Allows op

/-- Only propagators that are posted may be unwelcome. -/
theorem Welcome.of_posts (h : ∀ op ∈ ops.filter Operation.posts, Welcome op) :
    ∀ op ∈ ops, Welcome op := by
  intro op hop
  cases hposts : op.posts with
  | true => exact h op (List.mem_filter.2 ⟨hop, hposts⟩)
  | false =>
    refine fun _ _ hrange => ⟨hrange, fun make hmake => ?_⟩
    rw [hmake] at hposts
    cases hposts

theorem Welcome.making {wrap : AllDifferent → π} (hwrap : Wraps wrap) (vars : List Var)
    (options : AllDifferent.Options) : Welcome (.making wrap vars options) :=
  fun _ hm _ => hm.allows_making hwrap vars options

theorem Applies.of_applyAll (hm : m.Orderly) (hops : ∀ op ∈ ops, Welcome op)
    (hret : m.applyAll ops = .ok m') : Applies m ops m' := by
  induction ops generalizing m with
  | nil =>
    cases hret
    exact .nil _
  | cons op rest ih =>
    obtain ⟨hop, hrest⟩ := List.forall_mem_cons.1 hops
    rw [applyAll] at hret
    split at hret
    · rename_i hrange
      obtain ⟨⟨verdict, m₁⟩, happly, hret⟩ := bind_eq_ok_iff.1 hret
      have hallows := hop m hm hrange
      exact .cons hallows happly (ih (hm.apply hallows happly) hrest hret)
    · cases hret

theorem Applies.reachable (h : Applies m ops m') (hm : m.Reachable) : m'.Reachable := by
  induction h with
  | nil m => exact hm
  | cons hallows hret _ ih => exact ih (hm.step hallows hret)

/-- Welcome operations lead from a new model to a reachable one. -/
theorem Reachable.of_applyAll {order : DrainOrder} (hops : ∀ op ∈ ops, Welcome op)
    (hret : (Model.empty order : Model π).applyAll ops = .ok m) : m.Reachable :=
  (Applies.of_applyAll (.empty order) hops hret).reachable (.start order)

/-- Posts a script. -/
def posting (p : Script) : Operation Rule := .post fun s => .ok (.script p, s)

theorem Welcome.posting {p : Script} (hcounts : ∀ c, .count c ∉ p.actions) :
    Welcome (posting p) := by
  refine fun m h _ => ⟨trivial, fun make hmake q s hret => ?_⟩
  cases hmake
  cases hret
  exact ⟨.refl h.store, h.admits_script hcounts⟩

/-- Two variables that must differ, and a script that is told of the second one. -/
def mixed : List (Operation Rule) :=
  [.declare (.primitive 1 3), .declare (.primitive 1 3)] ++
    Operation.installing .allDifferent [⟨0⟩, ⟨1⟩] .usual ⟨0⟩ ++
    [posting (.new [.removeAbove ⟨1⟩ 2] none), .listen ⟨1⟩ .domainChanged ⟨1⟩]

/-- The first variable is fixed, and on a level of its own a third one is added, with a script. -/
def enclosed : List (Operation Rule) :=
  [.attempt (.fix ⟨0⟩ 1), .fixpoint, .save, .declare (.plus ⟨1⟩ 4),
    posting (.new [.fail .domainWipeout] none), .listen ⟨2⟩ .minChanged ⟨2⟩, .schedule ⟨2⟩, .fixpoint,
    .restore, .declare (.primitive 0 1), .listen ⟨0⟩ .fixed ⟨2⟩]

theorem Reachable.reinstates_mixed : ∃ m m₁ m', (Model.empty .lastFirst).applyAll mixed = .ok m ∧
    m.save.applyAll enclosed = .ok m₁ ∧ m₁.restore = .ok m' ∧ Reinstated 2 m m₁ m' := by
  have hmixed : ∀ op ∈ mixed, Welcome op := Welcome.of_posts <| List.forall_mem_cons.2
    ⟨.making Rule.wraps_allDifferent _ _, List.forall_mem_singleton.2 (.posting (by simp [Script.new]))⟩
  have henclosed : ∀ op ∈ enclosed, Welcome op := Welcome.of_posts <|
    List.forall_mem_singleton.2 (.posting (by simp [Script.new]))
  have hrun : ((Model.empty .lastFirst).applyAll mixed >>= fun m => m.save.applyAll enclosed >>=
      fun m₁ => .ok (m.propagators.size, m₁.propagators.size, m₁.conditions.size)) =
      .ok (2, 2, 4) := by decide +kernel
  obtain ⟨m, hm, hrun⟩ := bind_eq_ok_iff.1 hrun
  obtain ⟨m₁, hm₁, _⟩ := bind_eq_ok_iff.1 hrun
  have hreachable := Reachable.of_applyAll hmixed hm
  have henclosed := Applies.of_applyAll hreachable.orderly.save henclosed hm₁
  obtain ⟨m', hret, hreinstated⟩ := hreachable.reinstates.2 enclosed m₁ rfl henclosed
  exact ⟨m, m₁, m', hm, hm₁, hret, hreinstated⟩

end Model

end FiniteDomain
