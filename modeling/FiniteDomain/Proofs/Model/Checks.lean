import FiniteDomain.Search
import FiniteDomain.Proofs.Model.Mirrors

/-!
# Runs with and without checks

Whether the constraints check their matchings and their tags makes no difference to a client that
keeps to the discipline.  A run is a list of calls and searches, and everything that can be seen of
it is compared.

* `Together` relates two models that mirror each other and were used with discipline.  Calls keep it
  (`Together.perform`), and so do the steps of a search (`Search.explore_inStep`).
* `Model.picture` is what can be seen of a model, and `Model.seen` what can be seen of a run: each
  answer, the tally of each search with a picture of each solution, and a picture of the model after
  each step.
* `seen_checking` says that the same is seen in both runs, and that no check fails.
-/

namespace FiniteDomain

open AllDifferent

namespace Model

variable {m m' : Model AllDifferent} {last : Verdict} {c : Call}

/-- The same call.  If it adds a constraint, the options tell whether it is going to check. -/
def Call.checking (checked : Bool) : Call → Call
  | .add vars options => .add vars { options with checked }
  | .attach vars options => .attach vars { options with checked }
  | .install vars options => .install vars { options with checked }
  | c => c

/-- The call adds constraints by installing them only, is valid, and keeps to the discipline. -/
def Call.InOrder (last : Verdict) (m : Model AllDifferent) (c : Call) : Prop :=
  Call.Installs m c ∧ c.Valid m ∧ c.Disciplined m last

instance (last : Verdict) (m : Model AllDifferent) (c : Call) : Decidable (c.InOrder last m) :=
  inferInstanceAs (Decidable (_ ∧ _))

/-- Two models mirror each other, and were used with discipline. -/
structure Together (last : Verdict) (m m' : Model AllDifferent) : Prop where
  mirrors : ∃ hidden, m.Mirrors hidden m'
  kept : m.Assembled last
  kept' : m'.Assembled last

namespace Together

theorem empty (order : DrainOrder) :
    Together .consistent (Model.empty order) (Model.empty order) :=
  ⟨⟨_, .empty order⟩, (Driven.start order).kept, (Driven.start order).kept⟩

/-- After an answer that is not a failure, as much is known as after any other. -/
theorem weaken (h : Together .consistent m m') (verdict : Verdict) : Together verdict m m' :=
  ⟨h.mirrors, .of_poised h.kept.secured (h.kept.poised rfl),
    .of_poised h.kept'.secured (h.kept'.poised rfl)⟩

theorem quiet_iff (h : Together last m m') : m'.Quiet ↔ m.Quiet := by
  obtain ⟨hidden, hm⟩ := h.mirrors
  rw [Quiet, Quiet, hm.store.news_eq, hm.scheduled_eq]

/-- The same calls are in order. -/
theorem inOrder_iff (h : Together last m m') (checked : Bool) :
    c.InOrder last m ↔ (c.checking checked).InOrder last m' := by
  obtain ⟨hidden, hm⟩ := h.mirrors
  have hdefinitions := hm.store.definitions_eq
  have hsize := hm.size_eq
  refine and_congr ?_ (and_congr ?_ ?_)
  · cases c <;> exact Iff.rfl
  · cases c with
    | declare d => cases d <;> simp [Call.checking, Call.Valid, Declaration.Valid, hdefinitions]
    | _ => simp [Call.checking, Call.Valid, hdefinitions, hsize]
  · cases c with
    | save => exact and_congr_right fun _ => h.quiet_iff.symm
    | _ => exact Iff.rfl

/-! ## Calls -/

/-- A call is made in step, whether the constraints that it adds are going to check or not. -/
theorem perform_mirrors (h : Together last m m') (hc : c.InOrder last m) (checked : Bool) :
    InStep (fun r r' => r.1 = r'.1 ∧ ∃ hidden, Mirrors hidden r.2 r'.2) (m.perform c)
      (m'.perform (c.checking checked)) := by
  obtain ⟨hallowed, hvalid, hdiscipline⟩ := hc
  have hvalid' := ((h.inOrder_iff checked).1 ⟨hallowed, hvalid, hdiscipline⟩).2.1
  have hpoised : c ≠ .restore → m.Poised (fun _ => False) m.scheduled ∧
      m'.Poised (fun _ => False) m'.scheduled := fun hc =>
    ⟨h.kept.poised (hdiscipline.consistent hc), h.kept'.poised (hdiscipline.consistent hc)⟩
  obtain ⟨hidden, hm⟩ := h.mirrors
  cases c with
  | declare d =>
    exact (hm.onStore (hm.store.declare d)).bind fun _ _ hr => .ok ⟨rfl, hidden, hr.2⟩
  | add vars options => exact hallowed.elim
  | listen c kind x => exact (hm.listen c kind x).bind fun _ _ hr => .ok ⟨rfl, hidden, hr⟩
  | attach vars options => exact hallowed.elim
  | schedule c => exact .ok ⟨rfl, hidden, hm.schedule c⟩
  | install vars options =>
    obtain ⟨hp, hp'⟩ := hpoised nofun
    refine (hm.enlist hp.toGuarded hvalid options checked).bind_of_eq fun m₁ m₁' hret hret' hr => ?_
    obtain ⟨hidden', hm₁⟩ := hr
    exact (hm₁.fixpoint (hp.enlist hvalid hret) (hp'.enlist hvalid' hret')).mono
      fun _ _ hr => ⟨hr.1, hidden', hr.2⟩
  | attempt a => exact (hm.attempt a).mono fun _ _ hr => ⟨hr.1, hidden, hr.2⟩
  | save => exact .ok ⟨rfl, hidden, hm.save⟩
  | restore => exact (hm.restore h.kept.recoverable.toGuarded).bind fun _ _ hr => .ok ⟨rfl, hr⟩
  | fixpoint =>
    obtain ⟨hp, hp'⟩ := hpoised nofun
    exact (hm.fixpoint hp hp').mono fun _ _ hr => ⟨hr.1, hidden, hr.2⟩

/-- After a call that both make, the models are still together. -/
theorem perform (h : Together last m m') (hc : c.InOrder last m) (checked : Bool) :
    InStep (fun r r' => r.1 = r'.1 ∧ Together r.1 r.2 r'.2) (m.perform c)
      (m'.perform (c.checking checked)) := by
  have hc' := (h.inOrder_iff checked).1 hc
  refine (h.perform_mirrors hc checked).of_ok ?_
  rintro ⟨verdict, m₁⟩ ⟨_, m₁'⟩ hret hret' ⟨rfl, hm⟩
  exact ⟨rfl, hm, h.kept.perform_installs hc.1 hc.2.1 hc.2.2 hret,
    h.kept'.perform_installs hc'.1 hc'.2.1 hc'.2.2 hret'⟩

/-- The propagators run in step.  If nothing fails, the models are quiet afterwards. -/
theorem fixpoint (h : Together .consistent m m') :
    InStep (fun r r' => r.1 = r'.1 ∧ Together r.1 r.2 r'.2 ∧ (r.1 = .consistent → r.2.Quiet))
      m.fixpoint m'.fixpoint := by
  have hfixpoint := h.perform (c := .fixpoint) ⟨trivial, trivial, rfl⟩ false
  refine hfixpoint.of_ok ?_
  rintro ⟨verdict, m₁⟩ ⟨_, m₁'⟩ hret _ ⟨rfl, h₁⟩
  refine ⟨rfl, h₁, ?_⟩
  rintro rfl
  obtain ⟨m₂, hret', _, hquiet⟩ | ⟨why, m₂, hret'⟩ := (h.kept.poised rfl).fixpoint_cases
  · cases hret.symm.trans hret'
    exact hquiet
  · cases hret.symm.trans hret'

/-- A domain is narrowed on both sides. -/
theorem attempt (h : Together .consistent m m') (a : Attempt) :
    InStep (fun r r' => r.1 = r'.1 ∧ Together r.1 r.2 r'.2) (m.onStore (·.attempt a))
      (m'.onStore (·.attempt a)) := by
  obtain ⟨hidden, hm⟩ := h.mirrors
  refine (hm.attempt a).of_ok ?_
  rintro ⟨verdict, m₁⟩ ⟨_, m₁'⟩ hret hret' ⟨rfl, hm₁⟩
  exact ⟨rfl, ⟨hidden, hm₁⟩, h.kept.attempt hret, h.kept'.attempt hret'⟩

/-- A level is saved on both sides, while they are quiet. -/
theorem save (h : Together .consistent m m') (hquiet : m.Quiet) :
    Together .consistent m.save m'.save := by
  obtain ⟨_, hm, h₁⟩ := ((h.perform (c := .save) ⟨trivial, trivial, rfl, hquiet⟩ false).exists_of_ok)
  cases hm
  exact h₁.2

/-- A level is restored on both sides.  They are quiet afterwards. -/
theorem restore (h : Together last m m') :
    InStep (fun r r' => Together .consistent r r' ∧ r.Quiet) m.restore m'.restore := by
  obtain ⟨hidden, hm⟩ := h.mirrors
  refine (hm.restore h.kept.recoverable.toGuarded).of_ok fun r r' hret hret' hr => ?_
  exact ⟨⟨hr, (h.kept.restore hret).1, (h.kept'.restore hret').1⟩, (h.kept.restore hret).2⟩

end Together

end Model

/-! ## Searches -/

namespace Search

open Model

variable {hidden : Cell → Prop} {ρ : Type} {q : Search} {s s' : Store} {m m' : Model AllDifferent}
  {observe : Model AllDifferent → Except Fault ρ}

theorem smallest?_inStep (h : s.Mirrors hidden s') (xs : List Var) (best : Option (Var × Nat)) :
    InStep Eq (smallest? s xs best) (smallest? s' xs best) := by
  induction xs generalizing best with
  | nil => exact .ok rfl
  | cons x rest ih => exact (h.size x).andThen fun _ => ih _

theorem firstFail?_inStep (h : m.Mirrors hidden m') (q : Search) :
    InStep Eq (q.firstFail? m) (q.firstFail? m') := by
  refine (smallest?_inStep h.store q.vars none).andThen fun best => ?_
  cases best with
  | none => exact .ok rfl
  | some best =>
    refine (h.store.min? best.1).andThen fun least => ?_
    cases least with
    | none => exact .ok rfl
    | some v => exact .ok rfl

theorem hinted?_inStep (h : m.Mirrors hidden m') : InStep Eq (hinted? m) (hinted? m') := by
  refine h.hint?.andThen fun hint => ?_
  cases hint with
  | none => exact .ok rfl
  | some hint =>
    exact (h.store.isFixed _).andThen fun _ => .ite (fun _ => .ok rfl) fun _ =>
      (h.store.contains _ _).andThen fun _ => .ite (fun _ => .ok rfl) fun _ => .ok rfl

/-- The same decision is made. -/
theorem decide?_inStep (h : m.Mirrors hidden m') (q : Search) :
    InStep Eq (q.decide? m) (q.decide? m') := by
  rw [decide?, decide?]
  cases q.branching with
  | firstFail => exact firstFail?_inStep h q
  | hinted =>
    refine (hinted?_inStep h).andThen fun decision => ?_
    cases decision with
    | none => exact firstFail?_inStep h q
    | some decision => exact .ok rfl

/-- A domain is narrowed, and the propagators run in step. -/
theorem attempt_inStep (h : Together .consistent m m') (a : Attempt) :
    InStep (fun r r' => r.1 = r'.1 ∧ Together r.1 r.2 r'.2 ∧ (r.1 = .consistent → r.2.Quiet))
      (attempt (fun m => m.onStore (·.attempt a)) m)
      (attempt (fun m => m.onStore (·.attempt a)) m') := by
  refine (h.attempt a).bind ?_
  rintro ⟨verdict, m₁⟩ ⟨_, m₁'⟩ ⟨rfl, h₁⟩
  cases verdict with
  | failed why => exact .ok ⟨rfl, h₁, nofun⟩
  | consistent => exact h₁.fixpoint

/-- The two sides stop or go on with the same tally, and with models that are together and quiet. -/
def Explored (r r' : Bool × Model AllDifferent × Tally ρ) : Prop :=
  r.1 = r'.1 ∧ r.2.2 = r'.2.2 ∧ Together .consistent r.2.1 r'.2.1 ∧ r.2.1.Quiet

/-- A branch is explored in step if the nodes on it are. -/
theorem branch_inStep
    {go : Model AllDifferent → Tally ρ → Except Fault (Bool × Model AllDifferent × Tally ρ)}
    (hgo : ∀ (m m' : Model AllDifferent) (t : Tally ρ), Together .consistent m m' → m.Quiet →
      InStep Explored (go m t) (go m' t))
    (h : Together .consistent m m') (hquiet : m.Quiet) (a : Attempt) (t : Tally ρ) :
    InStep Explored (branch go (fun m => m.onStore (·.attempt a)) m t)
      (branch go (fun m => m.onStore (·.attempt a)) m' t) := by
  refine (attempt_inStep (h.save hquiet) a).bind ?_
  rintro ⟨verdict, m₁⟩ ⟨_, m₁'⟩ ⟨rfl, h₁, hquiet₁⟩
  cases verdict with
  | failed why => exact h₁.restore.bind fun _ _ hr => .ok ⟨rfl, rfl, hr⟩
  | consistent =>
    refine (hgo m₁ m₁' t h₁ (hquiet₁ rfl)).bind ?_
    rintro ⟨stop, m₂, t₂⟩ ⟨_, m₂', _⟩ ⟨rfl, rfl, h₂, _⟩
    exact h₂.restore.bind fun _ _ hr => .ok ⟨rfl, rfl, hr⟩

/-- A node is explored in step if solutions are observed in step.  The induction is on the turns. -/
theorem explore_inStep (hobserve : ∀ m m', Together .consistent m m' →
      InStep Eq (observe m) (observe m'))
    (q : Search) (fuel : Nat) (h : Together .consistent m m') (hquiet : m.Quiet) (t : Tally ρ) :
    InStep Explored (q.explore observe fuel m t) (q.explore observe fuel m' t) := by
  induction fuel generalizing m m' t with
  | zero => exact .error (by decide)
  | succ fuel ih =>
    have hgo : ∀ (m m' : Model AllDifferent) (t : Tally ρ), Together .consistent m m' → m.Quiet →
        InStep Explored (q.explore observe fuel m t) (q.explore observe fuel m' t) :=
      fun m m' t h hquiet => ih h hquiet t
    obtain ⟨hidden, hm⟩ := h.mirrors
    rw [explore, explore]
    refine (decide?_inStep hm q).andThen fun decision => ?_
    cases decision with
    | none => exact (hobserve m m' h).andThen fun r => .ok ⟨rfl, rfl, h, hquiet⟩
    | some decision =>
      obtain ⟨x, v⟩ := decision
      refine (branch_inStep hgo h hquiet (.fix x v) t.visited).bind ?_
      rintro ⟨stop, m₁, t₁⟩ ⟨_, m₁', _⟩ ⟨rfl, rfl, h₁, hquiet₁⟩
      cases stop with
      | true => exact .ok ⟨rfl, rfl, h₁, hquiet₁⟩
      | false => exact branch_inStep hgo h₁ hquiet₁ (.remove x v) t₁

/-- A search that came to no node failed in the first run of the propagators. -/
def verdictOf (t : Tally ρ) : Verdict :=
  if t.nodes = 0 then .failed .noMaximumMatching else .consistent

/-- Two searches are made in step. -/
theorem solve_inStep (hobserve : ∀ m m', Together .consistent m m' →
      InStep Eq (observe m) (observe m'))
    (q : Search) (h : Together .consistent m m') :
    InStep (fun r r' => r.1 = r'.1 ∧ Together (verdictOf r.1) r.2 r'.2) (q.solve observe m)
      (q.solve observe m') := by
  refine h.fixpoint.bind ?_
  rintro ⟨verdict, m₁⟩ ⟨_, m₁'⟩ ⟨rfl, h₁, hquiet₁⟩
  cases verdict with
  | failed why =>
    exact .ok ⟨rfl, h₁.mirrors, ⟨h₁.kept.recoverable, h₁.kept.secured, nofun⟩,
      ⟨h₁.kept'.recoverable, h₁.kept'.secured, nofun⟩⟩
  | consistent =>
    obtain ⟨hidden, hm₁⟩ := h₁.mirrors
    dsimp only
    rw [hm₁.capacity_eq]
    generalize m₁.capacity + Word.countBound = fuel
    refine (explore_inStep hobserve q fuel (h₁.save (hquiet₁ rfl)) (hquiet₁ rfl) .zero).bind ?_
    rintro ⟨stop, m₂, t₂⟩ ⟨_, m₂', _⟩ ⟨rfl, rfl, h₂, _⟩
    exact h₂.restore.bind fun _ _ hr => .ok ⟨rfl, hr.1.weaken _⟩

end Search

/-! ## What can be seen -/

/-- What can be seen of a constraint: whom its variables and its values are matched with, and the
decision it suggests. -/
structure AllDifferent.Picture where
  mates : List (Except Fault (Option Nat))
  owners : List (Except Fault (Option Nat))
  hint : Except Fault (Option Hint)
  deriving DecidableEq

def AllDifferent.picture (p : AllDifferent) (s : Store) : AllDifferent.Picture where
  mates := (List.range p.graph.varTotal).map (p.graph.mate? s)
  owners := (List.range p.graph.valueTotal).map (p.graph.owner? s)
  hint := p.hint? s

theorem AllDifferent.Mirrors.picture_eq {hidden : Cell → Prop} {p p' : AllDifferent} {s s' : Store}
    (h : p.Mirrors hidden p') (hs : s.Mirrors hidden s') : p'.picture s' = p.picture s := by
  have hmate : p.graph.mate? s = p.graph.mate? s' := funext fun x => (h.shown.mate? hs x).eq
  have howner : p.graph.owner? s = p.graph.owner? s' := funext fun v => (h.shown.owner? hs v).eq
  rw [picture, picture, h.graph_eq, hmate, howner, (h.hint? hs).eq]

namespace Model

/-- What can be seen of a model: the values of each variable in the order in which they are listed,
with the least and the greatest one, what happened to them, the constraints, who listens, what is
scheduled, and the decision that is suggested. -/
structure Picture where
  values : List (Except Fault (List Int))
  least : List (Except Fault (Option Int))
  greatest : List (Except Fault (Option Int))
  events : Array Event
  constraints : List AllDifferent.Picture
  conditions : Array (Condition × Constraint)
  scheduled : List Constraint
  hint : Except Fault (Option Hint)
  deriving DecidableEq

/-- The variables that were declared. -/
def vars (m : Model AllDifferent) : List Var :=
  (List.range m.store.definitions.size).map Var.mk

def picture (m : Model AllDifferent) : Picture where
  values := m.vars.map m.store.values
  least := m.vars.map m.store.min?
  greatest := m.vars.map m.store.max?
  events := m.store.events
  constraints := m.propagators.toList.map (·.picture m.store)
  conditions := m.conditions
  scheduled := m.scheduled
  hint := m.hint?

/-- Models that mirror each other cannot be told apart. -/
theorem Mirrors.picture_eq {hidden : Cell → Prop} {m m' : Model AllDifferent}
    (h : m.Mirrors hidden m') : m'.picture = m.picture := by
  have hvalues : m.store.values = m'.store.values := funext fun x => (h.store.values x).eq
  have hleast : m.store.min? = m'.store.min? := funext fun x => (h.store.min? x).eq
  have hgreatest : m.store.max? = m'.store.max? := funext fun x => (h.store.max? x).eq
  have hconstraints : m'.propagators.toList.map (·.picture m'.store) =
      m.propagators.toList.map (·.picture m.store) := by
    refine List.ext_getElem (by simp [h.size_eq]) fun i hi hi' => ?_
    rw [List.getElem_map, List.getElem_map, Array.getElem_toList, Array.getElem_toList]
    exact (h.propagators i _ _ (Array.getElem?_eq_getElem _)
      (Array.getElem?_eq_getElem _)).picture_eq h.store
  rw [picture, picture, vars, vars, h.store.definitions_eq, hvalues, hleast, hgreatest,
    h.store.events_eq, hconstraints, h.conditions_eq, h.scheduled_eq, h.hint?.eq]

/-! ## Runs -/

/-- What a client does: it makes a call, or searches. -/
inductive Deed where
  | call (c : Call)
  | search (q : Search)

/-- What a client is told.  A search tells what could be seen of each solution. -/
inductive Answer where
  | verdict (verdict : Verdict)
  | tally (t : Tally Picture)
  deriving DecidableEq

namespace Deed

/-- The same deed.  If it adds a constraint, the options tell whether it is going to check. -/
def checking (checked : Bool) : Deed → Deed
  | call c => call (c.checking checked)
  | search q => search q

/-- The deed keeps to the discipline, and adds constraints by installing them only. -/
def InOrder (last : Verdict) (m : Model AllDifferent) : Deed → Prop
  | call c => c.InOrder last m
  | search _ => last = .consistent

instance (last : Verdict) (m : Model AllDifferent) : DecidablePred (InOrder last m)
  | call c => inferInstanceAs (Decidable (c.InOrder last m))
  | search _ => inferInstanceAs (Decidable (last = .consistent))

/-- Does it.  Gives the answer, and whether it tells of a failure. -/
def perform (m : Model AllDifferent) : Deed → Except Fault (Answer × Verdict × Model AllDifferent)
  | call c => do
    let (verdict, m) ← m.perform c
    return (.verdict verdict, verdict, m)
  | search q => do
    let (t, m) ← q.solve (fun m => .ok m.picture) m
    return (.tally t, Search.verdictOf t, m)

end Deed

/-- What there is to see in a run: the answer to each deed, and the model after it.  It ends with a
fault, and before a deed that does not keep to the discipline. -/
def transcript (last : Verdict) (m : Model AllDifferent) :
    List Deed → List (Except Fault (Answer × Picture))
  | [] => []
  | d :: rest =>
    if d.InOrder last m then
      match d.perform m with
      | .error fault => [.error fault]
      | .ok (answer, verdict, m) => .ok (answer, m.picture) :: transcript verdict m rest
    else
      []

namespace Together

variable {last : Verdict} {m m' : Model AllDifferent} {d : Deed}

theorem deed_inOrder_iff (h : Together last m m') (checked : Bool) :
    d.InOrder last m ↔ (d.checking checked).InOrder last m' := by
  cases d with
  | call c => exact h.inOrder_iff checked
  | search q => exact Iff.rfl

/-- A deed is done in step. -/
theorem deed (h : Together last m m') (hd : d.InOrder last m) (checked : Bool) :
    InStep (fun r r' => r.1 = r'.1 ∧ r.2.1 = r'.2.1 ∧ Together r.2.1 r.2.2 r'.2.2) (d.perform m)
      ((d.checking checked).perform m') := by
  cases d with
  | call c =>
    refine (h.perform hd checked).bind ?_
    rintro ⟨verdict, m₁⟩ ⟨_, m₁'⟩ ⟨rfl, h₁⟩
    exact .ok ⟨rfl, rfl, h₁⟩
  | search q =>
    obtain rfl : last = .consistent := hd
    refine (Search.solve_inStep (fun m m' h => ?_) q h).bind ?_
    · obtain ⟨hidden, hm⟩ := h.mirrors
      exact .ok hm.picture_eq.symm
    · rintro ⟨t, m₁⟩ ⟨_, m₁'⟩ ⟨rfl, h₁⟩
      exact .ok ⟨rfl, rfl, h₁⟩

/-- The same is seen in both runs, and no check fails. -/
theorem transcript_eq (h : Together last m m') (checked : Bool) (deeds : List Deed) :
    m'.transcript last (deeds.map (·.checking checked)) = m.transcript last deeds ∧
      ∀ fault, .error fault ∈ m.transcript last deeds → ¬ fault.OfCheck := by
  induction deeds generalizing last m m' with
  | nil => exact ⟨rfl, fun fault hfault => absurd hfault List.not_mem_nil⟩
  | cons d rest ih =>
    rw [List.map_cons, transcript, transcript]
    by_cases hd : d.InOrder last m
    · rw [if_pos hd, if_pos ((h.deed_inOrder_iff checked).1 hd)]
      have hstep := h.deed hd checked
      generalize d.perform m = x, (d.checking checked).perform m' = x' at hstep
      cases hstep with
      | error hfault =>
        refine ⟨rfl, fun fault hmem => ?_⟩
        cases List.mem_singleton.1 hmem
        exact hfault
      | ok hr =>
        rename_i r r'
        obtain ⟨answer, verdict, m₁⟩ := r
        obtain ⟨_, _, m₁'⟩ := r'
        obtain ⟨rfl, rfl, h₁⟩ := hr
        obtain ⟨hidden, hm₁⟩ := h₁.mirrors
        obtain ⟨htranscript, hfaults⟩ := ih h₁
        dsimp only
        rw [hm₁.picture_eq, htranscript]
        refine ⟨rfl, fun fault hmem => ?_⟩
        obtain heq | hmem := List.mem_cons.1 hmem
        · cases heq
        · exact hfaults fault hmem
    · rw [if_neg hd, if_neg fun hd' => hd ((h.deed_inOrder_iff checked).2 hd')]
      exact ⟨rfl, fun fault hfault => absurd hfault List.not_mem_nil⟩

end Together

/-- What there is to see in a run that begins with an empty model. -/
def seen (order : DrainOrder) (deeds : List Deed) : List (Except Fault (Answer × Picture)) :=
  (Model.empty order).transcript .consistent deeds

/-- Whatever a client does with discipline, and in whatever order the constraints are drained: a run
in which all constraints check shows the same as the run in which none does, and no check fails. -/
theorem seen_checking (order : DrainOrder) (deeds : List Deed) :
    seen order (deeds.map (Deed.checking true)) = seen order (deeds.map (Deed.checking false)) ∧
      Except.error .brokenMatching ∉ seen order (deeds.map (Deed.checking true)) ∧
      Except.error .staleComponents ∉ seen order (deeds.map (Deed.checking true)) := by
  obtain ⟨htranscript, hfaults⟩ :=
    (Together.empty order).transcript_eq false (deeds.map (Deed.checking true))
  have hchecking : (deeds.map (Deed.checking true)).map (Deed.checking false) =
      deeds.map (Deed.checking false) := by
    rw [List.map_map]
    refine List.map_congr_left fun d _ => ?_
    cases d with
    | call c => cases c <;> rfl
    | search q => rfl
  rw [hchecking] at htranscript
  exact ⟨htranscript.symm, fun hmem => hfaults _ hmem (Or.inl rfl),
    fun hmem => hfaults _ hmem (Or.inr rfl)⟩

/-- A search that checks finds both permutations. -/
example : (seen .lastFirst (List.map (Deed.checking true)
    [.call (.declare (.primitive 0 1)), .call (.declare (.primitive 0 1)),
      .call (.install [⟨0⟩, ⟨1⟩] .usual), .search ⟨[⟨0⟩, ⟨1⟩], .hinted, none⟩])).map (fun entry =>
        entry.toOption.map fun r => match r.1 with
          | .verdict _ => 0
          | .tally t => t.solutions) = [some 0, some 0, some 0, some 2] := by
  decide +kernel

end Model

end FiniteDomain
