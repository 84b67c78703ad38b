import FiniteDomain.Proofs.Model.Resuming
import FiniteDomain.Proofs.Model.Rounds

/-!
# Propagators that do not interfere

A propagator sees of its model the store alone.  It may make variables and cells, narrow domains and
write its cells; it does not save or restore levels, and cells that others rely on it does not know.
`Tame` says so of all propagators of a type, and names what such a propagator itself relies on.

* `Store.Acts` is what a propagator does to the store.
* `Tame` are the laws, and `Lived` what may have become of a propagator.  `Frank` is a law about
  failures.
* `Model.Orderly` holds of a model of tame propagators, however it is used: `Orderly.of_grown`,
  `Orderly.of_evolves`, `Orderly.post`, `Orderly.listen`, `Orderly.save`, `Orderly.restore`, and
  `Orderly.fixpoint` for a run of the propagators.
* `Model.Stays` is what all of these but the last two leave as it was.
-/

namespace FiniteDomain

variable {π : Type}

/-! ## What a propagator does to the store -/

/-- Variables and cells were added, domains lost values, and cells in `C` may have changed. -/
inductive Store.Acts (C : Cell → Prop) (s : Store) : Store → Prop
  | done : Acts C s s
  | grown {s₁ s₂ : Store} (hg : Grown s₁ s₂) : Acts C s s₁ → Acts C s s₂
  | evolves {s₁ s₂ : Store} (he : Evolves C s₁ s₂) : Acts C s s₁ → Acts C s s₂

namespace Store.Acts

variable {C : Cell → Prop} {s s' : Store}

theorem of_evolves (h : s.Evolves C s') : s.Acts C s' := .evolves h .done

theorem trans {s'' : Store} (h : s.Acts C s') (h' : s'.Acts C s'') : s.Acts C s'' := by
  induction h' with
  | done => exact h
  | grown hg _ ih => exact .grown hg ih
  | evolves he _ ih => exact .evolves he ih

theorem sound (h : s.Acts C s') (hs : s.Sound) : s'.Sound := by
  induction h with
  | done => exact hs
  | grown hg _ _ => exact hg.sound
  | evolves he _ _ => exact he.sound

theorem keeps (h : s.Acts C s') (hs : s.Sound) : s.Keeps s' := by
  induction h with
  | done => exact .refl s
  | grown hg hacts ih => exact ih.trans (.of_grown (hacts.sound hs) hg)
  | evolves he hacts ih => exact ih.trans (.of_evolves (hacts.sound hs) he)

theorem definitions_le (h : s.Acts C s') : s.definitions.size ≤ s'.definitions.size := by
  induction h with
  | done => exact Nat.le_refl _
  | grown hg _ ih => exact Nat.le_trans ih hg.definitions_le
  | evolves he _ ih => exact ih.trans_eq (by rw [he.definitions_eq])

/-- A variable that there was is made as it was made. -/
theorem path_eq (h : s.Acts C s') (hs : s.Sound) {x : Var} (hx : x.index < s.definitions.size) :
    s'.path x = s.path x := by
  induction h with
  | done => rfl
  | grown hg hacts ih =>
    exact (hg.path_eq (hacts.sound hs) (Nat.lt_of_lt_of_le hx hacts.definitions_le)).trans ih
  | evolves he _ ih => exact (he.path_eq x).trans ih

/-- A variable that there was can only lose values. -/
theorem subset (h : s.Acts C s') {q : Var} (hq : q.index < s.definitions.size) :
    s'.domain q ⊆ s.domain q := by
  induction h with
  | done => exact Finset.Subset.refl _
  | grown hg hacts ih =>
    rw [hg.domain_eq q (Nat.lt_of_lt_of_le hq hacts.definitions_le)]
    exact ih
  | evolves he _ ih => exact (he.subset q).trans ih

/-- Something happened to a variable that there was, if it lost values. -/
theorem pending_iff (h : s.Acts C s') {q : Var} (hq : q.index < s.definitions.size) :
    s'.Pending q ↔ s.Pending q ∨ s'.domain q ≠ s.domain q := by
  induction h with
  | done => simp
  | grown hg hacts ih =>
    rw [hg.pending_iff, hg.domain_eq q (Nat.lt_of_lt_of_le hq hacts.definitions_le), ih]
  | @evolves s₁ s₂ he hacts ih =>
    have hsub := hacts.subset hq
    rw [he.pending_iff, ih, or_assoc]
    refine or_congr_right ⟨fun hne heq => ?_, fun hne => ?_⟩
    · obtain hne | hne := hne
      · exact hne (hsub.antisymm (heq ▸ he.subset q))
      · exact hne ((he.subset q).antisymm (heq ▸ hsub))
    · by_cases heq : s₁.domain q = s.domain q
      · exact Or.inr (heq ▸ hne)
      · exact Or.inl heq

end Store.Acts

/-! ## Tame propagators -/

/-- `p'` writes and relies on no cells but those of `p` and the cells in `new`. -/
structure Propagator.Within (Writes Relies : π → Cell → Prop) (new : Cell → Prop) (p p' : π) :
    Prop where
  writes : ∀ c, Writes p' c → Writes p c ∨ new c
  relies : ∀ c, Relies p' c → Relies p c ∨ new c

/-- What is known of the propagators of a type. -/
class Tame (π : Type) [Propagator π] where
  /-- The propagator may write the cell. -/
  Writes : π → Cell → Prop
  /-- Nobody else may write the cell. -/
  Relies : π → Cell → Prop
  /-- The propagator can work on the store.  It was there already in the frames that are `seen`. -/
  Fits : π → Store → (Frame → Prop) → Prop
  held : ∀ {p : π} {s : Store} {seen : Frame → Prop} {c : Cell}, Fits p s seen →
    Writes p c ∨ Relies p c → s.trail.now.Has c
  grown : ∀ {p : π} {s s' : Store} {seen : Frame → Prop}, Fits p s seen → s.Grown s' →
    Fits p s' seen
  evolves : ∀ {p : π} {s s' : Store} {seen : Frame → Prop} {C : Cell → Prop}, Fits p s seen →
    s.Evolves C s' → (∀ c, Relies p c → ¬ C c) → Fits p s' seen
  clearEvents : ∀ {p : π} {s : Store} {seen : Frame → Prop}, Fits p s seen →
    Fits p s.clearEvents seen
  save : ∀ {p : π} {s : Store} {seen : Frame → Prop}, Fits p s seen → Fits p s.save seen
  restored : ∀ {p : π} {s s' : Store} {seen : Frame → Prop} {w : Frame} {rest : List Frame},
    Fits p s seen → s.trail.past = w :: rest → s.Restored s' w rest → seen w →
    Fits (Propagator.onRestore p) s' seen
  within_onRestore : ∀ p : π,
    Propagator.Within Writes Relies (fun _ => False) p (Propagator.onRestore p)
  notified : ∀ {p : π} {s : Store} {seen : Frame → Prop} (x : Var), Fits p s seen →
    Fits (Propagator.notify p x) s seen
  within_notify : ∀ (p : π) (x : Var),
    Propagator.Within Writes Relies (fun _ => False) p (Propagator.notify p x)
  propagated : ∀ {p p' : π} {s s' : Store} {seen : Frame → Prop} {verdict : Verdict},
    Fits p s seen → Propagator.propagate p s = .ok (verdict, p', s') →
    Fits p' s' seen ∧ s.Acts (fun c => Writes p c ∨ ¬ s.trail.now.Has c) s' ∧
      Propagator.Within Writes Relies (fun c => ¬ s.trail.now.Has c) p p'

open Tame

/-- A propagator that takes all values of a variable away says that it failed, as the attempt said to
it.  Nobody restores a level after a failure that is concealed. -/
class Frank (π : Type) [Propagator π] [Tame π] : Prop where
  alive : ∀ {p p' : π} {s s' : Store} {seen : Frame → Prop}, Fits p s seen →
    Propagator.propagate p s = .ok (.consistent, p', s') → s.Alive s'

/-- What became of `p` is `p'`, which was told of `n` restored levels on the way. -/
inductive Lived [Propagator π] (p : π) : Nat → π → Prop
  | now : Lived p 0 p
  | told {n : Nat} {p' : π} (x : Var) : Lived p n p' → Lived p n (Propagator.notify p' x)
  | ran {n : Nat} {p' p'' : π} {s s' : Store} {verdict : Verdict}
      (hret : Propagator.propagate p' s = .ok (verdict, p'', s')) : Lived p n p' → Lived p n p''
  | restored {n : Nat} {p' : π} : Lived p n p' → Lived p (n + 1) (Propagator.onRestore p')

namespace Lived

variable [Propagator π] {p p' p'' : π} {n k : Nat}

theorem trans (h : Lived p n p') (h' : Lived p' k p'') : Lived p (n + k) p'' := by
  induction h' with
  | now => exact h
  | told x _ ih => exact ih.told x
  | ran hret _ ih => exact ih.ran hret
  | restored _ ih => exact ih.restored

theorem told_all (h : Lived p n p') (xs : List Var) :
    Lived p n (xs.foldl Propagator.notify p') := by
  induction xs generalizing p' with
  | nil => exact h
  | cons x rest ih => exact ih (h.told x)

/-- What counts the restored levels has counted them all. -/
theorem count_eq {count : π → Nat} (hnotify : ∀ p x, count (Propagator.notify p x) = count p)
    (hpropagate : ∀ p p' s s' verdict,
      Propagator.propagate p s = .ok (verdict, p', s') → count p' = count p)
    (hrestore : ∀ p, count (Propagator.onRestore p) = count p + 1) (h : Lived p n p') :
    count p' = count p + n := by
  induction h with
  | now => rfl
  | told x _ ih => rw [hnotify, ih]
  | ran hret _ ih => rw [hpropagate _ _ _ _ _ hret, ih]
  | restored _ ih => rw [hrestore, ih, Nat.add_assoc]

end Lived

namespace Tame

variable [Propagator π] [Tame π] {p : π} {s s' : Store} {seen : Frame → Prop} {C : Cell → Prop}

/-- Others act on the store. -/
theorem acts (h : Fits p s seen) (hacts : s.Acts C s') (hC : ∀ c, Relies p c → ¬ C c) :
    Fits p s' seen := by
  induction hacts with
  | done => exact h
  | grown hg _ ih => exact Tame.grown ih hg
  | evolves he _ ih => exact Tame.evolves ih he hC

theorem notified_all (h : Fits p s seen) (xs : List Var) :
    Fits (xs.foldl Propagator.notify p) s seen ∧
      Propagator.Within Writes Relies (fun _ => False) p (xs.foldl Propagator.notify p) := by
  induction xs generalizing p with
  | nil => exact ⟨h, fun _ => Or.inl, fun _ => Or.inl⟩
  | cons x rest ih =>
    obtain ⟨hfits, hwithin⟩ := ih (Tame.notified x h)
    have hfirst := Tame.within_notify p x
    refine ⟨hfits, fun c hc => ?_, fun c hc => ?_⟩
    · exact (hwithin.writes c hc).elim (hfirst.writes c) False.elim
    · exact (hwithin.relies c hc).elim (hfirst.relies c) False.elim

end Tame

namespace Listeners

variable {t : Listeners}

theorem ne_nil_add (h : ∀ entry ∈ t, entry.2 ≠ []) (condition : Condition) (c : Constraint) :
    ∀ entry ∈ add t condition c, entry.2 ≠ [] := by
  induction t with
  | nil =>
    intro entry hentry
    obtain rfl := List.mem_singleton.1 hentry
    exact List.cons_ne_nil _ _
  | cons head rest ih =>
    obtain ⟨hhead, htail⟩ := List.forall_mem_cons.1 h
    rw [add]
    split
    · exact List.forall_mem_cons.2 ⟨List.cons_ne_nil _ _, htail⟩
    · exact List.forall_mem_cons.2 ⟨hhead, ih htail⟩

theorem ne_nil_drop (h : ∀ entry ∈ t, entry.2 ≠ []) (condition : Condition) (c : Constraint) :
    ∀ entry ∈ drop t condition c, entry.2 ≠ [] := by
  induction t with
  | nil => exact h
  | cons head rest ih =>
    obtain ⟨hhead, htail⟩ := List.forall_mem_cons.1 h
    rw [drop]
    split
    · split
      · exact htail
      · rename_i hleft
        exact List.forall_mem_cons.2 ⟨hleft, htail⟩
    · exact List.forall_mem_cons.2 ⟨hhead, ih htail⟩

end Listeners

namespace Model

theorem ne_nil_dropListeners {t : Listeners} (h : ∀ entry ∈ t, entry.2 ≠ [])
    (pairs : List (Condition × Constraint)) : ∀ entry ∈ dropListeners t pairs, entry.2 ≠ [] := by
  induction pairs with
  | nil => exact h
  | cons pair rest ih => exact Listeners.ne_nil_drop ih pair.1 pair.2

/-- The store is acted on, but not the counters. -/
theorem Tallied.of_acts {m : Model π} {s : Store} (h : m.Tallied) {C : Cell → Prop}
    (hacts : m.store.Acts C s) (hpropagators : ¬ C m.propagatorCount)
    (hconditions : ¬ C m.conditionCount) :
    ({ m with store := s } : Model π).Tallied := by
  induction hacts with
  | done => exact h
  | grown hg _ ih => exact ih.of_grown hg
  | evolves he _ ih => exact ih.of_evolves he hpropagators hconditions

/-! ## Models of tame propagators -/

variable [Propagator π] [Tame π] {m m' m'' : Model π} {s : Store} {c : Constraint}

/-- The counters are right, the propagators can work on the store, and do each other no harm. -/
structure Orderly (m : Model π) : Prop extends Tallied m where
  fits : ∀ (i : Nat) (p : π), m.propagators[i]? = some p →
    Fits p m.store fun w => i < m.constraintsIn w
  apart : ∀ (i j : Nat) (p q : π) (d : Cell), m.propagators[i]? = some p →
    m.propagators[j]? = some q → i ≠ j → Writes p d → ¬ Relies q d
  uncounted : ∀ (i : Nat) (p : π) (d : Cell), m.propagators[i]? = some p → Writes p d ∨ Relies p d →
    d ≠ m.propagatorCount ∧ d ≠ m.conditionCount
  filled : ∀ entry ∈ m.listeners, entry.2 ≠ []

/-- What has to be known of a propagator that is posted. -/
structure Admits (m : Model π) (p : π) : Prop where
  fits : ∀ seen : Frame → Prop, (∀ w ∈ m.store.trail.past, ¬ seen w) → Fits p m.store seen
  writes : ∀ d, Writes p d → ∀ q ∈ m.propagators, ¬ Relies q d
  relies : ∀ d, Relies p d → ∀ q ∈ m.propagators, ¬ Writes q d
  uncounted : ∀ d, Writes p d ∨ Relies p d → d ≠ m.propagatorCount ∧ d ≠ m.conditionCount

/-- A propagator that knows no cells harms nobody. -/
theorem Admits.of_no_cells {p : π} (hfits : ∀ seen : Frame → Prop, Fits p m.store seen)
    (hcells : ∀ d, ¬ (Writes p d ∨ Relies p d)) : Admits m p :=
  ⟨fun seen _ => hfits seen, fun d hd => absurd (Or.inl hd) (hcells d),
    fun d hd => absurd (Or.inr hd) (hcells d), fun d hd => absurd hd (hcells d)⟩

namespace Orderly

theorem empty (order : DrainOrder) : (Model.empty order : Model π).Orderly :=
  ⟨.empty order, fun _ _ hp => (nomatch hp), fun _ _ _ _ _ hp => (nomatch hp),
    fun _ _ _ hp => (nomatch hp), fun _ hentry => absurd hentry List.not_mem_nil⟩

/-- Variables and cells are added. -/
theorem of_grown (h : m.Orderly) (hg : m.store.Grown s) :
    ({ m with store := s } : Model π).Orderly :=
  ⟨h.toTallied.of_grown hg, fun i p hp => Tame.grown (h.fits i p hp) hg, h.apart, h.uncounted,
    h.filled⟩

/-- Domains are narrowed. -/
theorem of_evolves (h : m.Orderly) (he : m.store.Evolves (fun _ => False) s) :
    ({ m with store := s } : Model π).Orderly :=
  ⟨h.toTallied.of_evolves he id id, fun i p hp => Tame.evolves (h.fits i p hp) he fun _ _ => id,
    h.apart, h.uncounted, h.filled⟩

/-- Constraints are scheduled or not, and rounds are counted. -/
theorem plan (h : m.Orderly) (scheduled : List Constraint) (order : DrainOrder) (rounds : Nat) :
    ({ m with scheduled, order, rounds } : Model π).Orderly :=
  ⟨h.toTallied.congr rfl rfl rfl rfl rfl rfl, h.fits, h.apart, h.uncounted, h.filled⟩

theorem schedule (h : m.Orderly) (c : Constraint) : (m.schedule c).Orderly := by
  rw [Model.schedule]
  split
  · exact h
  · exact h.plan _ m.order m.rounds

/-- A constraint is made to listen. -/
theorem listen (h : m.Orderly) (hc : c.index < m.propagators.size) {kind : Condition.Kind}
    {x : Var} (hret : m.listen c kind x = .ok m') :
    m'.Orderly ∧ m'.propagators = m.propagators := by
  obtain ⟨y, _, htallied, ⟨_, rfl⟩ | ⟨s, hwrote, rfl⟩⟩ := h.toTallied.listen_cases hc hret
  · exact ⟨h, rfl⟩
  · refine ⟨⟨htallied, fun i p hp => ?_, h.apart, h.uncounted,
      Listeners.ne_nil_add h.filled _ _⟩, rfl⟩
    exact Tame.evolves (h.fits i p hp) hwrote.toEvolves fun d hd heq =>
      (h.uncounted i p d hp (Or.inr hd)).2 heq

/-- A propagator is posted. -/
theorem post (h : m.Orderly) {p : π} (hadmits : Admits m p) (hret : m.post p = .ok (c, m')) :
    m'.Orderly ∧ c = ⟨m.propagators.size⟩ ∧ m'.propagators = m.propagators.push p ∧
      m'.scheduled = m.scheduled := by
  obtain ⟨s, hwrote, rfl, rfl, htallied⟩ := h.toTallied.post_eq hret
  have hfresh : Fits p m.store fun w => m.propagators.size < m.constraintsIn w :=
    hadmits.fits _ fun w hw => Nat.not_lt.2 (h.toTallied.past_le hw).1
  have hcases : ∀ {i : Nat} {q : π}, (m.propagators.push p)[i]? = some q →
      m.propagators[i]? = some q ∨ i = m.propagators.size ∧ q = p := by
    intro i q hq
    rw [Array.getElem?_push] at hq
    split at hq
    · exact Or.inr ⟨by assumption, (Option.some.inj hq).symm⟩
    · exact Or.inl hq
  refine ⟨⟨htallied, fun i q hget => ?_, fun i j q r d hget hget' hij hw => ?_,
    fun i q d hget hd => ?_, h.filled⟩, rfl, rfl, rfl⟩
  · obtain hq | ⟨rfl, rfl⟩ := hcases hget
    · exact Tame.evolves (h.fits i q hq) hwrote.toEvolves fun d hd =>
        (h.uncounted i q d hq (Or.inr hd)).1
    · exact Tame.evolves hfresh hwrote.toEvolves fun d hd => (hadmits.uncounted d (Or.inr hd)).1
  · obtain hq | ⟨rfl, rfl⟩ := hcases hget
    · obtain hr | ⟨rfl, rfl⟩ := hcases hget'
      · exact h.apart i j q r d hq hr hij hw
      · exact fun hd => hadmits.relies d hd q (Array.mem_of_getElem? hq) hw
    · obtain hr | ⟨rfl, rfl⟩ := hcases hget'
      · exact hadmits.writes d hw r (Array.mem_of_getElem? hr)
      · exact absurd rfl hij
  · obtain hq | ⟨rfl, rfl⟩ := hcases hget
    · exact h.uncounted i q d hq hd
    · exact hadmits.uncounted d hd

/-! ### Levels -/

theorem save (h : m.Orderly) : m.save.Orderly :=
  ⟨h.toTallied.save, fun i p hp => Tame.save (h.fits i p hp), h.apart, h.uncounted, h.filled⟩

/-- A level is restored. -/
theorem restore (h : m.Orderly) (hret : m.restore = .ok m') :
    m'.Orderly ∧ m'.Quiet ∧ m'.propagators =
      (m.propagators.shrink m'.propagators.size).map Propagator.onRestore := by
  obtain ⟨w, rest, s, hpast, hrestored, rfl, htallied⟩ := h.toTallied.restore_eq hret
  have hle := (h.toTallied.past_le (hpast ▸ List.mem_cons_self ..)).1
  have hback : ∀ {i : Nat} {p' : π},
      ((m.propagators.shrink (m.constraintsIn w)).map Propagator.onRestore)[i]? = some p' →
        i < m.constraintsIn w ∧
          ∃ p, m.propagators[i]? = some p ∧ p' = Propagator.onRestore p := by
    intro i p' hp'
    rw [Array.getElem?_map, Trail.getElem?_shrink] at hp'
    split at hp'
    · rename_i hlt
      obtain ⟨p, hp, rfl⟩ := Option.map_eq_some_iff.1 hp'
      exact ⟨hlt, p, hp, rfl⟩
    · cases hp'
  have hwrites : ∀ {p : π} {d : Cell}, Writes (Propagator.onRestore p) d → Writes p d :=
    fun hd => ((Tame.within_onRestore _).writes _ hd).elim id False.elim
  have hrelies : ∀ {p : π} {d : Cell}, Relies (Propagator.onRestore p) d → Relies p d :=
    fun hd => ((Tame.within_onRestore _).relies _ hd).elim id False.elim
  refine ⟨⟨htallied, fun i p' hp' => ?_, fun i j p' q' d hp' hq' hij hw hr => ?_,
    fun i p' d hp' hd => ?_, ne_nil_dropListeners h.filled _⟩,
    ⟨Store.news_eq_nil hrestored.sound hrestored.not_pending, rfl⟩, ?_⟩
  · obtain ⟨hlt, p, hp, rfl⟩ := hback hp'
    exact Tame.restored (h.fits i p hp) hpast hrestored hlt
  · obtain ⟨_, p, hp, rfl⟩ := hback hp'
    obtain ⟨_, q, hq, rfl⟩ := hback hq'
    exact h.apart i j p q d hp hq hij (hwrites hw) (hrelies hr)
  · obtain ⟨_, p, hp, rfl⟩ := hback hp'
    exact h.uncounted i p d hp (hd.imp hwrites hrelies)
  · dsimp only
    rw [Array.size_map, Trail.size_shrink hle]

end Orderly

/-! ## Runs -/

/-- No level was restored, and all propagators are still there. -/
structure Stays (m m' : Model π) : Prop where
  orderly : m'.Orderly
  keeps : m.Keeps m'
  lived : ∀ (i : Nat) (p : π), m.propagators[i]? = some p →
    ∃ p', m'.propagators[i]? = some p' ∧ Lived p 0 p'

namespace Stays

theorem refl (h : m.Orderly) : Stays m m := ⟨h, .refl m, fun _ p hp => ⟨p, hp, .now⟩⟩

theorem trans (h : Stays m m') (h' : Stays m' m'') : Stays m m'' := by
  refine ⟨h'.orderly, h.keeps.trans h'.keeps, fun i p hp => ?_⟩
  obtain ⟨p', hp', hlived⟩ := h.lived i p hp
  obtain ⟨p'', hp'', hlived'⟩ := h'.lived i p' hp'
  exact ⟨p'', hp'', hlived.trans hlived'⟩

/-- The propagators are the same, or have more behind them. -/
theorem of_same (h : m'.Orderly) (hkeeps : m.Keeps m')
    (hsame : ∀ (i : Nat) (p : π), m.propagators[i]? = some p → m'.propagators[i]? = some p) :
    Stays m m' :=
  ⟨h, hkeeps, fun i p hp => ⟨p, hsame i p hp, .now⟩⟩

end Stays

namespace Orderly

theorem stays_plan (h : m.Orderly) (scheduled : List Constraint) (rounds : Nat) :
    Stays m { m with scheduled, rounds } :=
  .of_same (h.plan scheduled m.order rounds)
    ⟨.refl _, rfl, rfl, fun _ _ _ _ => rfl, rfl⟩ fun _ _ hp => hp

theorem stays_clearEvents (h : m.Orderly) : Stays m { m with store := m.store.clearEvents } :=
  .of_same ⟨h.toTallied.clearEvents, fun i p hp => Tame.clearEvents (h.fits i p hp), h.apart,
    h.uncounted, h.filled⟩
    ⟨⟨rfl, rfl, fun _ _ _ _ => rfl, fun _ _ _ _ => rfl, fun _ _ _ _ => rfl⟩, rfl, rfl,
      fun _ _ _ _ => rfl, rfl⟩ fun _ _ hp => hp

/-- Constraints are told that variables changed. -/
theorem told (h : m.Orderly) {pairs : List (Constraint × Var)}
    (hret : pairs.foldlM tell m = .ok m') : Stays m m' := by
  obtain ⟨heq, hsize, hget⟩ := told_eq hret
  have htallied : m'.Tallied := h.toTallied.congr (by rw [heq]) (by rw [heq])
    (by rw [heq]) (by rw [heq]) (by rw [heq]) hsize
  have hback : ∀ {i : Nat} {p' : π}, m'.propagators[i]? = some p' →
      ∃ p, ∃ xs : List Var, m.propagators[i]? = some p ∧
        p' = xs.foldl Propagator.notify p := by
    intro i p' hp'
    rw [hget] at hp'
    obtain ⟨p, hp, rfl⟩ := Option.map_eq_some_iff.1 hp'
    exact ⟨p, _, hp, rfl⟩
  have hwrites : ∀ {i : Nat} {p : π} {xs : List Var} {d : Cell}, m.propagators[i]? = some p →
      Writes (xs.foldl Propagator.notify p) d → Writes p d := fun hp hd =>
    ((Tame.notified_all (h.fits _ _ hp) _).2.writes _ hd).elim id False.elim
  have hrelies : ∀ {i : Nat} {p : π} {xs : List Var} {d : Cell}, m.propagators[i]? = some p →
      Relies (xs.foldl Propagator.notify p) d → Relies p d := fun hp hd =>
    ((Tame.notified_all (h.fits _ _ hp) _).2.relies _ hd).elim id False.elim
  refine ⟨⟨htallied, fun i p' hp' => ?_, fun i j p' q' d hp' hq' hij hw hr => ?_,
    fun i p' d hp' hd => ?_, ?_⟩, ⟨?_, ?_, ?_, fun _ _ _ _ => ?_, ?_⟩, fun i p hp => ?_⟩
  · obtain ⟨p, xs, hp, rfl⟩ := hback hp'
    rw [heq]
    exact (Tame.notified_all (h.fits i p hp) xs).1
  · obtain ⟨p, xs, hp, rfl⟩ := hback hp'
    obtain ⟨q, ys, hq, rfl⟩ := hback hq'
    exact h.apart i j p q d hp hq hij (hwrites hp hw) (hrelies hq hr)
  · obtain ⟨p, xs, hp, rfl⟩ := hback hp'
    rw [heq]
    exact h.uncounted i p d hp (hd.imp (hwrites hp) (hrelies hp))
  · rw [heq]
    exact h.filled
  · rw [heq]
    exact .refl _
  · rw [heq]
  · rw [heq]
  · rw [heq]
  · rw [heq]
  · exact ⟨_, (hget i).trans (congrArg _ hp), Lived.told_all .now _⟩

/-- Constraints are told of what happened. -/
theorem wake (h : m.Orderly) (hret : m.wake = .ok m') : Stays m m' :=
  h.stays_clearEvents.trans (h.stays_clearEvents.orderly.told hret)

/-- A propagator is run.  What it writes nobody else relies on, and the cells that it makes nobody
else knows. -/
theorem runOne (h : m.Orderly) {verdict : Verdict} (hret : m.runOne c = .ok (verdict, m')) :
    Stays m m' := by
  obtain ⟨p, p', s, hp, hpropagate, rfl⟩ := runOne_eq hret
  obtain ⟨hfits, hacts, hwithin⟩ := Tame.propagated (h.fits _ p hp) hpropagate
  have hlt : c.index < m.propagators.size := (Array.getElem?_eq_some_iff.1 hp).1
  have hcases : ∀ {j : Nat} {q : π}, (m.propagators.setIfInBounds c.index p')[j]? = some q →
      j = c.index ∧ q = p' ∨ j ≠ c.index ∧ m.propagators[j]? = some q := by
    intro j q hq
    by_cases hj : j = c.index
    · rw [hj, Array.getElem?_setIfInBounds_self_of_lt hlt] at hq
      exact Or.inl ⟨hj, (Option.some.inj hq).symm⟩
    · rw [Array.getElem?_setIfInBounds_ne (Ne.symm hj)] at hq
      exact Or.inr ⟨hj, hq⟩
  have hpropagators : ¬ (Writes p m.propagatorCount ∨ ¬ m.store.trail.now.Has m.propagatorCount) :=
    not_or.2 ⟨fun hw => (h.uncounted _ p _ hp (Or.inl hw)).1 rfl,
      not_not.2 h.now.has_propagators⟩
  have hconditions : ¬ (Writes p m.conditionCount ∨ ¬ m.store.trail.now.Has m.conditionCount) :=
    not_or.2 ⟨fun hw => (h.uncounted _ p _ hp (Or.inl hw)).2 rfl,
      not_not.2 h.now.has_conditions⟩
  refine ⟨⟨(h.toTallied.of_acts hacts hpropagators hconditions).congr rfl rfl rfl rfl rfl
    (Array.size_setIfInBounds ..), fun j q hget => ?_, fun j k q r d hget hget' hjk hw hr => ?_,
    fun j q d hget hd => ?_, h.filled⟩, ⟨hacts.keeps h.store, rfl, rfl, fun _ _ _ _ => rfl, rfl⟩,
    fun j q hq => ?_⟩
  · obtain ⟨rfl, rfl⟩ | ⟨hj, hq⟩ := hcases hget
    · exact hfits
    · refine Tame.acts (h.fits j q hq) hacts fun d hd => not_or.2 ⟨fun hw => ?_, not_not.2 ?_⟩
      · exact h.apart c.index j p q d hp hq (Ne.symm hj) hw hd
      · exact Tame.held (h.fits j q hq) (Or.inr hd)
  · obtain ⟨hj, hq⟩ | ⟨hj, hq⟩ := hcases hget
    · obtain ⟨hk, _⟩ | ⟨hk, hr'⟩ := hcases hget'
      · exact hjk (hj.trans hk.symm)
      · subst hq
        obtain hw | hnew := hwithin.writes d hw
        · exact h.apart c.index k p r d hp hr' (Ne.symm hk) hw hr
        · exact hnew (Tame.held (h.fits k r hr') (Or.inr hr))
    · obtain ⟨_, hr'⟩ | ⟨_, hr'⟩ := hcases hget'
      · subst hr'
        obtain hr | hnew := hwithin.relies d hr
        · exact h.apart j c.index q p d hq hp hj hw hr
        · exact hnew (Tame.held (h.fits j q hq) (Or.inl hw))
      · exact h.apart j k q r d hq hr' hjk hw hr
  · obtain ⟨_, hq⟩ | ⟨_, hq⟩ := hcases hget
    · subst hq
      have hold : (Writes p d ∨ Relies p d) ∨ ¬ m.store.trail.now.Has d := by
        obtain hd | hd := hd
        · exact (hwithin.writes d hd).imp_left Or.inl
        · exact (hwithin.relies d hd).imp_left Or.inr
      obtain hd | hnew := hold
      · exact h.uncounted _ p d hp hd
      · refine ⟨fun heq => hnew ?_, fun heq => hnew ?_⟩
        · rw [heq]
          exact h.now.has_propagators
        · rw [heq]
          exact h.now.has_conditions
    · exact h.uncounted j q d hq hd
  · by_cases hj : j = c.index
    · rw [hj] at hq ⊢
      obtain rfl := Option.some.inj (hq.symm.trans hp)
      exact ⟨p', Array.getElem?_setIfInBounds_self_of_lt hlt, .ran hpropagate .now⟩
    · exact ⟨q, (Array.getElem?_setIfInBounds_ne (Ne.symm hj)).trans hq, .now⟩

theorem runAll (h : m.Orderly) {cs : List Constraint} {verdict : Verdict}
    (hret : runAll cs m = .ok (verdict, m')) : Stays m m' := by
  induction cs generalizing m with
  | nil =>
    cases hret
    exact .refl h
  | cons c rest ih =>
    rw [Model.runAll] at hret
    obtain ⟨⟨v, m₁⟩, hone, hret⟩ := bind_eq_ok_iff.1 hret
    have hstays := h.runOne hone
    cases v with
    | failed why =>
      cases hret
      exact hstays
    | consistent => exact hstays.trans (ih hstays.orderly hret)

theorem runRounds (h : m.Orderly) {fuel : Nat} {verdict : Verdict}
    (hret : m.runRounds fuel = .ok (verdict, m')) : Stays m m' := by
  induction fuel generalizing m with
  | zero => cases hret
  | succ fuel ih =>
    rw [Model.runRounds] at hret
    obtain ⟨w, hwake, hret⟩ := bind_eq_ok_iff.1 hret
    have hstays := h.wake hwake
    split at hret
    · cases hret
      exact hstays
    · obtain ⟨⟨v, m₁⟩, hdrain, hret⟩ := bind_eq_ok_iff.1 hret
      have hplan := hstays.orderly.stays_plan [] (w.rounds + 1)
      have hround := (hstays.trans hplan).trans (hplan.orderly.runAll hdrain)
      cases v with
      | failed why =>
        cases hret
        exact hround
      | consistent => exact hround.trans (ih hround.orderly hret)

/-- The propagators run until nothing changes any more. -/
theorem fixpoint (h : m.Orderly) {verdict : Verdict} (hret : m.fixpoint = .ok (verdict, m')) :
    Stays m m' :=
  h.runRounds hret

end Orderly

end Model

end FiniteDomain
