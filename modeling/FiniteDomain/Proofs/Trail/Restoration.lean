import FiniteDomain.Proofs.Trail.Sessions

/-!
# Restoring a level

A sequence of calls that saves a level, and restores it in the end without going below it, leaves no
trace in what can be asked of the trail.

* `openLevels` follows the levels that a sequence of calls saves and restores.
* `Session.Keeps` is what such a sequence leaves alone: the frames below its open levels, and what
  they see in the sets.  It holds of one call and, by induction, of a whole run (`Runs.keeps`).
* `Alike` says that two trails give the same answers, and will hand out the same identifiers.
* `Session.Runs.restore_alike` is the result.

The places of the members in their segments are not put back, so the members may be listed in another
order.
-/

namespace FiniteDomain.Trail

/-- The number of open levels after some calls, from `n` that are open before.  There is none if the
calls restore more than those. -/
def openLevels : Nat → List Call → Option Nat
  | n, [] => some n
  | n, .save :: calls => openLevels (n + 1) calls
  | 0, .restore :: _ => none
  | n + 1, .restore :: calls => openLevels n calls
  | n, _ :: calls => openLevels n calls

/-- Every level that the calls restore was saved by them, and the other way round. -/
def Balanced (calls : List Call) : Prop := openLevels 0 calls = some 0

instance (calls : List Call) : Decidable (Balanced calls) :=
  inferInstanceAs (Decidable (_ = _))

theorem openLevels_of_within {call : Call} (hsave : call ≠ .save) (hrestore : call ≠ .restore)
    (n : Nat) (calls : List Call) : openLevels n (call :: calls) = openLevels n calls := by
  cases call <;> first | exact absurd rfl hsave | exact absurd rfl hrestore | (cases n <;> rfl)

/-! ## What is below the open levels -/

namespace Session

/-- The levels below the `n` last ones of `s` are those below the `m` last ones of `s'`, with the same
frames, and these see the same in the sets. -/
structure Keeps (n m : Nat) (s s' : Session) : Prop where
  past_eq : s'.trail.past.drop m = s.trail.past.drop n
  kept_eq : s'.kept.drop m = s.kept.drop n
  sets_eq : ∀ w ∈ s.trail.past.drop n, ∀ i < w.sets, s'.trail.sets[i]? = s.trail.sets[i]?
  domain_eq : ∀ w ∈ s.trail.past.drop n, ∀ id : SetId, id.index < w.sets →
    s'.trail.domain w id = s.trail.domain w id

variable {s s' s'' : Session} {n m k : Nat}

theorem Keeps.refl (n : Nat) (s : Session) : Keeps n n s s :=
  ⟨rfl, rfl, fun _ _ _ _ => rfl, fun _ _ _ _ => rfl⟩

theorem Keeps.trans (h : Keeps n m s s') (h' : Keeps m k s' s'') : Keeps n k s s'' where
  past_eq := h'.past_eq.trans h.past_eq
  kept_eq := h'.kept_eq.trans h.kept_eq
  sets_eq w hw i hi := by
    rw [h'.sets_eq w (h.past_eq ▸ hw) i hi, h.sets_eq w hw i hi]
  domain_eq w hw id hi := by
    rw [h'.domain_eq w (h.past_eq ▸ hw) id hi, h.domain_eq w hw id hi]

/-- One call keeps what is below the levels that are open around it. -/
theorem Sound.keeps {call : Call} (h : s.Sound) (hallows : s.Allows call)
    (hret : s.perform call = .ok s') {calls : List Call}
    (hopen : openLevels n (call :: calls) = some k) :
    ∃ m, openLevels m calls = some k ∧ Keeps n m s s' := by
  obtain ⟨t, hcall, hret⟩ := bind_eq_ok_iff.1 hret
  cases hret
  by_cases hsave : call = .save
  · subst hsave
    cases hcall
    obtain ⟨_, hpast, _⟩ := Trail.save_eq h.trail.tracked
    refine ⟨n + 1, by cases n <;> exact hopen, ?_, rfl, fun _ _ _ _ => rfl, fun _ _ _ _ => rfl⟩
    show s.trail.save.past.drop (n + 1) = _
    rw [hpast]
    rfl
  by_cases hrestore : call = .restore
  · subst hrestore
    obtain ⟨w, rest, k', ks, hpast, hkept, hrestored⟩ := h.exists_past hcall
    cases n with
    | zero => cases hopen
    | succ m =>
      have hin : ∀ w' ∈ s.trail.past.drop (m + 1), w' ∈ rest := by
        intro w' hw'
        rw [hpast] at hw'
        exact List.mem_of_mem_drop hw'
      refine ⟨m, hopen, ?_, ?_, fun w' hw' i hi => ?_, fun w' hw' id hi => ?_⟩
      · show t.past.drop m = _
        rw [hrestored.past_eq, hpast]
        rfl
      · show s.kept.tail.drop m = _
        rw [hkept]
        rfl
      · have hafter := h.trail.after
        rw [frames, hpast] at hafter
        have hle := ((List.pairwise_cons.1 (List.pairwise_cons.1 hafter).2).1 w' (hin w' hw')).sets_le
        show t.sets[i]? = _
        rw [hrestored.sets_eq, getElem?_shrink, if_pos (Nat.lt_of_lt_of_le hi hle)]
      · exact hrestored.domain_eq w' (List.mem_cons_of_mem _ (hin w' hw')) id hi
  · have honward := h.onward hallows hsave hrestore hcall
    have hlearn : (s.learn t call).trail = t ∧ (s.learn t call).kept = s.kept := by
      cases call <;> first | exact ⟨rfl, rfl⟩ | exact absurd rfl hrestore | exact absurd rfl hsave
    rw [openLevels_of_within hsave hrestore] at hopen
    refine ⟨n, hopen, ?_, by rw [hlearn.2], fun w hw i hi => ?_, fun w hw id hi => ?_⟩ <;>
      rw [hlearn.1]
    · rw [honward.past_eq]
    · have hin := List.mem_of_mem_drop hw
      exact honward.sets_eq i (Nat.lt_of_lt_of_le hi (h.trail.sets_le hin))
    · exact honward.domain_past w (List.mem_of_mem_drop hw) id hi

/-- A run keeps what is below the levels that are open around it. -/
theorem Runs.keeps {calls : List Call} (h : Runs s calls s') (hs : s.Sound)
    (hopen : openLevels n calls = some k) : Keeps n k s s' := by
  induction h generalizing n with
  | nil s =>
    cases Option.some.inj hopen
    exact .refl _ s
  | cons hallows hret _ ih =>
    obtain ⟨m, hopen', hkeeps⟩ := hs.keeps hallows hret hopen
    exact hkeeps.trans (ih (hs.perform hallows hret) hopen')

end Session

/-! ## Trails that cannot be told apart -/

/-- Two trails give the same answers, except for the order in which members are listed, and hand out
the same identifiers next. -/
structure Alike (t t' : Trail) : Prop where
  depth_eq : t'.depth = t.depth
  cells_size : t'.cells.size = t.cells.size
  sets_size : t'.sets.size = t.sets.size
  read_eq : ∀ c, t'.read c = t.read c
  card_eq : ∀ id, t'.card id = t.card id
  least_eq : ∀ id, t'.least? id = t.least? id
  greatest_eq : ∀ id, t'.greatest? id = t.greatest? id
  member_eq : ∀ id v, t'.member id v = t.member id v
  elements_perm : ∀ id,
    (∃ vs vs', t.elements id = .ok vs ∧ t'.elements id = .ok vs' ∧ vs'.Perm vs) ∨
      ∃ f, t.elements id = .error f ∧ t'.elements id = .error f
  newCell_eq : ∀ v, (t'.newCell v).1 = (t.newCell v).1
  newSet_eq : ∀ n offset, (t'.newSet n offset).1 = (t.newSet n offset).1

theorem length_framesOf (levels : List Level) (log : List LogEntry) (cells : Array CellState) :
    (framesOf levels log cells).length = levels.length := by
  induction levels generalizing log cells with
  | nil => rfl
  | cons level levels ih => rw [framesOf, List.length_cons, ih, List.length_cons]

theorem length_past (t : Trail) : t.past.length = t.depth := length_framesOf ..

/-- Two lists of the same members are both listed, or a member is out of range in both. -/
theorem mapM_add_perm {rs rs' : List Nat} (offset : Int) (h : rs'.Perm rs) :
    (∃ vs vs', rs.mapM (fun r : Nat => Word.add (r : Int) offset) = .ok vs ∧
      rs'.mapM (fun r : Nat => Word.add (r : Int) offset) = .ok vs' ∧ vs'.Perm vs) ∨
    ∃ f, rs.mapM (fun r : Nat => Word.add (r : Int) offset) = .error f ∧
      rs'.mapM (fun r : Nat => Word.add (r : Int) offset) = .error f := by
  have hcheck : ∀ r : Nat, ¬ Word.InRange ((r : Int) + offset) →
      Word.add (r : Int) offset = .error .overflow := fun r hr => if_neg hr
  by_cases hall : ∀ r ∈ rs, Word.InRange ((r : Int) + offset)
  · have hmap : ∀ l : List Nat, (∀ r ∈ l, Word.InRange ((r : Int) + offset)) →
        l.mapM (fun r : Nat => Word.add (r : Int) offset) =
          .ok (l.map fun r : Nat => (r : Int) + offset) :=
      fun l hl => mapM_eq_ok fun r hr => Word.check_of_inRange (hl r hr)
    exact Or.inl ⟨_, _, hmap rs hall, hmap rs' fun r hr => hall r (h.mem_iff.1 hr), h.map _⟩
  · obtain ⟨r, hr, hout⟩ : ∃ r ∈ rs, ¬ Word.InRange ((r : Int) + offset) := by
      simpa using hall
    have hfail : ∀ l : List Nat, r ∈ l →
        l.mapM (fun r : Nat => Word.add (r : Int) offset) = .error .overflow := by
      refine fun l hl => mapM_eq_error (fun a _ => ?_) ⟨r, hl, hcheck r hout⟩
      by_cases ha : Word.InRange ((a : Int) + offset)
      · exact Or.inl ⟨_, Word.check_of_inRange ha⟩
      · exact Or.inr (hcheck a ha)
    exact Or.inr ⟨.overflow, hfail rs hr, hfail rs' (h.mem_iff.2 hr)⟩

/-- Two trails with the same present cannot be told apart, if as many levels can be restored. -/
theorem alike_of_now_eq {t t' : Trail} (h : t.Sound) (h' : t'.Sound) (hnow : t'.now = t.now)
    (hdepth : t'.depth = t.depth) (hsets : t'.sets = t.sets)
    (hdomain : ∀ id : SetId, id.index < t.sets.size → t'.domain t'.now id = t.domain t.now id) :
    Alike t t' := by
  have hcells : t'.cells.size = t.cells.size := by
    rw [← size_values_now, ← size_values_now, hnow]
  have hread : ∀ c, t'.read c = t.read c := by
    intro c
    by_cases hc : t.now.Has c
    · rw [read_eq hc, read_eq (hnow.symm ▸ hc), hnow]
    · rw [Frame.Has, size_values_now] at hc
      rw [read, read, fetch, fetch, Array.getElem?_eq_none (by omega),
        Array.getElem?_eq_none (by omega)]
  have hdescribe : ∀ id, t'.describe id = t.describe id := fun id => by
    rw [describe, describe, hsets]
  -- A set that does not exist cannot be described, in either trail.
  have hset : ∀ id : SetId, t.describe id = .error .outOfBounds ∨
      ∃ s, t.sets[id.index]? = some s ∧ t'.domain t'.now id = t.domain t.now id := by
    intro id
    rw [describe, fetch]
    cases hs : t.sets[id.index]? with
    | none => exact Or.inl rfl
    | some s => exact Or.inr ⟨s, rfl, hdomain id (Array.getElem?_eq_some_iff.1 hs).1⟩
  refine ⟨hdepth, hcells, by rw [hsets], hread, fun id => ?_, fun id => ?_, fun id => ?_,
    fun id v => ?_, fun id => ?_, fun v => ?_, fun n offset => ?_⟩
  · simp only [card, readCount, hdescribe, hread]
  · simp only [least?, hdescribe, hread]
  · simp only [greatest?, hdescribe, hread]
  · obtain hnone | ⟨s, hs, heq⟩ := hset id
    · rw [member, member, hdescribe, hnone]
      rfl
    · rw [member_eq h hs, member_eq h' (hsets ▸ hs), heq]
  · obtain hnone | ⟨s, hs, heq⟩ := hset id
    · refine Or.inr ⟨.outOfBounds, ?_, ?_⟩ <;> rw [elements]
      · rw [hnone]
        rfl
      · rw [hdescribe, hnone]
        rfl
    · obtain ⟨rs, hrs, hnodup, hmem⟩ := elements_eq_mapM h hs
      obtain ⟨rs', hrs', hnodup', hmem'⟩ := elements_eq_mapM h' (hsets ▸ hs)
      rw [hrs, hrs']
      refine mapM_add_perm s.offset ((List.perm_ext_iff_of_nodup hnodup' hnodup).2 fun r => ?_)
      rw [hmem, hmem', ← add_mem_domainOf, ← add_mem_domainOf, ← domain_eq hs,
        ← domain_eq (hsets ▸ hs), heq]
  · exact congrArg Cell.mk hcells
  · show SetId.mk t'.sets.size = SetId.mk t.sets.size
    rw [hsets]

/-! ## The result -/

namespace Session

/-- After a level was saved, and the levels saved since were restored, restoring it gives back what
there was: nothing that can be asked of the trail tells the difference. -/
theorem Runs.restore_alike {s s₁ : Session} {before calls : List Call} (hs : Runs start before s)
    (hrun : Runs s (.save :: calls) s₁) (hbalanced : Balanced calls) :
    ∃ s', s₁.perform .restore = .ok s' ∧ Alike s.trail s'.trail ∧ s'.known = s.known ∧
      s'.kept = s.kept := by
  have hsound := hs.sound sound_start
  cases hrun with
  | cons hallows hret hruns =>
    cases hret
    have hsound₀ := hsound.perform hallows rfl
    have hsound₁ := hruns.sound hsound₀
    obtain ⟨hnow, hpast, _⟩ := Trail.save_eq hsound.trail.tracked
    have hkeeps := hruns.keeps hsound₀ hbalanced
    have hpast₁ : s₁.trail.past = s.trail.now :: s.trail.past := hkeeps.past_eq.trans hpast
    have hkept₁ : s₁.kept = s.known :: s.kept := hkeeps.kept_eq
    have hmem : s.trail.now ∈ s.trail.save.past.drop 0 := by
      rw [hpast]
      exact List.mem_cons_self ..
    obtain ⟨t, hrestore, hrestored⟩ := hsound₁.trail.restore hpast₁
    have hsets : t.sets = s.trail.sets := by
      apply Array.ext_getElem?
      intro i
      rw [hrestored.sets_eq, getElem?_shrink]
      split
      · rename_i hi
        exact hkeeps.sets_eq _ hmem i hi
      · rename_i hi
        exact (Array.getElem?_eq_none (Nat.not_lt.1 hi)).symm
    refine ⟨s₁.learn t .restore, ?_, ?_, ?_, ?_⟩
    · show (s₁.trail.restore >>= _) = _
      rw [hrestore]
      rfl
    · show Alike s.trail t
      refine alike_of_now_eq hsound.trail hrestored.sound hrestored.now_eq ?_ hsets fun id hid => ?_
      · rw [← length_past, ← length_past, hrestored.past_eq]
      · rw [hrestored.now_eq, hrestored.domain_eq _ (List.mem_cons_self ..) id hid]
        exact hkeeps.domain_eq _ hmem id hid
    · show s₁.kept.headD _ = _
      rw [hkept₁]
      rfl
    · show s₁.kept.tail = _
      rw [hkept₁]
      rfl

/-- A cell and a set are changed in two nested levels, and again after the inner one was restored. -/
theorem restore_alike_nested :
    ∃ s s₁ s', start.follow [.newCell 5, .newSet 3 10] = some s ∧
      s.follow (.save :: [.write ⟨0⟩ 7, .save, .erase ⟨0⟩ 11, .newCell 1, .write ⟨4⟩ 2, .restore,
        .increment ⟨0⟩, .eraseBelow ⟨0⟩ 12]) = some s₁ ∧
      s₁.trail.read ⟨0⟩ = .ok 8 ∧ s₁.trail.elements ⟨0⟩ = .ok [12] ∧
      s₁.perform .restore = .ok s' ∧ Alike s.trail s'.trail := by
  have hs := Option.some_get (x := start.follow [.newCell 5, .newSet 3 10]) (by decide +kernel)
  have hs₁ := Option.some_get (x := ((start.follow [.newCell 5, .newSet 3 10]).get
    (by decide +kernel)).follow (.save :: [.write ⟨0⟩ 7, .save, .erase ⟨0⟩ 11, .newCell 1,
      .write ⟨4⟩ 2, .restore, .increment ⟨0⟩, .eraseBelow ⟨0⟩ 12])) (by decide +kernel)
  obtain ⟨s', hret, halike, _⟩ := Runs.restore_alike (runs_iff_follow.2 hs.symm)
    (runs_iff_follow.2 hs₁.symm) (by decide)
  exact ⟨_, _, s', hs.symm, hs₁.symm, by decide +kernel, by decide +kernel, hret, halike⟩

end Session

end FiniteDomain.Trail
