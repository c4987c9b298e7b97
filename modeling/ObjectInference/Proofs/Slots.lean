import ObjectInference.Proofs.Matching.Parameters

/-!
The slots of ordinary parameters.

A call is recorded with one object for each parameter, and what is supplied to a
function has one slot for each ordinary one. `slotOf` leads from the place of a
parameter to its slot. Both ways of leaving the special parameters out of a
record, that of the supplied objects and that of the answers of a session, put
the object that was recorded for an ordinary parameter into its slot.
-/

namespace ObjectInference

/-- The slot of the ordinary parameter at a place. -/
def slotOf (params : List Param) (k : Nat) : Nat :=
  (placeholders (params.take k)).length

section Slots

variable (param : Param) (params : List Param) (k : Nat)

theorem length_placeholders_cons : (placeholders (param :: params)).length =
    (placeholders params).length + if param.isSpecial then 0 else 1 := by
  cases h : param.isSpecial <;> simp [placeholders, h]

@[simp] theorem slotOf_zero : slotOf params 0 = 0 := rfl

@[simp] theorem slotOf_succ : slotOf (param :: params) (k + 1) =
    slotOf params k + if param.isSpecial then 0 else 1 :=
  length_placeholders_cons param (params.take k)

variable {param params k}

/-- Every ordinary parameter has a slot. -/
theorem slotOf_lt (h : params[k]? = some param) (ho : param.isSpecial = false) :
    slotOf params k < (placeholders params).length := by
  induction params generalizing k with
  | nil => simp at h
  | cons q params ih =>
      rw [length_placeholders_cons]
      cases k with
      | zero =>
          have hq : q = param := by simpa using h
          simp [hq, ho]
      | succ k =>
          have hlt := ih (k := k) (by simpa using h)
          rw [slotOf_succ]
          omega

/-- If the first parameter is ordinary, the others have other slots. -/
theorem slotOf_pos (h : param.isSpecial = false) (hk : k ≠ 0) :
    0 < slotOf (param :: params) k := by
  obtain ⟨j, rfl⟩ := Nat.exists_eq_succ_of_ne_zero hk
  simp [h]

/-- Leaving out the special parameters puts every bound object into its slot. -/
theorem ordinaryObjects_slot (h : params[k]? = some param) (ho : param.isSpecial = false)
    (bound : List ObjectId) : (ordinaryObjects params bound)[slotOf params k]? = bound[k]? := by
  induction params generalizing k bound with
  | nil => simp at h
  | cons q params ih =>
      cases bound with
      | nil => simp [ordinaryObjects]
      | cons o os =>
          cases k with
          | zero =>
              have hq : q = param := by simpa using h
              simp [ordinaryObjects, hq, ho]
          | succ k =>
              have hrest := ih (k := k) (by simpa using h) os
              unfold ordinaryObjects at hrest
              cases hq : q.isSpecial <;> simp [ordinaryObjects, hq, hrest]

end Slots

/-! ### What is recorded -/

theorem length_overlay (os rs : List ObjectId) : (overlay os rs).length = os.length := by
  induction os generalizing rs with
  | nil => rfl
  | cons o os ih =>
      cases rs with
      | nil => rfl
      | cons r rs => simp [overlay, ih]

/-- Over an object that is not known lies whatever is put there. -/
theorem overlay_of_unknown {os : List ObjectId} {i : Nat} (h : os[i]? = some .unknown)
    (rs : List ObjectId) : (overlay os rs)[i]? = some ((rs[i]?).getD .unknown) := by
  induction os generalizing i rs with
  | nil => simp at h
  | cons o os ih =>
      cases rs with
      | nil => simpa [overlay] using h
      | cons r rs =>
          cases i with
          | zero =>
              have ho : o = .unknown := by simpa using h
              by_cases hr : r = .unknown <;> simp [overlay, ObjectId.isKnown, ho, hr]
          | succ i =>
              have hrest := ih (i := i) (by simpa using h) rs
              simpa [overlay] using hrest

/-- Objects that are all unknown are covered by as many others. -/
theorem overlay_unknowns {us rs : List ObjectId} (hu : ∀ u ∈ us, u = .unknown)
    (h : rs.length = us.length) : overlay us rs = rs := by
  induction us generalizing rs with
  | nil =>
      obtain rfl : rs = [] := List.eq_nil_of_length_eq_zero h
      rfl
  | cons u us ih =>
      cases rs with
      | nil => simp at h
      | cons r rs =>
          obtain rfl : u = .unknown := hu u List.mem_cons_self
          have hrest := ih (fun u hu' => hu u (List.mem_cons_of_mem _ hu')) (by simpa using h)
          by_cases hr : r = .unknown <;> simp [overlay, ObjectId.isKnown, hr, hrest]

theorem getElem?_placeholders {params : List Param} {i : Nat}
    (h : i < (placeholders params).length) : (placeholders params)[i]? = some .unknown := by
  have hlt : i < (params.filter fun p => !p.isSpecial).length := by simpa [placeholders] using h
  simp [placeholders, hlt]

/-- The object of the latest recorded call for the parameter at a place, unknown
without one. -/
def State.recordedAt (s : State) (f : ObjectId) (k : Nat) : ObjectId :=
  ((s.calls.latest f).bind fun record => record[k]?).getD .unknown

namespace Program

variable {p : Program} {s : State} {f : ObjectId} {os os' : List ObjectId}

theorem length_recordedParameters (p : Program) (s : State) (f : ObjectId) :
    (p.recordedParameters s f).length = (placeholders (p.parameters s.objects f)).length := by
  unfold recordedParameters
  cases s.calls.latest f with
  | none => rfl
  | some record => exact length_overlay _ _

section Slot

variable {param : Param} {k : Nat} (h : (p.parameters s.objects f)[k]? = some param)
  (ho : param.isSpecial = false)

include h ho

theorem recordedParameters_slot :
    (p.recordedParameters s f)[slotOf (p.parameters s.objects f) k]? = some (s.recordedAt f k) := by
  have hplace := getElem?_placeholders (slotOf_lt h ho)
  unfold recordedParameters State.recordedAt
  cases s.calls.latest f with
  | none => exact hplace
  | some record =>
      show (overlay _ _)[_]? = _
      rw [overlay_of_unknown hplace, ordinaryObjects_slot h ho]
      rfl

/-- What a session says of a parameter. -/
theorem ordinaryObjects_slot_latest {record : CallRecord} (hlatest : s.calls.latest f = some record)
    (hlength : record.length = (p.parameters s.objects f).length) :
    (ordinaryObjects (p.parameters s.objects f) record)[slotOf (p.parameters s.objects f) k]? =
      some (s.recordedAt f k) := by
  have hk : k < record.length := hlength ▸ (List.getElem?_eq_some_iff.1 h).1
  rw [ordinaryObjects_slot h ho, State.recordedAt, hlatest]
  simp [List.getElem?_eq_getElem hk]

end Slot

/-! ### What is supplied -/

/-- The class of which an instance stands for a parameter: that of a method, if its
first parameter is ordinary and not known. -/
def receiverFor? (p : Program) (s : State) (f : ObjectId) (k : Nat) (recorded : ObjectId) :
    Option ObjectId :=
  if k = 0 ∧ recorded = .unknown then p.receiverClass? s f else none

/-- An object stands for the parameter at a place when another one is recorded for
it: the shared instance of the class for an unknown receiver of a method, and the
recorded object itself for any other parameter. -/
def StandsFor (p : Program) (s : State) (f : ObjectId) (k : Nat) (recorded o : ObjectId) : Prop :=
  match p.receiverFor? s f k recorded with
  | some c => s.objects.get o = .inst c none
  | none => o = recorded

instance (s : State) (f : ObjectId) (k : Nat) (recorded o : ObjectId) :
    Decidable (p.StandsFor s f k recorded o) := by
  unfold StandsFor
  split <;> infer_instance

/-- A function with a receiver has an ordinary parameter first. -/
theorem parameters_of_receiverClass? {c : ObjectId} (h : p.receiverClass? s f = some c) :
    ∃ param rest, p.parameters s.objects f = param :: rest ∧ param.isSpecial = false := by
  unfold receiverClass? at h
  split at h
  · rename_i param rest hparams
    split at h
    · cases h
    · rename_i ho
      exact ⟨param, rest, hparams, by simpa using ho⟩
  · cases h

namespace Supplied

theorem length_eq (h : p.Supplied s f os) :
    os.length = (placeholders (p.parameters s.objects f)).length := by
  have hlength := length_recordedParameters p s f
  cases h with
  | recorded _ => exact hlength
  | receiver _ hrest _ _ => rwa [hrest] at hlength

/-- What is supplied is settled by the records. -/
theorem unique (hd : s.objects.Distinct) (h : p.Supplied s f os) (h' : p.Supplied s f os') :
    os = os' := by
  cases h with
  | recorded hnot => exact (h'.eq_recorded hnot).symm
  | receiver hc hrest hi hget =>
      obtain ⟨j, rfl, hj, hget'⟩ := h'.eq_cons hc hrest
      rw [hd _ _ hi hj (hget.trans hget'.symm)]

theorem slot (h : p.Supplied s f os) {param : Param} {k : Nat}
    (hk : (p.parameters s.objects f)[k]? = some param) (ho : param.isSpecial = false) :
    ∃ o, os[slotOf (p.parameters s.objects f) k]? = some o ∧
      p.StandsFor s f k (s.recordedAt f k) o := by
  have hrecorded := recordedParameters_slot hk ho
  cases h with
  | recorded hnot =>
      refine ⟨_, hrecorded, ?_⟩
      have hnone : p.receiverFor? s f k (s.recordedAt f k) = none := by
        unfold receiverFor?
        split
        · rename_i hk₀
          obtain ⟨rfl, hunknown⟩ := hk₀
          refine hnot.resolve_right fun hne => ?_
          -- The first slot is unknown, so a receiver would have been supplied.
          rw [slotOf_zero, hunknown, ← List.head?_eq_getElem?] at hrecorded
          obtain ⟨rest, hrest⟩ := List.head?_eq_some_iff.1 hrecorded
          exact hne _ hrest
        · rfl
      simp only [StandsFor, hnone]
  | @receiver c i rest hc hrest hi hget =>
      obtain ⟨first, params, hparams, hfirst⟩ := parameters_of_receiverClass? hc
      rw [hrest] at hrecorded
      by_cases hk₀ : k = 0
      · subst hk₀
        rw [slotOf_zero] at hrecorded ⊢
        have hunknown : s.recordedAt f 0 = .unknown := by simpa using hrecorded.symm
        refine ⟨i, rfl, ?_⟩
        simpa [StandsFor, receiverFor?, hunknown, hc] using hget
      · have hpos : 0 < slotOf (p.parameters s.objects f) k := by
          rw [hparams]
          exact slotOf_pos hfirst hk₀
        obtain ⟨j, hj⟩ := Nat.exists_eq_succ_of_ne_zero (Nat.ne_of_gt hpos)
        rw [hj] at hrecorded ⊢
        refine ⟨s.recordedAt f k, by simpa using hrecorded, ?_⟩
        simp [StandsFor, receiverFor?, hk₀]

end Supplied

end Program

end ObjectInference
