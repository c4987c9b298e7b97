import ObjectInference.Program.Basic

/-!
Growth of the object store.

Inference adds nothing to a store but instances and generators, at its end. So
an object keeps what it is, a number that was not handed out may turn into an
instance at most, and what is read of functions and their parameters stays the
same for every number.
-/

namespace ObjectInference

namespace ObjectStore

/-- Numbers that were handed out keep their meaning. -/
structure Keeps (st st' : ObjectStore) : Prop where
  size_le : st.size ≤ st'.size
  get_eq {o : ObjectId} (ho : o < st.size) : st'.get o = st.get o

theorem Keeps.refl (st : ObjectStore) : st.Keeps st :=
  ⟨Nat.le_refl _, fun _ => rfl⟩

theorem Keeps.trans {st₁ st₂ st₃ : ObjectStore} (h : st₁.Keeps st₂) (h' : st₂.Keeps st₃) :
    st₁.Keeps st₃ :=
  ⟨Nat.le_trans h.size_le h'.size_le, fun ho =>
    (h'.get_eq (Nat.lt_of_lt_of_le ho h.size_le)).trans (h.get_eq ho)⟩

def Distinct (st : ObjectStore) : Prop :=
  ∀ a b : ObjectId, a < st.size → b < st.size → st.get a = st.get b → a = b

theorem get_of_size_le {st : ObjectStore} {o : ObjectId} (h : st.size ≤ o) :
    st.get o = .unknown := by
  simp [get, Array.getElem?_eq_none h]

theorem lt_size_of_get {st : ObjectStore} {o : ObjectId} (h : st.get o ≠ .unknown) :
    o < st.size :=
  Nat.lt_of_not_le fun hle => h (get_of_size_le hle)

theorem get_push (st : ObjectStore) (object : Object) (o : ObjectId) :
    get ⟨st.objects.push object⟩ o = if o = st.size then object else st.get o := by
  unfold get size
  rw [Array.getElem?_push]
  split <;> rfl

/-! ### Interning -/

section Intern

variable (st : ObjectStore) (object : Object)

/-- An object is found where it stands, or put at the end. -/
theorem intern_cases :
    (∃ o, st.intern object = (o, st) ∧ o < st.size ∧ st.get o = object) ∨
    st.intern object = (st.size, ⟨st.objects.push object⟩) ∧
      ∀ o < st.size, st.get o ≠ object := by
  unfold intern
  cases h : st.objects.findIdx? (· = object) with
  | some o =>
      obtain ⟨ho, heq, _⟩ := Array.findIdx?_eq_some_iff_getElem.1 h
      refine .inl ⟨o, rfl, ho, ?_⟩
      simpa [get, Array.getElem?_eq_getElem ho] using heq
  | none =>
      refine .inr ⟨rfl, fun o ho => ?_⟩
      have hne := Array.findIdx?_eq_none_iff.1 h st.objects[o] (Array.getElem_mem ho)
      simpa [get, Array.getElem?_eq_getElem ho] using hne

theorem intern_lt : (st.intern object).1 < (st.intern object).2.size := by
  rcases st.intern_cases object with ⟨o, h, ho, _⟩ | ⟨h, _⟩
  · rw [h]
    exact ho
  · rw [h]
    simp [size]

theorem get_intern : (st.intern object).2.get (st.intern object).1 = object := by
  rcases st.intern_cases object with ⟨o, h, _, heq⟩ | ⟨h, _⟩
  · rw [h]
    exact heq
  · rw [h, get_push, if_pos rfl]

theorem keeps_intern : st.Keeps (st.intern object).2 := by
  rcases st.intern_cases object with ⟨o, h, _, _⟩ | ⟨h, _⟩
  · rw [h]
    exact .refl st
  · rw [h]
    refine ⟨by simp [size], fun {o} ho => ?_⟩
    rw [get_push, if_neg (Nat.ne_of_lt ho)]

/-- Nothing but the object itself is added. -/
theorem get_intern_cases (o : ObjectId) :
    (st.intern object).2.get o = st.get o ∨ (st.intern object).2.get o = object := by
  rcases st.intern_cases object with ⟨_, h, _, _⟩ | ⟨h, _⟩
  · rw [h]
    exact .inl rfl
  · rw [h, get_push]
    split
    · exact .inr rfl
    · exact .inl rfl

theorem Distinct.intern {st : ObjectStore} (hst : st.Distinct) (object : Object) :
    (st.intern object).2.Distinct := by
  intro a b ha hb hab
  rcases st.intern_cases object with ⟨o, h, _, _⟩ | ⟨h, hnew⟩
  · rw [h] at ha hb hab
    exact hst a b ha hb hab
  · rw [h] at ha hb hab
    simp only [get_push] at hab
    simp only [size, Array.size_push] at ha hb
    have hlt : ∀ {o : ObjectId}, o < st.objects.size + 1 → o ≠ st.size → o < st.size :=
      fun ho hne => Nat.lt_of_le_of_ne (Nat.lt_succ_iff.1 ho) hne
    split at hab
    · split at hab
      · rename_i ha' hb'
        rw [ha', hb']
      · rename_i hb'
        exact absurd hab.symm (hnew b (hlt hb hb'))
    · split at hab
      · rename_i ha' _
        exact absurd hab (hnew a (hlt ha ha'))
      · rename_i ha' hb'
        exact hst a b (hlt ha ha') (hlt hb hb') hab

/-- An object that is in the store keeps its number. -/
theorem Distinct.intern_get {st : ObjectStore} (hst : st.Distinct) {o : ObjectId}
    (ho : o < st.size) : st.intern (st.get o) = (o, st) := by
  rcases st.intern_cases (st.get o) with ⟨a, h, ha, hget⟩ | ⟨_, hnew⟩
  · rw [h, hst a o ha ho hget]
  · exact absurd rfl (hnew o ho)

/-- Equal objects get the same number. -/
theorem Distinct.intern_intern {st : ObjectStore} (hst : st.Distinct) (object : Object) :
    (st.intern object).2.intern object = st.intern object := by
  have h := (hst.intern object).intern_get (st.intern_lt object)
  rwa [st.get_intern object] at h

end Intern

/-! ### Growth by instances -/

/-- A store has grown by instances and generators. -/
def Extends (st st' : ObjectStore) : Prop :=
  ∃ more : Array Object, st'.objects = st.objects ++ more ∧ ∀ o ∈ more, o.kind = .inst

theorem Extends.refl (st : ObjectStore) : st.Extends st :=
  ⟨#[], by simp, by simp⟩

theorem Extends.trans {st₁ st₂ st₃ : ObjectStore} (h : st₁.Extends st₂)
    (h' : st₂.Extends st₃) : st₁.Extends st₃ := by
  obtain ⟨more, hmore, hkind⟩ := h
  obtain ⟨more', hmore', hkind'⟩ := h'
  refine ⟨more ++ more', by rw [hmore', hmore, Array.append_assoc], fun o ho => ?_⟩
  rcases Array.mem_append.1 ho with ho | ho
  · exact hkind o ho
  · exact hkind' o ho

theorem extends_intern (st : ObjectStore) {object : Object} (h : object.kind = .inst) :
    st.Extends (st.intern object).2 := by
  unfold intern
  split
  · exact .refl st
  · exact ⟨#[object], Array.push_eq_append, by simpa using h⟩

theorem Extends.keeps {st st' : ObjectStore} (h : st.Extends st') : st.Keeps st' := by
  obtain ⟨more, hmore, _⟩ := h
  refine ⟨by simp [size, hmore], fun ho => ?_⟩
  unfold size at ho
  simp [get, hmore, Array.getElem?_append_left ho]

/-- Any number reads as before, or was not handed out and is an instance now. -/
theorem Extends.get_eq_or {st st' : ObjectStore} (h : st.Extends st') (o : ObjectId) :
    st'.get o = st.get o ∨ st.get o = .unknown ∧ (st'.get o).kind = .inst := by
  by_cases ho : o < st.size
  · exact .inl (h.keeps.get_eq ho)
  · obtain ⟨more, hmore, hkind⟩ := h
    unfold size at ho
    have hold : st.get o = .unknown := get_of_size_le (Nat.not_lt.1 ho)
    cases hnew : st'.objects[o]? with
    | none => exact .inl (by simp [get, hnew] at hold ⊢; rw [hold])
    | some object =>
        refine .inr ⟨hold, ?_⟩
        rw [hmore, Array.getElem?_append_right (Nat.not_lt.1 ho)] at hnew
        simp only [get, hmore, Array.getElem?_append_right (Nat.not_lt.1 ho), hnew]
        exact hkind _ (Array.mem_of_getElem? hnew)

end ObjectStore

/-- The parameters of a function do not depend on what inference has made. -/
theorem Program.parameters_of_extends (p : Program) {st st' : ObjectStore}
    (h : st.Extends st') (f : ObjectId) : p.parameters st' f = p.parameters st f := by
  unfold parameters
  rcases h.get_eq_or f with hf | ⟨hf, hf'⟩
  · rw [hf]
  · rw [hf]
    cases hg : st'.get f <;> rw [hg] at hf' <;> first | rfl | cases hf'

end ObjectInference
