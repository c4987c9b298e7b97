import Mathlib.Data.List.Forall2
import Mathlib.Data.Option.Basic
import ObjectInference.Arguments

/-!
Binding of arguments to parameters, as far as it does not look at the objects.

There is one object for each parameter whatever the arguments are, the unknown
one for each that is special, and one for each ordinary parameter once the special
ones are left out. Since objects are only passed on, related arguments are bound
to related objects, for any relation that holds of the unknown object.
-/

namespace ObjectInference

/-! ### How many objects are bound -/

theorem length_fillPositional (params : List Param) (os : List ObjectId) :
    (fillPositional params os).length = params.length := by
  induction params generalizing os with
  | nil => simp [fillPositional]
  | cons param params ih =>
      cases os with
      | nil => simp [fillPositional]
      | cons o os =>
          unfold fillPositional
          split
          · simp
          · simp [ih os]

@[simp] theorem length_fillKeyword (params : List Param) (slots : List (Option ObjectId))
    (k : Atom × ObjectId) : (fillKeyword params slots k).length = slots.length := by
  unfold fillKeyword
  split <;> simp

theorem length_bindObjects (params : List Param) (a : ResolvedArguments) :
    (bindObjects params a).length = params.length := by
  have hkeywords : ∀ (ks : List (Atom × ObjectId)) (slots : List (Option ObjectId)),
      (ks.foldl (fillKeyword params) slots).length = slots.length := by
    intro ks
    induction ks with
    | nil => simp
    | cons k ks ih =>
        intro slots
        rw [List.foldl_cons, ih, length_fillKeyword]
  simp [bindObjects, hkeywords, length_fillPositional]

theorem length_ordinaryObjects {params : List Param} {bound : List ObjectId}
    (h : bound.length = params.length) :
    (ordinaryObjects params bound).length = (placeholders params).length := by
  induction params generalizing bound with
  | nil => simp [ordinaryObjects, placeholders]
  | cons param params ih =>
      cases bound with
      | nil => simp at h
      | cons o bound =>
          have ih := @ih bound (by simpa using h)
          simp only [ordinaryObjects, placeholders, List.length_map] at ih ⊢
          simp only [List.zip_cons_cons, List.filter_cons]
          split <;> simp [ih]

/-! ### Ordinary parameters only -/

section Ordinary

variable {params : List Param} (ho : ∀ param ∈ params, param.isSpecial = false)
  {os : List ObjectId} (hlength : os.length = params.length)

include ho hlength

theorem bindObjects_positional : bindObjects params { positional := os } = os := by
  have hfilled : fillPositional params os = os.map some := by
    induction params generalizing os with
    | nil =>
        obtain rfl : os = [] := List.eq_nil_of_length_eq_zero hlength
        rfl
    | cons param params ih =>
        cases os with
        | nil => simp at hlength
        | cons o os =>
            have hfirst : param.isSpecial = false := ho param List.mem_cons_self
            have hrest := ih (fun q hq => ho q (List.mem_cons_of_mem _ hq)) (by simpa using hlength)
            simp [fillPositional, hfirst, hrest]
  simp [bindObjects, hfilled]

theorem ordinaryObjects_of_ordinary : ordinaryObjects params os = os := by
  have hkept : (params.zip os).filter (fun e => !e.1.isSpecial) = params.zip os :=
    List.filter_eq_self.2 fun e he => by simp [ho e.1 (List.of_mem_zip he).1]
  rw [ordinaryObjects, hkept, List.map_snd_zip (Nat.le_of_eq hlength)]

end Ordinary

/-! ### Special parameters -/

section Special

variable {params : List Param} {i : Nat} {q : Param}

theorem fillPositional_special (hq : params[i]? = some q) (hs : q.isSpecial = true)
    (os : List ObjectId) : (fillPositional params os)[i]? = some none := by
  have hopen : ∀ {params : List Param} {i : Nat}, params[i]? = some q →
      (params.map fun _ => (none : Option ObjectId))[i]? = some none := by
    intro params i hq
    rw [List.getElem?_map, hq]
    rfl
  induction params generalizing os i with
  | nil => cases hq
  | cons param params ih =>
      cases os with
      | nil => exact hopen hq
      | cons o os =>
          unfold fillPositional
          split
          · exact hopen hq
          · rename_i hparam
            cases i with
            | zero =>
                obtain rfl : param = q := Option.some.inj hq
                exact absurd hs hparam
            | succ i => exact ih hq os

theorem fillKeyword_special (hq : params[i]? = some q) (hs : q.isSpecial = true)
    {slots : List (Option ObjectId)} (hslot : slots[i]? = some none) (k : Atom × ObjectId) :
    (fillKeyword params slots k)[i]? = some none := by
  unfold fillKeyword
  split
  · rename_i j hj
    obtain ⟨hlt, hfound, _⟩ := List.findIdx?_eq_some_iff_getElem.1 hj
    have hne : j ≠ i := by
      rintro rfl
      obtain rfl : params[j] = q := Option.some.inj ((List.getElem?_eq_getElem hlt).symm.trans hq)
      simp [hs] at hfound
    simp [hne, hslot]
  · exact hslot

/-- No argument is bound to a special parameter. -/
theorem bindObjects_special (hq : params[i]? = some q) (hs : q.isSpecial = true)
    (a : ResolvedArguments) : (bindObjects params a)[i]? = some .unknown := by
  have hkeywords : ∀ (ks : List (Atom × ObjectId)) (slots : List (Option ObjectId)),
      slots[i]? = some none → (ks.foldl (fillKeyword params) slots)[i]? = some none := by
    intro ks
    induction ks with
    | nil => exact fun _ => id
    | cons k ks ih => exact fun _ hslot => ih _ (fillKeyword_special hq hs hslot k)
  unfold bindObjects
  rw [List.getElem?_map, hkeywords _ _ (fillPositional_special hq hs a.positional)]
  rfl

end Special

/-! ### Related arguments -/

section Related

variable {r : ObjectId → ObjectId → Prop}

theorem fillPositional_related (params : List Param) {os os' : List ObjectId}
    (h : List.Forall₂ r os os') :
    List.Forall₂ (Option.Rel r) (fillPositional params os) (fillPositional params os') := by
  have hopen : ∀ params : List Param, List.Forall₂ (Option.Rel r)
      (params.map fun _ => none) (params.map fun _ => none) := by
    intro params
    induction params with
    | nil => exact .nil
    | cons _ _ ih => exact .cons .none ih
  induction params generalizing os os' with
  | nil => exact .nil
  | cons param params ih =>
      cases h with
      | nil => exact hopen (param :: params)
      | cons ho hos =>
          unfold fillPositional
          split
          · exact hopen (param :: params)
          · exact .cons (.some ho) (ih hos)

theorem fillKeyword_related (params : List Param) {slots slots' : List (Option ObjectId)}
    (h : List.Forall₂ (Option.Rel r) slots slots') {k k' : Atom × ObjectId} (hk : k.1 = k'.1)
    (ho : r k.2 k'.2) :
    List.Forall₂ (Option.Rel r) (fillKeyword params slots k) (fillKeyword params slots' k') := by
  unfold fillKeyword
  rw [← hk]
  split
  · rename_i i hi
    clear hi
    induction h generalizing i with
    | nil => cases i <;> exact .nil
    | cons hx hxs ih =>
        cases i with
        | zero =>
            refine .cons (.some ?_) hxs
            cases hx with
            | none => exact ho
            | some hx => exact hx
        | succ i =>
            simp only [List.modify_succ_cons]
            exact .cons hx (ih i)
  · exact h

theorem bindObjects_related (hu : r .unknown .unknown) (params : List Param)
    {a a' : ResolvedArguments} (hp : List.Forall₂ r a.positional a'.positional)
    (hk : List.Forall₂ (fun k k' => k.1 = k'.1 ∧ r k.2 k'.2) a.keywords a'.keywords) :
    List.Forall₂ r (bindObjects params a) (bindObjects params a') := by
  have hslots : ∀ {slots slots' : List (Option ObjectId)},
      List.Forall₂ (Option.Rel r) slots slots' →
      List.Forall₂ (Option.Rel r) (a.keywords.foldl (fillKeyword params) slots)
        (a'.keywords.foldl (fillKeyword params) slots') := by
    generalize a.keywords = ks, a'.keywords = ks' at hk
    induction hk with
    | nil => exact id
    | cons hk _ ih => exact fun hs => ih (fillKeyword_related params hs hk.1 hk.2)
  have hall := hslots (fillPositional_related params hp)
  unfold bindObjects
  generalize a.keywords.foldl _ _ = slots, a'.keywords.foldl _ _ = slots' at hall
  induction hall with
  | nil => exact .nil
  | cons hx _ ih =>
      refine .cons ?_ ih
      cases hx with
      | none => exact hu
      | some hx => exact hx

theorem ordinaryObjects_related (params : List Param) {os os' : List ObjectId}
    (h : List.Forall₂ r os os') :
    List.Forall₂ r (ordinaryObjects params os) (ordinaryObjects params os') := by
  unfold ordinaryObjects
  induction params generalizing os os' with
  | nil => exact .nil
  | cons param params ih =>
      cases h with
      | nil => exact .nil
      | cons ho hos =>
          simp only [List.zip_cons_cons, List.filter_cons]
          split
          · exact .cons ho (ih hos)
          · exact ih hos

end Related

/-- Whatever holds of some objects and of the unknown one holds of all that is bound if they are
the arguments. -/
theorem ordinaryObjects_of_positional {P : ObjectId → Prop} (hu : P .unknown) (params : List Param)
    {os : List ObjectId} (h : ∀ o ∈ os, P o) :
    ∀ o ∈ ordinaryObjects params (bindObjects params { positional := os }), P o := by
  let r : ObjectId → ObjectId → Prop := fun o _ => P o
  have hbound : List.Forall₂ r (bindObjects params { positional := os })
      (bindObjects params { positional := os }) :=
    bindObjects_related hu params (List.forall₂_same.2 h) .nil
  have hordinary : ∀ o ∈ ordinaryObjects params (bindObjects params { positional := os }), r o o :=
    List.forall₂_same.1 (ordinaryObjects_related params hbound)
  exact hordinary

end ObjectInference
