import Mathlib.Data.List.Induction
import Mathlib.Data.List.Nodup
import ObjectInference.Interner

/-!
Looking up interned texts.

Interning puts a text at the end or changes nothing, so what comes later only extends the
sequence (`Interner.Extends`), and atoms handed out before keep their texts and are still what
their texts are looked up as. `Interner.number` is the atom of a text seen from the end: what
interning it once more would give.
-/

namespace ObjectInference

namespace Interner

variable {t t₁ t₂ t₃ : Interner} {text text' : String} {a : Atom}

/-! ### Lookups -/

theorem find?_eq_idxOf? (t : Interner) (text : String) :
    t.find? text = t.texts.toList.idxOf? text :=
  List.findIdx?_toArray _ _

theorem lt_size_of_find? (h : t.find? text = some a) : a < t.size :=
  (Array.findIdx?_eq_some_iff_getElem.1 h).1

theorem resolve_of_find? (h : t.find? text = some a) : t.resolve a = text := by
  obtain ⟨hlt, hfound, _⟩ := Array.findIdx?_eq_some_iff_getElem.1 h
  simpa [resolve, hlt] using hfound

theorem isSome_find? : (t.find? text).isSome ↔ text ∈ t.texts := by
  simp [find?, Array.findIdx?_isSome, Array.mem_iff_getElem]

theorem isSome_find?_intern :
    ((t.intern text).2.find? text').isSome ↔ text' = text ∨ (t.find? text').isSome := by
  unfold intern
  split
  · rename_i a ha
    refine ⟨.inr, ?_⟩
    rintro (rfl | h)
    · simp [ha]
    · exact h
  · simp only [isSome_find?, Array.mem_push]
    exact Or.comm

theorem isSome_find?_internAll (texts : List String)
    (h : text ∈ texts ∨ (t.find? text).isSome) : ((t.internAll texts).find? text).isSome := by
  induction texts generalizing t with
  | nil => exact h.resolve_left List.not_mem_nil
  | cons first texts ih =>
      refine ih ?_
      rw [isSome_find?_intern]
      rcases h with h | h
      · rcases List.mem_cons.1 h with rfl | h
        · exact .inr (.inl rfl)
        · exact .inl h
      · exact .inr (.inr h)

/-! ### Growth at the end -/

def Extends (t t' : Interner) : Prop :=
  t.texts.toList <+: t'.texts.toList

theorem Extends.refl (t : Interner) : t.Extends t :=
  List.prefix_rfl

theorem Extends.trans (h : t₁.Extends t₂) (h' : t₂.Extends t₃) : t₁.Extends t₃ :=
  List.IsPrefix.trans h h'

theorem extends_intern (t : Interner) (text : String) : t.Extends (t.intern text).2 := by
  unfold intern
  split
  · exact .refl t
  · exact ⟨[text], by simp⟩

theorem internAll_append (t : Interner) (texts texts' : List String) :
    t.internAll (texts ++ texts') = (t.internAll texts).internAll texts' :=
  List.foldl_append

theorem extends_internAll (t : Interner) (texts : List String) :
    t.Extends (t.internAll texts) := by
  induction texts generalizing t with
  | nil => exact .refl t
  | cons text texts ih => exact (t.extends_intern text).trans (ih (t.intern text).2)

theorem Extends.size_le (h : t₁.Extends t₂) : t₁.size ≤ t₂.size :=
  h.length_le

/-- A text that has an atom keeps it. -/
theorem Extends.find? (h : t₁.Extends t₂) (ha : t₁.find? text = some a) :
    t₂.find? text = some a := by
  obtain ⟨more, hmore⟩ := h
  have htexts : t₂.texts = t₁.texts ++ more.toArray := by
    apply Array.toList_inj.1
    simp [hmore]
  unfold Interner.find? at ha ⊢
  rw [htexts, Array.findIdx?_append, ha, Option.some_or]

/-! ### The atom of a text -/

/-- The atom that a text has, or else would get. -/
def number (t : Interner) (text : String) : Atom :=
  (t.intern text).1

theorem number_eq (h : t.find? text = some a) : t.number text = a := by
  unfold number intern
  rw [h]

theorem find?_intern (t : Interner) (text : String) :
    (t.intern text).2.find? text = some (t.number text) := by
  unfold number intern
  cases h : t.find? text with
  | some a => exact h
  | none =>
      unfold find? at h ⊢
      simp [Array.findIdx?_push, h, size]

theorem find?_intern_of_ne (t : Interner) (h : text ≠ text') :
    (t.intern text).2.find? text' = t.find? text' := by
  unfold intern
  cases t.find? text with
  | some a => rfl
  | none =>
      unfold find?
      simp [Array.findIdx?_push, h]

theorem Extends.number_eq (h : (t₁.intern text).2.Extends t₂) : t₂.number text = t₁.number text :=
  Interner.number_eq (h.find? (t₁.find?_intern text))

/-- A text among those interned has its number as its atom. -/
theorem find?_internAll {texts : List String} (h : text ∈ texts) :
    (t.internAll texts).find? text = some ((t.internAll texts).number text) := by
  obtain ⟨a, ha⟩ := Option.isSome_iff_exists.1 (isSome_find?_internAll (t := t) texts (.inl h))
  rw [ha, Interner.number_eq ha]

/-- A new text has the number behind all others, where looking for it ends as well. -/
theorem number_eq_idxOf (t : Interner) (text : String) :
    t.number text = t.texts.toList.idxOf text := by
  unfold number intern
  rw [List.idxOf_eq_getD_idxOf?, ← find?_eq_idxOf?]
  cases t.find? text with
  | some a => rfl
  | none => rfl

/-! ### Texts stand once -/

/-- Looking up a text and reading the text of a number undo each other. -/
theorem Distinct.find?_eq_some_iff (h : t.Distinct) :
    t.find? text = some a ↔ a < t.size ∧ t.resolve a = text := by
  refine ⟨fun ha => ⟨lt_size_of_find? ha, resolve_of_find? ha⟩, ?_⟩
  rintro ⟨hlt, htext⟩
  have hlt' : a < t.texts.toList.length := hlt
  have hget : t.texts.toList[a] = text := by
    rw [← htext, resolve, Array.getElem?_eq_getElem hlt, Option.getD_some]
    exact Array.getElem_toList hlt'
  have hmem : text ∈ t.texts := Array.mem_toList_iff.1 (hget ▸ List.getElem_mem hlt')
  obtain ⟨b, hb⟩ := Option.isSome_iff_exists.1 (isSome_find?.2 hmem)
  have hnumber : t.number text = a := by
    rw [number_eq_idxOf, ← hget]
    exact List.Nodup.idxOf_getElem h a hlt'
  rw [hb, ← number_eq hb, hnumber]

theorem Distinct.intern (h : t.Distinct) (text : String) : (t.intern text).2.Distinct := by
  unfold Interner.intern
  cases htext : t.find? text with
  | some a => exact h
  | none =>
      have hnew : text ∉ t.texts := fun hmem => by
        rw [← isSome_find?, htext] at hmem
        exact Bool.false_ne_true hmem
      unfold Distinct
      rw [Array.toList_push, List.nodup_append]
      refine ⟨h, List.nodup_singleton text, fun x hx y hy => ?_⟩
      rw [List.mem_singleton] at hy
      rintro rfl
      exact hnew (Array.mem_toList_iff.1 (hy ▸ hx))

theorem Distinct.internAll (h : t.Distinct) (texts : List String) :
    (t.internAll texts).Distinct := by
  induction texts generalizing t with
  | nil => exact h
  | cons text texts ih => exact ih (h.intern text)

theorem distinct_new : new.Distinct :=
  List.nodup_singleton ""

/-! ### The order of first arrival -/

theorem toList_intern (t : Interner) (text : String) :
    (t.intern text).2.texts.toList =
      if text ∈ t.texts.toList then t.texts.toList else t.texts.toList ++ [text] := by
  have hmem : (t.find? text).isSome ↔ text ∈ t.texts.toList :=
    isSome_find?.trans Array.mem_toList_iff.symm
  unfold intern
  cases htext : t.find? text with
  | some a => exact (if_pos (hmem.1 (by rw [htext]; rfl))).symm
  | none =>
      have hnew : text ∉ t.texts.toList := fun h => by
        rw [← hmem, htext] at h
        exact Bool.false_ne_true h
      rw [if_neg hnew, Array.toList_push]

theorem eraseDups_concat {α : Type} [DecidableEq α] (l : List α) (x : α) :
    (l ++ [x]).eraseDups = if x ∈ l then l.eraseDups else l.eraseDups ++ [x] := by
  rw [List.eraseDups_append]
  by_cases h : x ∈ l <;> simp [List.removeAll, List.eraseDups_cons, h]

/-- The sequence is that of the different texts in the order in which they first came, the
empty text ahead of them. -/
theorem toList_internAll_new (texts : List String) :
    (new.internAll texts).texts.toList = ("" :: texts).eraseDups := by
  induction texts using List.reverseRecOn with
  | nil => rfl
  | append_singleton texts text ih =>
      have hlast : new.internAll (texts ++ [text]) = ((new.internAll texts).intern text).2 :=
        new.internAll_append texts [text]
      rw [hlast, toList_intern, ih, ← List.cons_append, eraseDups_concat]
      simp only [List.mem_eraseDups]

end Interner

end ObjectInference
