import ObjectInference.Proofs.Binding
import ObjectInference.Proofs.Pairing.Basic

/-!
Objects of the same shape.

Which number an object gets depends on what was made before it, so two runs
over one program may know the same object by different numbers. What they can
agree on is its shape: an object that binding made is itself, an instance is its
class and its place, a generator is the shape of its elements. In stores without
duplicates an object has at most one counterpart of its shape, and it keeps that
counterpart when both stores grow.
-/

namespace ObjectInference.ObjectStore

inductive SameShape (st st' : ObjectStore) : ObjectId → ObjectId → Prop where
  | leaf {a b : ObjectId} (ha : a < st.size) (hb : b < st'.size) (hk : st.kind a ≠ .inst)
      (h : st.get a = st'.get b) : SameShape st st' a b
  | inst {a b c c' : ObjectId} {site : NodeRef} (ha : a < st.size) (hb : b < st'.size)
      (hga : st.get a = .inst c site) (hgb : st'.get b = .inst c' site)
      (h : SameShape st st' c c') : SameShape st st' a b
  | generator {a b e e' : ObjectId} (ha : a < st.size) (hb : b < st'.size)
      (hga : st.get a = .generator e) (hgb : st'.get b = .generator e')
      (h : SameShape st st' e e') : SameShape st st' a b

namespace SameShape

variable {st st' : ObjectStore} {a b : ObjectId}

theorem lt_left (h : SameShape st st' a b) : a < st.size := by
  cases h <;> assumption

theorem lt_right (h : SameShape st st' a b) : b < st'.size := by
  cases h <;> assumption

theorem symm (h : SameShape st st' a b) : SameShape st' st b a := by
  induction h with
  | leaf ha hb hk h =>
      refine .leaf hb ha ?_ h.symm
      unfold kind at hk ⊢
      rwa [← h]
  | inst ha hb hga hgb _ ih => exact .inst hb ha hgb hga ih
  | generator ha hb hga hgb _ ih => exact .generator hb ha hgb hga ih

theorem trans {st₂ : ObjectStore} {c : ObjectId} (h : SameShape st st' a b)
    (h' : SameShape st' st₂ b c) : SameShape st st₂ a c := by
  induction h generalizing c with
  | leaf ha hb hk hab =>
      unfold kind at hk
      rw [hab] at hk
      cases h' with
      | leaf _ hc _ hbc => exact .leaf ha hc (by rwa [kind, hab]) (hab.trans hbc)
      | inst _ _ hgb => exact absurd (by rw [hgb]; rfl) hk
      | generator _ _ hgb => exact absurd (by rw [hgb]; rfl) hk
  | inst ha hb hga hgb _ ih =>
      cases h' with
      | leaf _ _ hk _ => exact absurd (by rw [kind, hgb]; rfl) hk
      | inst _ hc hgb' hgc hcc =>
          rw [hgb] at hgb'
          cases hgb'
          exact .inst ha hc hga hgc (ih hcc)
      | generator _ _ hgb' => simp [hgb] at hgb'
  | generator ha hb hga hgb _ ih =>
      cases h' with
      | leaf _ _ hk _ => exact absurd (by rw [kind, hgb]; rfl) hk
      | inst _ _ hgb' => simp [hgb] at hgb'
      | generator _ hc hgb' hgc hee =>
          rw [hgb] at hgb'
          cases hgb'
          exact .generator ha hc hga hgc (ih hee)

theorem mono {st₂ st₂' : ObjectStore} (h : SameShape st st' a b) (hk : st.Keeps st₂)
    (hk' : st'.Keeps st₂') : SameShape st₂ st₂' a b := by
  induction h with
  | leaf ha hb hkind h =>
      refine .leaf (Nat.lt_of_lt_of_le ha hk.size_le) (Nat.lt_of_lt_of_le hb hk'.size_le) ?_ ?_
      · rwa [kind, hk.get_eq ha]
      · rw [hk.get_eq ha, hk'.get_eq hb, h]
  | inst ha hb hga hgb _ ih =>
      exact .inst (Nat.lt_of_lt_of_le ha hk.size_le) (Nat.lt_of_lt_of_le hb hk'.size_le)
        ((hk.get_eq ha).trans hga) ((hk'.get_eq hb).trans hgb) ih
  | generator ha hb hga hgb _ ih =>
      exact .generator (Nat.lt_of_lt_of_le ha hk.size_le) (Nat.lt_of_lt_of_le hb hk'.size_le)
        ((hk.get_eq ha).trans hga) ((hk'.get_eq hb).trans hgb) ih

/-- An object has one counterpart. -/
theorem unique (hd : st'.Distinct) {b' : ObjectId} (h : SameShape st st' a b)
    (h' : SameShape st st' a b') : b = b' := by
  induction h generalizing b' with
  | leaf ha hb hk hab =>
      cases h' with
      | leaf _ hb' _ hab' => exact hd _ _ hb hb' (hab.symm.trans hab')
      | inst _ _ hga => exact absurd (by rw [kind, hga]; rfl) hk
      | generator _ _ hga => exact absurd (by rw [kind, hga]; rfl) hk
  | inst ha hb hga hgb _ ih =>
      cases h' with
      | leaf _ _ hk _ => exact absurd (by rw [kind, hga]; rfl) hk
      | inst _ hb' hga' hgb' hc =>
          rw [hga] at hga'
          cases hga'
          rw [← ih hc] at hgb'
          exact hd _ _ hb hb' (hgb.trans hgb'.symm)
      | generator _ _ hga' => simp [hga] at hga'
  | generator ha hb hga hgb _ ih =>
      cases h' with
      | leaf _ _ hk _ => exact absurd (by rw [kind, hga]; rfl) hk
      | inst _ _ hga' => simp [hga] at hga'
      | generator _ hb' hga' hgb' he =>
          rw [hga] at hga'
          cases hga'
          rw [← ih he] at hgb'
          exact hd _ _ hb hb' (hgb.trans hgb'.symm)

theorem unique_left (hd : st.Distinct) {a' : ObjectId} (h : SameShape st st' a b)
    (h' : SameShape st st' a' b) : a = a' :=
  unique hd h.symm h'.symm

/-- The heads are the same, and what is inside has the same shapes. -/
theorem alike (h : SameShape st st' a b) : (st.get a).Alike (SameShape st st') (st'.get b) := by
  cases h with
  | leaf _ _ hk h =>
      unfold kind at hk
      rw [← h]
      cases hget : st.get a with
      | unknown => exact .unknown
      | module scope => exact .module scope
      | function scope => exact .function scope
      | cls scope => exact .cls scope
      | builtinClass c => exact .builtinClass c
      | builtinFunction f => exact .builtinFunction f
      | inst => simp [hget, Object.kind] at hk
      | generator => simp [hget, Object.kind] at hk
  | inst _ _ hga hgb hc =>
      rw [hga, hgb]
      exact .inst _ hc
  | generator _ _ hga hgb he =>
      rw [hga, hgb]
      exact .generator he

end SameShape

/-- A built-in container, made at a place or shared by those who ask for one. -/
def ContainerAt (st : ObjectStore) (o : ObjectId) (site : NodeRef) : Prop :=
  ∃ c : BuiltinClass, c.isContainer = true ∧ st.get o = .inst c.object site

theorem ContainerAt.lt {st : ObjectStore} {o : ObjectId} {site : NodeRef}
    (h : st.ContainerAt o site) : o < st.size := by
  obtain ⟨c, _, hget⟩ := h
  refine Nat.lt_of_not_le fun hle => ?_
  rw [get_of_size_le hle] at hget
  cases hget

theorem ContainerAt.keeps {st st' : ObjectStore} {o : ObjectId} {site : NodeRef}
    (h : st.ContainerAt o site) (hk : st.Keeps st') : st'.ContainerAt o site := by
  have hlt := h.lt
  obtain ⟨c, hc, hget⟩ := h
  exact ⟨c, hc, (hk.get_eq hlt).trans hget⟩

/-- A container of a place that another store does not have. -/
structure OnlyIn (st st' : ObjectStore) (o : ObjectId) (site : NodeRef) : Prop where
  container : st.ContainerAt o site
  missing (o' : ObjectId) : st'.get o' ≠ st.get o

/-- A store that inference has grown from another: it has every object once,
instances are of classes that were there before, and generators come after their
elements. -/
structure Grown (base st : ObjectStore) : Prop where
  extends_base : base.Extends st
  distinct : st.Distinct
  inst {o c : ObjectId} {site : NodeRef} (h : st.get o = .inst c site) :
    c < base.size ∧ base.kind c = .cls
  generator {o e : ObjectId} (h : st.get o = .generator e) : e < o

namespace Grown

variable {base st st' : ObjectStore} {a b : ObjectId}

theorem refl (hd : base.Distinct) (hk : ∀ o, base.kind o ≠ .inst) : base.Grown base :=
  ⟨.refl _, hd, fun {o _ _} h => absurd (by rw [kind, h]; rfl) (hk o),
    fun {o _} h => absurd (by rw [kind, h]; rfl) (hk o)⟩

theorem size_le (g : base.Grown st) : base.size ≤ st.size :=
  g.extends_base.keeps.size_le

theorem get_base (g : base.Grown st) (h : a < base.size) : st.get a = base.get a :=
  g.extends_base.keeps.get_eq h

/-- Whatever inference makes is an instance. -/
theorem lt_base (g : base.Grown st) (h : a < st.size) (hk : st.kind a ≠ .inst) :
    a < base.size := by
  by_contra hlt
  obtain ⟨more, hmore, hmade⟩ := g.extends_base
  refine hk ?_
  have hle : base.objects.size ≤ a := Nat.not_lt.1 hlt
  obtain ⟨object, hget⟩ : ∃ object, st.objects[a]? = some object :=
    ⟨_, Array.getElem?_eq_getElem h⟩
  rw [kind, get, hget]
  rw [hmore, Array.getElem?_append_right hle] at hget
  exact hmade object (Array.mem_of_getElem? hget)

/-- What binding made is its own counterpart. -/
theorem sameShape_base (g : base.Grown st) (g' : base.Grown st') (hk : ∀ o, base.kind o ≠ .inst)
    (h : a < base.size) : SameShape st st' a a := by
  refine .leaf (Nat.lt_of_lt_of_le h g.size_le) (Nat.lt_of_lt_of_le h g'.size_le) ?_ ?_
  · rw [kind, g.get_base h]
    exact hk a
  · rw [g.get_base h, g'.get_base h]

/-- What binding made has no other counterpart. -/
theorem eq_of_sameShape (g : base.Grown st) (g' : base.Grown st') (h : SameShape st st' a b)
    (hk : st.kind a ≠ .inst) : a = b := by
  have ha := g.lt_base h.lt_left hk
  have hself : SameShape st st' a a := by
    refine .leaf h.lt_left (Nat.lt_of_lt_of_le ha g'.size_le) hk ?_
    rw [g.get_base ha, g'.get_base ha]
  exact hself.unique g'.distinct h

/-- Every object has the shape it has. -/
theorem sameShape_refl (g : base.Grown st) (hk : ∀ o, base.kind o ≠ .inst) (a : ObjectId)
    (h : a < st.size) : SameShape st st a a := by
  induction a using Nat.strongRecOn with
  | ind a ih =>
      -- The class is in the base, and the element of a generator comes before it.
      cases hget : st.get a with
      | inst c site => exact .inst h h hget hget (g.sameShape_base g hk (g.inst hget).1)
      | generator e =>
          have he := g.generator hget
          exact .generator h h hget hget (ih e he (Nat.lt_trans he h))
      | _ => exact .leaf h h (by rw [kind, hget]; simp [Object.kind]) rfl

/-! ### Containers -/

/-- An instance is the same in every store, but for its number. -/
theorem get_eq_of_inst (g : base.Grown st) (g' : base.Grown st') (hk : ∀ o, base.kind o ≠ .inst)
    {c : ObjectId} {site : NodeRef} (h : SameShape st st' a b) (hget : st.get a = .inst c site) :
    st'.get b = st.get a := by
  have halike := h.alike
  rw [hget] at halike
  generalize hb : st'.get b = object at halike
  cases halike with
  | inst _ hcc =>
      obtain rfl := g.eq_of_sameShape g' hcc (by
        rw [kind, g.get_base (g.inst hget).1]
        exact hk _)
      rw [hget]

theorem get_eq_of_container (g : base.Grown st) (g' : base.Grown st')
    (hk : ∀ o, base.kind o ≠ .inst) {site : NodeRef} (h : SameShape st st' a b)
    (hc : st.ContainerAt a site) : st'.get b = st.get a := by
  obtain ⟨_, _, hget⟩ := hc
  exact g.get_eq_of_inst g' hk h hget

/-! ### Interning -/

theorem intern (g : base.Grown st) {object : Object} (hobject : object.kind = .inst)
    (hinst : ∀ c site, object = .inst c site → c < base.size ∧ base.kind c = .cls)
    (hgenerator : ∀ e, object = .generator e → e < st.size) :
    base.Grown (st.intern object).2 := by
  refine ⟨g.extends_base.trans (extends_intern st hobject), g.distinct.intern object,
    fun {o c site} h => ?_, fun {o e} h => ?_⟩
  · rcases st.get_intern_cases object o with ho | ho
    · exact g.inst (ho.symm.trans h)
    · exact hinst c site (ho.symm.trans h)
  · rcases st.intern_cases object with ⟨_, hi, _, _⟩ | ⟨hi, _⟩
    · rw [hi] at h
      exact g.generator h
    · rw [hi, get_push] at h
      split at h
      · rename_i ho
        rw [ho]
        exact hgenerator e h
      · exact g.generator h

/-- Objects with the same head, and with the same shapes inside, are interned to
the same shape. -/
theorem sameShape_intern {object object' : Object}
    (h : object.Alike (SameShape st st') object') (hk : object.kind = .inst) :
    SameShape (st.intern object).2 (st'.intern object').2 (st.intern object).1
      (st'.intern object').1 := by
  have hlt := st.intern_lt object
  have hlt' := st'.intern_lt object'
  have hkeeps := st.keeps_intern object
  have hkeeps' := st'.keeps_intern object'
  have hget := st.get_intern object
  have hget' := st'.get_intern object'
  cases h with
  | inst site hc => exact .inst hlt hlt' hget hget' (hc.mono hkeeps hkeeps')
  | generator he => exact .generator hlt hlt' hget hget' (he.mono hkeeps hkeeps')
  | _ => cases hk

end Grown

end ObjectInference.ObjectStore
