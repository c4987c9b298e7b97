import ObjectInference.Proofs.Matching.Parameters
import ObjectInference.Proofs.Walks

/-!
What a program mentions.

The objects that names and attributes lead to directly are those of built-in
classes and functions and of the definitions in scopes. All of them are in the
store of the program, so in every store grown from it they are themselves.
-/

namespace ObjectInference

open ObjectStore

theorem BuiltinFunction.object_lt (f : BuiltinFunction) :
    f.object < ObjectStore.initial.size := by
  cases f <;> decide

namespace Program

variable {p : Program} {s t : State}

namespace WellBound

variable (hp : p.WellBound)

include hp

theorem builtinFunction_lt (f : BuiltinFunction) : f.object < p.objects.size :=
  Nat.lt_of_lt_of_le f.object_lt hp.builtins.size_le

theorem get_builtinFunction (f : BuiltinFunction) :
    p.objects.get f.object = .builtinFunction f := by
  rw [hp.builtins.get_eq f.object_lt, ObjectStore.get_initial_function]

theorem unknown_lt : ObjectId.unknown < p.objects.size :=
  Nat.lt_of_lt_of_le (by decide) hp.builtins.size_le

theorem get_unknown {st : ObjectStore} (hst : p.objects.Keeps st) :
    st.get .unknown = .unknown := by
  rw [hst.get_eq hp.unknown_lt, hp.builtins.get_eq (by decide)]
  rfl

theorem isKnown_of_get {st : ObjectStore} (hst : p.objects.Keeps st) {o : ObjectId}
    (h : st.get o ≠ .unknown) : o.isKnown = true := by
  rw [ObjectId.isKnown, bne_iff_ne]
  rintro rfl
  exact h (hp.get_unknown hst)

theorem builtinClassOf?_inst {st : ObjectStore} (hk : p.objects.Keeps st) {o : ObjectId}
    {b : BuiltinClass} {site : NodeRef} (h : st.get o = .inst b.object site) :
    st.builtinClassOf? o = some b := by
  refine ObjectStore.builtinClassOf?_eq_some.2 ⟨_, site, h, ?_⟩
  exact hk.get_eq_of_known (hp.get_builtinClass b) Object.noConfusion

theorem definitions_lt (scope : ScopeId) (name : Atom) {o : ObjectId}
    (h : .object o ∈ p.definitions scope name) : o < p.objects.size := by
  unfold definitions at h
  cases hd : p.scope? scope with
  | none => simp [hd] at h
  | some d =>
      simp only [hd, Option.map_some, Option.getD_some, Scope.definitions, List.mem_map,
        List.mem_filter] at h
      obtain ⟨⟨name', definition⟩, ⟨hmem, _⟩, rfl⟩ := h
      exact (hp.scope hd).defined name' o hmem

theorem global?_lt {name : Atom} {o : ObjectId} (h : p.global? name = some o) :
    o < p.objects.size := by
  unfold global? at h
  dsimp only at h
  split at h
  · obtain rfl := Option.some.inj h
    exact hp.builtinClass_lt _
  · obtain ⟨f, _, rfl⟩ := Option.map_eq_some_iff.1 h
    exact hp.builtinFunction_lt f

theorem ownAttribute?_lt {name : Atom} {object : Object} {o : ObjectId}
    (h : p.ownAttribute? name object = some o) : o < p.objects.size := by
  have hscope : ∀ scope, ((p.scope? scope).bind fun d => d.definedObject? name) = some o →
      o < p.objects.size := by
    intro scope h
    obtain ⟨d, hd, ho⟩ := Option.bind_eq_some_iff.1 h
    obtain ⟨definition, hmem, ho⟩ := List.exists_of_findSome?_eq_some ho
    refine hp.definitions_lt scope name ?_
    rw [definitions, hd]
    cases definition with
    | object o' =>
        obtain rfl := Option.some.inj ho
        exact List.mem_reverse.1 hmem
    | _ => cases ho
  cases object with
  | module scope => exact hscope scope h
  | cls scope => exact hscope scope h
  | builtinClass c =>
      obtain ⟨f, _, rfl⟩ := Option.map_eq_some_iff.1 h
      exact hp.builtinFunction_lt f
  | _ => cases h

/-- An attribute of an instance is one of its class. -/
theorem attribute?_eq {st : ObjectStore} (hg : p.objects.Grown st) (name : Atom) (o : ObjectId) :
    p.attribute? st o name =
      match st.get o with
      | .inst c _ => p.ownAttribute? name (st.get c)
      | object => p.ownAttribute? name object := by
  have hsize : 15 ≤ st.size := Nat.le_trans hp.builtins.size_le hg.size_le
  unfold attribute?
  rw [show st.size + 1 = st.size - 1 + 2 by omega]
  refine p.attributeWithin_add_two (fun c site h => ?_) name _
  obtain ⟨hlt, hk⟩ := hg.inst h
  rw [ObjectStore.kind, hg.get_base hlt]
  exact hk

/-! ### Counterparts -/

theorem sameShape (hs : s.Sound p) (ht : t.Sound p) {o : ObjectId} (h : o < p.objects.size) :
    s.SameShape t o o :=
  hs.grown.sameShape_base ht.grown hp.made h

theorem isKnown_eq (hs : s.Sound p) (ht : t.Sound p) {a b : ObjectId} (h : s.SameShape t a b) :
    a.isKnown = b.isKnown :=
  (State.oneToOne hs ht).isKnown_eq (hp.sameShape hs ht hp.unknown_lt) h

/-- Attributes of corresponding objects correspond. -/
theorem attribute?_related (hs : s.Sound p) (ht : t.Sound p) {a b : ObjectId}
    (h : s.SameShape t a b) (name : Atom) :
    Option.Rel (s.SameShape t) (p.attribute? s.objects a name)
      (p.attribute? t.objects b name) := by
  have hown : ∀ object : Object, Option.Rel (s.SameShape t) (p.ownAttribute? name object)
      (p.ownAttribute? name object) := by
    intro object
    cases ho : p.ownAttribute? name object with
    | none => exact .none
    | some o => exact .some (hp.sameShape hs ht (hp.ownAttribute?_lt ho))
  have hget := h.alike
  rw [hp.attribute?_eq hs.grown, hp.attribute?_eq ht.grown]
  generalize hx : s.objects.get a = x, t.objects.get b = y at hget
  cases hget with
  | @inst c c' site hc =>
      obtain ⟨hlt, hk⟩ := hs.grown.inst hx
      have hget : s.objects.get c = p.objects.get c := hs.grown.get_base hlt
      obtain rfl : c = c' := by
        refine hs.grown.eq_of_sameShape ht.grown hc ?_
        rw [ObjectStore.kind, hget]
        exact hp.made c
      simp only [hget, ht.grown.get_base hlt]
      exact hown _
  | generator => exact .none
  | _ => exact hown _

end WellBound

end Program

end ObjectInference
