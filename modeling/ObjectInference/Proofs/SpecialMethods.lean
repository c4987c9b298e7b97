import ObjectInference.Proofs.Interning
import ObjectInference.Proofs.ScopeTree
import ObjectInference.Proofs.Universe
import ObjectInference.Proofs.Unpacking

/-!
What a class defines under a special name.

A special method is looked up by the atom of its name, through the class of an instance, and
has to be a function. `ClassDefines` says what that comes to: a class of the source has a
definition of that name among its own, which is a function of the source, and a built-in class
has the built-in function that is its method. That there is no third case takes two facts about
binding. The names of the built-in functions have atoms, and what a scope defines as an object
is the owner of a scope that was opened in it.
-/

namespace ObjectInference

/-! ### Atoms of the built-in names -/

/-- The name of every built-in function has an atom. -/
theorem Program.exists_atom_bind (tree : Tree) (atoms : Interner) (root : NodeRef)
    (m : BuiltinFunction) :
    ∃ name, (Program.bind tree atoms root).atoms.find? m.name = some name := by
  refine Option.isSome_iff_exists.1 (Interner.isSome_find?_internAll _ (.inl ?_))
  cases m <;> decide

/-! ### What scopes define as objects -/

namespace Binding

variable {t : Tree} {s : ScopeId} {body : List NodeRef} {b b₁ : Binding}

/-- What a scope defines as an object owns a scope that a definition has opened. -/
def DefinesOwners (b : Binding) : Prop :=
  ∀ (c : ScopeId) (d : Scope), b.scopes[c]? = some d → ∀ name o, (name, .object o) ∈ d.bindings →
    ∃ (i : ScopeId) (e : Scope), b.scopes[i]? = some e ∧ e.owner = o ∧ e.kind ≠ .module

theorem kind_of_header? {statement : NodeRef} {h : Header} (hh : t.header? statement = some h) :
    h.kind ≠ .module := by
  unfold Tree.header? at hh
  split at hh <;> cases hh <;> simp

theorem not_object_mem_boundNames {statement : NodeRef} {name : Atom} {o : ObjectId} :
    (name, .object o) ∉ t.boundNames statement := by
  unfold Tree.boundNames
  split
  · intro h
    obtain ⟨target, _, h⟩ := List.mem_flatMap.1 h
    obtain ⟨path, hpath⟩ := Tree.exists_of_mem_targetNames h
    cases hpath
  · intro h
    obtain ⟨path, hpath⟩ := Tree.exists_of_mem_targetNames h
    cases hpath
  · exact List.not_mem_nil

/-- Owners stay, so only definitions that are new have to be looked at. -/
theorem DefinesOwners.grows (hb : b.DefinesOwners) (hg : b.Grows b₁)
    (hnew : ∀ (c : ScopeId) (d : Scope), b₁.scopes[c]? = some d → ∀ name o,
      (name, .object o) ∈ d.bindings →
      (∃ d' : Scope, b.scopes[c]? = some d' ∧ (name, .object o) ∈ d'.bindings) ∨
        ∃ (i : ScopeId) (e : Scope), b₁.scopes[i]? = some e ∧ e.owner = o ∧ e.kind ≠ .module) :
    b₁.DefinesOwners := by
  intro c d hd name o ho
  rcases hnew c d hd name o ho with ⟨d', hd', ho'⟩ | h
  · obtain ⟨i, e, he, howner, hkind⟩ := hb c d' hd' name o ho'
    obtain ⟨e', he', hgrows⟩ := hg i e he
    exact ⟨i, e', he', hgrows.owner.trans howner, hgrows.kind ▸ hkind⟩
  · exact h

theorem DefinesOwners.openDefinition (hb : b.DefinesOwners) (hs : s < b.scopes.size)
    {statement : NodeRef} {h : Header} (hh : t.header? statement = some h) :
    (b.openDefinition s statement h).DefinesOwners := by
  have hget := getElem?_openDefinition b statement hs (Tree.params_of_header? hh)
  refine DefinesOwners.grows hb (.openDefinition hs hh) fun c d hd name o ho => ?_
  rw [hget] at hd
  split at hd
  · -- The new scope binds its parameters only.
    obtain rfl := Option.some.inj hd
    obtain ⟨_, _, hparam⟩ := List.mem_map.1 ho
    cases hparam
  split at hd
  · obtain ⟨d', hd', rfl⟩ := Option.map_eq_some_iff.1 hd
    rcases List.mem_append.1 ho with ho | ho
    · exact .inl ⟨d', hd', ho⟩
    · cases List.mem_singleton.1 ho
      refine .inr ⟨b.scopes.size, _, (hget _).trans (if_pos rfl), rfl, kind_of_header? hh⟩
  · exact .inl ⟨d, hd, ho⟩

theorem Binds.definesOwners (h : Binds t s body b b₁) (hs : s < b.scopes.size)
    (hb : b.DefinesOwners) : b₁.DefinesOwners := by
  induction h with
  | nil s b => exact hb
  | append hbody _ ih ih' => exact ih' (hbody.lt_size hs) (ih hs hb)
  | @definition s statement h b _ hh _ ih =>
      exact ih (b.lt_size_openDefinition statement) (hb.openDefinition hs hh)
  | @other s statement b _ hh _ ih =>
      refine ih (by rwa [size_note])
        (DefinesOwners.grows hb (.note _ _ _) fun c d hd name o ho => .inl ?_)
      rw [getElem?_note] at hd
      split at hd
      · obtain ⟨d', hd', rfl⟩ := Option.map_eq_some_iff.1 hd
        refine ⟨d', hd', (List.mem_append.1 ho).resolve_right ?_⟩
        exact not_object_mem_boundNames
      · exact ⟨d, hd, ho⟩

end Binding

/-- What a scope of a bound program defines as an object is a function or a class of the
source. -/
theorem Program.source_of_definedObject? {tree : Tree} (ht : tree.Descending) (atoms : Interner)
    (root : NodeRef) {s : ScopeId} {d : Scope} {name : Atom} {o : ObjectId} :
    let p := Program.bind tree atoms root
    p.scope? s = some d → d.definedObject? name = some o →
      ∃ i, p.objects.get o = .function i ∨ p.objects.get o = .cls i := by
  intro p hd ho
  have hstart : (Binding.start root).DefinesOwners := by
    intro c d hd name o ho
    rw [Binding.scopes_start, List.getElem?_toArray, List.getElem?_singleton] at hd
    split at hd <;> cases hd
    cases ho
  have hdefines := (Program.binds_bind ht atoms root).definesOwners (Nat.lt_succ_self 0) hstart
  obtain ⟨definition, hmem, hobject⟩ := List.exists_of_findSome?_eq_some ho
  obtain rfl : definition = .object o := by
    cases definition with
    | object o' =>
        cases hobject
        rfl
    | _ => cases hobject
  obtain ⟨i, e, he, rfl, hkind⟩ :=
    hdefines s d hd name o (Scope.mem_definitions.1 (List.mem_reverse.1 hmem))
  have howner := (Program.framed_bind tree atoms root).owner he
  refine ⟨i, ?_⟩
  change p.objects.get e.owner = _ at howner
  rw [howner]
  cases hk : e.kind with
  | module => exact absurd hk hkind
  | function => exact .inl rfl
  | cls => exact .inr rfl

/-- What binding a descending tree gives, as far as special methods depend on it. -/
structure Program.Sourced (p : Program) : Prop where
  descending : p.tree.Descending
  wellBound : p.WellBound
  atom (m : BuiltinFunction) : ∃ name, p.atoms.find? m.name = some name
  source {s : ScopeId} {d : Scope} {name : Atom} {o : ObjectId} (hd : p.scope? s = some d)
    (ho : d.definedObject? name = some o) :
    ∃ i, p.objects.get o = .function i ∨ p.objects.get o = .cls i

theorem Program.sourced_bind {tree : Tree} (ht : tree.Descending) (atoms : Interner)
    (root : NodeRef) : (Program.bind tree atoms root).Sourced :=
  ⟨ht, (wellBound_bind tree atoms root).1, exists_atom_bind tree atoms root,
    source_of_definedObject? ht atoms root⟩

/-! ### What a class defines -/

inductive Program.ClassDefines (p : Program) (st : ObjectStore) (cls : ObjectId) (text : String) :
    ObjectId → Prop where
  /-- A class of the source has a definition of the name, and that is a function. -/
  | source {s : ScopeId} {d : Scope} {name : Atom} {f : ObjectId} (hcls : st.get cls = .cls s)
      (hd : p.scope? s = some d) (hname : p.atoms.find? text = some name)
      (hf : d.definedObject? name = some f) (hk : st.kind f = .function) :
      ClassDefines p st cls text f
  /-- A built-in class has a method of the name. -/
  | builtin {b : BuiltinClass} (m : BuiltinFunction) (hcls : st.get cls = .builtinClass b)
      (howner : m.owner = some b) (hname : m.name = text) : ClassDefines p st cls text m.object

namespace Program

theorem Made.get_builtinFunction {p : Program} (hp : p.WellBound) {st : ObjectStore}
    (hst : p.Made st) (m : BuiltinFunction) : st.get m.object = .builtinFunction m := by
  rw [hst.grown.get_base (hp.builtinFunction_lt m), hp.get_builtinFunction]

theorem Made.kind_builtinFunction {p : Program} (hp : p.WellBound) {st : ObjectStore}
    (hst : p.Made st) (m : BuiltinFunction) : st.kind m.object = .builtinFunction := by
  rw [ObjectStore.kind, hst.get_builtinFunction hp]
  rfl

theorem builtinMethod?_eq_some_iff {p : Program} {b : BuiltinClass} {name : Atom} {f : ObjectId} :
    p.builtinMethod? b name = some f ↔
      ∃ m : BuiltinFunction, m.owner = some b ∧ m.name = p.atoms.resolve name ∧ m.object = f := by
  unfold builtinMethod?
  constructor
  · intro h
    obtain ⟨m, hm, rfl⟩ := Option.map_eq_some_iff.1 h
    have hfound := List.find?_some hm
    simp only [Bool.and_eq_true, beq_iff_eq] at hfound
    exact ⟨m, hfound.1, hfound.2, rfl⟩
  · rintro ⟨m, howner, hname, rfl⟩
    rw [← hname]
    cases m <;> cases howner <;> rfl

theorem specialMethod?_eq_some_iff {p : Program} {st : ObjectStore} {o f : ObjectId}
    {text : String} : p.specialMethod? st o text = some f ↔
      ∃ name, p.atoms.find? text = some name ∧ p.attribute? st o name = some f ∧
        (st.kind f).isFunction = true := by
  unfold specialMethod?
  simp only [Option.bind_eq_bind, Option.bind_eq_some_iff]
  refine exists_congr fun name => and_congr_right fun _ => ?_
  constructor
  · rintro ⟨method, hmethod, h⟩
    split at h
    · rename_i hk
      obtain rfl := Option.some.inj h
      exact ⟨hmethod, hk⟩
    · cases h
  · rintro ⟨hmethod, hk⟩
    exact ⟨f, hmethod, if_pos hk⟩

section Sourced

variable {p : Program} (hp : p.Sourced) {st : ObjectStore} (hst : p.Made st)
  {o cls f : ObjectId} {text : String}

include hp hst

/-- What is looked up in a class is what the class defines. -/
theorem ownAttribute?_iff_classDefines (hcls : st.kind cls = .cls) :
    (∃ name, p.atoms.find? text = some name ∧ p.ownAttribute? name (st.get cls) = some f ∧
      (st.kind f).isFunction = true) ↔ p.ClassDefines st cls text f := by
  constructor
  · rintro ⟨name, hname, hf, hk⟩
    cases hget : st.get cls with
    | cls s =>
        rw [hget] at hf
        obtain ⟨d, hd, hf⟩ := Option.bind_eq_some_iff.1 hf
        refine .source hget hd hname hf ?_
        -- The definition is of the source, so it is a function unless it is a class.
        obtain ⟨i, hsource⟩ := hp.source hd hf
        have hlt : f < p.objects.size := by
          refine ObjectStore.lt_size_of_get fun h => ?_
          rw [h] at hsource
          rcases hsource with h | h <;> cases h
        rw [← hst.grown.get_base hlt] at hsource
        unfold ObjectStore.kind at hk ⊢
        rcases hsource with h | h
        · rw [h]
          rfl
        · rw [h] at hk
          cases hk
    | builtinClass b =>
        rw [hget] at hf
        obtain ⟨m, howner, hm, rfl⟩ := builtinMethod?_eq_some_iff.1 hf
        exact .builtin m hget howner (hm.trans (Interner.resolve_of_find? hname))
    | _ =>
        rw [ObjectStore.kind, hget] at hcls
        cases hcls
  · intro h
    cases h with
    | source hget hd hname hf hk =>
        refine ⟨_, hname, ?_, by rw [hk]; rfl⟩
        rw [hget, ownAttribute?, hd]
        exact hf
    | @builtin b m hget howner hm =>
        obtain ⟨name, hname⟩ := hp.atom m
        refine ⟨name, hm ▸ hname, ?_, ?_⟩
        · rw [hget]
          exact builtinMethod?_eq_some_iff.2
            ⟨m, howner, (Interner.resolve_of_find? hname).symm, rfl⟩
        · rw [hst.kind_builtinFunction hp.wellBound]
          rfl

/-- A special method of an instance is what its class defines. -/
theorem specialMethod?_inst {site : NodeRef} (ho : st.get o = .inst cls site) :
    p.specialMethod? st o text = some f ↔ p.ClassDefines st cls text f := by
  rw [specialMethod?_eq_some_iff, ← ownAttribute?_iff_classDefines hp hst (hst.kind_cls ho)]
  simp only [hp.wellBound.attribute?_eq hst.grown, ho]

theorem itemSetter?_eq_some_iff : p.itemSetter? st o = some f ↔
    ∃ cls site, st.get o = .inst cls site ∧ p.ClassDefines st cls "__setitem__" f := by
  unfold itemSetter?
  cases hget : st.get o with
  | inst cls site => simp [specialMethod?_inst hp hst hget]
  | _ => simp

end Sourced

end Program

end ObjectInference
