import ObjectInference.Program.Bind
import ObjectInference.Proofs.Store

/-!
What binding makes.

A scope is well bound when the objects that it mentions are in the store, its
parent has a smaller number and its children have larger ones. Binding only
adds to what it has made, so the statements need not be followed: every step is
an update of one scope, or opens the next one, and both keep well-bound scopes
well bound.
-/

namespace ObjectInference

structure Scope.WellBound (objects : ObjectStore) (count : Nat) (s : ScopeId) (d : Scope) :
    Prop where
  owner : d.owner < objects.size
  cls : d.kind = .cls → ∃ inner, objects.get d.owner = .cls inner
  defined : ∀ name o, (name, .object o) ∈ d.bindings → o < objects.size
  method : ∀ c ∈ d.methodOf, c < objects.size ∧ ∃ inner, objects.get c = .cls inner
  children : ∀ c ∈ d.children, s < c ∧ c < count
  parent : ∀ outer ∈ d.parent, outer < s

/-- A store with the built-in objects at its beginning, every object once, and
none that inference makes; and scopes that are well bound in it. -/
structure WellBound (objects : ObjectStore) (scopes : Array Scope) : Prop where
  builtins : ObjectStore.initial.Keeps objects
  distinct : objects.Distinct
  made (o : ObjectId) : objects.kind o ≠ .inst
  scopes {s : ScopeId} {d : Scope} (h : scopes[s]? = some d) :
    d.WellBound objects scopes.size s

abbrev Program.WellBound (p : Program) : Prop :=
  ObjectInference.WellBound p.objects p.scopes

theorem BuiltinClass.object_lt (c : BuiltinClass) : c.object < ObjectStore.initial.size := by
  cases c <;> decide

namespace Program.WellBound

variable {p : Program} (hp : p.WellBound) (c : BuiltinClass)

include hp

theorem builtinClass_lt : c.object < p.objects.size :=
  Nat.lt_of_lt_of_le c.object_lt hp.builtins.size_le

theorem get_builtinClass : p.objects.get c.object = .builtinClass c := by
  rw [hp.builtins.get_eq c.object_lt, ObjectStore.get_initial_class]

theorem kind_builtinClass : p.objects.kind c.object = .cls := by
  rw [ObjectStore.kind, hp.get_builtinClass c]
  rfl

end Program.WellBound

theorem Scope.WellBound.mono {objects objects' : ObjectStore} {count count' : Nat} {s : ScopeId}
    {d : Scope} (h : d.WellBound objects count s) (ho : objects.Keeps objects')
    (hc : count ≤ count') : d.WellBound objects' count' s where
  owner := Nat.lt_of_lt_of_le h.owner ho.size_le
  cls hk := by
    rw [ho.get_eq h.owner]
    exact h.cls hk
  defined name o hd := Nat.lt_of_lt_of_le (h.defined name o hd) ho.size_le
  method c hm := by
    obtain ⟨hlt, hget⟩ := h.method c hm
    rw [ho.get_eq hlt]
    exact ⟨Nat.lt_of_lt_of_le hlt ho.size_le, hget⟩
  children c hm := ⟨(h.children c hm).1, Nat.lt_of_lt_of_le (h.children c hm).2 hc⟩
  parent := h.parent

namespace Binding

structure Step (b b' : Binding) : Prop where
  wellBound : WellBound b.objects b.scopes → WellBound b'.objects b'.scopes
  size_le : b.scopes.size ≤ b'.scopes.size
  objects : b.objects.Keeps b'.objects

theorem Step.refl (b : Binding) : Step b b :=
  ⟨id, Nat.le_refl _, .refl _⟩

theorem Step.trans {b₁ b₂ b₃ : Binding} (h : Step b₁ b₂) (h' : Step b₂ b₃) : Step b₁ b₃ :=
  ⟨h'.wellBound ∘ h.wellBound, Nat.le_trans h.size_le h'.size_le, h.objects.trans h'.objects⟩

/-- Steps for the elements of a list, while a scope stays open. -/
theorem step_foldl {α : Type} {f : Binding → α → Binding} {s : ScopeId}
    (hf : ∀ b a, s < b.scopes.size → Step b (f b a)) (xs : List α) {b : Binding}
    (hs : s < b.scopes.size) : Step b (xs.foldl f b) := by
  induction xs generalizing b with
  | nil => exact .refl b
  | cons a xs ih =>
      have h := hf b a hs
      exact h.trans (ih (Nat.lt_of_lt_of_le hs h.size_le))

theorem step_update (b : Binding) (s : ScopeId) (change : Scope → Scope)
    (h : ∀ d, d.WellBound b.objects b.scopes.size s →
      (change d).WellBound b.objects b.scopes.size s) : Step b (b.update s change) := by
  refine ⟨fun hb => ?_, by simp [update], .refl _⟩
  refine ⟨hb.builtins, hb.distinct, hb.made, fun {s' d} hd => ?_⟩
  simp only [update, Array.size_modify] at hd ⊢
  rw [Array.getElem?_modify] at hd
  split at hd
  · rename_i hs
    subst hs
    obtain ⟨d', hd', rfl⟩ := Option.map_eq_some_iff.1 hd
    exact h d' (hb.scopes hd')
  · exact hb.scopes hd

/-! ### Updates of one scope -/

theorem step_define (b : Binding) (s : ScopeId) (name : Atom) (definition : Definition)
    (h : ∀ o, definition = .object o → o < b.objects.size) :
    Step b (b.define s name definition) := by
  refine b.step_update s _ fun d hd => ⟨hd.owner, hd.cls, fun name' o hm => ?_, hd.method,
    hd.children, hd.parent⟩
  rcases List.mem_append.1 hm with hm | hm
  · exact hd.defined name' o hm
  · exact h o (Prod.mk.inj (List.mem_singleton.1 hm)).2.symm

theorem step_declare (b : Binding) {s : ScopeId} (hs : s < b.scopes.size)
    (params : List ParamDecl) : Step b (b.declare s params) := by
  have hparams := b.step_update s (fun d => { d with params := params.map Param.ofDecl })
    fun d hd => ⟨hd.owner, hd.cls, hd.defined, hd.method, hd.children, hd.parent⟩
  refine hparams.trans (step_foldl (fun b param _ => ?_) _ (Nat.lt_of_lt_of_le hs hparams.size_le))
  exact b.step_define s _ _ fun o h => by cases h

theorem step_attach (b : Binding) (s outer : ScopeId) : Step b (b.attach s outer) := by
  unfold attach
  split
  · rename_i hkind
    refine ⟨fun hb => ?_, by simp [update], .refl _⟩
    refine (b.step_update s (fun d => { d with methodOf := some (b.ownerOf outer) }) fun d hd =>
      ⟨hd.owner, hd.cls, hd.defined, fun c hc => ?_, hd.children, hd.parent⟩).wellBound hb
    obtain rfl := Option.some.inj hc
    obtain ⟨d', hd', hk⟩ := Option.map_eq_some_iff.1 hkind
    have h := hb.scopes hd'
    simp only [ownerOf, hd', Option.map_some, Option.getD_some]
    exact ⟨h.owner, h.cls hk⟩
  · exact .refl b

theorem step_returnValue (b : Binding) (s : ScopeId) (value : NodeRef) :
    Step b (b.returnValue s value) := by
  cases value with
  | none => exact .refl b
  | some value =>
      exact b.step_update s _ fun d hd =>
        ⟨hd.owner, hd.cls, hd.defined, hd.method, hd.children, hd.parent⟩

theorem step_collectYields (b : Binding) (t : Tree) (s : ScopeId) (expr : NodeRef) :
    Step b (b.collectYields t s expr) := by
  unfold collectYields
  split
  · exact .refl b
  · exact b.step_update s _ fun d hd =>
      ⟨hd.owner, hd.cls, hd.defined, hd.method, hd.children, hd.parent⟩

theorem step_bindTarget (b : Binding) (t : Tree) {s : ScopeId} (hs : s < b.scopes.size)
    (source : List Nat → Definition) (hsource : ∀ path o, source path ≠ .object o)
    (target : NodeRef) : Step b (b.bindTarget t s source target) := by
  refine step_foldl (fun b leaf _ => ?_) _ hs
  dsimp only
  split
  · exact b.step_define s _ _ fun o h => absurd h (hsource _ o)
  · exact .refl b

/-! ### Opening scopes -/

theorem kind_ownerObject (kind : ScopeKind) (s : ScopeId) :
    (ownerObject kind s).kind ≠ .inst ∧
      (kind = .cls → ∃ inner, ownerObject kind s = .cls inner) := by
  cases kind <;> simp [ownerObject, Object.kind]

/-- The next scope, before its parent knows of it. -/
theorem step_push (b : Binding) (kind : ScopeKind) (parent : Option ScopeId)
    (hparent : ∀ outer ∈ parent, outer < b.scopes.size) (node : NodeRef) :
    Step b
      { scopes := b.scopes.push
          { kind, owner := (b.objects.intern (ownerObject kind b.scopes.size)).1, parent, node }
        objects := (b.objects.intern (ownerObject kind b.scopes.size)).2 } := by
  have hkind := kind_ownerObject kind b.scopes.size
  generalize hobject : ownerObject kind b.scopes.size = object at hkind ⊢
  have hkeeps := b.objects.keeps_intern object
  have hlt := b.objects.intern_lt object
  have hget := b.objects.get_intern object
  refine ⟨fun hb => ⟨hb.builtins.trans hkeeps, hb.distinct.intern object, fun o => ?_,
    fun {s d} hd => ?_⟩, by simp, hkeeps⟩
  · rcases b.objects.get_intern_cases object o with h | h
    · rw [ObjectStore.kind, h]
      exact hb.made o
    · rw [ObjectStore.kind, h]
      exact hkind.1
  · rw [Array.getElem?_push] at hd
    split at hd
    · rename_i hs
      obtain rfl := Option.some.inj hd
      refine ⟨hlt, fun hk => ?_, by simp, by simp, by simp, fun outer ho => ?_⟩
      · rw [hget]
        exact hkind.2 hk
      · exact hs ▸ hparent outer ho
    · exact (hb.scopes hd).mono hkeeps (by simp)

/-- Opening a scope gives its number and its owner. -/
theorem step_openScope (b : Binding) (kind : ScopeKind) (parent : Option ScopeId)
    (hparent : ∀ outer ∈ parent, outer < b.scopes.size) (node : NodeRef) :
    ∃ s owner b', b.openScope kind parent node = (s, owner, b') ∧ s < b'.scopes.size ∧
      owner < b'.objects.size ∧ Step b b' := by
  have hpush := b.step_push kind parent hparent node
  have hlt := b.objects.intern_lt (ownerObject kind b.scopes.size)
  cases parent with
  | none => exact ⟨_, _, _, rfl, by simp, hlt, hpush⟩
  | some outer =>
      have houter := hparent outer rfl
      refine ⟨_, _, _, rfl, by simp [update], hlt, hpush.trans (step_update _ outer _ ?_)⟩
      refine fun d hd => ⟨hd.owner, hd.cls, hd.defined, hd.method, fun c hc => ?_, hd.parent⟩
      rcases List.mem_append.1 hc with hc | hc
      · exact hd.children c hc
      · obtain rfl := List.mem_singleton.1 hc
        exact ⟨houter, by simp⟩

/-! ### Statements -/

theorem step_bindStatement (t : Tree) (fuel : Nat) {s : ScopeId} {b : Binding}
    (hs : s < b.scopes.size) (statement : NodeRef) :
    Step b (bindStatement t fuel s b statement) := by
  induction fuel generalizing s b statement with
  | zero => exact .refl b
  | succ fuel ih =>
      have hall : ∀ {s : ScopeId} {b : Binding}, s < b.scopes.size → ∀ body : List NodeRef,
          Step b (body.foldl (bindStatement t fuel s) b) :=
        fun hs body => step_foldl (fun b statement hs => ih hs statement) body hs
      have hblock : ∀ (test : NodeRef) (body orelse : List NodeRef),
          Step b (orelse.foldl (bindStatement t fuel s)
            (body.foldl (bindStatement t fuel s) (b.collectYields t s test))) := by
        intro test body orelse
        have h₁ := b.step_collectYields t s test
        have h₂ := hall (Nat.lt_of_lt_of_le hs h₁.size_le) body
        have h₃ := hall (Nat.lt_of_lt_of_le hs (h₁.trans h₂).size_le) orelse
        exact (h₁.trans h₂).trans h₃
      have hparent : ∀ outer ∈ some s, outer < b.scopes.size := by
        rintro outer ⟨⟩
        exact hs
      unfold bindStatement
      dsimp only
      cases t.node? statement with
      | none => exact .refl b
      | some node =>
          cases node with
          | functionDef name params decorators body =>
              obtain ⟨inner, function, b₁, hopen, hinner, hfunction, h₁⟩ :=
                b.step_openScope .function _ hparent statement
              simp only [hopen]
              -- Every step starts from the binding that the one before has left.
              have h₂ := b₁.step_define s name (.object function)
                fun o ho => by cases ho; exact hfunction
              have h₃ := (b₁.define s name (.object function)).step_attach inner s
              have hinner := Nat.lt_of_lt_of_le hinner (h₂.trans h₃).size_le
              have h₄ := step_declare _ hinner params
              have h₅ := hall (Nat.lt_of_lt_of_le hinner h₄.size_le) body
              exact h₁.trans ((h₂.trans h₃).trans (h₄.trans h₅))
          | classDef name bases body =>
              obtain ⟨inner, cls, b₁, hopen, hinner, hcls, h₁⟩ :=
                b.step_openScope .cls _ hparent statement
              simp only [hopen]
              have h₂ := b₁.step_define s name (.object cls)
                fun o ho => by cases ho; exact hcls
              exact h₁.trans (h₂.trans (hall (Nat.lt_of_lt_of_le hinner h₂.size_le) body))
          | returnStatement value =>
              exact (b.step_collectYields t s value).trans (step_returnValue _ s value)
          | assign targets value =>
              have h₁ := b.step_collectYields t s value
              refine h₁.trans (step_foldl (fun b target hs => ?_) targets
                (Nat.lt_of_lt_of_le hs h₁.size_le))
              exact b.step_bindTarget t hs _ (fun path o h => by cases h) target
          | ifStatement test body orelse => exact hblock test body orelse
          | whileLoop test body orelse => exact hblock test body orelse
          | forLoop target iter body orelse =>
              have h₁ := b.step_collectYields t s iter
              have h₂ := step_bindTarget _ t (Nat.lt_of_lt_of_le hs h₁.size_le)
                (.iterated iter) (fun path o h => by cases h) target
              have h₃ := hall (Nat.lt_of_lt_of_le hs (h₁.trans h₂).size_le) body
              have h₄ := hall (Nat.lt_of_lt_of_le hs ((h₁.trans h₂).trans h₃).size_le) orelse
              exact ((h₁.trans h₂).trans h₃).trans h₄
          | exprStatement value => exact b.step_collectYields t s value
          | pass => exact .refl b
          | _ => exact b.step_collectYields t s statement

end Binding

/-- The store that every binding starts from. -/
theorem ObjectStore.distinct_initial : ObjectStore.initial.Distinct := by
  have hall : ∀ a < 15, ∀ b < 15, initial.get a = initial.get b → a = b := by decide
  exact fun a b ha hb => hall a ha b hb

theorem ObjectStore.kind_initial (o : ObjectId) : initial.kind o ≠ .inst := by
  by_cases ho : o < 15
  · have hall : ∀ o < 15, initial.kind o ≠ .inst := by decide
    exact hall o ho
  · rw [kind, get_of_size_le (Nat.not_lt.1 ho)]
    simp [Object.kind]

/-- Bound programs are well bound. -/
theorem Program.wellBound_bind (tree : Tree) (atoms : Interner) (root : NodeRef) :
    (Program.bind tree atoms root).WellBound ∧
      (Program.bind tree atoms root).module < (Program.bind tree atoms root).objects.size := by
  obtain ⟨s, module, b, hopen, hs, hmodule, h₁⟩ :=
    Binding.step_openScope {} .module none (by simp) root
  have h₂ := Binding.step_foldl (fun b statement hs =>
    Binding.step_bindStatement tree (tree.size + 1) hs statement) (Binding.moduleBody tree root) hs
  have hstart : ObjectInference.WellBound ({} : Binding).objects ({} : Binding).scopes :=
    ⟨.refl _, ObjectStore.distinct_initial, ObjectStore.kind_initial, by simp⟩
  unfold Program.bind
  simp only [hopen]
  exact ⟨h₂.wellBound (h₁.wellBound hstart), Nat.lt_of_lt_of_le hmodule h₂.objects.size_le⟩

end ObjectInference
