import ObjectInference.Proofs.Nesting

/-!
What a statement leaves in its scope.

A statement that opens no scope adds to the scope it stands in: the yields of one of its
expressions, a value that it returns, the names that it binds. All of this is read off
the statement, whatever has been bound before, and `Tree.notes` is what it comes to. A
definition adds the object it defines and opens a scope, which takes its parameters over.

`Binds` is binding as a walk over statements, with a rule for definitions and one for all
other statements, and without a bound on the depth. On a tree whose children stand before
their parents it describes what the binder does (`binds_bind`), so what holds of all
scopes of a program is shown by induction over it.
-/

namespace ObjectInference

structure Notes where
  bindings : List (Atom × Definition) := []
  returned : List NodeId := []
  generator : Bool := false
deriving DecidableEq, Repr

def Notes.append (n m : Notes) : Notes :=
  ⟨n.bindings ++ m.bindings, n.returned ++ m.returned, n.generator || m.generator⟩

@[simp] theorem Notes.append_empty (n : Notes) : n.append {} = n := by
  simp [append]

@[simp] theorem Notes.empty_append (n : Notes) : Notes.append {} n = n := by
  simp [append]

def Scope.add (d : Scope) (n : Notes) : Scope :=
  { d with
    bindings := d.bindings ++ n.bindings
    returned := d.returned ++ n.returned
    generator := d.generator || n.generator }

@[simp] theorem Scope.add_empty (d : Scope) : d.add {} = d := by
  simp [add]

@[simp] theorem Scope.add_add (d : Scope) (n m : Notes) : (d.add n).add m = d.add (n.append m) := by
  simp [add, Notes.append, Bool.or_assoc]

structure Scope.Grows (d d' : Scope) : Prop where
  kind : d'.kind = d.kind
  owner : d'.owner = d.owner
  parent : d'.parent = d.parent
  node : d'.node = d.node
  params : d'.params = d.params
  methodOf : d'.methodOf = d.methodOf
  bindings : d.bindings <+: d'.bindings

namespace Scope.Grows

theorem refl (d : Scope) : d.Grows d :=
  ⟨rfl, rfl, rfl, rfl, rfl, rfl, List.prefix_refl _⟩

theorem trans {d₁ d₂ d₃ : Scope} (h : d₁.Grows d₂) (h' : d₂.Grows d₃) : d₁.Grows d₃ :=
  ⟨h'.kind.trans h.kind, h'.owner.trans h.owner, h'.parent.trans h.parent, h'.node.trans h.node,
    h'.params.trans h.params, h'.methodOf.trans h.methodOf, h.bindings.trans h'.bindings⟩

end Scope.Grows

/-- How a definition begins, and the body that is bound in its scope. -/
structure Header where
  kind : ScopeKind
  name : Atom
  params : List ParamDecl
  body : List NodeRef
deriving DecidableEq, Repr

namespace Tree

def header? (t : Tree) (statement : NodeRef) : Option Header :=
  match t.node? statement with
  | some (.functionDef name params _ body) => some ⟨.function, name, params, body⟩
  | some (.classDef name _ body) => some ⟨.cls, name, [], body⟩
  | _ => none

theorem definition?_eq (t : Tree) (statement : NodeRef) :
    t.definition? statement = (t.header? statement).map fun h => (h.kind, h.body) := by
  unfold definition? header?
  cases t.node? statement with
  | none => rfl
  | some node => cases node <;> rfl

/-- Only functions have parameters. -/
theorem params_of_header? {t : Tree} {statement : NodeRef} {h : Header}
    (hh : t.header? statement = some h) : h.kind = .function ∨ h.params = [] := by
  unfold header? at hh
  split at hh <;> cases hh
  · exact .inl rfl
  · exact .inr rfl

/-- The expression of a statement whose yields belong to the scope. What is no statement
is taken for an expression. -/
def expression (t : Tree) (statement : NodeRef) : NodeRef :=
  match t.node? statement with
  | some (.returnStatement value) => value
  | some (.assign _ value) => value
  | some (.ifStatement test _ _) => test
  | some (.whileLoop test _ _) => test
  | some (.forLoop _ iter _ _) => iter
  | some (.exprStatement value) => value
  | some (.functionDef ..) => none
  | some (.classDef ..) => none
  | some .pass => none
  | some _ => statement
  | none => none

def returnedValue (t : Tree) (statement : NodeRef) : NodeRef :=
  match t.node? statement with
  | some (.returnStatement value) => value
  | _ => none

def targetNames (t : Tree) (source : List Nat → Definition) (target : NodeRef) :
    List (Atom × Definition) :=
  (t.leaves target).flatMap fun (leaf, path) =>
    ((t.name? leaf).map fun name => (name, source path)).toList

def boundNames (t : Tree) (statement : NodeRef) : List (Atom × Definition) :=
  match t.node? statement with
  | some (.assign targets value) => targets.flatMap (t.targetNames (.assigned value))
  | some (.forLoop target iter _ _) => t.targetNames (.iterated iter) target
  | _ => []

def yielded (t : Tree) (expr : NodeRef) : Notes where
  returned := (t.yields expr).filterMap id
  generator := !(t.yields expr).isEmpty

/-- What a statement that is no definition adds to its scope. -/
def notes (t : Tree) (statement : NodeRef) : Notes :=
  (t.yielded (t.expression statement)).append
    { bindings := t.boundNames statement, returned := (t.returnedValue statement).toList }

@[simp] theorem yielded_none (t : Tree) : t.yielded none = {} := rfl

end Tree

namespace Binding

def note (b : Binding) (s : ScopeId) (n : Notes) : Binding :=
  b.update s fun d => d.add n

/-- Open the scope of a definition, define the definition where it stands, and take over
its parameters. -/
def openDefinition (b : Binding) (s : ScopeId) (statement : NodeRef) (h : Header) : Binding :=
  let (inner, owner, b) := b.openScope h.kind (some s) statement
  let b := b.define s h.name (.object owner)
  if h.kind = .function then (b.attach inner s).declare inner h.params else b

/-! ### Adding to a scope -/

theorem getElem?_update (b : Binding) (s : ScopeId) (change : Scope → Scope) (c : ScopeId) :
    (b.update s change).scopes[c]? =
      if c = s then (b.scopes[c]?).map change else b.scopes[c]? := by
  simp only [update, Array.getElem?_modify, eq_comm]

theorem update_update (b : Binding) (s : ScopeId) (change change' : Scope → Scope) :
    (b.update s change).update s change' = b.update s (change' ∘ change) := by
  unfold update
  congr 1
  refine Array.ext_getElem? fun c => ?_
  simp only [Array.getElem?_modify]
  split <;> simp [Function.comp_def]

theorem update_id (b : Binding) (s : ScopeId) : b.update s id = b := by
  unfold update
  congr 1
  refine Array.ext_getElem? fun c => ?_
  simp [Array.getElem?_modify]

section Note

variable (b : Binding) (t : Tree) (s : ScopeId)

@[simp] theorem note_empty : b.note s {} = b := by
  have hid : (fun d : Scope => d.add {}) = id := funext Scope.add_empty
  rw [note, hid, update_id]

@[simp] theorem size_note (n : Notes) : (b.note s n).scopes.size = b.scopes.size := by
  simp [note, update]

theorem getElem?_note (n : Notes) (c : ScopeId) : (b.note s n).scopes[c]? =
    if c = s then (b.scopes[c]?).map fun d => d.add n else b.scopes[c]? :=
  b.getElem?_update s _ c

@[simp] theorem note_note (n m : Notes) : (b.note s n).note s m = b.note s (n.append m) := by
  simp only [note, update_update, Function.comp_def, Scope.add_add]

theorem foldl_note {α : Type} {f : Binding → α → Binding} {g : α → List (Atom × Definition)}
    (hf : ∀ b a, f b a = b.note s { bindings := g a }) (xs : List α) :
    xs.foldl f b = b.note s { bindings := xs.flatMap g } := by
  induction xs generalizing b with
  | nil => exact (b.note_empty s).symm
  | cons a xs ih =>
      rw [List.foldl_cons, hf, ih, note_note, List.flatMap_cons]
      rfl

theorem define_eq (name : Atom) (definition : Definition) :
    b.define s name definition = b.note s { bindings := [(name, definition)] } := by
  simp [define, note, Scope.add]

theorem collectYields_eq (expr : NodeRef) :
    b.collectYields t s expr = b.note s (t.yielded expr) := by
  unfold collectYields Tree.yielded
  split
  · rename_i hnone
    simp [hnone]
  · rename_i hne
    obtain ⟨value, values, hvalues⟩ := List.exists_cons_of_ne_nil hne
    simp [note, Scope.add, hvalues]

theorem returnValue_eq (value : NodeRef) :
    b.returnValue s value = b.note s { returned := value.toList } := by
  cases value with
  | none => exact (b.note_empty s).symm
  | some value => simp [returnValue, note, Scope.add]

theorem bindTarget_eq (source : List Nat → Definition) (target : NodeRef) :
    b.bindTarget t s source target = b.note s { bindings := t.targetNames source target } := by
  refine b.foldl_note s (fun b leaf => ?_) (t.leaves target)
  obtain ⟨leaf, path⟩ := leaf
  dsimp only
  cases t.name? leaf with
  | none => exact (b.note_empty s).symm
  | some name => exact b.define_eq s name (source path)

end Note

/-! ### Opening the scope of a definition -/

def parameterNames (params : List ParamDecl) : List (Atom × Definition) :=
  params.zipIdx.map fun (param, index) => (param.name, .parameter index)

/-- The class whose method a definition in a scope is. -/
def methodOf? (b : Binding) (s : ScopeId) (kind : ScopeKind) : Option ObjectId :=
  if kind = .function ∧ b.kindOf? s = some .cls then some (b.ownerOf s) else none

theorem declare_eq (b : Binding) (s : ScopeId) (params : List ParamDecl) :
    b.declare s params = b.update s fun d =>
      { d with
        params := params.map Param.ofDecl
        bindings := d.bindings ++ parameterNames params } := by
  have hnames : params.zipIdx.flatMap (fun x => [(x.1.name, Definition.parameter x.2)]) =
      parameterNames params := List.map_eq_flatMap.symm
  unfold declare
  rw [foldl_note _ s (fun b x => b.define_eq s x.1.name (.parameter x.2)), note, update_update,
    hnames]
  simp [Function.comp_def, Scope.add]

theorem attach_eq (b : Binding) (s outer : ScopeId) :
    b.attach s outer = b.update s fun d =>
      { d with methodOf := if b.kindOf? outer = some .cls then some (b.ownerOf outer)
                           else d.methodOf } := by
  unfold attach
  split
  · rename_i hcls
    simp only [hcls, if_true]
  · rename_i hne
    simp only [if_neg hne]
    exact (b.update_id s).symm

theorem openScope_snd_fst (b : Binding) (kind : ScopeKind) (parent : Option ScopeId)
    (node : NodeRef) :
    (b.openScope kind parent node).2.1 = (b.objects.intern (ownerObject kind b.scopes.size)).1 := by
  cases parent <;> rfl

section OpenDefinition

variable (b : Binding) {s : ScopeId} (statement : NodeRef) {h : Header}

theorem size_openDefinition : (b.openDefinition s statement h).scopes.size = b.scopes.size + 1 := by
  unfold openDefinition
  dsimp only
  split
  · simp [declare_eq, attach_eq, define, update]
  · simp [define, update]

theorem lt_size_openDefinition :
    b.scopes.size < (b.openDefinition s statement h).scopes.size := by
  rw [size_openDefinition]
  exact Nat.lt_succ_self _

/-- The scope that a definition opens, the scope it stands in, and all others. -/
theorem getElem?_openDefinition (hs : s < b.scopes.size)
    (hh : h.kind = .function ∨ h.params = []) (c : ScopeId) :
    (b.openDefinition s statement h).scopes[c]? =
      if c = b.scopes.size then
        some { kind := h.kind
               owner := (b.objects.intern (ownerObject h.kind b.scopes.size)).1
               parent := some s, node := statement
               params := h.params.map Param.ofDecl
               bindings := parameterNames h.params
               methodOf := b.methodOf? s h.kind }
      else if c = s then
        (b.scopes[c]?).map fun d =>
          { d with
            children := d.children ++ [b.scopes.size]
            bindings := d.bindings ++
              [(h.name, .object (b.objects.intern (ownerObject h.kind b.scopes.size)).1)] }
      else b.scopes[c]? := by
  have hparent : ∀ outer ∈ some s, outer < b.scopes.size := by
    rintro outer ⟨⟩
    exact hs
  have hne : s ≠ b.scopes.size := Nat.ne_of_lt hs
  unfold openDefinition
  dsimp only
  rw [openScope_fst, openScope_snd_fst]
  generalize hopen : (b.openScope h.kind (some s) statement).2.2 = b₁
  have hget := getElem?_openScope b h.kind statement hparent
  rw [hopen] at hget
  generalize (b.objects.intern (ownerObject h.kind b.scopes.size)).1 = owner at hget ⊢
  by_cases hk : h.kind = .function
  · -- What the scope around is, and whose it is, is not changed by the definition in it.
    have hkind : (b₁.define s h.name (.object owner)).kindOf? s = b.kindOf? s := by
      simp [kindOf?, define, getElem?_update, hget, hne, Function.comp_def]
    have howner : (b₁.define s h.name (.object owner)).ownerOf s = b.ownerOf s := by
      simp [ownerOf, define, getElem?_update, hget, hne, Function.comp_def]
    rw [if_pos hk, declare_eq, attach_eq, hkind, howner]
    simp only [define, getElem?_update, hget, methodOf?, hk]
    by_cases hcs : c = s
    · subst hcs
      simp [hne, Function.comp_def]
    · by_cases hc : c = b.scopes.size <;> simp [hcs, hc, Ne.symm hcs, Ne.symm hne]
  · rw [if_neg hk]
    obtain hparams := hh.resolve_left hk
    simp only [define, getElem?_update, hget, hparams, methodOf?, hk]
    by_cases hcs : c = s
    · subst hcs
      simp [hne, Function.comp_def]
    · by_cases hc : c = b.scopes.size <;>
        simp [hcs, hc, Ne.symm hcs, Ne.symm hne, parameterNames]

end OpenDefinition

/-! ### Statements -/

/-- A definition opens its scope, and its body is bound there. -/
theorem bindStatement_of_header {t : Tree} {statement : NodeRef} {h : Header}
    (hh : t.header? statement = some h) (fuel : Nat) (s : ScopeId) (b : Binding) :
    bindStatement t (fuel + 1) s b statement =
      h.body.foldl (bindStatement t fuel b.scopes.size) (b.openDefinition s statement h) := by
  unfold Tree.header? at hh
  unfold bindStatement
  split at hh <;> cases hh
  · rename_i hn
    simp only [hn]
    rfl
  · rename_i hn
    simp only [hn]
    rfl

/-- Any other statement is noted, and the statements inside it are bound where it
stands. -/
theorem bindStatement_of_none {t : Tree} {statement : NodeRef}
    (hh : t.header? statement = none) (fuel : Nat) (s : ScopeId) (b : Binding) :
    bindStatement t (fuel + 1) s b statement =
      (t.block statement).foldl (bindStatement t fuel s) (b.note s (t.notes statement)) := by
  unfold Tree.header? at hh
  unfold bindStatement Tree.block Tree.notes Tree.expression Tree.returnedValue Tree.boundNames
  cases hn : t.node? statement with
  | none => simp
  | some node =>
      cases node with
      | functionDef name params decorators body => simp [hn] at hh
      | classDef name bases body => simp [hn] at hh
      | returnStatement value => simp [collectYields_eq, returnValue_eq]
      | assign targets value =>
          have htargets := fun b : Binding =>
            b.foldl_note s (fun b target => b.bindTarget_eq t s (.assigned value) target) targets
          simp [collectYields_eq, htargets]
      | forLoop target iter body orelse => simp [collectYields_eq, bindTarget_eq]
      | _ => simp [collectYields_eq]

/-! ### The walk -/

/-- Binding statements one after the other in a scope: from one binding to a later one. -/
inductive Binds (t : Tree) : ScopeId → List NodeRef → Binding → Binding → Prop where
  | nil (s : ScopeId) (b : Binding) : Binds t s [] b b
  | append {s : ScopeId} {body rest : List NodeRef} {b b₁ b₂ : Binding}
      (hbody : Binds t s body b b₁) (hrest : Binds t s rest b₁ b₂) :
      Binds t s (body ++ rest) b b₂
  | definition {s : ScopeId} {statement : NodeRef} {h : Header} {b b₁ : Binding}
      (hh : t.header? statement = some h)
      (hbody : Binds t b.scopes.size h.body (b.openDefinition s statement h) b₁) :
      Binds t s [statement] b b₁
  | other {s : ScopeId} {statement : NodeRef} {b b₁ : Binding}
      (hh : t.header? statement = none)
      (hblock : Binds t s (t.block statement) (b.note s (t.notes statement)) b₁) :
      Binds t s [statement] b b₁

theorem binds_foldl {t : Tree} (ht : t.Descending) {fuel : Nat} (s : ScopeId) (b : Binding)
    (body : List NodeRef) (hbody : ∀ r ∈ body, t.height r ≤ fuel) :
    Binds t s body b (body.foldl (bindStatement t fuel s) b) := by
  induction fuel generalizing s b body with
  | zero =>
      cases body with
      | nil => exact .nil s b
      | cons r body =>
          exact absurd (hbody r List.mem_cons_self) (Nat.not_le.2 (t.height_pos r))
  | succ fuel ih =>
      induction body generalizing b with
      | nil => exact .nil s b
      | cons statement rest ihrest =>
          have hle := hbody statement List.mem_cons_self
          have hfirst : Binds t s [statement] b (bindStatement t (fuel + 1) s b statement) := by
            cases hh : t.header? statement with
            | some h =>
                rw [bindStatement_of_header hh]
                refine .definition hh (ih _ _ _ fun r hr => ?_)
                have hdef : t.definition? statement = some (h.kind, h.body) := by
                  rw [t.definition?_eq, hh]
                  rfl
                have hlt := Tree.height_lt_of_mem_body ht hdef hr
                omega
            | none =>
                rw [bindStatement_of_none hh]
                refine .other hh (ih _ _ _ fun r hr => ?_)
                have hlt := Tree.height_lt_of_mem_block ht hr
                omega
          exact hfirst.append (ihrest _ fun r hr => hbody r (List.mem_cons_of_mem _ hr))

/-! ### Growth -/

variable {t : Tree} {s c : ScopeId} {body : List NodeRef} {b b₁ b₂ : Binding}

def Grows (b b' : Binding) : Prop :=
  ∀ (c : ScopeId) (d : Scope), b.scopes[c]? = some d → ∃ d', b'.scopes[c]? = some d' ∧ d.Grows d'

namespace Grows

theorem refl (b : Binding) : b.Grows b := fun _ d hd => ⟨d, hd, .refl d⟩

theorem trans (h : b.Grows b₁) (h' : b₁.Grows b₂) : b.Grows b₂ := by
  intro c d hd
  obtain ⟨d', hd', hg⟩ := h c d hd
  obtain ⟨d'', hd'', hg'⟩ := h' c d' hd'
  exact ⟨d'', hd'', hg.trans hg'⟩

theorem size_le (h : b.Grows b₁) : b.scopes.size ≤ b₁.scopes.size := by
  refine Nat.le_of_not_lt fun hlt => ?_
  obtain ⟨d, hd, _⟩ := h _ _ (Array.getElem?_eq_getElem hlt)
  exact Nat.lt_irrefl _ (Array.getElem?_eq_some_iff.1 hd).1

theorem note (b : Binding) (s : ScopeId) (n : Notes) : b.Grows (b.note s n) := by
  intro c d hd
  rw [getElem?_note, hd]
  split
  · exact ⟨_, rfl, rfl, rfl, rfl, rfl, rfl, rfl, List.prefix_append _ _⟩
  · exact ⟨d, rfl, .refl d⟩

theorem openDefinition (hs : s < b.scopes.size) {statement : NodeRef} {h : Header}
    (hh : t.header? statement = some h) : b.Grows (b.openDefinition s statement h) := by
  intro c d hd
  have hc : c < b.scopes.size := (Array.getElem?_eq_some_iff.1 hd).1
  rw [getElem?_openDefinition b statement hs (Tree.params_of_header? hh), hd,
    if_neg (Nat.ne_of_lt hc)]
  split
  · exact ⟨_, rfl, rfl, rfl, rfl, rfl, rfl, rfl, List.prefix_append _ _⟩
  · exact ⟨d, rfl, .refl d⟩

end Grows

theorem Binds.grows (h : Binds t s body b b₁) (hs : s < b.scopes.size) : b.Grows b₁ := by
  induction h with
  | nil s b => exact .refl b
  | append _ _ ih ih' =>
      have hg := ih hs
      exact hg.trans (ih' (Nat.lt_of_lt_of_le hs hg.size_le))
  | @definition s statement h b _ hh _ ih =>
      exact (Grows.openDefinition hs hh).trans (ih (b.lt_size_openDefinition statement))
  | other _ _ ih => exact (Grows.note _ _ _).trans (ih (by rwa [size_note]))

/-- The scope that is being read is still there. -/
theorem Binds.lt_size (h : Binds t s body b b₁) (hs : s < b.scopes.size) : s < b₁.scopes.size :=
  Nat.lt_of_lt_of_le hs (h.grows hs).size_le

end Binding

/-- The module's scope, which is open from the start. -/
def Binding.start (root : NodeRef) : Binding :=
  ((Binding.openScope {} .module none root).2.2)

/-- A program is what the walk over the statements of its module comes to. -/
theorem Program.binds_bind {tree : Tree} (ht : tree.Descending) (atoms : Interner)
    (root : NodeRef) :
    Binding.Binds tree 0 (Binding.moduleBody tree root) (Binding.start root)
      (Program.bind tree atoms root).binding :=
  Binding.binds_foldl ht 0 (Binding.start root) _ fun r _ => tree.height_le r

end ObjectInference
