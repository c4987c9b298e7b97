import ObjectInference.Proofs.Binding

/-!
The scopes of a bound program.

What a scope is, apart from what its body binds, is settled when it is opened:
its kind, its owner, its parent and its node. Only its children are added later,
each when it is opened. `Scope.frame` is that part of a scope, and most of what
binding does leaves all frames alone. `Binding.Framed` says how the frames hang
together: a scope and its owner name each other, and the children of a scope are
the scopes that have it as their parent, in the order of their numbers.
-/

namespace ObjectInference

/-- What a scope is, apart from what its body binds. -/
def Scope.frame (d : Scope) : Scope :=
  { kind := d.kind, owner := d.owner, parent := d.parent, node := d.node, children := d.children }

namespace Tree

/-- The kind of scope that a statement opens, and the body that is bound in it. -/
def definition? (t : Tree) (statement : NodeRef) : Option (ScopeKind × List NodeRef) :=
  match t.node? statement with
  | some (.functionDef _ _ _ body) => some (.function, body)
  | some (.classDef _ _ body) => some (.cls, body)
  | _ => none

/-- The statements inside a statement that opens no scope. -/
def block (t : Tree) (statement : NodeRef) : List NodeRef :=
  match t.node? statement with
  | some (.ifStatement _ body orelse) => body ++ orelse
  | some (.whileLoop _ body orelse) => body ++ orelse
  | some (.forLoop _ _ body orelse) => body ++ orelse
  | _ => []

end Tree

namespace Binding

/-! ### Frames that stay -/

structure SameFrames (b b' : Binding) : Prop where
  objects : b'.objects = b.objects
  frames (s : ScopeId) : (b'.scopes[s]?).map Scope.frame = (b.scopes[s]?).map Scope.frame

namespace SameFrames

variable {b b₁ b₂ b₃ : Binding}

theorem refl (b : Binding) : SameFrames b b :=
  ⟨rfl, fun _ => rfl⟩

theorem trans (h : SameFrames b₁ b₂) (h' : SameFrames b₂ b₃) : SameFrames b₁ b₃ :=
  ⟨h'.objects.trans h.objects, fun s => (h'.frames s).trans (h.frames s)⟩

theorem symm (h : SameFrames b₁ b₂) : SameFrames b₂ b₁ :=
  ⟨h.objects.symm, fun s => (h.frames s).symm⟩

theorem size_eq (h : SameFrames b₁ b₂) : b₂.scopes.size = b₁.scopes.size := by
  have hlt : ∀ {b b' : Binding}, SameFrames b b' → ∀ s < b.scopes.size, s < b'.scopes.size := by
    intro b b' h s hs
    have hframe := h.frames s
    rw [Array.getElem?_eq_getElem hs] at hframe
    obtain ⟨d, hd, _⟩ := Option.map_eq_some_iff.1 hframe
    exact (Array.getElem?_eq_some_iff.1 hd).1
  refine Nat.le_antisymm (Nat.le_of_not_lt fun hs => ?_) (Nat.le_of_not_lt fun hs => ?_)
  · exact Nat.lt_irrefl _ (hlt h.symm _ hs)
  · exact Nat.lt_irrefl _ (hlt h _ hs)

/-- What a frame holds can be read in either binding. -/
theorem map_eq {α : Type} (h : SameFrames b₁ b₂) {f : Scope → α} (hf : ∀ d, f d.frame = f d)
    (s : ScopeId) : (b₂.scopes[s]?).map f = (b₁.scopes[s]?).map f := by
  have hframe := congrArg (Option.map f) (h.frames s)
  simpa only [Option.map_map, Function.comp_def, hf] using hframe

theorem exists_frame (h : SameFrames b₁ b₂) {s : ScopeId} {d : Scope}
    (hd : b₂.scopes[s]? = some d) : ∃ d', b₁.scopes[s]? = some d' ∧ d'.frame = d.frame := by
  have hframe := h.frames s
  rw [hd] at hframe
  exact Option.map_eq_some_iff.1 hframe.symm

theorem update (b : Binding) (s : ScopeId) {change : Scope → Scope}
    (h : ∀ d, (change d).frame = d.frame) : SameFrames b (b.update s change) := by
  refine ⟨rfl, fun s' => ?_⟩
  simp only [Binding.update, Array.getElem?_modify]
  split
  · simp [Function.comp_def, h]
  · rfl

theorem foldl {α : Type} {f : Binding → α → Binding} (hf : ∀ b a, SameFrames b (f b a))
    (xs : List α) (b : Binding) : SameFrames b (xs.foldl f b) := by
  induction xs generalizing b with
  | nil => exact .refl b
  | cons a xs ih => exact (hf b a).trans (ih (f b a))

theorem define (b : Binding) (s : ScopeId) (name : Atom) (definition : Definition) :
    SameFrames b (b.define s name definition) :=
  .update b s fun _ => rfl

theorem declare (b : Binding) (s : ScopeId) (params : List ParamDecl) :
    SameFrames b (b.declare s params) := by
  have hparams : SameFrames b (b.update s fun d => { d with params := params.map Param.ofDecl }) :=
    .update b s fun _ => rfl
  exact hparams.trans (.foldl (fun b _ => .define b s _ _) _ _)

theorem attach (b : Binding) (s outer : ScopeId) : SameFrames b (b.attach s outer) := by
  unfold Binding.attach
  split
  · exact .update b s fun _ => rfl
  · exact .refl b

theorem returnValue (b : Binding) (s : ScopeId) (value : NodeRef) :
    SameFrames b (b.returnValue s value) := by
  cases value with
  | none => exact .refl b
  | some value => exact .update b s fun _ => rfl

theorem collectYields (b : Binding) (t : Tree) (s : ScopeId) (expr : NodeRef) :
    SameFrames b (b.collectYields t s expr) := by
  unfold Binding.collectYields
  split
  · exact .refl b
  · exact .update b s fun _ => rfl

theorem bindTarget (b : Binding) (t : Tree) (s : ScopeId) (source : List Nat → Definition)
    (target : NodeRef) : SameFrames b (b.bindTarget t s source target) := by
  refine .foldl (fun b leaf => ?_) _ b
  dsimp only
  split
  · exact .define b s _ _
  · exact .refl b

end SameFrames

/-- What a statement does to the frames: a definition opens a scope, in which its body
is bound, and any other statement has the statements inside it bound where it stands. -/
theorem bindStatement_succ (t : Tree) (fuel : Nat) (s : ScopeId) (b : Binding)
    (statement : NodeRef) :
    (∃ kind body b₁, t.definition? statement = some (kind, body) ∧
      SameFrames (b.openScope kind (some s) statement).2.2 b₁ ∧
      bindStatement t (fuel + 1) s b statement =
        body.foldl (bindStatement t fuel b.scopes.size) b₁) ∨
    ∃ b₁, t.definition? statement = none ∧ SameFrames b b₁ ∧
      bindStatement t (fuel + 1) s b statement =
        (t.block statement).foldl (bindStatement t fuel s) b₁ := by
  unfold bindStatement Tree.definition? Tree.block
  dsimp only
  cases t.node? statement with
  | none => exact .inr ⟨b, rfl, .refl b, rfl⟩
  | some node =>
      cases node with
      | functionDef name params decorators body =>
          refine .inl ⟨_, _, _, rfl, ?_, rfl⟩
          exact (SameFrames.define _ s name _).trans
            ((SameFrames.attach _ _ s).trans (.declare _ _ _))
      | classDef name bases body => exact .inl ⟨_, _, _, rfl, .define _ s name _, rfl⟩
      | returnStatement value =>
          exact .inr ⟨_, rfl, (SameFrames.collectYields b t s value).trans (.returnValue _ s value),
            rfl⟩
      | assign targets value =>
          refine .inr ⟨_, rfl, (SameFrames.collectYields b t s value).trans ?_, rfl⟩
          exact .foldl (fun b target => .bindTarget b t s _ target) targets _
      | ifStatement test body orelse =>
          exact .inr ⟨_, rfl, .collectYields b t s test, List.foldl_append.symm⟩
      | whileLoop test body orelse =>
          exact .inr ⟨_, rfl, .collectYields b t s test, List.foldl_append.symm⟩
      | forLoop target iter body orelse =>
          exact .inr ⟨_, rfl,
            (SameFrames.collectYields b t s iter).trans (.bindTarget _ t s _ target),
            List.foldl_append.symm⟩
      | exprStatement value => exact .inr ⟨_, rfl, .collectYields b t s value, rfl⟩
      | pass => exact .inr ⟨b, rfl, .refl b, rfl⟩
      | _ => exact .inr ⟨_, rfl, .collectYields b t s statement, rfl⟩

/-! ### How frames hang together -/

/-- A scope and its owner name each other, every scope but the first has a parent, which
comes before it, and the children of a scope are the scopes that have it as their
parent. -/
structure Framed (b : Binding) : Prop where
  owner {s : ScopeId} {d : Scope} (h : b.scopes[s]? = some d) :
    b.objects.get d.owner = ownerObject d.kind s
  owned {o : ObjectId} {kind : ScopeKind} {s : ScopeId}
    (h : b.objects.get o = ownerObject kind s) :
    ∃ d, b.scopes[s]? = some d ∧ d.kind = kind ∧ d.owner = o
  parent {s : ScopeId} {d : Scope} (h : b.scopes[s]? = some d) : ∀ outer ∈ d.parent, outer < s
  first {s : ScopeId} {d : Scope} (h : b.scopes[s]? = some d) : d.parent = none → s = 0
  children {s : ScopeId} {d : Scope} (h : b.scopes[s]? = some d) :
    d.children = (List.range b.scopes.size).filter fun c =>
      decide ((b.scopes[c]?).map Scope.parent = some (some s))

theorem ownerObject_inj {kind kind' : ScopeKind} {s s' : ScopeId}
    (h : ownerObject kind s = ownerObject kind' s') : kind = kind' ∧ s = s' := by
  cases kind <;> cases kind' <;> cases h <;> exact ⟨rfl, rfl⟩

namespace Framed

variable {b b' : Binding}

theorem sameFrames (hb : Framed b) (h : SameFrames b b') : Framed b' where
  owner {s d} hd := by
    obtain ⟨d', hd', hframe⟩ := h.exists_frame hd
    have howner := congrArg Scope.owner hframe
    have hkind := congrArg Scope.kind hframe
    simp only [Scope.frame] at howner hkind
    rw [h.objects, ← howner, ← hkind]
    exact hb.owner hd'
  owned {o kind s} ho := by
    rw [h.objects] at ho
    obtain ⟨d, hd, hkind, howner⟩ := hb.owned ho
    obtain ⟨d', hd', hframe⟩ := h.symm.exists_frame hd
    have howner' := congrArg Scope.owner hframe
    have hkind' := congrArg Scope.kind hframe
    exact ⟨d', hd', hkind'.trans hkind, howner'.trans howner⟩
  parent {s d} hd := by
    obtain ⟨d', hd', hframe⟩ := h.exists_frame hd
    have hparent := congrArg Scope.parent hframe
    simp only [Scope.frame] at hparent
    rw [← hparent]
    exact hb.parent hd'
  first {s d} hd := by
    obtain ⟨d', hd', hframe⟩ := h.exists_frame hd
    have hparent := congrArg Scope.parent hframe
    simp only [Scope.frame] at hparent
    rw [← hparent]
    exact hb.first hd'
  children {s d} hd := by
    obtain ⟨d', hd', hframe⟩ := h.exists_frame hd
    have hchildren := congrArg Scope.children hframe
    simp only [Scope.frame] at hchildren
    rw [← hchildren, hb.children hd', h.size_eq]
    refine List.filter_congr fun c _ => ?_
    rw [h.map_eq (fun _ => rfl) c]

end Framed

/-! ### Opening scopes -/

section Open

variable (b : Binding) (kind : ScopeKind) (parent : Option ScopeId) (node : NodeRef)

@[simp] theorem openScope_fst : (b.openScope kind parent node).1 = b.scopes.size := by
  cases parent <;> rfl

theorem objects_openScope : (b.openScope kind parent node).2.2.objects =
    (b.objects.intern (ownerObject kind b.scopes.size)).2 := by
  cases parent <;> rfl

@[simp] theorem size_openScope :
    (b.openScope kind parent node).2.2.scopes.size = b.scopes.size + 1 := by
  cases parent <;> simp [openScope, update]

variable {parent}

/-- The scope that was opened, its parent, and all others. -/
theorem getElem?_openScope (hparent : ∀ outer ∈ parent, outer < b.scopes.size) (s : ScopeId) :
    (b.openScope kind parent node).2.2.scopes[s]? =
      if s = b.scopes.size then
        some { kind, owner := (b.objects.intern (ownerObject kind b.scopes.size)).1, parent, node }
      else if parent = some s then
        (b.scopes[s]?).map fun d => { d with children := d.children ++ [b.scopes.size] }
      else b.scopes[s]? := by
  cases parent with
  | none => simp [openScope, Array.getElem?_push]
  | some outer =>
      have houter : outer ≠ b.scopes.size := Nat.ne_of_lt (hparent outer rfl)
      simp only [openScope, update, Array.getElem?_modify, Array.getElem?_push, Option.some.injEq]
      by_cases hs : s = b.scopes.size
      · subst hs
        simp [houter]
      · by_cases ho : outer = s <;> simp [hs, ho]

/-- An object that owns a scope comes into the store with that scope. -/
theorem Framed.intern_eq {b : Binding} (hb : Framed b) (kind : ScopeKind) :
    b.objects.intern (ownerObject kind b.scopes.size) =
      (b.objects.size, ⟨b.objects.objects.push (ownerObject kind b.scopes.size)⟩) := by
  rcases b.objects.intern_cases (ownerObject kind b.scopes.size) with ⟨o, _, _, ho⟩ | ⟨h, _⟩
  · obtain ⟨d, hd, _⟩ := hb.owned ho
    exact absurd (Array.getElem?_eq_some_iff.1 hd).1 (Nat.lt_irrefl _)
  · exact h

theorem openScope_cases (hparent : ∀ outer ∈ parent, outer < b.scopes.size) {s : ScopeId}
    {d : Scope} (hd : (b.openScope kind parent node).2.2.scopes[s]? = some d) :
    s = b.scopes.size ∧ d = { kind := kind,
                              owner := (b.objects.intern (ownerObject kind b.scopes.size)).1,
                              parent := parent, node := node } ∨
    s < b.scopes.size ∧ ∃ d', b.scopes[s]? = some d' ∧
      d = { d' with
            children :=
              if parent = some s then d'.children ++ [b.scopes.size] else d'.children } := by
  rw [getElem?_openScope b kind node hparent] at hd
  split at hd
  · rename_i hs
    exact .inl ⟨hs, (Option.some.inj hd).symm⟩
  · split at hd
    · rename_i hs ho
      obtain ⟨d', hd', rfl⟩ := Option.map_eq_some_iff.1 hd
      exact .inr ⟨(Array.getElem?_eq_some_iff.1 hd').1, d', hd', by rw [if_pos ho]⟩
    · rename_i hs ho
      exact .inr ⟨(Array.getElem?_eq_some_iff.1 hd).1, d, hd, by rw [if_neg ho]⟩

theorem parent_openScope (hparent : ∀ outer ∈ parent, outer < b.scopes.size) {s : ScopeId}
    (hs : s < b.scopes.size) :
    ((b.openScope kind parent node).2.2.scopes[s]?).map Scope.parent =
      (b.scopes[s]?).map Scope.parent := by
  rw [getElem?_openScope b kind node hparent, if_neg (Nat.ne_of_lt hs)]
  split
  · rw [Option.map_map]
    rfl
  · rfl

theorem Framed.openScope {b : Binding} (hb : Framed b)
    (hparent : ∀ outer ∈ parent, outer < b.scopes.size)
    (hfirst : parent = none → b.scopes.size = 0) (kind : ScopeKind) (node : NodeRef) :
    Framed (b.openScope kind parent node).2.2 where
  owner {s d} hd := by
    rw [objects_openScope]
    rcases openScope_cases b kind node hparent hd with ⟨rfl, rfl⟩ | ⟨_, d', hd', rfl⟩
    · exact b.objects.get_intern _
    · have hold := hb.owner hd'
      have hlt : d'.owner < b.objects.size := by
        refine Nat.lt_of_not_le fun hle => ?_
        rw [ObjectStore.get_of_size_le hle] at hold
        cases hk : d'.kind <;> rw [hk] at hold <;> cases hold
      exact ((b.objects.keeps_intern _).get_eq hlt).trans hold
  owned {o kind' s} ho := by
    rw [objects_openScope, hb.intern_eq, ObjectStore.get_push] at ho
    split at ho
    · rename_i hsize
      obtain ⟨rfl, rfl⟩ := ownerObject_inj ho
      refine ⟨_, by rw [getElem?_openScope b kind node hparent, if_pos rfl], rfl, ?_⟩
      rw [hb.intern_eq]
      exact hsize.symm
    · obtain ⟨d, hd, hkind, howner⟩ := hb.owned ho
      have hs := (Array.getElem?_eq_some_iff.1 hd).1
      rw [getElem?_openScope b kind node hparent, if_neg (Nat.ne_of_lt hs)]
      rw [hd]
      split
      · exact ⟨_, rfl, hkind, howner⟩
      · exact ⟨d, rfl, hkind, howner⟩
  parent {s d} hd := by
    rcases openScope_cases b kind node hparent hd with ⟨rfl, rfl⟩ | ⟨_, d', hd', rfl⟩
    · exact hparent
    · exact hb.parent (d := d') hd'
  first {s d} hd := by
    rcases openScope_cases b kind node hparent hd with ⟨rfl, rfl⟩ | ⟨_, d', hd', rfl⟩
    · exact hfirst
    · exact hb.first (d := d') hd'
  children {s d} hd := by
    -- The scopes that were there have the parents they had, and the new one is the last.
    have hold : ((List.range b.scopes.size).filter fun c => decide
        (((b.openScope kind parent node).2.2.scopes[c]?).map Scope.parent = some (some s))) =
        (List.range b.scopes.size).filter fun c =>
          decide ((b.scopes[c]?).map Scope.parent = some (some s)) := by
      refine List.filter_congr fun c hc => ?_
      rw [parent_openScope b kind node hparent (List.mem_range.1 hc)]
    have hnew : ((b.openScope kind parent node).2.2.scopes[b.scopes.size]?).map Scope.parent =
        some parent := by
      rw [getElem?_openScope b kind node hparent, if_pos rfl]
      rfl
    rw [size_openScope, List.range_succ, List.filter_append, hold]
    simp only [List.filter_cons, List.filter_nil, hnew, Option.some.injEq, decide_eq_true_eq]
    rcases openScope_cases b kind node hparent hd with ⟨rfl, rfl⟩ | ⟨_, d', hd', rfl⟩
    · have hself : parent ≠ some b.scopes.size := fun h => Nat.lt_irrefl _ (hparent _ h)
      rw [if_neg hself, List.append_nil]
      refine (List.filter_eq_nil_iff.2 fun c hc hp => ?_).symm
      obtain ⟨d', hd', hp⟩ := Option.map_eq_some_iff.1 (of_decide_eq_true hp)
      exact Nat.lt_asymm (List.mem_range.1 hc) (hb.parent hd' _ hp)
    · rw [← hb.children hd']
      split <;> simp

end Open

theorem Framed.foldl_bindStatement {t : Tree} {fuel : Nat} {s : ScopeId}
    (hf : ∀ {b : Binding}, Framed b → s < b.scopes.size →
      ∀ statement, Framed (Binding.bindStatement t fuel s b statement))
    {b : Binding} (hb : Framed b) (hs : s < b.scopes.size) (body : List NodeRef) :
    Framed (body.foldl (Binding.bindStatement t fuel s) b) := by
  induction body generalizing b with
  | nil => exact hb
  | cons statement body ih =>
      have hstep := step_bindStatement t fuel hs statement
      exact ih (hf hb hs statement) (Nat.lt_of_lt_of_le hs hstep.size_le)

/-- Every scope that is opened on the way has a parent that is there already. -/
theorem Framed.bindStatement (t : Tree) (fuel : Nat) {s : ScopeId} {b : Binding} (hb : Framed b)
    (hs : s < b.scopes.size) (statement : NodeRef) :
    Framed (bindStatement t fuel s b statement) := by
  induction fuel generalizing s b statement with
  | zero => exact hb
  | succ fuel ih =>
      rcases bindStatement_succ t fuel s b statement with
        ⟨kind, body, b₁, _, hsame, heq⟩ | ⟨b₁, _, hsame, heq⟩
      · have hparent : ∀ outer ∈ some s, outer < b.scopes.size := by
          rintro outer ⟨⟩
          exact hs
        rw [heq]
        refine foldl_bindStatement (fun hb hs statement => ih hb hs statement)
          ((hb.openScope hparent nofun kind statement).sameFrames hsame) ?_ body
        rw [hsame.size_eq, size_openScope]
        exact Nat.lt_succ_self _
      · rw [heq]
        exact foldl_bindStatement (fun hb hs statement => ih hb hs statement)
          (hb.sameFrames hsame) (hsame.size_eq ▸ hs) _

/-- None of the objects that every store starts with owns a scope. -/
theorem framed_empty : Framed {} where
  owner hd := by simp at hd
  owned {o kind s} ho := by
    have hnone : ObjectStore.initial.scopeOf? o = none := by
      by_cases h : o < 15
      · have hall : ∀ o < 15, ObjectStore.initial.scopeOf? o = none := by decide
        exact hall o h
      · rw [ObjectStore.scopeOf?, ObjectStore.get_of_size_le (Nat.not_lt.1 h)]
    rw [ObjectStore.scopeOf?, ho] at hnone
    cases kind <;> cases hnone
  parent hd := by simp at hd
  first hd := by simp at hd
  children hd := by simp at hd

end Binding

def Program.binding (p : Program) : Binding := { scopes := p.scopes, objects := p.objects }

theorem Program.framed_bind (tree : Tree) (atoms : Interner) (root : NodeRef) :
    (Program.bind tree atoms root).binding.Framed := by
  have hnone : ∀ outer ∈ (none : Option ScopeId), outer < ({} : Binding).scopes.size := by
    rintro outer ⟨⟩
  have hopen := Binding.framed_empty.openScope hnone (fun _ => rfl) .module root
  exact Binding.Framed.foldl_bindStatement
    (fun hb hs statement => hb.bindStatement tree _ hs statement) hopen (by simp)
    (Binding.moduleBody tree root)

end ObjectInference
