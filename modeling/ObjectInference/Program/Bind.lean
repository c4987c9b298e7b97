import ObjectInference.Program.Basic
import ObjectInference.Tree.Walk

/-!
Binding: from a syntax tree to a program.

Binding reads the statements of the module in textual order. A definition opens
a scope at once and its body is read before the next statement, so scopes are
numbered in the order in which their definitions begin. Every other statement
adds to the scope it stands in: names that it binds, values that it returns,
and the yields of its expressions.
-/

namespace ObjectInference

structure Binding where
  scopes : Array Scope := #[]
  objects : ObjectStore := .initial
deriving DecidableEq, Repr

namespace Binding

def update (b : Binding) (s : ScopeId) (change : Scope → Scope) : Binding :=
  { b with scopes := b.scopes.modify s change }

def kindOf? (b : Binding) (s : ScopeId) : Option ScopeKind :=
  (b.scopes[s]?).map Scope.kind

def ownerOf (b : Binding) (s : ScopeId) : ObjectId :=
  ((b.scopes[s]?).map Scope.owner).getD .unknown

/-- The object that owns a scope of a kind. -/
def ownerObject (kind : ScopeKind) (s : ScopeId) : Object :=
  match kind with
  | .module => .module s
  | .function => .function s
  | .cls => .cls s

/-- Open the next scope: its number, its owner, and what has been made then. -/
def openScope (b : Binding) (kind : ScopeKind) (parent : Option ScopeId) (node : NodeRef) :
    ScopeId × ObjectId × Binding :=
  let s := b.scopes.size
  let (owner, objects) := b.objects.intern (ownerObject kind s)
  let b : Binding := { scopes := b.scopes.push { kind, owner, parent, node }, objects }
  match parent with
  | some outer => (s, owner, b.update outer fun d => { d with children := d.children ++ [s] })
  | none => (s, owner, b)

def define (b : Binding) (s : ScopeId) (name : Atom) (definition : Definition) : Binding :=
  b.update s fun d => { d with bindings := d.bindings ++ [(name, definition)] }

/-- Take over the parameters of a function. -/
def declare (b : Binding) (s : ScopeId) (params : List ParamDecl) : Binding :=
  params.zipIdx.foldl (fun b (param, index) => b.define s param.name (.parameter index))
    (b.update s fun d => { d with params := params.map Param.ofDecl })

/-- Mark a function that is defined directly in a class as its method. -/
def attach (b : Binding) (s : ScopeId) (outer : ScopeId) : Binding :=
  match b.kindOf? outer with
  | some .cls => b.update s fun d => { d with methodOf := some (b.ownerOf outer) }
  | _ => b

def returnValue (b : Binding) (s : ScopeId) : NodeRef → Binding
  | some value => b.update s fun d => { d with returned := d.returned ++ [value] }
  | none => b

def collectYields (b : Binding) (t : Tree) (s : ScopeId) (expr : NodeRef) : Binding :=
  match t.yields expr with
  | [] => b
  | values => b.update s fun d =>
    { d with generator := true, returned := d.returned ++ values.filterMap id }

def bindTarget (b : Binding) (t : Tree) (s : ScopeId) (source : List Nat → Definition)
    (target : NodeRef) : Binding :=
  (t.leaves target).foldl (fun b (leaf, path) =>
    match t.name? leaf with
    | some name => b.define s name (source path)
    | none => b) b

/-- Bind a statement, of which at most so many levels are read. -/
def bindStatement (t : Tree) : Nat → ScopeId → Binding → NodeRef → Binding
  | 0, _, b, _ => b
  | fuel + 1, s, b, statement =>
    let bindAll (s : ScopeId) (b : Binding) (body : List NodeRef) : Binding :=
      body.foldl (bindStatement t fuel s) b
    match t.node? statement with
    | none => b
    | some (.functionDef name params _ body) =>
      let (inner, function, b) := b.openScope .function (some s) statement
      let b := b.define s name (.object function)
      bindAll inner ((b.attach inner s).declare inner params) body
    | some (.classDef name _ body) =>
      let (inner, cls, b) := b.openScope .cls (some s) statement
      bindAll inner (b.define s name (.object cls)) body
    | some (.returnStatement value) => (b.collectYields t s value).returnValue s value
    | some (.assign targets value) =>
      targets.foldl (fun b target => b.bindTarget t s (.assigned value) target)
        (b.collectYields t s value)
    | some (.ifStatement test body orelse) =>
      bindAll s (bindAll s (b.collectYields t s test) body) orelse
    | some (.whileLoop test body orelse) =>
      bindAll s (bindAll s (b.collectYields t s test) body) orelse
    | some (.forLoop target iter body orelse) =>
      let b := (b.collectYields t s iter).bindTarget t s (.iterated iter) target
      bindAll s (bindAll s b body) orelse
    | some (.exprStatement value) => b.collectYields t s value
    | some .pass => b
    | some _ => b.collectYields t s statement

/-- The statements of the module that a root stands for. -/
def moduleBody (t : Tree) (root : NodeRef) : List NodeRef :=
  match t.node? root with
  | some (.module body) => body
  | some (.functionDef _ _ _ body) => body
  | some (.classDef _ _ body) => body
  | _ => []

/-- Names that built-in classes and functions bring with them, in the order in
which they are interned. -/
def builtinTexts : List String :=
  (BuiltinClass.all.filter BuiltinClass.isGlobal).map BuiltinClass.name ++
    BuiltinFunction.all.flatMap fun f => f.paramNames ++ [f.name]

end Binding

/-- Bind the module at a root. Children stand before their parents, so a body
has no more levels than the tree has nodes. -/
def Program.bind (tree : Tree) (atoms : Interner) (root : NodeRef) : Program :=
  let (s, module, b) := Binding.openScope {} .module none root
  let b := (Binding.moduleBody tree root).foldl (Binding.bindStatement tree (tree.size + 1) s) b
  { tree, root, module, atoms := atoms.internAll Binding.builtinTexts
    scopes := b.scopes, objects := b.objects }

end ObjectInference
