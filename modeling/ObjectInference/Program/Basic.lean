import ObjectInference.Scope

/-!
A bound program: a syntax tree with its scopes and the objects that binding
made. All of it stays fixed while objects are inferred; what changes is kept in
a `Memory`.

Queries about objects take the store to look in, since inference makes objects
that binding did not.
-/

namespace ObjectInference

structure Program where
  tree : Tree
  atoms : Interner
  root : NodeRef
  /-- The object of the module. -/
  module : ObjectId
  scopes : Array Scope
  /-- The objects known once binding is done. -/
  objects : ObjectStore
deriving DecidableEq, Repr

namespace Program

def scope? (p : Program) (s : ScopeId) : Option Scope := p.scopes[s]?

/-! ### Scopes -/

def ownerOf (p : Program) (s : ScopeId) : ObjectId :=
  ((p.scope? s).map Scope.owner).getD .unknown

def nodeOf (p : Program) (s : ScopeId) : NodeRef :=
  (p.scope? s).bind Scope.node

def nestedScopes (p : Program) (s : ScopeId) : List ScopeId :=
  ((p.scope? s).map Scope.children).getD []

def returnedSites (p : Program) (s : ScopeId) : List NodeId :=
  ((p.scope? s).map Scope.returned).getD []

def isGenerator (p : Program) (s : ScopeId) : Bool :=
  ((p.scope? s).map Scope.generator).getD false

def definitions (p : Program) (s : ScopeId) (name : Atom) : List Definition :=
  ((p.scope? s).map fun d => d.definitions name).getD []

/-- A scope and those nested in it, going down at most so many steps. -/
def subtreeWithin (p : Program) : Nat → ScopeId → List ScopeId
  | 0, _ => []
  | fuel + 1, s =>
    match p.scope? s with
    | some d => s :: d.children.flatMap (subtreeWithin p fuel)
    | none => []

/-- A scope and all that are nested in it at any depth. Nested scopes have
larger numbers, so there are no more steps down than scopes. -/
def subtree (p : Program) (s : ScopeId) : List ScopeId :=
  p.subtreeWithin p.scopes.size s

/-- The scope whose binding of a name is seen from a start, looking up the
parents at most so many times. -/
def binderWithin (p : Program) (start : ScopeId) (name : Atom) : Nat → ScopeId → Option ScopeId
  | 0, _ => none
  | fuel + 1, s =>
    match p.scope? s with
    | some d =>
      if (d.kind != .cls || s == start) && d.binds name then some s
      else d.parent.bind (binderWithin p start name fuel)
    | none => none

/-- The innermost scope around a start that binds a name. Class bodies are seen
from themselves only. -/
def binder? (p : Program) (start : ScopeId) (name : Atom) : Option ScopeId :=
  p.binderWithin start name p.scopes.size start

/-- The object of a built-in name. -/
def global? (p : Program) (name : Atom) : Option ObjectId :=
  let text := p.atoms.resolve name
  match BuiltinClass.all.find? fun c => c.isGlobal && c.name == text with
  | some c => some c.object
  | none =>
    (BuiltinFunction.all.find? fun f => f.owner.isNone && f.name == text).map
      BuiltinFunction.object

/-! ### Objects -/

/-- The method of a built-in class under a name. -/
def builtinMethod? (p : Program) (c : BuiltinClass) (name : Atom) : Option ObjectId :=
  let text := p.atoms.resolve name
  (BuiltinFunction.all.find? fun f => f.owner == some c && f.name == text).map
    BuiltinFunction.object

/-- An attribute of an object, following at most so many instances to their
classes. -/
def attributeWithin (p : Program) (st : ObjectStore) (name : Atom) :
    Nat → ObjectId → Option ObjectId
  | 0, _ => none
  | fuel + 1, o =>
    match st.get o with
    | .module s => (p.scope? s).bind fun d => d.definedObject? name
    | .cls s => (p.scope? s).bind fun d => d.definedObject? name
    | .builtinClass c => p.builtinMethod? c name
    | .inst c _ => attributeWithin p st name fuel c
    | _ => none

/-- An attribute of a module, of a class, or of the class of an instance. What
is assigned to the attributes of an instance is not tracked. A class is made
before its instances, so its number is smaller and the store bounds the way. -/
def attribute? (p : Program) (st : ObjectStore) (o : ObjectId) (name : Atom) : Option ObjectId :=
  p.attributeWithin st name (st.size + 1) o

/-- A method with a special name, which must be a function. -/
def specialMethod? (p : Program) (st : ObjectStore) (o : ObjectId) (name : String) :
    Option ObjectId := do
  let method ← p.attribute? st o (← p.atoms.find? name)
  if (st.kind method).isFunction then some method else none

def constructor? (p : Program) (st : ObjectStore) (c : ObjectId) : Option ObjectId :=
  match st.get c with
  | .cls _ => p.specialMethod? st c "__init__"
  | _ => none

/-- What is called when an instance is called. -/
def callOperator? (p : Program) (st : ObjectStore) (o : ObjectId) : Option ObjectId :=
  match st.get o with
  | .inst .. => p.specialMethod? st o "__call__"
  | _ => none

/-- What is called when an item of an instance is assigned. -/
def itemSetter? (p : Program) (st : ObjectStore) (o : ObjectId) : Option ObjectId :=
  match st.get o with
  | .inst .. => p.specialMethod? st o "__setitem__"
  | _ => none

/-- A function that gets the instance it is called through as its first
argument. -/
def isMethod (p : Program) (st : ObjectStore) (f : ObjectId) : Bool :=
  match st.get f with
  | .function s => ((p.scope? s).bind Scope.methodOf).isSome
  | .builtinFunction b => b.owner.isSome
  | _ => false

/-- The parameters of a function, special ones included. -/
def parameters (p : Program) (st : ObjectStore) (f : ObjectId) : List Param :=
  match st.get f with
  | .function s => ((p.scope? s).map Scope.params).getD []
  | .builtinFunction b => b.paramNames.map fun n => .ordinary ((p.atoms.find? n).getD 0)
  | _ => []

/-- The object defined under a dotted path of names, from the module on. -/
def definition? (p : Program) (st : ObjectStore) (path : String) : Option ObjectId :=
  (path.splitOn ".").foldlM (fun o name => do
    let d ← p.scope? (← st.scopeOf? o)
    d.definedObject? (← p.atoms.find? name)) p.module

/-! ### Descriptions -/

def scopeName (p : Program) (s : ScopeId) : String :=
  match (p.scope? s).bind fun d => p.tree.node? d.node with
  | some (.functionDef name ..) => p.atoms.resolve name
  | some (.classDef name ..) => p.atoms.resolve name
  | _ => "?"

/-- A short description of an object, following at most so many generators to
their elements. -/
def describeWithin (p : Program) (st : ObjectStore) : Nat → ObjectId → String
  | 0, _ => "unknown"
  | fuel + 1, o =>
    match st.get o with
    | .unknown => "unknown"
    | .module _ => "module"
    | .function s => "function " ++ p.scopeName s
    | .cls s => "class " ++ p.scopeName s
    | .builtinClass c => "class " ++ c.name
    | .builtinFunction f => "built-in " ++ f.name
    | .inst c _ =>
      match st.get c with
      | .builtinClass b => b.name
      | .cls s => p.scopeName s
      | _ => "instance"
    | .generator element => "generator of " ++ describeWithin p st fuel element

def describe (p : Program) (st : ObjectStore) (o : ObjectId) : String :=
  p.describeWithin st (st.size + 1) o

end Program

end ObjectInference
