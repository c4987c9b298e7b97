import ObjectInference.Interner

/-!
Syntax trees of one module of a dynamically typed language.

A tree is a sequence of nodes, and a node names its children by their position
in it. Nodes are added children first, which is `Tree.Descending`: every child
that exists stands before its parent. Nothing else is asked of a tree. A child
may be shared, may be absent or missing, and may be of a kind that its place
does not call for.
-/

namespace ObjectInference

abbrev NodeId := Nat

/-- A place for a child, which may be left empty: a bare `return`, a parameter
without a default, an omitted bound of a slice. -/
abbrev NodeRef := Option NodeId

inductive ParamKind where
  /-- Bound by position or by name. -/
  | positional
  /-- Collects surplus positional arguments. -/
  | varArgs
  /-- Collects surplus named arguments. -/
  | kwArgs
deriving DecidableEq, Repr

/-- The collecting parameters are special, and the others are ordinary. -/
def ParamKind.isSpecial : ParamKind → Bool
  | positional => false
  | varArgs => true
  | kwArgs => true

structure ParamDecl where
  name : Atom
  kind : ParamKind
  default : NodeRef
deriving DecidableEq, Repr

inductive Literal where
  | int (value : Int)
  /-- A double, by its sixty-four bits. -/
  | float (bits : UInt64)
  | str (value : String)
  | bool (value : Bool)
  | none
deriving DecidableEq, Repr

inductive Node where
  | module (body : List NodeRef)
  | functionDef (name : Atom) (params : List ParamDecl) (decorators body : List NodeRef)
  | classDef (name : Atom) (bases body : List NodeRef)
  | returnStatement (value : NodeRef)
  | assign (targets : List NodeRef) (value : NodeRef)
  | exprStatement (value : NodeRef)
  | ifStatement (test : NodeRef) (body orelse : List NodeRef)
  | whileLoop (test : NodeRef) (body orelse : List NodeRef)
  | forLoop (target iter : NodeRef) (body orelse : List NodeRef)
  | pass
  | call (func : NodeRef) (args keywords : List NodeRef)
  /-- A named argument. -/
  | keyword (name : Atom) (value : NodeRef)
  /-- An attribute of a value. -/
  | attr (value : NodeRef) (name : Atom)
  /-- The slice is an `index` or a `slice` node. -/
  | subscript (value slice : NodeRef)
  | index (value : NodeRef)
  | slice (lower upper step : NodeRef)
  | name (id : Atom)
  | tuple (elements : List NodeRef)
  | list (elements : List NodeRef)
  | dict (keys values : List NodeRef)
  | literal (value : Literal)
  | yield (value : NodeRef)
deriving DecidableEq, Repr

/-- Function and class definitions open a scope of their own. -/
def Node.isDefinition : Node → Bool
  | functionDef .. => true
  | classDef .. => true
  | _ => false

/-- The places of a node's children, in source order. -/
def Node.places : Node → List NodeRef
  | module body => body
  | functionDef _ params decorators body => decorators ++ params.map ParamDecl.default ++ body
  | classDef _ bases body => bases ++ body
  | returnStatement value => [value]
  | assign targets value => targets ++ [value]
  | exprStatement value => [value]
  | ifStatement test body orelse => test :: (body ++ orelse)
  | whileLoop test body orelse => test :: (body ++ orelse)
  | forLoop target iter body orelse => target :: iter :: (body ++ orelse)
  | pass => []
  | call func args keywords => func :: (args ++ keywords)
  | keyword _ value => [value]
  | attr value _ => [value]
  | subscript value part => [value, part]
  | index value => [value]
  | slice lower upper step => [lower, upper, step]
  | name _ => []
  | tuple elements => elements
  | list elements => elements
  | dict keys values => (keys.zip values).flatMap fun (k, v) => [k, v]
  | literal _ => []
  | yield value => [value]

/-- The children of a node, in source order. A key of a dict display without a
value, or a value without a key, is no child. -/
def Node.children (node : Node) : List NodeId :=
  node.places.filterMap id

structure Tree where
  nodes : Array Node := #[]
deriving DecidableEq, Repr

namespace Tree

def size (t : Tree) : Nat := t.nodes.size

def get? (t : Tree) (i : NodeId) : Option Node := t.nodes[i]?

def node? (t : Tree) (r : NodeRef) : Option Node := r.bind t.get?

/-- Append a node, which gets the next position. -/
def add (t : Tree) (node : Node) : NodeId × Tree :=
  (t.size, ⟨t.nodes.push node⟩)

def children (t : Tree) (i : NodeId) : List NodeId :=
  match t.get? i with
  | some node => node.children
  | none => []

/-- Every child that exists stands before its parent. -/
def Descending (t : Tree) : Prop :=
  ∀ i, ∀ c ∈ t.children i, c < t.size → c < i

def isDefinition (t : Tree) (i : NodeId) : Bool :=
  match t.get? i with
  | some node => node.isDefinition
  | none => false

def name? (t : Tree) (r : NodeRef) : Option Atom :=
  match t.node? r with
  | some (.name id) => some id
  | _ => none

def literal? (t : Tree) (r : NodeRef) : Option Literal :=
  match t.node? r with
  | some (.literal value) => some value
  | _ => none

/-- The elements of a tuple or list display. -/
def sequence? (t : Tree) (r : NodeRef) : Option (List NodeRef) :=
  match t.node? r with
  | some (.tuple elements) => some elements
  | some (.list elements) => some elements
  | _ => none

/-- The indexed expression of a subscript with a plain index, so not of a
slice. -/
def simpleIndex? (t : Tree) (r : NodeRef) : Option NodeRef :=
  match t.node? r with
  | some (.subscript _ slice) =>
    match t.node? slice with
    | some (.index value) => some value
    | _ => none
  | _ => none

/-! ### Reading after an addition -/

theorem get?_add (t : Tree) (node : Node) (i : NodeId) :
    (t.add node).2.get? i = if i = t.size then some node else t.get? i := by
  simp [add, get?, size, Array.getElem?_push]
  rfl

@[simp] theorem size_add (t : Tree) (node : Node) : (t.add node).2.size = t.size + 1 := by
  simp [add, size]

end Tree

end ObjectInference
