import ObjectInference.Arguments

/-!
Lexical scopes: the module, and every function and class defined in it.

A scope keeps what its body binds, in textual order: which names, and how each
comes by its object. Beside that it keeps what the body returns or yields.
-/

namespace ObjectInference

inductive ScopeKind where
  | module
  | function
  | cls
deriving DecidableEq, Repr

/-- One way in which a name is bound. A path is the positions that lead from
an assigned value to one target of an unpacking assignment. -/
inductive Definition where
  /-- A function or class defined under the name. -/
  | object (o : ObjectId)
  /-- A parameter of the function whose scope it is, by its place among all
  parameters. -/
  | parameter (index : Nat)
  | assigned (value : NodeRef) (path : List Nat)
  /-- The target of a loop over an iterable. -/
  | iterated (iter : NodeRef) (path : List Nat)
deriving DecidableEq, Repr

/-- The object of a definition that names one outright. -/
def Definition.object? : Definition → Option ObjectId
  | object o => some o
  | _ => none

structure Scope where
  kind : ScopeKind
  /-- The module, function or class object. -/
  owner : ObjectId
  parent : Option ScopeId
  node : NodeRef
  /-- The scopes nested directly in this one. -/
  children : List ScopeId := []
  /-- The expressions whose values are returned or yielded. -/
  returned : List NodeId := []
  /-- The body yields. -/
  generator : Bool := false
  params : List Param := []
  bindings : List (Atom × Definition) := []
  /-- The class whose body defines this function directly. -/
  methodOf : Option ObjectId := none
deriving DecidableEq, Repr

namespace Scope

/-- The definitions of a name, in textual order. -/
def definitions (s : Scope) (name : Atom) : List Definition :=
  (s.bindings.filter fun b => b.1 == name).map Prod.snd

def binds (s : Scope) (name : Atom) : Bool :=
  s.bindings.any fun b => b.1 == name

/-- The last function or class defined under a name. -/
def definedObject? (s : Scope) (name : Atom) : Option ObjectId :=
  (s.definitions name).reverse.findSome? Definition.object?

end Scope

end ObjectInference
