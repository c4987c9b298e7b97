import ObjectInference.Evidence
import ObjectInference.Guard
import ObjectInference.Program.Basic

/-!
What inference learns about a program and keeps beside it: the objects made so
far, what has been seen in containers, and the parameter objects worked out
from recorded calls. A memory outlives the run that filled it.
-/

namespace ObjectInference

structure Memory where
  objects : ObjectStore
  evidence : Evidence := {}
  /-- The objects of a function's ordinary parameters, from recorded calls. -/
  parameterCache : Table ObjectId (List ObjectId) := .empty
  /-- The containers made while a scope was evaluated. -/
  allocations : Table ScopeId (List ObjectId) := .empty
  /-- The names being resolved, each in the scope that binds it. -/
  resolving : Guard (ScopeId × Atom) := .ofProfile .nameResolution
deriving DecidableEq, Repr

namespace Memory

def fresh (p : Program) : Memory := { objects := p.objects }

def allocated (m : Memory) (s : ScopeId) : List ObjectId :=
  (m.allocations.get? s).getD []

/-! ### What containers hold -/

/-- The object that iteration gives, or unknown. Strings consist of strings. -/
def elementOf (m : Memory) (o : ObjectId) : ObjectId :=
  match m.objects.get o with
  | .generator element => element
  | _ =>
    match m.objects.builtinClassOf? o with
    | some .str => o
    | some .list => (m.evidence.get? o .element).getD .unknown
    | some .tuple => (m.evidence.get? o .element).getD .unknown
    | some .dict => (m.evidence.get? o .element).getD .unknown
    | _ => .unknown

/-- The object that unpacking gives at a position. A position of a tuple that
has not been seen falls back on the elements. -/
def itemOf (m : Memory) (o : ObjectId) (position : Nat) : ObjectId :=
  if m.objects.builtinClassOf? o = some .tuple then
    (m.evidence.get? o (.item position)).getD (m.elementOf o)
  else m.elementOf o

/-- The object stored under the keys of a dict, or unknown. -/
def valueOf (m : Memory) (o : ObjectId) : ObjectId :=
  (m.evidence.get? o .value).getD .unknown

/-- Narrow an object along a path of positions. -/
def unpack (m : Memory) (o : ObjectId) (path : List Nat) : ObjectId :=
  path.foldl m.itemOf o

/-! ### Forgetting -/

def clearParameters (m : Memory) : Memory :=
  { m with parameterCache := .empty }

def forgetParameters (m : Memory) (f : ObjectId) : Memory :=
  { m with parameterCache := m.parameterCache.erase f }

/-- Forget what one scope has led to: the parameters of its owner and the
evidence of the containers made in it. -/
def forgetScope (p : Program) (m : Memory) (s : ScopeId) : Memory :=
  { m with
    parameterCache := m.parameterCache.erase (p.ownerOf s)
    evidence := m.evidence.forgetAll (m.allocated s) }

/-- Forget what a scope and all scopes nested in it have led to. -/
def forgetTree (p : Program) (m : Memory) (s : ScopeId) : Memory :=
  (p.subtree s).foldl (forgetScope p) m

end Memory

end ObjectInference
