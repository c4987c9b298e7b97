import ObjectInference.Object

/-!
Arguments of calls and their binding to parameters.

Positional arguments fill the ordinary parameters before the first special one
in order. Named arguments then fill the first ordinary parameter of their name,
unless it is filled already. A parameter that nothing fills is unknown, special
parameters always are, and surplus arguments are dropped.
-/

namespace ObjectInference

/-- A parameter as a call sees it. -/
structure Param where
  name : Atom
  kind : ParamKind
deriving DecidableEq, Repr

namespace Param

def ordinary (name : Atom) : Param := ⟨name, .positional⟩

def isSpecial (p : Param) : Bool := p.kind.isSpecial

def ofDecl (d : ParamDecl) : Param := ⟨d.name, d.kind⟩

end Param

inductive Arguments where
  /-- As a call expression spells them, evaluated in a scope, with an implicit
  receiver before the positional ones. -/
  | callSite (call : NodeRef) (scope : ScopeId) (receiver : Option ObjectId)
  /-- As objects, by position. -/
  | objects (positional : List ObjectId)
deriving DecidableEq, Repr

/-- Arguments after evaluation, the receiver among the positional ones. -/
structure ResolvedArguments where
  positional : List ObjectId := []
  keywords : List (Atom × ObjectId) := []
deriving DecidableEq, Repr

/-- A function to call and what to call it with. -/
structure CallTarget where
  function : ObjectId
  arguments : Arguments
deriving DecidableEq, Repr

/-- Fill parameters by position, up to the first special one. -/
def fillPositional : List Param → List ObjectId → List (Option ObjectId)
  | [], _ => []
  | ps, [] => ps.map fun _ => none
  | p :: ps, o :: os =>
    if p.isSpecial then (p :: ps).map fun _ => none
    else some o :: fillPositional ps os

/-- Fill the first ordinary parameter of a name, if it is still open. -/
def fillKeyword (params : List Param) (slots : List (Option ObjectId))
    (argument : Atom × ObjectId) : List (Option ObjectId) :=
  match params.findIdx? fun p => !p.isSpecial && p.name == argument.1 with
  | some i => slots.modify i fun slot => some (slot.getD argument.2)
  | none => slots

/-- The objects bound to parameters, one per parameter. -/
def bindObjects (params : List Param) (arguments : ResolvedArguments) : List ObjectId :=
  (arguments.keywords.foldl (fillKeyword params)
    (fillPositional params arguments.positional)).map fun slot => slot.getD .unknown

/-- Of objects bound to parameters, those of the ordinary ones. -/
def ordinaryObjects (params : List Param) (bound : List ObjectId) : List ObjectId :=
  ((params.zip bound).filter fun (p, _) => !p.isSpecial).map Prod.snd

/-- One unknown object per ordinary parameter. -/
def placeholders (params : List Param) : List ObjectId :=
  (params.filter fun p => !p.isSpecial).map fun _ => .unknown

end ObjectInference
