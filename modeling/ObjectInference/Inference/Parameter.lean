import ObjectInference.Inference.State

/-!
What a parameter stands for.

While its function is inferred for a call, a parameter stands for what that
call bound to it. Otherwise it stands for what the latest recorded call bound
to it, and a method of which nothing is known gets an instance of its class as
its receiver. The objects of the second kind are kept in a cache, which the
next recorded call of the function empties.
-/

namespace ObjectInference

/-- Put the known objects of a second list in the place of those of a first. -/
def overlay : List ObjectId → List ObjectId → List ObjectId
  | o :: os, r :: rs => (if r.isKnown then r else o) :: overlay os rs
  | os, _ => os

/-- The objects of a function's ordinary parameters by its latest recorded
call, unknown without one. -/
def Program.recordedParameters (p : Program) (s : State) (f : ObjectId) : List ObjectId :=
  let params := p.parameters s.objects f
  match s.calls.latest f with
  | some record => overlay (placeholders params) (ordinaryObjects params record)
  | none => placeholders params

/-- The class whose method a function is, if it has an ordinary parameter to
receive an instance. -/
def Program.receiverClass? (p : Program) (s : State) (f : ObjectId) : Option ObjectId :=
  match p.parameters s.objects f with
  | param :: _ =>
    if param.isSpecial then none
    else ((s.objects.scopeOf? f).bind p.scope?).bind Scope.methodOf
  | [] => none

namespace Infer

/-- Let an unknown receiver of a method be an instance of its class. -/
def supplyReceiver (p : Program) (f : ObjectId) (objects : List ObjectId) :
    Infer (List ObjectId) := do
  match p.receiverClass? (← get) f, objects with
  | some c, o :: os =>
    if o.isKnown then return objects
    else return (← newInstance c none) :: os
  | _, _ => return objects

/-- The objects of a function's ordinary parameters by what has been recorded. -/
def evidenceParameters (p : Program) (f : ObjectId) : Infer (List ObjectId) := do
  match (← get).parameterCache.get? f with
  | some objects => return objects
  | none =>
    let objects ← supplyReceiver p f (p.recordedParameters (← get) f)
    changeMemory fun m => { m with parameterCache := m.parameterCache.insert f objects }
    return objects

/-- The objects of a function's ordinary parameters. -/
def currentParameters (p : Program) (f : ObjectId) : Infer (List ObjectId) := do
  match (← get).boundParameters? f with
  | some objects => return objects
  | none => evidenceParameters p f

def parameterObject (p : Program) (scope : ScopeId) (index : Nat) : Infer ObjectId := do
  match p.scope? scope with
  | none => return .unknown
  | some d =>
    match d.params[index]? with
    | none => return .unknown
    | some param =>
      if param.isSpecial then return .unknown
      else
        let objects ← currentParameters p d.owner
        return (objects[(placeholders (d.params.take index)).length]?).getD .unknown

end Infer

end ObjectInference
