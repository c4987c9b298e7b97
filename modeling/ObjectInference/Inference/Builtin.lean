import ObjectInference.Inference.State

/-!
Calls of built-in functions.

The methods that put something into their receiver leave evidence there and
give None. The others read evidence or have a fixed result. A method called on
anything but an instance of its own class does nothing and gives nothing.
-/

namespace ObjectInference.Infer

/-- Call a built-in function with an object for each of its parameters, a
method's receiver first. -/
def callBuiltin (f : BuiltinFunction) (arguments : List ObjectId) : Infer (Option ObjectId) := do
  let argument (i : Nat) : ObjectId := (arguments[i]?).getD .unknown
  let receiver := argument 0
  let s ← get
  if f.owner.isSome && s.objects.builtinClassOf? receiver != f.owner then return none
  match f with
  | .len => return some (← builtinInstance .int)
  | .listAppend =>
    observe receiver .element (argument 1)
    return some (← builtinInstance .noneType)
  | .listSetItem =>
    observe receiver .element (argument 2)
    return some (← builtinInstance .noneType)
  | .dictSetItem =>
    observe receiver .element (argument 1)
    observe receiver .value (argument 2)
    return some (← builtinInstance .noneType)
  | .listGetItem => return s.evidence.get? receiver .element
  | .dictGetItem => return s.evidence.get? receiver .value

/-- Call an object if it is a built-in function. -/
def callBuiltinObject (f : ObjectId) (arguments : List ObjectId) : Infer (Option ObjectId) := do
  match (← get).objects.get f with
  | .builtinFunction b => callBuiltin b arguments
  | _ => return none

end ObjectInference.Infer
