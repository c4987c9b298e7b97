import ObjectInference.Inference.Call

/-!
What a function returns.

The values that a function returns are tried from the last to the first, and
the first one that resolves decides. One that asks for the result of a function
in flight is passed over; one that is not known ends the search without an
answer. A function is in flight while its own values are tried, so that
recursion is met as such and never followed.
-/

namespace ObjectInference.Infer

/-- The result that a returned value gives, in a generator or not. -/
def returnedAs (generator : Bool) (o : ObjectId) : Infer ObjectId :=
  if generator then generatorOf o else return o

/-- Try returned values in the given order. -/
def scanReturned (eval : Evaluator) (scope : ScopeId) (generator : Bool) :
    List NodeId → Infer (Option ObjectId)
  | [] => return none
  | site :: sites => do
    match ← attempt (eval scope (some site)) with
    | .error _ =>
      count fun c => { c with reentrantSites := c.reentrantSites + 1 }
      scanReturned eval scope generator sites
    | .ok none => return none
    | .ok (some name) =>
      if name.object.isKnown then return some (← returnedAs generator name.object)
      else return none

/-- The objects bound to the ordinary parameters of a function by a call. -/
def boundParameters (p : Program) (eval : Evaluator) (f : ObjectId) (arguments : Arguments) :
    Infer (List ObjectId) := do
  let bound ← bindArguments p eval f arguments
  return ordinaryObjects (p.parameters (← get).objects f) bound

/-- Run a computation for one call of a function. What earlier calls have led
to in the function is forgotten first. -/
def inContext {α : Type} (p : Program) (scope : ScopeId) (c : Context) (x : Infer α) :
    Infer α := do
  changeMemory fun m => m.forgetTree p scope
  pushContext c
  let a ← x
  popContext
  return a

/-- Infer what a function returns while it is marked as in flight. -/
def inferInFlight (p : Program) (eval : Evaluator) (f : ObjectId) (scope : ScopeId)
    (parameters : Option (List ObjectId)) : Infer (Option ObjectId) :=
  let scan := scanReturned eval scope (p.isGenerator scope) (p.returnedSites scope).reverse
  match parameters with
  | some parameters => inContext p scope ⟨f, parameters⟩ scan
  | none => scan

/-- What a function returns, for a call or in general. The arguments are bound
before the function counts as in flight, so that a call among them is no
recursion. -/
def tryReturned (p : Program) (eval : Evaluator) (f : ObjectId) (arguments : Option Arguments) :
    Infer (Option ObjectId) := do
  match (← get).objects.scopeOf? f with
  | none => return none
  | some scope =>
    if (p.returnedSites scope).isEmpty then return none
    let parameters ← arguments.mapM (boundParameters p eval f)
    match ← enterFunction f with
    | .entered =>
      let result ← inferInFlight p eval f scope parameters
      leaveFunction f
      return result
    | .cycle => throw (.reentrant f)
    | _ =>
      count fun c => { c with limitBailouts := c.limitBailouts + 1 }
      return none

/-- What a function returns, and nothing if it is being inferred already. -/
def returned (p : Program) (eval : Evaluator) (f : ObjectId) (arguments : Option Arguments) :
    Infer (Option ObjectId) := do
  match ← attempt (tryReturned p eval f arguments) with
  | .ok result => return result
  | .error _ => return none

end ObjectInference.Infer
