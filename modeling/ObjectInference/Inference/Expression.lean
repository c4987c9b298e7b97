import ObjectInference.Inference.Name
import ObjectInference.Inference.Returned

/-!
Evaluation of expressions.

`evaluateStep` says what an expression resolves to, given an evaluator for what
is inside it, and `evaluateWithin` closes the recursion with a bound on its
depth. An expression leads to one inside it, to a definition of a name, or to a
returned value of a function. Each step of the second kind takes room in the
guard of names, each step of the third kind room in the guard of functions, and
between two such steps evaluation only goes down in the tree. `Program.budget`
is the bound that follows, and `Program.evaluate` uses it.
-/

namespace ObjectInference

namespace Infer

/-- An attribute of a resolved expression. -/
def attributeName (p : Program) (name : Atom) (value : Option Name) : Infer (Option Name) := do
  let st := (← get).objects
  return value.bind fun v => (p.attribute? st v.object name).map (⟨·, .defined name⟩)

/-- Resolve what a call calls: the object before the dot of an attribute, and
the callee itself. -/
def primaryAndResult (p : Program) (eval : Evaluator) (scope : ScopeId) (expr : NodeRef) :
    Infer (Option Name × Option Name) := do
  match p.tree.node? expr with
  | some (.attr value name) =>
    let primary ← eval scope value
    return (primary, ← attributeName p name primary)
  | _ => return (none, ← eval scope expr)

/-- The object of an element of a display. One whose function is in flight is
unknown, as is one that does not resolve. -/
def elementObject (eval : Evaluator) (scope : ScopeId) (expr : NodeRef) : Infer ObjectId := do
  match ← attempt (eval scope expr) with
  | .ok found => return Name.objectOf found
  | .error _ => return .unknown

/-- See the elements of a tuple display, from a position on. -/
def fillTuple (eval : Evaluator) (scope : ScopeId) (tuple : ObjectId) :
    Nat → List NodeRef → Infer Unit
  | _, [] => return
  | position, e :: es => do
    let o ← elementObject eval scope e
    observe tuple (.item position) o
    observe tuple .element o
    fillTuple eval scope tuple (position + 1) es

def fillList (eval : Evaluator) (scope : ScopeId) (list : ObjectId) : List NodeRef → Infer Unit
  | [] => return
  | e :: es => do
    observe list .element (← elementObject eval scope e)
    fillList eval scope list es

def fillDict (eval : Evaluator) (scope : ScopeId) (dict : ObjectId) :
    List (NodeRef × NodeRef) → Infer Unit
  | [] => return
  | (key, value) :: entries => do
    let k ← elementObject eval scope key
    let v ← elementObject eval scope value
    observe dict .element k
    observe dict .value v
    fillDict eval scope dict entries

def constructed (scope : ScopeId) (call : NodeRef) (callee : ObjectId) : Infer ObjectId := do
  match (← get).objects.get callee with
  | .builtinClass c =>
    if c.isContainer then newContainer scope c call else newInstance callee call
  | _ => newInstance callee call

def calledObject (p : Program) (eval : Evaluator) (target : CallTarget) : Infer ObjectId := do
  match (← get).objects.get target.function with
  | .function _ =>
    return (← tryReturned p eval target.function (some target.arguments)).getD .unknown
  | .builtinFunction f =>
    if f.mutatesReceiver then builtinInstance .noneType
    else
      let bound ← bindArguments p eval target.function target.arguments
      return (← callBuiltin f bound).getD .unknown
  | _ => return .unknown

/-- What a call gives. The value of a class called is the new instance; its
constructor is of no account here. -/
def evaluateCall (p : Program) (eval : Evaluator) (scope : ScopeId) (call func : NodeRef) :
    Infer (Option Name) := do
  match ← primaryAndResult p eval scope func with
  | (_, none) => return none
  | (primary, some callee) =>
    if (← get).objects.kind callee.object = .cls then
      return some (.unbound (← constructed scope call callee.object))
    else
      match ← callTarget p scope call primary callee.object with
      | some target => return some (.unbound (← calledObject p eval target))
      | none => return some (.unbound .unknown)

def slicedObject (c : Option BuiltinClass) (o : ObjectId) : ObjectId :=
  match c with
  | some .list => o
  | some .tuple => o
  | some .str => o
  | _ => .unknown

/-- What an object without a built-in class gives for an index. -/
def itemByMethod (p : Program) (eval : Evaluator) (scope : ScopeId) (o : ObjectId)
    (index : NodeRef) : Infer ObjectId := do
  match p.specialMethod? (← get).objects o "__getitem__" with
  | some getter =>
    let i ← argumentObject eval scope index
    return (← tryReturned p eval getter (some (.objects [o, i]))).getD .unknown
  | none => return .unknown

def indexedObject (p : Program) (eval : Evaluator) (scope : ScopeId) (o : ObjectId)
    (index : NodeRef) : Infer ObjectId := do
  let s ← get
  match s.objects.builtinClassOf? o with
  | some .tuple =>
    match p.tree.literal? index with
    | some (.int position) =>
      return if 0 ≤ position then s.itemOf o position.toNat else s.elementOf o
    | _ => return s.elementOf o
  | some .list => return s.elementOf o
  | some .dict => return s.valueOf o
  | some .str => return o
  | some _ => return .unknown
  | none => itemByMethod p eval scope o index

def evaluateSubscript (p : Program) (eval : Evaluator) (scope : ScopeId)
    (value slice : NodeRef) : Infer (Option Name) := do
  match ← eval scope value with
  | none => return none
  | some container =>
    match p.tree.node? slice with
    | some (.index index) =>
      return some (.unbound (← indexedObject p eval scope container.object index))
    | some (.slice ..) =>
      let c := (← get).objects.builtinClassOf? container.object
      return some (.unbound (slicedObject c container.object))
    | _ => return none

/-- What an expression resolves to, given an evaluator for what is inside. The
value sent into a generator, which a yield stands for, is never known. -/
def evaluateStep (p : Program) (eval : Evaluator) (scope : ScopeId) (expr : NodeRef) :
    Infer (Option Name) := do
  match p.tree.node? expr with
  | some (.name id) => resolveName p eval scope id
  | some (.literal l) => return some (.unbound (← builtinInstance (.ofLiteral l)))
  | some (.tuple elements) =>
    let tuple ← newContainer scope .tuple expr
    fillTuple eval scope tuple 0 elements
    return some (.unbound tuple)
  | some (.list elements) =>
    let list ← newContainer scope .list expr
    fillList eval scope list elements
    return some (.unbound list)
  | some (.dict keys values) =>
    let dict ← newContainer scope .dict expr
    fillDict eval scope dict (keys.zip values)
    return some (.unbound dict)
  | some (.call func _ _) => evaluateCall p eval scope expr func
  | some (.attr value name) => attributeName p name (← eval scope value)
  | some (.subscript value slice) => evaluateSubscript p eval scope value slice
  | some (.index value) => eval scope value
  | some (.keyword _ value) => eval scope value
  | some (.yield _) => return some (.unbound .unknown)
  | _ => return none

/-- Evaluation that goes down at most so many steps. -/
def evaluateWithin (p : Program) : Nat → Evaluator
  | 0, _, _ => throw .exhausted
  | fuel + 1, scope, expr => evaluateStep p (evaluateWithin p fuel) scope expr

end Infer

namespace Program

/-- How deep an evaluation can go: once down the tree for every function and
every name that the guards have room for, and once more. -/
def budget (p : Program) (s : State) : Nat :=
  (s.inFlight.room + s.resolving.room + 1) * (p.tree.size + 1)

def evaluate (p : Program) : Evaluator := fun scope expr s =>
  Infer.evaluateWithin p (p.budget s) scope expr s

end Program

end ObjectInference
