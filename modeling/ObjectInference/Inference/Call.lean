import ObjectInference.Inference.Builtin
import ObjectInference.Inference.Parameter

/-!
What a call calls, and with which arguments.

Everything here takes the evaluator as an argument, so the recursion through
nested expressions is closed in one place.
-/

namespace ObjectInference.Infer

/-- What a call does once its callee is known. A function is called as it is,
with the object before the dot in front only for a method reached through an
instance. A class calls its constructor on an instance made by the call. An
instance calls its call operator on itself. -/
def callTarget (p : Program) (scope : ScopeId) (call : NodeRef) (primary : Option Name)
    (callee : ObjectId) : Infer (Option CallTarget) := do
  let st := (← get).objects
  let site (receiver : Option ObjectId) : Arguments := .callSite call scope receiver
  let direct : CallTarget := ⟨callee, site ((primary.map Name.object).filter fun o =>
    st.kind o == .inst && p.isMethod st callee)⟩
  match st.kind callee with
  | .function => return some direct
  | .builtinFunction => return some direct
  | .cls =>
    match p.constructor? st callee with
    | some f => return some ⟨f, site (some (← newInstance callee call))⟩
    | none => return none
  | .inst => return (p.callOperator? st callee).map fun f => ⟨f, site (some callee)⟩
  | .module => return none
  | .unknown => return none

/-- The object of an argument, unknown if it does not resolve. -/
def argumentObject (eval : Evaluator) (scope : ScopeId) (expr : NodeRef) : Infer ObjectId := do
  return Name.objectOf (← eval scope expr)

/-- The objects of named arguments. Anything else among them is passed over. -/
def namedArguments (p : Program) (eval : Evaluator) (scope : ScopeId) :
    List NodeRef → Infer (List (Atom × ObjectId))
  | [] => return []
  | r :: rs => do
    match p.tree.node? r with
    | some (.keyword name value) =>
      let o ← argumentObject eval scope value
      return (name, o) :: (← namedArguments p eval scope rs)
    | _ => namedArguments p eval scope rs

def resolveArguments (p : Program) (eval : Evaluator) : Arguments → Infer ResolvedArguments
  | .objects positional => return { positional }
  | .callSite call scope receiver => do
    match p.tree.node? call with
    | some (.call _ args keywords) =>
      let positional ← args.mapM (argumentObject eval scope)
      return ⟨receiver.toList ++ positional, ← namedArguments p eval scope keywords⟩
    | _ => return { positional := receiver.toList }

/-- The objects that a call binds to the parameters of a function. -/
def bindArguments (p : Program) (eval : Evaluator) (f : ObjectId) (arguments : Arguments) :
    Infer (List ObjectId) := do
  let resolved ← resolveArguments p eval arguments
  return bindObjects (p.parameters (← get).objects f) resolved

end ObjectInference.Infer
