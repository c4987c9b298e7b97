import ObjectInference.Inference.Parameter
import ObjectInference.Tree.Walk

/-!
Resolution of names.

A name belongs to the innermost scope around it that binds it, and a class body
is seen from itself only. The definitions there are tried from the last to the
first until one gives a known object; if none does, the latest one that gave
anything answers. Other scopes are not asked then. A name that no scope binds
may be a built-in one.
-/

namespace ObjectInference.Infer

/-- The object assigned by an assignment, narrowed along a path. The path is
followed through tuple and list displays in the source as far as they go. -/
def assignedObject (p : Program) (eval : Evaluator) (scope : ScopeId) (value : NodeRef)
    (path : List Nat) : Infer (Option ObjectId) := do
  let (expr, rest) := p.tree.follow value path
  match ← eval scope expr with
  | some name => return some ((← get).unpack name.object rest)
  | none => return none

/-- The object that one round of a loop assigns, narrowed along a path. -/
def iteratedObject (eval : Evaluator) (scope : ScopeId) (iter : NodeRef) (path : List Nat) :
    Infer (Option ObjectId) := do
  match ← eval scope iter with
  | some name =>
    let s ← get
    return some (s.unpack (s.elementOf name.object) path)
  | none => return none

def resolveDefinition (p : Program) (eval : Evaluator) (scope : ScopeId) (name : Atom) :
    Definition → Infer (Option Name)
  | .object o => return some ⟨o, .defined name⟩
  | .parameter index => return some ⟨← parameterObject p scope index, .parameter name⟩
  | .assigned value path =>
    return (← assignedObject p eval scope value path).map (⟨·, .assigned name⟩)
  | .iterated iter path =>
    return (← iteratedObject eval scope iter path).map (⟨·, .assigned name⟩)

/-- Try definitions in the given order until one gives a known object. The
fallback is the first outcome so far that was not simply nothing. -/
def firstKnown (p : Program) (eval : Evaluator) (scope : ScopeId) (name : Atom)
    (fallback : Except ObjectId (Option Name)) :
    List Definition → Infer (Except ObjectId (Option Name))
  | [] => return fallback
  | d :: ds => do
    let outcome ← attempt (resolveDefinition p eval scope name d)
    let known := match outcome with
      | .ok (some found) => found.object.isKnown
      | _ => false
    if known then return outcome
    else
      match fallback with
      | .ok none => firstKnown p eval scope name outcome ds
      | _ => firstKnown p eval scope name fallback ds

/-- Resolve a name in the scope that binds it. -/
def resolveLocal (p : Program) (eval : Evaluator) (scope : ScopeId) (name : Atom) :
    Infer (Option Name) := do
  match p.definitions scope name with
  | [] => return none
  | definitions =>
    match ← enterName (scope, name) with
    | .entered =>
      let outcome ← firstKnown p eval scope name (.ok none) definitions.reverse
      leaveName (scope, name)
      settle outcome
    | _ => return none

/-- Resolve a name as it is seen from a scope. -/
def resolveName (p : Program) (eval : Evaluator) (scope : ScopeId) (name : Atom) :
    Infer (Option Name) :=
  match p.binder? scope name with
  | some binder => resolveLocal p eval binder name
  | none => return (p.global? name).map (⟨·, .defined name⟩)

end ObjectInference.Infer
