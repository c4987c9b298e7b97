import ObjectInference.Analysis.Agenda
import ObjectInference.Inference.Expression

/-!
Analysis of a module.

Every call site is simulated: a call of a function of the source is entered in
the log, and a call of a built-in function is carried out for the evidence that
it leaves. An assignment to an item of a container is simulated as a call of
the container's item setter.
-/

namespace ObjectInference.Infer

/-- Enter a call in the log. What was worked out from earlier calls of the
function no longer holds. -/
def recordCall (f : ObjectId) (record : CallRecord) : Infer Unit := do
  modify fun s => { s with calls := s.calls.record f record }
  count fun c => { c with recordedCalls := c.recordedCalls + 1 }
  changeMemory fun m => m.forgetParameters f

def simulateCall (p : Program) (eval : Evaluator) (options : Options) (target : CallTarget) :
    Infer Unit := do
  match (← get).objects.kind target.function with
  | .function =>
    match ← attempt (bindArguments p eval target.function target.arguments) with
    | .ok bound => recordCall target.function bound
    | .error _ => return
  | .builtinFunction =>
    if options.eagerBuiltinCalls then
      match ← attempt (bindArguments p eval target.function target.arguments) with
      | .ok bound =>
        discard (callBuiltinObject target.function bound)
        count fun c => { c with builtinCalls := c.builtinCalls + 1 }
      | .error _ => return
  | _ => return

def visitCall (p : Program) (eval : Evaluator) (options : Options) (scope : ScopeId)
    (call : NodeId) (func : NodeRef) : Infer Unit := do
  count fun c => { c with callSites := c.callSites + 1 }
  match ← attempt (primaryAndResult p eval scope func) with
  | .ok (primary, some callee) =>
    match ← callTarget p scope (some call) primary callee.object with
    | some target => simulateCall p eval options target
    | none => count fun c => { c with skippedCallees := c.skippedCallees + 1 }
  | _ => count fun c => { c with unresolvedCallees := c.unresolvedCallees + 1 }

/-- Simulate an assignment to an item, if the container and the value are known
and the container has an item setter. -/
def simulateItemSetter (p : Program) (eval : Evaluator) (options : Options)
    (container index value : ObjectId) : Infer Unit := do
  if container.isKnown && value.isKnown then
    match p.itemSetter? (← get).objects container with
    | some setter =>
      count fun c => { c with subscriptAssignments := c.subscriptAssignments + 1 }
      simulateCall p eval options ⟨setter, .objects [container, index, value]⟩
    | none => return

/-- Analyse the assignment of a value, unpacked along a path, to a target with
a plain index. -/
def visitItemTarget (p : Program) (eval : Evaluator) (options : Options) (scope : ScopeId)
    (value : NodeRef) (target : NodeRef × List Nat) : Infer Unit := do
  match p.tree.node? target.1, p.tree.simpleIndex? target.1 with
  | some (.subscript container _), some index =>
    match ← attempt (eval scope container) with
    | .ok (some container) =>
      let i ← elementObject eval scope index
      match ← attempt (assignedObject p eval scope value target.2) with
      | .ok (some v) => simulateItemSetter p eval options container.object i v
      | _ => return
    | _ => return
  | _, _ => return

def visitSite (p : Program) (eval : Evaluator) (options : Options) (scope : ScopeId)
    (site : NodeId) : Infer Unit := do
  match p.tree.get? site with
  | some (.call func _ _) => visitCall p eval options scope site func
  | some (.assign targets value) =>
    if options.analyzeSubscriptAssignments then
      (p.tree.itemTargets targets).forM (visitItemTarget p eval options scope value)
  | _ => return

def analyzeScope (p : Program) (eval : Evaluator) (options : Options) (scope : ScopeId) :
    Infer Unit := do
  count fun c => { c with entitiesAnalyzed := c.entitiesAnalyzed + 1 }
  (p.sites scope).forM (visitSite p eval options scope)

/-- Analyse an object that owns a scope and what is nested in it, as far as the
two tests allow, with a given evaluator. -/
def analyzeWith (p : Program) (eval : Evaluator) (options : Options) (entity : ObjectId)
    (analyzes searches : ObjectId → Bool) : Infer Unit := do
  match (← get).objects.scopeOf? entity with
  | some scope => (p.agenda analyzes searches scope).forM (analyzeScope p eval options)
  | none => return

def analyze (p : Program) (options : Options) (entity : ObjectId)
    (analyzes searches : ObjectId → Bool) : Infer Unit :=
  analyzeWith p p.evaluate options entity analyzes searches

end ObjectInference.Infer
