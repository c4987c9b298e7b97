import ObjectInference.Analysis.Run

/-!
What can be asked of an engine.

An `Operation` is one call of inference from outside, with its arguments; `run`
carries it out with a given evaluator and `perform` with that of the program.
A state is `Reached` when it can be met between operations: at the start of an
engine over a fresh memory, or over the memory that another engine has left, and
after any operation that ends.
-/

namespace ObjectInference

def Arguments.InRange (n : Nat) : Arguments → Prop
  | .callSite _ _ receiver => ∀ o ∈ receiver, o < n
  | .objects os => ∀ o ∈ os, o < n

inductive Operation : Type → Type where
  | evaluate (scope : ScopeId) (expr : NodeRef) : Operation (Option Name)
  | primaryAndResult (scope : ScopeId) (expr : NodeRef) :
      Operation (Option Name × Option Name)
  | assignedObject (scope : ScopeId) (value : NodeRef) (path : List Nat) :
      Operation (Option ObjectId)
  | resolveArguments (arguments : Arguments) : Operation ResolvedArguments
  | bindArguments (f : ObjectId) (arguments : Arguments) : Operation (List ObjectId)
  | tryReturned (f : ObjectId) (arguments : Option Arguments) : Operation (Option ObjectId)
  | returned (f : ObjectId) (arguments : Option Arguments) : Operation (Option ObjectId)
  | analyze (options : Options) (entity : ObjectId) (analyzes searches : ObjectId → Bool) :
      Operation Unit

namespace Operation

variable {α : Type}

def run (p : Program) (eval : Evaluator) : Operation α → Infer α
  | evaluate scope expr => eval scope expr
  | primaryAndResult scope expr => Infer.primaryAndResult p eval scope expr
  | assignedObject scope value path => Infer.assignedObject p eval scope value path
  | resolveArguments a => Infer.resolveArguments p eval a
  | bindArguments f a => Infer.bindArguments p eval f a
  | tryReturned f a => Infer.tryReturned p eval f a
  | returned f a => Infer.returned p eval f a
  | analyze options entity analyzes searches =>
    Infer.analyzeWith p eval options entity analyzes searches

def perform (p : Program) (op : Operation α) : Infer α := op.run p p.evaluate

def InRange (n : Nat) {α : Type} : Operation α → Prop
  | .evaluate _ _ => True
  | .primaryAndResult _ _ => True
  | .assignedObject _ _ _ => True
  | .resolveArguments a => a.InRange n
  | .bindArguments f a => f < n ∧ a.InRange n
  | .tryReturned f a => f < n ∧ ∀ x ∈ a, x.InRange n
  | .returned f a => f < n ∧ ∀ x ∈ a, x.InRange n
  | .analyze _ entity _ _ => entity < n

/-- The only operation that goes through whole scopes. -/
def IsAnalysis : Operation α → Prop
  | analyze .. => True
  | _ => False

end Operation

/-- The states between the operations on the engines over a program, which may
be one after the other over one memory. -/
inductive State.Reached (p : Program) : State → Prop where
  | start (calls : CallLog) (options : Options) : Reached p (.start (.fresh p) calls options)
  | resume {s : State} (h : Reached p s) (calls : CallLog) (options : Options) :
      Reached p (.start s.toMemory.clearParameters calls options)
  | ok {s s' : State} (h : Reached p s) {α : Type} (op : Operation α) {a : α}
      (hrun : op.perform p s = .ok a s') : Reached p s'
  | reentrant {s s' : State} (h : Reached p s) {α : Type} (op : Operation α) {f : ObjectId}
      (hrun : op.perform p s = .error (.reentrant f) s') : Reached p s'

end ObjectInference
