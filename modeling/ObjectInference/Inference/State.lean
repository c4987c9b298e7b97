import ObjectInference.CallLog
import ObjectInference.Memory
import ObjectInference.Options.Basic

/-!
The state of an inference run and the computations over it.

A computation in `Infer` may end early for one of three reasons. Only the
first, a function whose own result is asked for while it is being inferred, is
part of the analysis: `attempt` turns it into a value. The other two cannot
happen in a run, and are there so that every computation is total.
-/

namespace ObjectInference

/-- The objects bound to the ordinary parameters of a function while its
result is inferred for one call. -/
structure Context where
  function : ObjectId
  parameters : List ObjectId
deriving DecidableEq, Repr

structure Stats where
  /-- Scopes whose bodies were analysed. -/
  entitiesAnalyzed : Nat := 0
  callSites : Nat := 0
  /-- Calls of something that did not resolve. -/
  unresolvedCallees : Nat := 0
  /-- Calls of something that cannot be called. -/
  skippedCallees : Nat := 0
  /-- Calls entered in the log. -/
  recordedCalls : Nat := 0
  builtinCalls : Nat := 0
  /-- Assignments to items that were turned into calls. -/
  subscriptAssignments : Nat := 0
  /-- Returned expressions given up because their function was in flight. -/
  reentrantSites : Nat := 0
  /-- Return inferences given up at a limit. -/
  limitBailouts : Nat := 0
deriving DecidableEq, Repr

/-- The memory of a program and what belongs to one run over it. -/
structure State extends Memory where
  calls : CallLog := {}
  /-- The functions whose results are being inferred. -/
  inFlight : Guard ObjectId
  /-- The contexts of the inferences in flight, innermost first. -/
  contexts : List Context := []
  stats : Stats := {}
deriving DecidableEq, Repr

/-- A run over a memory, with the calls recorded so far. -/
def State.start (m : Memory) (calls : CallLog) (options : Options) : State :=
  { m with calls, inFlight := .ofProfile options.profile }

/-- The parameter objects of the innermost inference of a function in flight. -/
def State.boundParameters? (s : State) (f : ObjectId) : Option (List ObjectId) :=
  (s.contexts.find? fun c => c.function == f).map Context.parameters

/-- Why a computation ended early. -/
inductive Interrupt where
  /-- The result of a function is already being inferred. -/
  | reentrant (function : ObjectId)
  /-- A guard was misused. -/
  | misuse (fault : GuardFault)
  /-- Evaluation went deeper than its bound. -/
  | exhausted
deriving DecidableEq, Repr

abbrev Infer := EStateM Interrupt State

/-- A binding of a name, or of none, to an object. -/
inductive Origin where
  /-- A function, a class, or an attribute. -/
  | defined (name : Atom)
  | parameter (name : Atom)
  | assigned (name : Atom)
  /-- A value without a name. -/
  | unbound
deriving DecidableEq, Repr

structure Name where
  object : ObjectId
  origin : Origin
deriving DecidableEq, Repr

def Name.unbound (o : ObjectId) : Name := ⟨o, .unbound⟩

/-- The object of a resolved expression, or unknown. -/
def Name.objectOf : Option Name → ObjectId
  | some name => name.object
  | none => .unknown

/-- How an expression is resolved in a scope. -/
abbrev Evaluator := ScopeId → NodeRef → Infer (Option Name)

namespace Infer

variable {α : Type}

/-- Run a computation, and give the function in flight if it ends on one. -/
def attempt (x : Infer α) : Infer (Except ObjectId α) := fun s =>
  match x s with
  | .ok a s => .ok (.ok a) s
  | .error (.reentrant f) s => .ok (.error f) s
  | .error e s => .error e s

/-- The value of an attempt, or the interruption that it ended on. -/
def settle : Except ObjectId α → Infer α
  | .ok a => pure a
  | .error f => throw (.reentrant f)

def count (change : Stats → Stats) : Infer Unit :=
  modify fun s => { s with stats := change s.stats }

def changeMemory (change : Memory → Memory) : Infer Unit :=
  modify fun s => { s with toMemory := change s.toMemory }

/-! ### Brackets -/

/-- Try to mark a function as in flight. -/
def enterFunction (f : ObjectId) : Infer Entry :=
  modifyGet fun s =>
    let (entry, inFlight) := s.inFlight.refresh.enter f
    (entry, { s with inFlight })

def leaveFunction (f : ObjectId) : Infer Unit := do
  let s ← get
  match s.inFlight.leave f with
  | .ok inFlight => set { s with inFlight }
  | .error fault => throw (.misuse fault)

/-- Try to mark a name of a scope as being resolved. -/
def enterName (key : ScopeId × Atom) : Infer Entry :=
  modifyGet fun s =>
    let (entry, resolving) := s.resolving.refresh.enter key
    (entry, { s with resolving })

def leaveName (key : ScopeId × Atom) : Infer Unit := do
  let s ← get
  match s.resolving.leave key with
  | .ok resolving => set { s with resolving }
  | .error fault => throw (.misuse fault)

def pushContext (c : Context) : Infer Unit :=
  modify fun s => { s with contexts := c :: s.contexts }

def popContext : Infer Unit :=
  modify fun s => { s with contexts := s.contexts.tail }

/-! ### Objects -/

def intern (object : Object) : Infer ObjectId :=
  modifyGet fun s =>
    let (o, objects) := s.objects.intern object
    (o, { s with objects })

def builtinInstance (c : BuiltinClass) : Infer ObjectId :=
  intern (.inst c.object none)

/-- An instance of a class made at a place. Built-in values share one. -/
def newInstance (c : ObjectId) (site : NodeRef) : Infer ObjectId := do
  match (← get).objects.get c with
  | .builtinClass b => intern (.inst c (if b.isContainer then site else none))
  | _ => intern (.inst c site)

def generatorOf (element : ObjectId) : Infer ObjectId :=
  intern (.generator element)

/-- Note that a container was made in a scope. -/
def allocate (scope : ScopeId) (container : ObjectId) : Infer Unit :=
  changeMemory fun m =>
    if container ∈ m.allocated scope then m
    else { m with allocations := m.allocations.insert scope (m.allocated scope ++ [container]) }

/-- A built-in container made at a place while a scope is evaluated. What is
seen in it is kept until the scope is forgotten. -/
def newContainer (scope : ScopeId) (c : BuiltinClass) (site : NodeRef) : Infer ObjectId := do
  let container ← intern (.inst c.object site)
  allocate scope container
  return container

def observe (container : ObjectId) (slot : Slot) (o : ObjectId) : Infer Unit :=
  changeMemory fun m => { m with evidence := m.evidence.add container slot o }

end Infer

end ObjectInference
