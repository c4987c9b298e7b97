import ObjectInference.Proofs.Logging.Basic

/-!
Evaluation that keeps a log.

The definitions are those of evaluation, over states with a log: where an inference makes
a container, sees an object go into one or forgets a scope, they call `Logging.allocate`,
`Logging.observe` and `Logging.forget`, and every evaluation keeps the moment at which it
starts. What is uneventful is lifted. Each definition is followed by the lemma that it traces
its counterpart, so that nothing in evaluation goes past the log.
-/

namespace ObjectInference

namespace Logging

abbrev Evaluator := ScopeId → NodeRef → Logging (Option Name)

def TracesAll (p : Program) (eval : Evaluator) (plain : ObjectInference.Evaluator) : Prop :=
  ∀ scope expr, Traces p (eval scope expr) (plain scope expr)

variable {p : Program} {eval : Evaluator} {plain : ObjectInference.Evaluator}

/-! ### Containers -/

def newContainer (scope : ScopeId) (c : BuiltinClass) (site : NodeRef) : Logging ObjectId := do
  let container ← Infer.intern (.inst c.object site)
  allocate scope container
  return container

theorem traces_newContainer (scope : ScopeId) (c : BuiltinClass) (site : NodeRef) :
    Traces p (newContainer scope c site) (Infer.newContainer scope c site) :=
  (Traces.lift (Infer.uneventful_intern rfl)).bind fun o =>
    (traces_allocate scope o).bind fun _ => .pure o

/-! ### Elements -/

def elementObject (eval : Evaluator) (scope : ScopeId) (expr : NodeRef) : Logging ObjectId := do
  match ← attempt (eval scope expr) with
  | .ok found => return Name.objectOf found
  | .error _ => return .unknown

theorem traces_elementObject (H : TracesAll p eval plain) (scope : ScopeId) (expr : NodeRef) :
    Traces p (elementObject eval scope expr) (Infer.elementObject plain scope expr) := by
  apply (H scope expr).attempt.bind
  rintro (f | found)
  · exact .pure _
  · exact .pure _

def fillTuple (eval : Evaluator) (scope : ScopeId) (tuple : ObjectId) :
    Nat → List NodeRef → Logging Unit
  | _, [] => return
  | position, e :: es => do
    let o ← elementObject eval scope e
    observe tuple (.item position) o
    observe tuple .element o
    fillTuple eval scope tuple (position + 1) es

/-- Whatever goes into a tuple while its elements are evaluated, it stays a tuple. -/
theorem tracesFrom_fillTuple (H : TracesAll p eval plain) (scope : ScopeId) {tuple : ObjectId}
    (es : List NodeRef) : ∀ (position : Nat) {l : Logged},
      (∀ slot : Slot, slot.isOf .tuple = true → l.objects.HasSlot tuple slot) →
      TracesFrom p l (fillTuple eval scope tuple position es)
        (Infer.fillTuple plain scope tuple position es) := by
  induction es with
  | nil => exact fun _ l _ => Traces.pure () l
  | cons e es ih =>
      intro position l hslot
      apply (traces_elementObject H scope e l).bind
      intro o l₁ _ h₁
      have hslot₁ := fun slot h => (hslot slot h).keeps h₁.objects.keeps
      apply (tracesFrom_observe (hslot₁ (.item position) rfl) o).bind
      intro _ l₂ _ h₂
      have hslot₂ := fun slot h => (hslot₁ slot h).keeps h₂.objects.keeps
      apply (tracesFrom_observe (hslot₂ .element rfl) o).bind
      intro _ l₃ _ h₃
      exact ih (position + 1) fun slot h => (hslot₂ slot h).keeps h₃.objects.keeps

def fillList (eval : Evaluator) (scope : ScopeId) (list : ObjectId) : List NodeRef → Logging Unit
  | [] => return
  | e :: es => do
    observe list .element (← elementObject eval scope e)
    fillList eval scope list es

theorem tracesFrom_fillList (H : TracesAll p eval plain) (scope : ScopeId) {list : ObjectId}
    (es : List NodeRef) : ∀ {l : Logged}, l.objects.HasSlot list .element →
      TracesFrom p l (fillList eval scope list es) (Infer.fillList plain scope list es) := by
  induction es with
  | nil => exact fun {l} _ => Traces.pure () l
  | cons e es ih =>
      intro l hslot
      apply (traces_elementObject H scope e l).bind
      intro o l₁ _ h₁
      have hslot₁ := hslot.keeps h₁.objects.keeps
      apply (tracesFrom_observe hslot₁ o).bind
      intro _ l₂ _ h₂
      exact ih (hslot₁.keeps h₂.objects.keeps)

def fillDict (eval : Evaluator) (scope : ScopeId) (dict : ObjectId) :
    List (NodeRef × NodeRef) → Logging Unit
  | [] => return
  | (key, value) :: entries => do
    let k ← elementObject eval scope key
    let v ← elementObject eval scope value
    observe dict .element k
    observe dict .value v
    fillDict eval scope dict entries

theorem tracesFrom_fillDict (H : TracesAll p eval plain) (scope : ScopeId) {dict : ObjectId}
    (entries : List (NodeRef × NodeRef)) : ∀ {l : Logged},
      l.objects.HasSlot dict .element → l.objects.HasSlot dict .value →
      TracesFrom p l (fillDict eval scope dict entries)
        (Infer.fillDict plain scope dict entries) := by
  induction entries with
  | nil => exact fun {l} _ _ => Traces.pure () l
  | cons entry entries ih =>
      intro l hkeys hvalues
      apply (traces_elementObject H scope entry.1 l).bind
      intro k l₁ _ h₁
      apply (traces_elementObject H scope entry.2 l₁).bind
      intro v l₂ _ h₂
      have hkeys₂ := (hkeys.keeps h₁.objects.keeps).keeps h₂.objects.keeps
      have hvalues₂ := (hvalues.keeps h₁.objects.keeps).keeps h₂.objects.keeps
      apply (tracesFrom_observe hkeys₂ k).bind
      intro _ l₃ _ h₃
      have hvalues₃ := hvalues₂.keeps h₃.objects.keeps
      apply (tracesFrom_observe hvalues₃ v).bind
      intro _ l₄ _ h₄
      exact ih ((hkeys₂.keeps h₃.objects.keeps).keeps h₄.objects.keeps)
        (hvalues₃.keeps h₄.objects.keeps)

/-! ### Built-in functions -/

def callBuiltin (f : BuiltinFunction) (arguments : List ObjectId) :
    Logging (Option ObjectId) := do
  let argument (i : Nat) : ObjectId := (arguments[i]?).getD .unknown
  let receiver := argument 0
  let s ← get
  if f.owner.isSome && s.objects.builtinClassOf? receiver != f.owner then return none
  match f with
  | .len => return some (← Infer.builtinInstance .int)
  | .listAppend =>
    observe receiver .element (argument 1)
    return some (← Infer.builtinInstance .noneType)
  | .listSetItem =>
    observe receiver .element (argument 2)
    return some (← Infer.builtinInstance .noneType)
  | .dictSetItem =>
    observe receiver .element (argument 1)
    observe receiver .value (argument 2)
    return some (← Infer.builtinInstance .noneType)
  | .listGetItem => return s.evidence.get? receiver .element
  | .dictGetItem => return s.evidence.get? receiver .value

theorem traces_callBuiltin (f : BuiltinFunction) (os : List ObjectId) :
    Traces p (callBuiltin f os) (Infer.callBuiltin f os) := by
  have hresult : ∀ c, Traces p (do return some (← Infer.builtinInstance c))
      (do return some (← Infer.builtinInstance c)) :=
    fun c => (Traces.lift (Infer.uneventful_builtinInstance c)).bind fun _ => .pure _
  intro l
  apply TracesFrom.get_bind
  simp only
  split
  · exact Traces.pure _ l
  rename_i hreceiver
  -- A method is only carried out on an instance of its class, which has the slots.
  have hslot : ∀ c : BuiltinClass, f.owner = some c → ∀ slot : Slot, slot.isOf c = true →
      l.objects.HasSlot ((os[0]?).getD .unknown) slot :=
    fun c hc slot hslot => ⟨c, hslot, .inr (ObjectStore.builtinClassOf?_receiver hreceiver hc)⟩
  cases f with
  | len => exact hresult .int l
  | listAppend =>
      apply (tracesFrom_observe (hslot .list rfl .element rfl) _).bind
      exact fun _ l' _ _ => hresult .noneType l'
  | listSetItem =>
      apply (tracesFrom_observe (hslot .list rfl .element rfl) _).bind
      exact fun _ l' _ _ => hresult .noneType l'
  | dictSetItem =>
      apply (tracesFrom_observe (hslot .dict rfl .element rfl) _).bind
      intro _ l₁ _ h₁
      have hvalue := (hslot .dict rfl .value rfl).keeps h₁.objects.keeps
      apply (tracesFrom_observe hvalue _).bind
      exact fun _ l' _ _ => hresult .noneType l'
  | listGetItem => exact Traces.pure _ l
  | dictGetItem => exact Traces.pure _ l

def callBuiltinObject (f : ObjectId) (arguments : List ObjectId) : Logging (Option ObjectId) := do
  match (← get).objects.get f with
  | .builtinFunction b => callBuiltin b arguments
  | _ => return none

theorem traces_callBuiltinObject (f : ObjectId) (os : List ObjectId) :
    Traces p (callBuiltinObject f os) (Infer.callBuiltinObject f os) := by
  apply Traces.get_bind
  intro l
  cases l.objects.get f with
  | builtinFunction b => exact traces_callBuiltin b os
  | _ => exact .pure none

/-! ### Arguments -/

def argumentObject (eval : Evaluator) (scope : ScopeId) (expr : NodeRef) : Logging ObjectId := do
  return Name.objectOf (← eval scope expr)

theorem traces_argumentObject (H : TracesAll p eval plain) (scope : ScopeId) (expr : NodeRef) :
    Traces p (argumentObject eval scope expr) (Infer.argumentObject plain scope expr) :=
  (H scope expr).bind fun _ => .pure _

def namedArguments (p : Program) (eval : Evaluator) (scope : ScopeId) :
    List NodeRef → Logging (List (Atom × ObjectId))
  | [] => return []
  | r :: rs => do
    match p.tree.node? r with
    | some (.keyword name value) =>
      let o ← argumentObject eval scope value
      return (name, o) :: (← namedArguments p eval scope rs)
    | _ => namedArguments p eval scope rs

theorem traces_namedArguments (H : TracesAll p eval plain) (scope : ScopeId)
    (rs : List NodeRef) :
    Traces p (namedArguments p eval scope rs) (Infer.namedArguments p plain scope rs) := by
  induction rs with
  | nil => exact .pure []
  | cons r rs ih =>
      simp only [namedArguments, Infer.namedArguments]
      rcases p.tree.node? r with _ | node
      · exact ih
      cases node with
      | keyword name value =>
          apply (traces_argumentObject H scope value).bind
          exact fun o => ih.bind fun os => .pure _
      | _ => exact ih

def resolveArguments (p : Program) (eval : Evaluator) : Arguments → Logging ResolvedArguments
  | .objects positional => return { positional }
  | .callSite call scope receiver => do
    match p.tree.node? call with
    | some (.call _ args keywords) =>
      let positional ← args.mapM (argumentObject eval scope)
      return ⟨receiver.toList ++ positional, ← namedArguments p eval scope keywords⟩
    | _ => return { positional := receiver.toList }

theorem traces_resolveArguments (H : TracesAll p eval plain) (arguments : Arguments) :
    Traces p (resolveArguments p eval arguments) (Infer.resolveArguments p plain arguments) := by
  cases arguments with
  | objects positional => exact .pure _
  | callSite call scope receiver =>
      simp only [resolveArguments, Infer.resolveArguments]
      rcases p.tree.node? call with _ | node
      · exact .pure _
      cases node with
      | call func args keywords =>
          apply (Traces.mapM (traces_argumentObject H scope) args).bind
          exact fun os => (traces_namedArguments H scope keywords).bind fun named => .pure _
      | _ => exact .pure _

def bindArguments (p : Program) (eval : Evaluator) (f : ObjectId) (arguments : Arguments) :
    Logging (List ObjectId) := do
  let resolved ← resolveArguments p eval arguments
  return bindObjects (p.parameters (← get).objects f) resolved

theorem traces_bindArguments (H : TracesAll p eval plain) (f : ObjectId) (arguments : Arguments) :
    Traces p (bindArguments p eval f arguments) (Infer.bindArguments p plain f arguments) :=
  (traces_resolveArguments H arguments).bind fun _ => .get_bind fun _ => .pure _

/-! ### Names -/

def assignedObject (p : Program) (eval : Evaluator) (scope : ScopeId) (value : NodeRef)
    (path : List Nat) : Logging (Option ObjectId) := do
  let (expr, rest) := p.tree.follow value path
  match ← eval scope expr with
  | some name => return some ((← get).unpack name.object rest)
  | none => return none

theorem traces_assignedObject (H : TracesAll p eval plain) (scope : ScopeId) (value : NodeRef)
    (path : List Nat) :
    Traces p (assignedObject p eval scope value path)
      (Infer.assignedObject p plain scope value path) := by
  apply (H scope _).bind
  rintro (_ | name)
  · exact .pure none
  · exact .get_bind fun _ => .pure _

def iteratedObject (eval : Evaluator) (scope : ScopeId) (iter : NodeRef) (path : List Nat) :
    Logging (Option ObjectId) := do
  match ← eval scope iter with
  | some name =>
    let s ← get
    return some (s.unpack (s.elementOf name.object) path)
  | none => return none

theorem traces_iteratedObject (H : TracesAll p eval plain) (scope : ScopeId) (iter : NodeRef)
    (path : List Nat) :
    Traces p (iteratedObject eval scope iter path)
      (Infer.iteratedObject plain scope iter path) := by
  apply (H scope iter).bind
  rintro (_ | name)
  · exact .pure none
  · exact .get_bind fun _ => .pure _

def resolveDefinition (p : Program) (eval : Evaluator) (scope : ScopeId) (name : Atom) :
    Definition → Logging (Option Name)
  | .object o => return some ⟨o, .defined name⟩
  | .parameter index =>
    return some ⟨← Infer.parameterObject p scope index, .parameter name⟩
  | .assigned value path =>
    return (← assignedObject p eval scope value path).map (⟨·, .assigned name⟩)
  | .iterated iter path =>
    return (← iteratedObject eval scope iter path).map (⟨·, .assigned name⟩)

theorem traces_resolveDefinition (H : TracesAll p eval plain) (scope : ScopeId) (name : Atom)
    (d : Definition) :
    Traces p (resolveDefinition p eval scope name d)
      (Infer.resolveDefinition p plain scope name d) := by
  cases d with
  | object o => exact .pure _
  | parameter index =>
      exact (Traces.lift (Infer.uneventful_parameterObject p scope index)).bind fun _ => .pure _
  | assigned value path => exact (traces_assignedObject H scope value path).bind fun _ => .pure _
  | iterated iter path => exact (traces_iteratedObject H scope iter path).bind fun _ => .pure _

def firstKnown (p : Program) (eval : Evaluator) (scope : ScopeId) (name : Atom)
    (fallback : Except ObjectId (Option Name)) :
    List Definition → Logging (Except ObjectId (Option Name))
  | [] => return fallback
  | d :: ds => do
    let outcome ← attempt (resolveDefinition p eval scope name d)
    let known := match outcome with
      | .ok (some found) => found.object.isKnown
      | _ => false
    if known then return outcome
    else
      match fallback with
      | .ok none => firstKnown p eval scope name outcome ds
      | _ => firstKnown p eval scope name fallback ds

theorem traces_firstKnown (H : TracesAll p eval plain) (scope : ScopeId) (name : Atom)
    (ds : List Definition) : ∀ fallback : Except ObjectId (Option Name),
      Traces p (firstKnown p eval scope name fallback ds)
        (Infer.firstKnown p plain scope name fallback ds) := by
  induction ds with
  | nil => exact fun fallback => .pure fallback
  | cons d ds ih =>
      intro fallback
      simp only [firstKnown, Infer.firstKnown]
      apply (traces_resolveDefinition H scope name d).attempt.bind
      intro outcome
      have hrest : Traces p
          (match fallback with
            | .ok none => firstKnown p eval scope name outcome ds
            | _ => firstKnown p eval scope name fallback ds)
          (match fallback with
            | .ok none => Infer.firstKnown p plain scope name outcome ds
            | _ => Infer.firstKnown p plain scope name fallback ds) := by
        rcases fallback with f | _ | found <;> exact ih _
      rcases outcome with f | _ | found
      · exact hrest
      · exact hrest
      · simp only
        split
        · exact .pure _
        · exact hrest

def resolveLocal (p : Program) (eval : Evaluator) (scope : ScopeId) (name : Atom) :
    Logging (Option Name) := do
  match p.definitions scope name with
  | [] => return none
  | definitions =>
    match ← Infer.enterName (scope, name) with
    | .entered =>
      let outcome ← firstKnown p eval scope name (.ok none) definitions.reverse
      Infer.leaveName (scope, name)
      Infer.settle outcome
    | _ => return none

theorem traces_resolveLocal (H : TracesAll p eval plain) (scope : ScopeId) (name : Atom) :
    Traces p (resolveLocal p eval scope name) (Infer.resolveLocal p plain scope name) := by
  unfold resolveLocal Infer.resolveLocal
  cases p.definitions scope name with
  | nil => exact .pure none
  | cons d ds =>
      apply (Traces.lift (Infer.uneventful_enterName (scope, name))).bind
      intro entry
      cases entry with
      | entered =>
          apply (traces_firstKnown H scope name _ _).bind
          intro outcome
          apply (Traces.lift (Infer.uneventful_leaveName (scope, name))).bind
          exact fun _ => .lift (Infer.uneventful_settle outcome)
      | _ => exact .pure none

def resolveName (p : Program) (eval : Evaluator) (scope : ScopeId) (name : Atom) :
    Logging (Option Name) :=
  match p.binder? scope name with
  | some binder => resolveLocal p eval binder name
  | none => return (p.global? name).map (⟨·, .defined name⟩)

theorem traces_resolveName (H : TracesAll p eval plain) (scope : ScopeId) (name : Atom) :
    Traces p (resolveName p eval scope name) (Infer.resolveName p plain scope name) := by
  unfold resolveName Infer.resolveName
  cases p.binder? scope name with
  | none => exact .pure _
  | some binder => exact traces_resolveLocal H binder name

/-! ### Returned values -/

def scanReturned (eval : Evaluator) (scope : ScopeId) (generator : Bool) :
    List NodeId → Logging (Option ObjectId)
  | [] => return none
  | site :: sites => do
    match ← attempt (eval scope (some site)) with
    | .error _ =>
      Infer.count fun c => { c with reentrantSites := c.reentrantSites + 1 }
      scanReturned eval scope generator sites
    | .ok none => return none
    | .ok (some name) =>
      if name.object.isKnown then
        return some (← Infer.returnedAs generator name.object)
      else return none

theorem traces_scanReturned (H : TracesAll p eval plain) (scope : ScopeId) (generator : Bool)
    (sites : List NodeId) :
    Traces p (scanReturned eval scope generator sites)
      (Infer.scanReturned plain scope generator sites) := by
  induction sites with
  | nil => exact .pure none
  | cons site sites ih =>
      simp only [scanReturned, Infer.scanReturned]
      apply (H scope _).attempt.bind
      rintro (f | _ | name)
      · exact (Traces.lift (Infer.uneventful_count _)).bind fun _ => ih
      · exact .pure none
      · simp only
        split
        · exact (Traces.lift (Infer.uneventful_returnedAs generator _)).bind fun _ => .pure _
        · exact .pure none

def boundParameters (p : Program) (eval : Evaluator) (f : ObjectId) (arguments : Arguments) :
    Logging (List ObjectId) := do
  let bound ← bindArguments p eval f arguments
  return ordinaryObjects (p.parameters (← get).objects f) bound

theorem traces_boundParameters (H : TracesAll p eval plain) (f : ObjectId)
    (arguments : Arguments) :
    Traces p (boundParameters p eval f arguments) (Infer.boundParameters p plain f arguments) :=
  (traces_bindArguments H f arguments).bind fun _ => .get_bind fun _ => .pure _

def inContext {α : Type} (p : Program) (scope : ScopeId) (c : Context) (x : Logging α) :
    Logging α := do
  forget p scope
  Infer.pushContext c
  let a ← x
  Infer.popContext
  return a

theorem traces_inContext {α : Type} {y : Logging α} {x : Infer α} (h : Traces p y x)
    (scope : ScopeId) (c : Context) :
    Traces p (inContext p scope c y) (Infer.inContext p scope c x) := by
  apply (traces_forget scope).bind
  intro _
  apply (Traces.lift (Infer.uneventful_pushContext c)).bind
  exact fun _ => h.bind fun a => (Traces.lift Infer.uneventful_popContext).bind fun _ => .pure a

def inferInFlight (p : Program) (eval : Evaluator) (f : ObjectId) (scope : ScopeId)
    (parameters : Option (List ObjectId)) : Logging (Option ObjectId) :=
  let scan := scanReturned eval scope (p.isGenerator scope) (p.returnedSites scope).reverse
  match parameters with
  | some parameters => inContext p scope ⟨f, parameters⟩ scan
  | none => scan

theorem traces_inferInFlight (H : TracesAll p eval plain) (f : ObjectId) (scope : ScopeId)
    (parameters : Option (List ObjectId)) :
    Traces p (inferInFlight p eval f scope parameters)
      (Infer.inferInFlight p plain f scope parameters) := by
  have hscan := traces_scanReturned H scope (p.isGenerator scope) (p.returnedSites scope).reverse
  cases parameters with
  | none => exact hscan
  | some parameters => exact traces_inContext hscan scope ⟨f, parameters⟩

def tryReturned (p : Program) (eval : Evaluator) (f : ObjectId) (arguments : Option Arguments) :
    Logging (Option ObjectId) := do
  match (← get).objects.scopeOf? f with
  | none => return none
  | some scope =>
    if (p.returnedSites scope).isEmpty then return none
    let parameters ← arguments.mapM (boundParameters p eval f)
    match ← Infer.enterFunction f with
    | .entered =>
      let result ← inferInFlight p eval f scope parameters
      Infer.leaveFunction f
      return result
    | .cycle => throw (.reentrant f)
    | _ =>
      Infer.count fun c => { c with limitBailouts := c.limitBailouts + 1 }
      return none

theorem traces_tryReturned (H : TracesAll p eval plain) (f : ObjectId)
    (arguments : Option Arguments) :
    Traces p (tryReturned p eval f arguments) (Infer.tryReturned p plain f arguments) := by
  apply Traces.get_bind
  intro l
  cases l.objects.scopeOf? f with
  | none => exact .pure none
  | some scope =>
      simp only
      split
      · exact .pure none
      apply (Traces.optionMapM (traces_boundParameters H f) arguments).bind
      intro parameters
      apply (Traces.lift (Infer.uneventful_enterFunction f)).bind
      intro entry
      cases entry with
      | entered =>
          apply (traces_inferInFlight H f scope parameters).bind
          exact fun result =>
            (Traces.lift (Infer.uneventful_leaveFunction f)).bind fun _ => .pure result
      | cycle => exact .throw _
      | _ => exact (Traces.lift (Infer.uneventful_count _)).bind fun _ => .pure none

def returned (p : Program) (eval : Evaluator) (f : ObjectId) (arguments : Option Arguments) :
    Logging (Option ObjectId) := do
  match ← attempt (tryReturned p eval f arguments) with
  | .ok result => return result
  | .error _ => return none

theorem traces_returned (H : TracesAll p eval plain) (f : ObjectId)
    (arguments : Option Arguments) :
    Traces p (returned p eval f arguments) (Infer.returned p plain f arguments) := by
  apply (traces_tryReturned H f arguments).attempt.bind
  rintro (g | result)
  · exact .pure none
  · exact .pure result

/-! ### Calls -/

def primaryAndResult (p : Program) (eval : Evaluator) (scope : ScopeId) (expr : NodeRef) :
    Logging (Option Name × Option Name) := do
  match p.tree.node? expr with
  | some (.attr value name) =>
    let primary ← eval scope value
    return (primary, ← Infer.attributeName p name primary)
  | _ => return (none, ← eval scope expr)

theorem traces_primaryAndResult (H : TracesAll p eval plain) (scope : ScopeId) (expr : NodeRef) :
    Traces p (primaryAndResult p eval scope expr) (Infer.primaryAndResult p plain scope expr) := by
  unfold primaryAndResult Infer.primaryAndResult
  have hplain : Traces p (do return (none, ← eval scope expr) : Logging (Option Name × Option Name))
      (do return (none, ← plain scope expr)) :=
    (H scope expr).bind fun _ => .pure _
  rcases p.tree.node? expr with _ | node
  · exact hplain
  cases node with
  | attr value name =>
      apply (H scope value).bind
      exact fun primary =>
        (Traces.lift (Infer.uneventful_attributeName p name primary)).bind fun _ => .pure _
  | _ => exact hplain

def constructed (scope : ScopeId) (call : NodeRef) (callee : ObjectId) : Logging ObjectId := do
  match (← get).objects.get callee with
  | .builtinClass c =>
    if c.isContainer then newContainer scope c call else Infer.newInstance callee call
  | _ => Infer.newInstance callee call

theorem traces_constructed (scope : ScopeId) (call : NodeRef) (callee : ObjectId) :
    Traces p (constructed scope call callee) (Infer.constructed scope call callee) := by
  have hinstance : Traces p (liftM (Infer.newInstance callee call))
      (Infer.newInstance callee call) :=
    .lift (Infer.uneventful_newInstance callee call)
  apply Traces.get_bind
  intro l
  cases l.objects.get callee with
  | builtinClass c =>
      simp only
      split
      · exact traces_newContainer scope c call
      · exact hinstance
  | _ => exact hinstance

def calledObject (p : Program) (eval : Evaluator) (target : CallTarget) : Logging ObjectId := do
  match (← get).objects.get target.function with
  | .function _ =>
    return (← tryReturned p eval target.function (some target.arguments)).getD .unknown
  | .builtinFunction f =>
    if f.mutatesReceiver then Infer.builtinInstance .noneType
    else
      let bound ← bindArguments p eval target.function target.arguments
      return (← callBuiltin f bound).getD .unknown
  | _ => return .unknown

theorem traces_calledObject (H : TracesAll p eval plain) (target : CallTarget) :
    Traces p (calledObject p eval target) (Infer.calledObject p plain target) := by
  apply Traces.get_bind
  intro l
  cases l.objects.get target.function with
  | function scope => exact (traces_tryReturned H _ _).bind fun _ => .pure _
  | builtinFunction f =>
      simp only
      split
      · exact .lift (Infer.uneventful_builtinInstance .noneType)
      · apply (traces_bindArguments H _ _).bind
        exact fun bound => (traces_callBuiltin f bound).bind fun _ => .pure _
  | _ => exact .pure _

def evaluateCall (p : Program) (eval : Evaluator) (scope : ScopeId) (call func : NodeRef) :
    Logging (Option Name) := do
  match ← primaryAndResult p eval scope func with
  | (_, none) => return none
  | (primary, some callee) =>
    if (← get).objects.kind callee.object = .cls then
      return some (.unbound (← constructed scope call callee.object))
    else
      match ← Infer.callTarget p scope call primary callee.object with
      | some target => return some (.unbound (← calledObject p eval target))
      | none => return some (.unbound .unknown)

theorem traces_evaluateCall (H : TracesAll p eval plain) (scope : ScopeId) (call func : NodeRef) :
    Traces p (evaluateCall p eval scope call func)
      (Infer.evaluateCall p plain scope call func) := by
  apply (traces_primaryAndResult H scope func).bind
  rintro ⟨primary, _ | callee⟩
  · exact .pure none
  apply Traces.get_bind
  intro l
  split
  · exact (traces_constructed scope call _).bind fun _ => .pure _
  · apply (Traces.lift (Infer.uneventful_callTarget p scope call primary _)).bind
    rintro (_ | target)
    · exact .pure _
    · exact (traces_calledObject H target).bind fun _ => .pure _

/-! ### Subscripts -/

def itemByMethod (p : Program) (eval : Evaluator) (scope : ScopeId) (o : ObjectId)
    (index : NodeRef) : Logging ObjectId := do
  match p.specialMethod? (← get).objects o "__getitem__" with
  | some getter =>
    let i ← argumentObject eval scope index
    return (← tryReturned p eval getter (some (.objects [o, i]))).getD .unknown
  | none => return .unknown

theorem traces_itemByMethod (H : TracesAll p eval plain) (scope : ScopeId) (o : ObjectId)
    (index : NodeRef) :
    Traces p (itemByMethod p eval scope o index) (Infer.itemByMethod p plain scope o index) := by
  apply Traces.get_bind
  intro l
  cases p.specialMethod? l.objects o "__getitem__" with
  | none => exact .pure _
  | some getter =>
      apply (traces_argumentObject H scope index).bind
      exact fun i => (traces_tryReturned H getter _).bind fun _ => .pure _

def indexedObject (p : Program) (eval : Evaluator) (scope : ScopeId) (o : ObjectId)
    (index : NodeRef) : Logging ObjectId := do
  let s ← get
  match s.objects.builtinClassOf? o with
  | some .tuple =>
    match p.tree.literal? index with
    | some (.int position) =>
      return if 0 ≤ position then s.itemOf o position.toNat else s.elementOf o
    | _ => return s.elementOf o
  | some .list => return s.elementOf o
  | some .dict => return s.valueOf o
  | some .str => return o
  | some _ => return .unknown
  | none => itemByMethod p eval scope o index

theorem traces_indexedObject (H : TracesAll p eval plain) (scope : ScopeId) (o : ObjectId)
    (index : NodeRef) :
    Traces p (indexedObject p eval scope o index) (Infer.indexedObject p plain scope o index) := by
  apply Traces.get_bind
  intro l
  cases l.objects.builtinClassOf? o with
  | none => exact traces_itemByMethod H scope o index
  | some c =>
      cases c with
      | tuple =>
          rcases p.tree.literal? index with _ | literal
          · exact .pure _
          · cases literal <;> exact .pure _
      | _ => exact .pure _

def evaluateSubscript (p : Program) (eval : Evaluator) (scope : ScopeId)
    (value slice : NodeRef) : Logging (Option Name) := do
  match ← eval scope value with
  | none => return none
  | some container =>
    match p.tree.node? slice with
    | some (.index index) =>
      return some (.unbound (← indexedObject p eval scope container.object index))
    | some (.slice ..) =>
      let c := (← get).objects.builtinClassOf? container.object
      return some (.unbound (Infer.slicedObject c container.object))
    | _ => return none

theorem traces_evaluateSubscript (H : TracesAll p eval plain) (scope : ScopeId)
    (value slice : NodeRef) :
    Traces p (evaluateSubscript p eval scope value slice)
      (Infer.evaluateSubscript p plain scope value slice) := by
  apply (H scope value).bind
  rintro (_ | container)
  · exact .pure none
  simp only
  rcases p.tree.node? slice with _ | node
  · exact .pure none
  cases node with
  | index value => exact (traces_indexedObject H scope container.object value).bind fun _ => .pure _
  | slice => exact .get_bind fun _ => .pure _
  | _ => exact .pure none

/-! ### Expressions -/

def evaluateStep (p : Program) (eval : Evaluator) (scope : ScopeId) (expr : NodeRef) :
    Logging (Option Name) := do
  match p.tree.node? expr with
  | some (.name id) => resolveName p eval scope id
  | some (.literal l) => return some (.unbound (← Infer.builtinInstance (.ofLiteral l)))
  | some (.tuple elements) =>
    let tuple ← newContainer scope .tuple expr
    fillTuple eval scope tuple 0 elements
    return some (.unbound tuple)
  | some (.list elements) =>
    let list ← newContainer scope .list expr
    fillList eval scope list elements
    return some (.unbound list)
  | some (.dict keys values) =>
    let dict ← newContainer scope .dict expr
    fillDict eval scope dict (keys.zip values)
    return some (.unbound dict)
  | some (.call func _ _) => evaluateCall p eval scope expr func
  | some (.attr value name) => Infer.attributeName p name (← eval scope value)
  | some (.subscript value slice) => evaluateSubscript p eval scope value slice
  | some (.index value) => eval scope value
  | some (.keyword _ value) => eval scope value
  | some (.yield _) => return some (.unbound .unknown)
  | _ => return none

/-- A new container has all slots of its class while it is filled. -/
theorem traces_display {scope : ScopeId} {c : BuiltinClass} {site : NodeRef}
    {fill : ObjectId → Logging Unit} {fill' : ObjectId → Infer Unit}
    (h : ∀ (o : ObjectId) (l : Logged),
      (∀ slot : Slot, slot.isOf c = true → l.objects.HasSlot o slot) →
      TracesFrom p l (fill o) (fill' o)) :
    Traces p (do let o ← newContainer scope c site; fill o; return some (Name.unbound o))
      (do let o ← Infer.newContainer scope c site; fill' o; return some (Name.unbound o)) := by
  intro l
  apply (traces_newContainer scope c site l).bind
  intro o l' hrun _
  have hget : l'.objects.get o = .inst c.object site := Infer.get_newContainer hrun
  have hslot : ∀ slot : Slot, slot.isOf c = true → l'.objects.HasSlot o slot :=
    fun slot hslot => ⟨c, hslot, .inl ⟨site, hget⟩⟩
  exact (h o l' hslot).bind fun _ l'' _ _ => Traces.pure _ l''

theorem traces_evaluateStep (H : TracesAll p eval plain) (scope : ScopeId) (expr : NodeRef) :
    Traces p (evaluateStep p eval scope expr) (Infer.evaluateStep p plain scope expr) := by
  unfold evaluateStep Infer.evaluateStep
  rcases p.tree.node? expr with _ | node
  · exact .pure none
  cases node with
  | name id => exact traces_resolveName H scope id
  | literal l => exact (Traces.lift (Infer.uneventful_builtinInstance _)).bind fun _ => .pure _
  | tuple elements =>
      exact traces_display fun tuple l hslot => tracesFrom_fillTuple H scope elements 0 hslot
  | list elements =>
      exact traces_display fun list l hslot =>
        tracesFrom_fillList H scope elements (hslot .element rfl)
  | dict keys values =>
      exact traces_display fun dict l hslot =>
        tracesFrom_fillDict H scope (keys.zip values) (hslot .element rfl) (hslot .value rfl)
  | call func args keywords => exact traces_evaluateCall H scope expr func
  | attr value name =>
      exact (H scope value).bind fun found => .lift (Infer.uneventful_attributeName p name found)
  | subscript value slice => exact traces_evaluateSubscript H scope value slice
  | index value => exact H scope value
  | keyword name value => exact H scope value
  | yield value => exact .pure _
  | _ => exact .pure none

def evaluateWithin (p : Program) : Nat → Evaluator
  | 0, _, _ => throw .exhausted
  | fuel + 1, scope, expr => do
    mark
    evaluateStep p (evaluateWithin p fuel) scope expr

theorem tracesAll_evaluateWithin (p : Program) (fuel : Nat) :
    TracesAll p (evaluateWithin p fuel) (Infer.evaluateWithin p fuel) := by
  induction fuel with
  | zero => exact fun scope expr => .throw _
  | succ fuel ih => exact fun scope expr => .mark_bind (traces_evaluateStep ih scope expr)

end Logging

namespace Program

/-- Resolve an expression in a scope, and log what happens to containers. -/
def evaluateLogging (p : Program) : Logging.Evaluator := fun scope expr l =>
  Logging.evaluateWithin p (p.budget l.toState) scope expr l

theorem tracesAll_evaluate (p : Program) :
    Logging.TracesAll p p.evaluateLogging p.evaluate :=
  fun scope expr l => Logging.tracesAll_evaluateWithin p (p.budget l.toState) scope expr l

end Program

end ObjectInference
