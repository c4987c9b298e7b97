import ObjectInference.Proofs.Discipline

/-!
Where the signal of a function in flight can come from.

The signal is raised in one place, and passed on or caught in many. Every
operation that ends on a function found that function in flight when it began,
so nothing ends on one when nothing is in flight. In particular an analysis
meets no signal: `Uncaught` is the analysis without a single attempt, which
would end on the first signal, and it is the same analysis.
-/

namespace ObjectInference

namespace Infer

/-! ### Calls of built-in functions settle -/

theorem settling_callTarget (p : Program) (scope : ScopeId) (call : NodeRef)
    (primary : Option Name) (callee : ObjectId) :
    Settling (callTarget p scope call primary callee) := by
  refine .bind .get fun s => ?_
  dsimp only
  split
  · exact .pure _
  · exact .pure _
  · split
    · exact .bind (settling_newInstance callee call) fun _ => .pure _
    · exact .pure _
  · exact .pure _
  · exact .pure _
  · exact .pure _

theorem settling_callBuiltin (f : BuiltinFunction) (os : List ObjectId) :
    Settling (callBuiltin f os) := by
  have hresult : ∀ c, Settling (do return some (← builtinInstance c)) :=
    fun c => .bind (settling_builtinInstance c) fun _ => .pure _
  refine .bind .get fun s => ?_
  split
  · exact .pure _
  · cases f with
    | len => exact hresult .int
    | listAppend => exact .bind (settling_observe _ _ _) fun _ => hresult .noneType
    | listSetItem => exact .bind (settling_observe _ _ _) fun _ => hresult .noneType
    | dictSetItem =>
        exact .bind (settling_observe _ _ _) fun _ =>
          .bind (settling_observe _ _ _) fun _ => hresult .noneType
    | listGetItem => exact .pure _
    | dictGetItem => exact .pure _

theorem settling_callBuiltinObject (f : ObjectId) (os : List ObjectId) :
    Settling (callBuiltinObject f os) := by
  refine .bind .get fun s => ?_
  split
  · exact settling_callBuiltin _ os
  · exact .pure _

/-! ### Analysis without attempts -/

namespace Uncaught

def simulateCall (p : Program) (eval : Evaluator) (options : Options) (target : CallTarget) :
    Infer Unit := do
  match (← get).objects.kind target.function with
  | .function =>
    recordCall target.function (← bindArguments p eval target.function target.arguments)
  | .builtinFunction =>
    if options.eagerBuiltinCalls then
      let bound ← bindArguments p eval target.function target.arguments
      discard (callBuiltinObject target.function bound)
      count fun c => { c with builtinCalls := c.builtinCalls + 1 }
  | _ => return

def visitCall (p : Program) (eval : Evaluator) (options : Options) (scope : ScopeId)
    (call : NodeId) (func : NodeRef) : Infer Unit := do
  count fun c => { c with callSites := c.callSites + 1 }
  match ← primaryAndResult p eval scope func with
  | (primary, some callee) =>
    match ← callTarget p scope (some call) primary callee.object with
    | some target => simulateCall p eval options target
    | none => count fun c => { c with skippedCallees := c.skippedCallees + 1 }
  | _ => count fun c => { c with unresolvedCallees := c.unresolvedCallees + 1 }

def simulateItemSetter (p : Program) (eval : Evaluator) (options : Options)
    (container index value : ObjectId) : Infer Unit := do
  if container.isKnown && value.isKnown then
    match p.itemSetter? (← get).objects container with
    | some setter =>
      count fun c => { c with subscriptAssignments := c.subscriptAssignments + 1 }
      simulateCall p eval options ⟨setter, .objects [container, index, value]⟩
    | none => return

def visitItemTarget (p : Program) (eval : Evaluator) (options : Options) (scope : ScopeId)
    (value : NodeRef) (target : NodeRef × List Nat) : Infer Unit := do
  match p.tree.node? target.1, p.tree.simpleIndex? target.1 with
  | some (.subscript container _), some index =>
    match ← eval scope container with
    | some container =>
      let i ← argumentObject eval scope index
      match ← assignedObject p eval scope value target.2 with
      | some v => simulateItemSetter p eval options container.object i v
      | none => return
    | none => return
  | _, _ => return

def visitSite (p : Program) (eval : Evaluator) (options : Options) (scope : ScopeId)
    (site : NodeId) : Infer Unit := do
  match p.tree.get? site with
  | some (.call func _ _) => visitCall p eval options scope site func
  | some (.assign targets value) =>
    if options.analyzeSubscriptAssignments then
      (p.tree.itemTargets targets).forM (visitItemTarget p eval options scope value)
  | _ => return

def analyzeScope (p : Program) (eval : Evaluator) (options : Options) (scope : ScopeId) :
    Infer Unit := do
  count fun c => { c with entitiesAnalyzed := c.entitiesAnalyzed + 1 }
  (p.sites scope).forM (visitSite p eval options scope)

def analyze (p : Program) (options : Options) (entity : ObjectId)
    (analyzes searches : ObjectId → Bool) : Infer Unit := do
  match (← get).objects.scopeOf? entity with
  | some scope => (p.agenda analyzes searches scope).forM (analyzeScope p p.evaluate options)
  | none => return

end Uncaught

/-- How a computation may end that meets no signal. -/
inductive Silent {α : Type} (p : Program) (s : State) :
    EStateM.Result Interrupt State α → Prop where
  | ok {a : α} {s' : State} (h : s.Settles s') : Silent p s (.ok a s')
  | exhausted {s' : State} (h : ¬ p.tree.Descending) : Silent p s (.error .exhausted s')

/-- From states with nothing in flight two computations are the same, and meet
no signal. -/
def Calm {α : Type} (p : Program) (x y : Infer α) : Prop :=
  ∀ s : State, s.inFlight.visiting = [] → x s = y s ∧ Silent p s (x s)

namespace Calm

variable {p : Program} {α β : Type}

theorem of_settling {x : Infer α} (hx : Settling x) : Calm p x x := by
  intro s _
  obtain ⟨a, s', hs', h⟩ := hx s
  exact ⟨rfl, hs' ▸ .ok h⟩

theorem pure (a : α) : Calm p (Pure.pure a) (Pure.pure a) :=
  of_settling (.pure a)

theorem of_operation (op : Operation α) : Calm p (op.perform p) (op.perform p) := by
  intro s hs
  have hend := op.ended (p := p) s
  refine ⟨rfl, ?_⟩
  generalize op.perform p s = r at hend ⊢
  cases hend with
  | ok h => exact .ok h
  | reentrant _ hf => simp [hs] at hf
  | exhausted h => exact .exhausted h

theorem bind {x y : Infer α} {f g : α → Infer β} (hxy : Calm p x y)
    (hfg : ∀ a, Calm p (f a) (g a)) : Calm p (x >>= f) (y >>= g) := by
  intro s hs
  obtain ⟨heq, hend⟩ := hxy s hs
  change EStateM.bind x f s = EStateM.bind y g s ∧ Silent p s (EStateM.bind x f s)
  simp only [EStateM.bind, ← heq]
  generalize x s = r at hend
  cases hend with
  | exhausted h => exact ⟨rfl, .exhausted h⟩
  | @ok a s' h =>
      have hs' : s'.inFlight.visiting = [] := h.inFlight.visiting_eq_nil hs
      obtain ⟨heq, hend⟩ := hfg a s' hs'
      refine ⟨heq, ?_⟩
      dsimp only
      generalize f a s' = r at hend
      cases hend with
      | ok h' => exact .ok (h.trans h')
      | exhausted h' => exact .exhausted h'

/-- An attempt that meets no signal is superfluous. -/
theorem attempt_bind {x : Infer α} {f : Except ObjectId α → Infer β} {g : α → Infer β}
    (hx : Calm p x x) (hfg : ∀ a, Calm p (f (.ok a)) (g a)) :
    Calm p (attempt x >>= f) (x >>= g) := by
  have hok : ∀ s, s.inFlight.visiting = [] →
      (attempt x >>= f) s = (x >>= fun a => f (.ok a)) s := by
    intro s hs
    have hend := (hx s hs).2
    change EStateM.bind (attempt x) f s = EStateM.bind x (fun a => f (.ok a)) s
    simp only [EStateM.bind, attempt]
    generalize x s = r at hend
    cases hend <;> rfl
  intro s hs
  rw [hok s hs]
  exact hx.bind hfg s hs

theorem get_bind {f g : State → Infer α} (h : ∀ s, Calm p (f s) (g s)) :
    Calm p (get >>= f) (get >>= g) :=
  fun s hs => h s s hs

theorem forM {xs : List α} {f g : α → Infer Unit} (h : ∀ a, Calm p (f a) (g a)) :
    Calm p (xs.forM f) (xs.forM g) := by
  induction xs with
  | nil => exact .pure ()
  | cons a xs ih => exact (h a).bind fun _ => ih

end Calm

/-! ### Analysis meets no signal -/

section Analysis

variable (p : Program) (options : Options) (scope : ScopeId)

theorem calm_simulateCall (target : CallTarget) :
    Calm p (simulateCall p p.evaluate options target)
      (Uncaught.simulateCall p p.evaluate options target) := by
  have hbind : Calm p (bindArguments p p.evaluate target.function target.arguments)
      (bindArguments p p.evaluate target.function target.arguments) :=
    .of_operation (.bindArguments target.function target.arguments)
  refine .get_bind fun s => ?_
  cases s.objects.kind target.function with
  | function =>
      exact .attempt_bind hbind fun bound => .of_settling (settling_recordCall _ bound)
  | builtinFunction =>
      dsimp only
      split
      · refine .attempt_bind hbind fun bound => ?_
        have hcall := settling_callBuiltinObject target.function bound
        refine .bind (.of_settling (.bind hcall fun _ => .pure ())) fun _ => ?_
        exact .of_settling (settling_count _)
      · exact .pure ()
  | _ => exact .pure ()

theorem calm_visitCall (call : NodeId) (func : NodeRef) :
    Calm p (visitCall p p.evaluate options scope call func)
      (Uncaught.visitCall p p.evaluate options scope call func) := by
  refine .bind (.of_settling (settling_count _)) fun _ => ?_
  refine .attempt_bind (.of_operation (.primaryAndResult scope func)) fun x => ?_
  obtain ⟨primary, _ | callee⟩ := x
  · exact .of_settling (settling_count _)
  · refine .bind (.of_settling (settling_callTarget _ _ _ _ _)) fun target => ?_
    cases target with
    | none => exact .of_settling (settling_count _)
    | some target => exact calm_simulateCall p options target

theorem calm_simulateItemSetter (container index value : ObjectId) :
    Calm p (simulateItemSetter p p.evaluate options container index value)
      (Uncaught.simulateItemSetter p p.evaluate options container index value) := by
  unfold simulateItemSetter Uncaught.simulateItemSetter
  split
  · refine .get_bind fun s => ?_
    cases p.itemSetter? s.objects container with
    | none => exact .pure ()
    | some setter =>
        refine .bind (.of_settling (settling_count _)) fun _ => ?_
        exact calm_simulateCall p options _
  · exact .pure ()

theorem calm_visitItemTarget (value : NodeRef) (target : NodeRef × List Nat) :
    Calm p (visitItemTarget p p.evaluate options scope value target)
      (Uncaught.visitItemTarget p p.evaluate options scope value target) := by
  have heval : ∀ e, Calm p (p.evaluate scope e) (p.evaluate scope e) :=
    fun e => .of_operation (.evaluate scope e)
  have hindex : ∀ index, Calm p (elementObject p.evaluate scope index)
      (argumentObject p.evaluate scope index) :=
    fun index => .attempt_bind (heval index) fun _ => .pure _
  unfold visitItemTarget Uncaught.visitItemTarget
  cases p.tree.node? target.1 with
  | none => exact .pure ()
  | some node =>
      cases p.tree.simpleIndex? target.1 with
      | none => cases node <;> exact .pure ()
      | some index =>
          cases node with
          | subscript container _ =>
              refine .attempt_bind (heval container) fun container => ?_
              cases container with
              | none => exact .pure ()
              | some container =>
                  refine .bind (hindex index) fun i => ?_
                  refine .attempt_bind (.of_operation (.assignedObject scope value target.2))
                    fun v => ?_
                  cases v with
                  | none => exact .pure ()
                  | some v => exact calm_simulateItemSetter p options container.object i v
          | _ => exact .pure ()

theorem calm_visitSite (site : NodeId) :
    Calm p (visitSite p p.evaluate options scope site)
      (Uncaught.visitSite p p.evaluate options scope site) := by
  unfold visitSite Uncaught.visitSite
  cases p.tree.get? site with
  | none => exact .pure ()
  | some node =>
      cases node with
      | call func => exact calm_visitCall p options scope site func
      | assign targets value =>
          dsimp only
          split
          · exact .forM fun target => calm_visitItemTarget p options scope value target
          · exact .pure ()
      | _ => exact .pure ()

theorem calm_analyze (entity : ObjectId) (analyzes searches : ObjectId → Bool) :
    Calm p (analyze p options entity analyzes searches)
      (Uncaught.analyze p options entity analyzes searches) := by
  refine .get_bind fun s => ?_
  cases s.objects.scopeOf? entity with
  | none => exact .pure ()
  | some scope =>
      refine .forM fun scope => .bind (.of_settling (settling_count _)) fun _ => ?_
      exact .forM fun site => calm_visitSite p options scope site

end Analysis

end Infer

/-- The signal of a function in flight is confined to recursion: an operation
ends on no function but one that was in flight before. With nothing in flight,
as between all operations, it ends with a result, if the tree lets it end. So an
analysis that would end on the first signal is the same analysis. -/
theorem signal_confined_to_recursion (p : Program) :
    (∀ (α : Type) (op : Operation α) (s s' : State) (f : ObjectId),
      op.perform p s = .error (.reentrant f) s' → f ∈ s.inFlight.visiting) ∧
    (∀ (α : Type) (op : Operation α) (s : State), s.inFlight.visiting = [] →
      (∃ a s', op.perform p s = .ok a s' ∧ s'.inFlight.visiting = []) ∨
      ¬ p.tree.Descending ∧ ∃ s', op.perform p s = .error .exhausted s') ∧
    (∀ s : State, s.Reached p → s.inFlight.visiting = []) ∧
    (∀ (options : Options) (entity : ObjectId) (analyzes searches : ObjectId → Bool) (s : State),
      s.inFlight.visiting = [] →
      Infer.analyze p options entity analyzes searches s =
        Infer.Uncaught.analyze p options entity analyzes searches s) := by
  refine ⟨fun α op s s' f hrun => ?_, fun α op s hs => ?_,
    fun s hs => hs.disciplined_and_idle.2.inFlight,
    fun options entity analyzes searches s hs =>
      (Infer.calm_analyze p options entity analyzes searches s hs).1⟩
  · have hend := op.ended (p := p) s
    rw [hrun] at hend
    cases hend with
    | reentrant _ hf => exact hf
  · have hend := (Infer.Calm.of_operation (p := p) op s hs).2
    generalize op.perform p s = r at hend ⊢
    cases hend with
    | ok h => exact .inl ⟨_, _, rfl, h.inFlight.visiting_eq_nil hs⟩
    | exhausted h => exact .inr ⟨h, _, rfl⟩

end ObjectInference
