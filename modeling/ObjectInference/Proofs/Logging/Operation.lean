import ObjectInference.Proofs.Logging.Evaluation

/-!
Operations that keep a log.

Analysis and the other operations over states with a log, each definition followed by the
lemma that it traces its counterpart. A log goes on from one operation to the next, and
from one engine over a memory to the next: `Logged.Reached` is reached with its log.
-/

namespace ObjectInference

namespace Logging

variable {p : Program} {eval : Evaluator} {plain : ObjectInference.Evaluator}

/-! ### Analysis -/

def simulateCall (p : Program) (eval : Evaluator) (options : Options) (target : CallTarget) :
    Logging Unit := do
  match (← get).objects.kind target.function with
  | .function =>
    match ← attempt (bindArguments p eval target.function target.arguments) with
    | .ok bound => Infer.recordCall target.function bound
    | .error _ => return
  | .builtinFunction =>
    if options.eagerBuiltinCalls then
      match ← attempt (bindArguments p eval target.function target.arguments) with
      | .ok bound =>
        discard (callBuiltinObject target.function bound)
        Infer.count fun c => { c with builtinCalls := c.builtinCalls + 1 }
      | .error _ => return
  | _ => return

theorem traces_simulateCall (H : TracesAll p eval plain) (options : Options)
    (target : CallTarget) :
    Traces p (simulateCall p eval options target) (Infer.simulateCall p plain options target) := by
  have hbound := (traces_bindArguments H target.function target.arguments).attempt
  apply Traces.get_bind
  intro l
  cases l.objects.kind target.function with
  | function =>
      apply hbound.bind
      rintro (g | bound)
      · exact .pure ()
      · exact .lift (Infer.uneventful_recordCall target.function bound)
  | builtinFunction =>
      simp only
      split
      · apply hbound.bind
        rintro (g | bound)
        · exact .pure ()
        · apply (traces_callBuiltinObject target.function bound).discard.bind
          exact fun _ => .lift (Infer.uneventful_count _)
      · exact .pure ()
  | _ => exact .pure ()

def visitCall (p : Program) (eval : Evaluator) (options : Options) (scope : ScopeId)
    (call : NodeId) (func : NodeRef) : Logging Unit := do
  Infer.count fun c => { c with callSites := c.callSites + 1 }
  match ← attempt (primaryAndResult p eval scope func) with
  | .ok (primary, some callee) =>
    match ← Infer.callTarget p scope (some call) primary callee.object with
    | some target => simulateCall p eval options target
    | none => Infer.count fun c => { c with skippedCallees := c.skippedCallees + 1 }
  | _ => Infer.count fun c => { c with unresolvedCallees := c.unresolvedCallees + 1 }

theorem traces_visitCall (H : TracesAll p eval plain) (options : Options) (scope : ScopeId)
    (call : NodeId) (func : NodeRef) :
    Traces p (visitCall p eval options scope call func)
      (Infer.visitCall p plain options scope call func) := by
  apply (Traces.lift (Infer.uneventful_count _)).bind
  intro _
  apply (traces_primaryAndResult H scope func).attempt.bind
  rintro (g | ⟨primary, _ | callee⟩)
  · exact .lift (Infer.uneventful_count _)
  · exact .lift (Infer.uneventful_count _)
  · apply (Traces.lift (Infer.uneventful_callTarget p scope call primary callee.object)).bind
    rintro (_ | target)
    · exact .lift (Infer.uneventful_count _)
    · exact traces_simulateCall H options target

def simulateItemSetter (p : Program) (eval : Evaluator) (options : Options)
    (container index value : ObjectId) : Logging Unit := do
  if container.isKnown && value.isKnown then
    match p.itemSetter? (← get).objects container with
    | some setter =>
      Infer.count fun c => { c with subscriptAssignments := c.subscriptAssignments + 1 }
      simulateCall p eval options ⟨setter, .objects [container, index, value]⟩
    | none => return

theorem traces_simulateItemSetter (H : TracesAll p eval plain) (options : Options)
    (container index value : ObjectId) :
    Traces p (simulateItemSetter p eval options container index value)
      (Infer.simulateItemSetter p plain options container index value) := by
  unfold simulateItemSetter Infer.simulateItemSetter
  split
  · apply Traces.get_bind
    intro l
    cases p.itemSetter? l.objects container with
    | none => exact .pure ()
    | some setter =>
        apply (Traces.lift (Infer.uneventful_count _)).bind
        exact fun _ => traces_simulateCall H options _
  · exact .pure ()

def visitItemTarget (p : Program) (eval : Evaluator) (options : Options) (scope : ScopeId)
    (value : NodeRef) (target : NodeRef × List Nat) : Logging Unit := do
  match p.tree.node? target.1, p.tree.simpleIndex? target.1 with
  | some (.subscript container _), some index =>
    match ← attempt (eval scope container) with
    | .ok (some container) =>
      let i ← elementObject eval scope index
      match ← attempt (assignedObject p eval scope value target.2) with
      | .ok (some v) => simulateItemSetter p eval options container.object i v
      | _ => return
    | _ => return
  | _, _ => return

theorem traces_visitItemTarget (H : TracesAll p eval plain) (options : Options) (scope : ScopeId)
    (value : NodeRef) (target : NodeRef × List Nat) :
    Traces p (visitItemTarget p eval options scope value target)
      (Infer.visitItemTarget p plain options scope value target) := by
  unfold visitItemTarget Infer.visitItemTarget
  rcases p.tree.node? target.1 with _ | node
  · exact .pure ()
  cases node with
  | subscript container slice =>
      rcases p.tree.simpleIndex? target.1 with _ | index
      · exact .pure ()
      apply (H scope container).attempt.bind
      rintro (g | _ | found)
      · exact .pure ()
      · exact .pure ()
      · apply (traces_elementObject H scope index).bind
        intro i
        apply (traces_assignedObject H scope value target.2).attempt.bind
        rintro (g | _ | v)
        · exact .pure ()
        · exact .pure ()
        · exact traces_simulateItemSetter H options found.object i v
  | _ => exact .pure ()

def visitSite (p : Program) (eval : Evaluator) (options : Options) (scope : ScopeId)
    (site : NodeId) : Logging Unit := do
  match p.tree.get? site with
  | some (.call func _ _) => visitCall p eval options scope site func
  | some (.assign targets value) =>
    if options.analyzeSubscriptAssignments then
      (p.tree.itemTargets targets).forM (visitItemTarget p eval options scope value)
  | _ => return

theorem traces_visitSite (H : TracesAll p eval plain) (options : Options) (scope : ScopeId)
    (site : NodeId) :
    Traces p (visitSite p eval options scope site)
      (Infer.visitSite p plain options scope site) := by
  unfold visitSite Infer.visitSite
  rcases p.tree.get? site with _ | node
  · exact .pure ()
  cases node with
  | call func args keywords => exact traces_visitCall H options scope site func
  | assign targets value =>
      simp only
      split
      · exact .forM (traces_visitItemTarget H options scope value) _
      · exact .pure ()
  | _ => exact .pure ()

def analyzeScope (p : Program) (eval : Evaluator) (options : Options) (scope : ScopeId) :
    Logging Unit := do
  Infer.count fun c => { c with entitiesAnalyzed := c.entitiesAnalyzed + 1 }
  (p.sites scope).forM (visitSite p eval options scope)

theorem traces_analyzeScope (H : TracesAll p eval plain) (options : Options) (scope : ScopeId) :
    Traces p (analyzeScope p eval options scope) (Infer.analyzeScope p plain options scope) :=
  (Traces.lift (Infer.uneventful_count _)).bind fun _ => .forM (traces_visitSite H options scope) _

def analyzeWith (p : Program) (eval : Evaluator) (options : Options) (entity : ObjectId)
    (analyzes searches : ObjectId → Bool) : Logging Unit := do
  match (← get).objects.scopeOf? entity with
  | some scope => (p.agenda analyzes searches scope).forM (analyzeScope p eval options)
  | none => return

theorem traces_analyzeWith (H : TracesAll p eval plain) (options : Options) (entity : ObjectId)
    (analyzes searches : ObjectId → Bool) :
    Traces p (analyzeWith p eval options entity analyzes searches)
      (Infer.analyzeWith p plain options entity analyzes searches) := by
  apply Traces.get_bind
  intro l
  cases l.objects.scopeOf? entity with
  | none => exact .pure ()
  | some scope => exact .forM (traces_analyzeScope H options) _

end Logging

/-! ### Operations -/

namespace Operation

variable {α : Type}

def runLogging (p : Program) (eval : Logging.Evaluator) : Operation α → Logging α
  | evaluate scope expr => eval scope expr
  | primaryAndResult scope expr => Logging.primaryAndResult p eval scope expr
  | assignedObject scope value path => Logging.assignedObject p eval scope value path
  | resolveArguments a => Logging.resolveArguments p eval a
  | bindArguments f a => Logging.bindArguments p eval f a
  | tryReturned f a => Logging.tryReturned p eval f a
  | returned f a => Logging.returned p eval f a
  | analyze options entity analyzes searches =>
    Logging.analyzeWith p eval options entity analyzes searches

/-- Keep the moment, and carry out an operation with a log. -/
def performLogging (p : Program) (op : Operation α) : Logging α := do
  Logging.mark
  op.runLogging p p.evaluateLogging

theorem traces_runLogging {p : Program} {eval : Logging.Evaluator} {plain : Evaluator}
    (H : Logging.TracesAll p eval plain) (op : Operation α) :
    Logging.Traces p (op.runLogging p eval) (op.run p plain) := by
  cases op with
  | evaluate scope expr => exact H scope expr
  | primaryAndResult scope expr => exact Logging.traces_primaryAndResult H scope expr
  | assignedObject scope value path => exact Logging.traces_assignedObject H scope value path
  | resolveArguments a => exact Logging.traces_resolveArguments H a
  | bindArguments f a => exact Logging.traces_bindArguments H f a
  | tryReturned f a => exact Logging.traces_tryReturned H f a
  | returned f a => exact Logging.traces_returned H f a
  | analyze options entity analyzes searches =>
      exact Logging.traces_analyzeWith H options entity analyzes searches

theorem traces_performLogging (p : Program) (op : Operation α) :
    Logging.Traces p (op.performLogging p) (op.perform p) :=
  .mark_bind (op.traces_runLogging p.tracesAll_evaluate)

/-- An operation with a log is the operation. -/
theorem erase_performLogging (p : Program) (op : Operation α) (l : Logged) :
    Logging.erase (op.performLogging p l) = op.perform p l.toState :=
  (op.traces_performLogging p l).erase_eq

end Operation

theorem Operation.performLogging_of_value? {p : Program} {α : Type} {op : Operation α} {l : Logged}
    {a : α} (h : (op.perform p).value? l.toState = some a) :
    op.performLogging p l = .ok a (Logging.finish (op.performLogging p l)) := by
  obtain ⟨s', hrun⟩ := Infer.value?_eq_some.1 h
  rw [← op.erase_performLogging p] at hrun
  cases hlogged : op.performLogging p l with
  | ok b l' =>
      rw [hlogged] at hrun
      cases hrun
      rfl
  | error e l' =>
      rw [hlogged] at hrun
      cases hrun

/-! ### Reached states with their logs -/

namespace Logged

def start (p : Program) (calls : CallLog) (options : Options) : Logged :=
  ⟨⟨.start (.fresh p) calls options, []⟩, []⟩

def resume (l : Logged) (calls : CallLog) (options : Options) : Logged :=
  ⟨⟨.start l.toMemory.clearParameters calls options, l.log⟩, l.moments⟩

/-- The states between operations, with what has been logged since the start. -/
inductive Reached (p : Program) : Logged → Prop where
  | start (calls : CallLog) (options : Options) : Reached p (.start p calls options)
  | resume {l : Logged} (h : Reached p l) (calls : CallLog) (options : Options) :
      Reached p (l.resume calls options)
  | ok {l l' : Logged} (h : Reached p l) {α : Type} (op : Operation α) {a : α}
      (hrun : op.performLogging p l = .ok a l') : Reached p l'
  | reentrant {l l' : Logged} (h : Reached p l) {α : Type} (op : Operation α) {f : ObjectId}
      (hrun : op.performLogging p l = .error (.reentrant f) l') : Reached p l'

variable {p : Program} {l l' : Logged}

theorem Truthful.resume (h : l.Truthful p) (calls : CallLog) (options : Options) :
    (l.resume calls options).Truthful p :=
  h.mark.change (h.now.uneventful ⟨.refl _, rfl, rfl⟩) List.suffix_rfl

namespace Reached

theorem truthful (h : l.Reached p) : l.Truthful p := by
  induction h with
  | start calls options =>
      exact ⟨List.forall_mem_singleton.2 (.start calls options), List.pairwise_singleton _ _⟩
  | resume _ calls options ih => exact ih.resume calls options
  | @ok l _ _ _ op _ hrun ih =>
      have h := (op.traces_performLogging p l).leads
      rw [hrun] at h
      exact h.truthful ih
  | @reentrant l _ _ _ op _ hrun ih =>
      have h := (op.traces_performLogging p l).leads
      rw [hrun] at h
      exact h.truthful ih

/-- Without the log a state is reached all the same. -/
theorem plain (h : l.Reached p) : l.toState.Reached p := by
  induction h with
  | start calls options => exact .start calls options
  | resume _ calls options ih => exact ih.resume calls options
  | ok _ op hrun ih => exact ih.ok op (by rw [← op.erase_performLogging p, hrun]; rfl)
  | reentrant _ op hrun ih => exact ih.reentrant op (by rw [← op.erase_performLogging p, hrun]; rfl)

end Reached

end Logged

/-- Whatever state is reached, it is reached with a log. -/
theorem State.Reached.logged {p : Program} {s : State} (h : s.Reached p) :
    ∃ l : Logged, l.Reached p ∧ l.toState = s := by
  induction h with
  | start calls options => exact ⟨_, .start calls options, rfl⟩
  | resume _ calls options ih =>
      obtain ⟨l, hl, rfl⟩ := ih
      exact ⟨_, hl.resume calls options, rfl⟩
  | ok _ op hrun ih =>
      obtain ⟨l, hl, rfl⟩ := ih
      rw [← op.erase_performLogging p] at hrun
      cases hlogged : op.performLogging p l with
      | ok a l' =>
          rw [hlogged] at hrun
          cases hrun
          exact ⟨l', hl.ok op hlogged, rfl⟩
      | error e l' =>
          rw [hlogged] at hrun
          cases hrun
  | reentrant _ op hrun ih =>
      obtain ⟨l, hl, rfl⟩ := ih
      rw [← op.erase_performLogging p] at hrun
      cases hlogged : op.performLogging p l with
      | ok a l' =>
          rw [hlogged] at hrun
          cases hrun
      | error e l' =>
          rw [hlogged] at hrun
          cases hrun
          exact ⟨l', hl.reentrant op hlogged, rfl⟩

end ObjectInference
