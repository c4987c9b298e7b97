import ObjectInference.Proofs.Balance
import ObjectInference.Proofs.Recording
import ObjectInference.Proofs.Scanning
import ObjectInference.Proofs.Tallying

/-!
A call is simulated as it is evaluated.

An analysis takes a call apart to enter it in the log, and evaluation takes it apart to give
its result. `Handled` says what the analysis makes of a call, by the evaluations that it makes
in the state in which it meets the call: what it counts on the way is not read, so it does not
appear there. With nothing in flight every call is handled, and in one way only.

The two part at the callee. What a class is called with, and on which object, is of no account
to evaluation, which gives the object. In every other case both go on from the same state with
the same function and the same arguments, which one of them enters in the log and the other
opens a context for.
-/

namespace ObjectInference

variable {p : Program} {options : Options} {scope : ScopeId} {call func : NodeRef}
  {primary primary' : Option Name} {callee callee' : Name} {target : CallTarget}
  {target₁ target₂ : Option CallTarget} {s s' s₁ s₁' s₂ s₂' t t' : State}

/-! ### What becomes of a call -/

/-- What becomes of a call that an analysis meets. -/
inductive Handling where
  /-- What it calls does not resolve. -/
  | unresolved
  /-- What it calls cannot be called. -/
  | skipped
  /-- It is entered in the log. -/
  | recorded (f : ObjectId) (record : CallRecord)
  /-- It is carried out, as a call of a built-in function. -/
  | carriedOut (f : ObjectId) (bound : List ObjectId)
  /-- It is a call of a built-in function, and left out as the options say. -/
  | leftOut
deriving DecidableEq, Repr

namespace Handling

def counts : Handling → Stats
  | unresolved => { callSites := 1, unresolvedCallees := 1 }
  | skipped => { callSites := 1, skippedCallees := 1 }
  | recorded _ _ => { callSites := 1, recordedCalls := 1 }
  | carriedOut _ _ => { callSites := 1, builtinCalls := 1 }
  | leftOut => { callSites := 1 }

def entries (h : Handling) (g : ObjectId) : List CallRecord :=
  match h with
  | recorded f record => if f = g then [record] else []
  | _ => []

/-- The state that a call leaves, from the one after all that has been evaluated for it. -/
def leave (h : Handling) (s : State) : State :=
  match h with
  | recorded f record =>
    { s.recordCall f record with
      parameterCache := s.parameterCache.erase f
      stats := s.stats.plus h.counts }
  | _ => { s with stats := s.stats.plus h.counts }

@[simp] theorem stats_leave (h : Handling) (s : State) :
    (h.leave s).stats = s.stats.plus h.counts := by
  cases h <;> rfl

/-- The log has the entries of the call at the end of the list of its function, and is
otherwise as it was. -/
theorem calls_leave (h : Handling) (s : State) (g : ObjectId) :
    (h.leave s).calls.calls g = s.calls.calls g ++ h.entries g := by
  cases h with
  | recorded f record =>
      change (s.calls.record f record).calls g = _
      rw [CallLog.calls_record, entries]
      split
      · rename_i hfg
        rw [hfg]
      · rw [List.append_nil]
  | _ => exact (List.append_nil _).symm

/-- What was worked out for the parameters of a function is gone if a call of it has been
entered in the log, and is otherwise as it was. -/
theorem parameterCache_leave (h : Handling) (s : State) (g : ObjectId) :
    (h.leave s).parameterCache.get? g =
      if h.entries g = [] then s.parameterCache.get? g else none := by
  cases h with
  | recorded f record =>
      change (s.parameterCache.erase f).get? g = _
      rw [Table.get?_erase, entries]
      by_cases hfg : f = g <;> simp [hfg]
  | _ => rfl

end Handling

/-- The callee of a call resolves, and it is decided what the call calls. -/
structure Dispatched (p : Program) (scope : ScopeId) (call func : NodeRef) (s : State)
    (primary : Option Name) (callee : Name) (s₁ : State) (target : Option CallTarget)
    (s₂ : State) : Prop where
  resolves : Infer.primaryAndResult p p.evaluate scope func s = .ok (primary, some callee) s₁
  decides : Infer.callTarget p scope call primary callee.object s₁ = .ok target s₂

/-- A call of a function is simulated: that of a function of the source is recorded, and that
of a built-in function is carried out unless such calls are left out. -/
inductive Simulated (p : Program) (options : Options) (target : CallTarget) (s : State) :
    Handling → State → Prop where
  | recorded {record : CallRecord} {s' : State}
      (hk : s.objects.kind target.function = .function)
      (hbound : Infer.bindArguments p p.evaluate target.function target.arguments s =
        .ok record s') : Simulated p options target s (.recorded target.function record) s'
  | carriedOut {bound : List ObjectId} {result : Option ObjectId} {s₁ s' : State}
      (hk : s.objects.kind target.function = .builtinFunction)
      (heager : options.eagerBuiltinCalls = true)
      (hbound : Infer.bindArguments p p.evaluate target.function target.arguments s =
        .ok bound s₁)
      (hrun : Infer.callBuiltinObject target.function bound s₁ = .ok result s') :
      Simulated p options target s (.carriedOut target.function bound) s'
  | leftOut (hk : s.objects.kind target.function = .builtinFunction)
      (hlazy : options.eagerBuiltinCalls = false) : Simulated p options target s .leftOut s

/-- What becomes of a call that is met in a state, and the state after all that is evaluated
for that. -/
inductive Handled (p : Program) (options : Options) (scope : ScopeId) (call func : NodeRef)
    (s : State) : Handling → State → Prop where
  | unresolved {primary : Option Name} {s₁ : State}
      (h : Infer.primaryAndResult p p.evaluate scope func s = .ok (primary, none) s₁) :
      Handled p options scope call func s .unresolved s₁
  | skipped {primary : Option Name} {callee : Name} {s₁ s₂ : State}
      (h : Dispatched p scope call func s primary callee s₁ none s₂) :
      Handled p options scope call func s .skipped s₂
  | called {primary : Option Name} {callee : Name} {s₁ s₂ s₃ : State} {target : CallTarget}
      {h : Handling} (hcall : Dispatched p scope call func s primary callee s₁ (some target) s₂)
      (hsimulated : Simulated p options target s₂ h s₃) :
      Handled p options scope call func s h s₃

/-! ### One way only -/

theorem Dispatched.unique (h : Dispatched p scope call func s primary callee s₁ target₁ s₂)
    (h' : Dispatched p scope call func s primary' callee' s₁' target₂ s₂') :
    target₂ = target₁ ∧ s₂' = s₂ := by
  obtain ⟨heq, rfl⟩ := EStateM.Result.ok.inj (h'.resolves.symm.trans h.resolves)
  obtain ⟨rfl, hcallee⟩ := Prod.mk.inj heq
  obtain rfl := Option.some.inj hcallee
  exact EStateM.Result.ok.inj (h'.decides.symm.trans h.decides)

/-- A callee that does not resolve is not dispatched. -/
theorem Dispatched.not_unresolved
    (h : Dispatched p scope call func s primary callee s₁ target₁ s₂) :
    Infer.primaryAndResult p p.evaluate scope func s ≠ .ok (primary', none) s₁' := by
  intro hunresolved
  have heq := (EStateM.Result.ok.inj (hunresolved.symm.trans h.resolves)).1
  cases (Prod.mk.inj heq).2

theorem Simulated.unique {h h' : Handling} (hs : Simulated p options target s h t)
    (hs' : Simulated p options target s h' t') : h' = h ∧ t' = t := by
  cases hs with
  | recorded hk hbound =>
      cases hs' with
      | recorded _ hbound' =>
          obtain ⟨rfl, rfl⟩ := EStateM.Result.ok.inj (hbound'.symm.trans hbound)
          exact ⟨rfl, rfl⟩
      | carriedOut hk' => cases hk.symm.trans hk'
      | leftOut hk' => cases hk.symm.trans hk'
  | carriedOut hk heager hbound hrun =>
      cases hs' with
      | recorded hk' => cases hk.symm.trans hk'
      | carriedOut _ _ hbound' hrun' =>
          obtain ⟨rfl, rfl⟩ := EStateM.Result.ok.inj (hbound'.symm.trans hbound)
          obtain ⟨rfl, rfl⟩ := EStateM.Result.ok.inj (hrun'.symm.trans hrun)
          exact ⟨rfl, rfl⟩
      | leftOut _ hlazy => cases heager.symm.trans hlazy
  | leftOut hk hlazy =>
      cases hs' with
      | recorded hk' => cases hk.symm.trans hk'
      | carriedOut _ heager => cases heager.symm.trans hlazy
      | leftOut => exact ⟨rfl, rfl⟩

theorem Handled.unique {h h' : Handling} (hs : Handled p options scope call func s h t)
    (hs' : Handled p options scope call func s h' t') : h' = h ∧ t' = t := by
  cases hs with
  | unresolved hcallee =>
      cases hs' with
      | unresolved hcallee' =>
          exact ⟨rfl, (EStateM.Result.ok.inj (hcallee'.symm.trans hcallee)).2⟩
      | skipped hcall => exact absurd hcallee hcall.not_unresolved
      | called hcall _ => exact absurd hcallee hcall.not_unresolved
  | skipped hcall =>
      cases hs' with
      | unresolved hcallee => exact absurd hcallee hcall.not_unresolved
      | skipped hcall' => exact ⟨rfl, (hcall.unique hcall').2⟩
      | called hcall' _ => cases (hcall.unique hcall').1
  | called hcall hsimulated =>
      cases hs' with
      | unresolved hcallee => exact absurd hcallee hcall.not_unresolved
      | skipped hcall' => cases (hcall.unique hcall').1
      | called hcall' hsimulated' =>
          obtain ⟨htarget, rfl⟩ := hcall.unique hcall'
          obtain rfl := Option.some.inj htarget
          exact hsimulated.unique hsimulated'

/-! ### Every call is handled -/

theorem Simulated.exists_of_isFunction (hd : p.tree.Descending)
    (hs : s.inFlight.visiting = []) (options : Options)
    (hf : (s.objects.kind target.function).isFunction = true) :
    ∃ h t, Simulated p options target s h t := by
  obtain ⟨bound, s₁, hbound, _⟩ :=
    (Operation.bindArguments target.function target.arguments).perform_ok hd hs
  cases hk : s.objects.kind target.function with
  | function => exact ⟨_, _, .recorded hk hbound⟩
  | builtinFunction =>
      cases heager : options.eagerBuiltinCalls with
      | true =>
          obtain ⟨result, s', hrun, _⟩ :=
            Infer.settling_callBuiltinObject target.function bound s₁
          exact ⟨_, _, .carriedOut hk heager hbound hrun⟩
      | false => exact ⟨_, _, .leftOut hk heager⟩
  | _ =>
      rw [hk] at hf
      cases hf

/-- With nothing in flight every call is handled, if the tree lets it end. -/
theorem Handled.exists_of_idle (hd : p.tree.Descending) (hs : s.inFlight.visiting = [])
    (options : Options) (scope : ScopeId) (call func : NodeRef) :
    ∃ h t, Handled p options scope call func s h t := by
  obtain ⟨⟨primary, callee⟩, s₁, hcallee, hsettles⟩ :=
    (Operation.primaryAndResult scope func).perform_ok hd hs
  cases callee with
  | none => exact ⟨_, _, .unresolved hcallee⟩
  | some callee =>
      obtain ⟨target, s₂, htarget, hsettles'⟩ :=
        Infer.settling_callTarget p scope call primary callee.object s₁
      cases target with
      | none => exact ⟨_, _, .skipped ⟨hcallee, htarget⟩⟩
      | some target =>
          have hs₂ : s₂.inFlight.visiting = [] :=
            (hsettles.trans hsettles').inFlight.visiting_eq_nil hs
          obtain ⟨h, t, hsimulated⟩ := Simulated.exists_of_isFunction hd hs₂ options
            (Infer.callTarget_isFunction htarget)
          exact ⟨h, t, .called ⟨hcallee, htarget⟩ hsimulated⟩

/-! ### Nothing else is done -/

theorem Dispatched.moves (h : Dispatched p scope call func s primary callee s₁ target₁ s₂) :
    s.Moves p False s₂ :=
  .trans ((Operation.primaryAndResult scope func).moving id _ _ _ h.resolves)
    (Infer.moving_callTarget _ _ _ _ _ _ _ h.decides)

theorem Simulated.moves {h : Handling} (hs : Simulated p options target s h t) :
    s.Moves p False t := by
  have hbind : Infer.Moving p False (Infer.bindArguments p p.evaluate _ _) :=
    (Operation.bindArguments target.function target.arguments).moving id
  cases hs with
  | recorded _ hbound => exact hbind _ _ _ hbound
  | carriedOut _ _ hbound hrun =>
      exact .trans (hbind _ _ _ hbound) (Infer.moving_callBuiltinObject _ _ _ _ _ hrun)
  | leftOut => exact .refl

/-- What is evaluated for a call records nothing. -/
theorem Handled.moves {h : Handling} (hs : Handled p options scope call func s h t) :
    s.Moves p False t := by
  cases hs with
  | unresolved hcallee =>
      exact (Operation.primaryAndResult scope func).moving id _ _ _ hcallee
  | skipped hcall => exact hcall.moves
  | called hcall hsimulated => exact hcall.moves.trans hsimulated.moves

theorem Handled.calls_eq {h : Handling} (hs : Handled p options scope call func s h t) :
    t.calls = s.calls :=
  hs.moves.kept (fun _ _ hmove h => hmove.calls_eq.trans h) rfl

/-! ### The analysis -/

def Stats.site (c : Stats) : Stats :=
  { c with callSites := c.callSites + 1 }

theorem Stats.aside_site : Stats.Aside Stats.site := by
  intro giveUp h c
  cases h <;> rfl

namespace Infer

variable {change : Stats → Stats}

theorem unread_callTarget (p : Program) (scope : ScopeId) (call : NodeRef)
    (primary : Option Name) (callee : ObjectId) :
    Unread change (callTarget p scope call primary callee) := by
  refine .get_bind (fun _ => rfl) fun s => ?_
  dsimp only
  split
  · exact .pure _
  · exact .pure _
  · split
    · exact .bind (unread_newInstance callee call) fun _ => .pure _
    · exact .pure _
  · exact .pure _
  · exact .pure _
  · exact .pure _

theorem unread_callBuiltin (f : BuiltinFunction) (os : List ObjectId) :
    Unread change (callBuiltin f os) := by
  have hresult : ∀ c, Unread change (do return some (← builtinInstance c)) :=
    fun c => .bind (unread_intern _) fun _ => .pure _
  refine .get_bind (fun _ => rfl) fun s => ?_
  split
  · exact .pure _
  · cases f with
    | len => exact hresult .int
    | listAppend => exact .bind (unread_changeMemory _) fun _ => hresult .noneType
    | listSetItem => exact .bind (unread_changeMemory _) fun _ => hresult .noneType
    | dictSetItem =>
        exact .bind (unread_changeMemory _) fun _ =>
          .bind (unread_changeMemory _) fun _ => hresult .noneType
    | listGetItem => exact .pure _
    | dictGetItem => exact .pure _

theorem unread_callBuiltinObject (f : ObjectId) (os : List ObjectId) :
    Unread change (callBuiltinObject f os) := by
  refine .get_bind (fun _ => rfl) fun s => ?_
  split
  · exact unread_callBuiltin _ os
  · exact .pure _

end Infer

/-- A call of a function is simulated as it would be if its site had not been counted. -/
theorem Simulated.simulateCall {h : Handling} (hs : Simulated p options target s h t) :
    Infer.Uncaught.simulateCall p p.evaluate options target (s.tallied Stats.site) =
      .ok () (h.leave t) := by
  have hbind : ∀ {bound s₁}, Infer.bindArguments p p.evaluate target.function target.arguments s =
        .ok bound s₁ →
      Infer.bindArguments p p.evaluate target.function target.arguments
        (s.tallied Stats.site) = .ok bound (s₁.tallied Stats.site) :=
    (Operation.bindArguments target.function target.arguments).perform_tallied
      Stats.aside_site id
  unfold Infer.Uncaught.simulateCall
  rw [Infer.get_bind_run, show (s.tallied Stats.site).objects = s.objects from rfl]
  cases hs with
  | recorded hk hbound =>
      rw [hk]
      exact Infer.bind_of_ok (hbind hbound)
  | @carriedOut bound result s₁ _ hk heager hbound hrun =>
      rw [hk]
      simp only [heager, if_true]
      rw [Infer.bind_of_ok (hbind hbound)]
      have hcalled : discard (Infer.callBuiltinObject target.function bound)
          (s₁.tallied Stats.site) = .ok () (t.tallied Stats.site) :=
        Infer.bind_of_ok (Infer.unread_callBuiltinObject _ _ _ _ _ hrun)
      exact Infer.bind_of_ok hcalled
  | leftOut hk hlazy =>
      rw [hk]
      simp only [hlazy]
      rfl

theorem Dispatched.tallied (h : Dispatched p scope call func s primary callee s₁ target₁ s₂) :
    Dispatched p scope call func (s.tallied Stats.site) primary callee (s₁.tallied Stats.site)
      target₁ (s₂.tallied Stats.site) :=
  ⟨(Operation.primaryAndResult scope func).perform_tallied Stats.aside_site id h.resolves,
    Infer.unread_callTarget _ _ _ _ _ _ _ _ h.decides⟩

/-- A call that is met is left as it is handled. -/
theorem Handled.visitCall {call : NodeId} {h : Handling}
    (hs : Handled p options scope (some call) func s h t) (hidle : s.inFlight.visiting = []) :
    Infer.visitCall p p.evaluate options scope call func s = .ok () (h.leave t) := by
  rw [(Infer.calm_visitCall p options scope call func s hidle).1]
  have hsite : Infer.count Stats.site s = .ok () (s.tallied Stats.site) := rfl
  unfold Infer.Uncaught.visitCall
  refine (Infer.bind_of_ok hsite).trans ?_
  cases hs with
  | unresolved hcallee =>
      exact Infer.bind_of_ok
        ((Operation.primaryAndResult scope func).perform_tallied Stats.aside_site id hcallee)
  | skipped hcall =>
      refine (Infer.bind_of_ok hcall.tallied.resolves).trans ?_
      exact Infer.bind_of_ok hcall.tallied.decides
  | called hcall hsimulated =>
      refine (Infer.bind_of_ok hcall.tallied.resolves).trans ?_
      refine (Infer.bind_of_ok hcall.tallied.decides).trans ?_
      exact hsimulated.simulateCall

/-- A call of a function of the source is left recorded. -/
theorem Dispatched.visitCall_recorded {call : NodeId} {record : CallRecord} {s₃ : State}
    (h : Dispatched p scope call func s primary callee s₁ (some target) s₂)
    (hk : s₂.objects.kind target.function = .function)
    (hbound : Infer.bindArguments p p.evaluate target.function target.arguments s₂ =
      .ok record s₃) (options : Options) (hidle : s.inFlight.visiting = []) :
    Infer.visitCall p p.evaluate options scope call func s =
      .ok () ((Handling.recorded target.function record).leave s₃) :=
  (Handled.called h (.recorded hk hbound)).visitCall hidle

/-! ### Evaluation -/

namespace Infer

/-- What a call gives that asks for what a function returns. -/
def returnedName (p : Program) (target : CallTarget) : Infer (Option Name) := do
  let result ← tryReturned p p.evaluate target.function (some target.arguments)
  return some (.unbound (result.getD .unknown))

theorem evaluate_call (hd : p.tree.Descending) {args keywords : List NodeRef}
    (hcall : p.tree.node? call = some (.call func args keywords)) (s : State) :
    p.evaluate scope call s = evaluateCall p p.evaluate scope call func s := by
  rw [p.evaluate_eq_step hd, evaluateStep, hcall]

/-- A call of a class gives the instance that its constructor is called on. -/
theorem evaluateCall_class (h : Dispatched p scope call func s primary callee s₁ (some target) s₂)
    {c : ScopeId} (hc : s₁.objects.get callee.object = .cls c) :
    ∃ o, p.constructor? s₁.objects callee.object = some target.function ∧
      target.arguments = .callSite call scope (some o) ∧
      evaluateCall p p.evaluate scope call func s = .ok (some (.unbound o)) s₂ := by
  have hkind : s₁.objects.kind callee.object = .cls := by
    rw [ObjectStore.kind, hc]
    rfl
  have hdecides := h.decides
  unfold callTarget at hdecides
  rw [get_bind_run, hkind] at hdecides
  dsimp only at hdecides
  cases hconstructor : p.constructor? s₁.objects callee.object with
  | none =>
      rw [hconstructor] at hdecides
      cases hdecides
  | some f =>
      rw [hconstructor] at hdecides
      obtain ⟨o, s₃, hmade, hdecides⟩ := bind_eq_ok.1 hdecides
      cases hdecides
      refine ⟨o, rfl, rfl, ?_⟩
      have hconstructed : constructed scope call callee.object s₁ = .ok o s₂ := by
        unfold constructed
        rw [get_bind_run, hc]
        exact hmade
      unfold evaluateCall
      rw [bind_of_ok h.resolves]
      simp only
      rw [get_bind_run, if_pos hkind, bind_of_ok hconstructed]
      rfl

/-- A receiver comes before the positional arguments of a call. -/
theorem resolveArguments_receiver {eval : Evaluator} {o : ObjectId} {a : ResolvedArguments}
    {args keywords : List NodeRef} (hcall : p.tree.node? call = some (.call func args keywords))
    (h : resolveArguments p eval (.callSite call scope (some o)) s = .ok a s') :
    ∃ b, resolveArguments p eval (.callSite call scope none) s = .ok b s' ∧
      a = ⟨o :: b.positional, b.keywords⟩ := by
  unfold resolveArguments at h ⊢
  simp only [hcall] at h ⊢
  obtain ⟨positional, s₁, hpositional, h⟩ := bind_eq_ok.1 h
  obtain ⟨named, s₂, hnamed, h⟩ := bind_eq_ok.1 h
  cases h
  exact ⟨⟨positional, named⟩, bind_eq_ok.2 ⟨_, _, hpositional,
    bind_eq_ok.2 ⟨_, _, hnamed, rfl⟩⟩, rfl⟩

/-- A function that is entered for a call has the objects of its record in its context, but
for those of special parameters. -/
theorem returnedName_of_entered (hd : p.tree.Descending) {inner : ScopeId}
    {record : CallRecord} {g : Guard ObjectId}
    (hf : s.objects.get target.function = .function inner)
    (hbound : bindArguments p p.evaluate target.function target.arguments s = .ok record s₁)
    (hsites : p.returnedSites inner ≠ [])
    (henter : s₁.inFlight.refresh.enter target.function = (.entered, g)) :
    let parameters := some (ordinaryObjects (p.parameters s₁.objects target.function) record)
    ∃ r s' g', scanReturned p.evaluate inner (p.isGenerator inner)
        (p.returnedSites inner).reverse
        (opened p target.function inner parameters { s₁ with inFlight := g }) = .ok r s' ∧
      returnedName p target s =
        .ok (some (.unbound (r.getD .unknown))) (closed parameters g' s') := by
  intro parameters
  have hscope : s.objects.scopeOf? target.function = some inner := by
    rw [ObjectStore.scopeOf?, hf]
  have hparameters : (some target.arguments).mapM
      (boundParameters p p.evaluate target.function) s = .ok parameters s₁ :=
    bind_eq_ok.2 ⟨_, s₁, bind_eq_ok.2 ⟨record, s₁, hbound, rfl⟩, rfl⟩
  obtain ⟨r, s', hscan, hsettles⟩ := scanReturned_total hd inner (p.isGenerator inner)
    (p.returnedSites inner).reverse
    (opened p target.function inner parameters { s₁ with inFlight := g })
  obtain ⟨g', hleave, _⟩ := closeCall_of_settles henter hsettles
  exact ⟨r, s', g', hscan,
    bind_of_ok (tryReturned_of_entered hscope hsites hparameters henter hscan hleave)⟩

end Infer

/-- With nothing in flight the arguments of a call have objects. -/
theorem Dispatched.exists_record (hd : p.tree.Descending) (hs : s.inFlight.visiting = [])
    (h : Dispatched p scope call func s primary callee s₁ (some target) s₂) :
    ∃ record s₃, Infer.bindArguments p p.evaluate target.function target.arguments s₂ =
      .ok record s₃ := by
  obtain ⟨_, s', hresolves, hsettles⟩ := (Operation.primaryAndResult scope func).perform_ok hd hs
  obtain ⟨-, rfl⟩ := EStateM.Result.ok.inj (hresolves.symm.trans h.resolves)
  obtain ⟨_, s'', hdecides, hsettles'⟩ :=
    Infer.settling_callTarget p scope call primary callee.object s'
  obtain ⟨-, rfl⟩ := EStateM.Result.ok.inj (hdecides.symm.trans h.decides)
  obtain ⟨record, s₃, hbound, _⟩ :=
    (Operation.bindArguments target.function target.arguments).perform_ok hd
      ((hsettles.trans hsettles').inFlight.visiting_eq_nil hs)
  exact ⟨record, s₃, hbound⟩

/-- An analysis and an evaluation simulate the same call. With nothing in flight a call that
is met is handled in one way, and left so: one count says which, the log has one record more at
the end of the list of one function or is as it was, and what was worked out for the parameters
of that function is dropped.

Where the call calls a function of the source, and its callee is not a class, evaluation asks
for what that function returns, from the same state and for the same arguments. If it enters
the function, the parameters of the context are what is recorded, for the ordinary parameters.
Where the callee is a class of the source with a constructor, the call evaluates to the object
that the constructor is called on, which is recorded before the arguments of the call. -/
theorem calls_simulated_as_evaluated {p : Program} (hd : p.tree.Descending) (options : Options)
    (scope : ScopeId) {call : NodeId} {func : NodeRef} {args keywords : List NodeRef}
    (hcall : p.tree.get? call = some (.call func args keywords)) {s : State}
    (hs : s.inFlight.visiting = []) :
    (∃ (h : Handling) (t : State),
      Infer.visitCall p p.evaluate options scope call func s = .ok () (h.leave t) ∧
      Handled p options scope call func s h t ∧
      (∀ h' t', Handled p options scope call func s h' t' → h' = h ∧ t' = t) ∧
      (∃ m n, (h.leave t).stats = (s.stats.plus (.gaveUp m n)).plus h.counts) ∧
      (∀ f, (h.leave t).calls.calls f = s.calls.calls f ++ h.entries f) ∧
      ∀ f, h.entries f ≠ [] → (h.leave t).parameterCache.get? f = none) ∧
    ∀ (primary : Option Name) (callee : Name) (s₁ : State) (target : CallTarget) (s₂ : State),
      Dispatched p scope call func s primary callee s₁ (some target) s₂ →
      (∀ inner : ScopeId, s₁.objects.kind callee.object ≠ .cls →
        s₂.objects.get target.function = .function inner →
        ∃ (record : CallRecord) (s₃ : State),
          Infer.bindArguments p p.evaluate target.function target.arguments s₂ =
            .ok record s₃ ∧
          Infer.visitCall p p.evaluate options scope call func s =
            .ok () ((Handling.recorded target.function record).leave s₃) ∧
          p.evaluate scope call s = Infer.returnedName p target s₂ ∧
          ∀ g : Guard ObjectId, p.returnedSites inner ≠ [] →
            s₃.inFlight.refresh.enter target.function = (.entered, g) →
            let parameters := ordinaryObjects (p.parameters s₃.objects target.function) record
            ∃ (r : Option ObjectId) (s' : State) (g' : Guard ObjectId),
              Infer.scanReturned p.evaluate inner (p.isGenerator inner)
                (p.returnedSites inner).reverse
                (Infer.opened p target.function inner (some parameters)
                  { s₃ with inFlight := g }) = .ok r s' ∧
              p.evaluate scope call s = .ok (some (.unbound (r.getD .unknown)))
                (Infer.closed (some parameters) g' s')) ∧
      ∀ c : ScopeId, s₁.objects.get callee.object = .cls c →
        ∃ o : ObjectId, p.constructor? s₁.objects callee.object = some target.function ∧
          target.arguments = .callSite call scope (some o) ∧
          p.evaluate scope call s = .ok (some (.unbound o)) s₂ ∧
          (s₂.objects.kind target.function = .function →
            ∃ (a : ResolvedArguments) (s₃ : State),
              Infer.resolveArguments p p.evaluate (.callSite call scope none) s₂ = .ok a s₃ ∧
              Infer.visitCall p p.evaluate options scope call func s =
                .ok () ((Handling.recorded target.function
                  (bindObjects (p.parameters s₃.objects target.function)
                    ⟨o :: a.positional, a.keywords⟩)).leave s₃)) := by
  have hnode : p.tree.node? call = some (.call func args keywords) := hcall
  refine ⟨?_, fun primary callee s₁ target s₂ hdispatched => ⟨fun inner hkind hf => ?_,
    fun c hc => ?_⟩⟩
  · obtain ⟨h, t, hhandled⟩ := Handled.exists_of_idle hd hs options scope call func
    obtain ⟨m, n, hadds⟩ := hhandled.moves.adds
    refine ⟨h, t, hhandled.visitCall hs, hhandled, fun h' t' => hhandled.unique, ⟨m, n, ?_⟩,
      fun f => ?_, fun f hf => ?_⟩
    · rw [h.stats_leave, hadds.stats]
    · rw [h.calls_leave, hhandled.calls_eq]
    · rw [h.parameterCache_leave, if_neg hf]
  · obtain ⟨record, s₃, hbound⟩ := hdispatched.exists_record hd hs
    have hk : s₂.objects.kind target.function = .function := by
      rw [ObjectStore.kind, hf]
      rfl
    have hvisit := hdispatched.visitCall_recorded hk hbound options hs
    have hevaluate : p.evaluate scope call s = Infer.returnedName p target s₂ := by
      rw [Infer.evaluate_call hd hnode]
      exact Infer.evaluateCall_of_target hdispatched.resolves hkind hdispatched.decides hf
    refine ⟨record, s₃, hbound, hvisit, hevaluate, fun g hsites henter => ?_⟩
    rw [hevaluate]
    exact Infer.returnedName_of_entered hd hf hbound hsites henter
  · obtain ⟨o, hconstructor, harguments, hevaluate⟩ := Infer.evaluateCall_class hdispatched hc
    refine ⟨o, hconstructor, harguments, (Infer.evaluate_call hd hnode s).trans hevaluate,
      fun hk => ?_⟩
    obtain ⟨record, s₃, hbound⟩ := hdispatched.exists_record hd hs
    have hvisit := hdispatched.visitCall_recorded hk hbound options hs
    obtain ⟨resolved, s₄, hresolved, hrecord⟩ := Infer.bind_eq_ok.1 hbound
    cases hrecord
    rw [harguments] at hresolved
    obtain ⟨a, ha, rfl⟩ := Infer.resolveArguments_receiver hnode hresolved
    exact ⟨a, s₃, ha, hvisit⟩

/-- A function `f(a, *rest)` that returns `a`, a class `C` with a constructor of one argument,
and the calls `C(1)` and `f("s")`. -/
def Tree.constructing : Tree :=
  ⟨#[.name 2, .returnStatement (some 0),
    .functionDef 1 [⟨2, .positional, none⟩, ⟨3, .varArgs, none⟩] [] [some 1], .pass,
    .functionDef 5 [⟨6, .positional, none⟩, ⟨7, .positional, none⟩] [] [some 3],
    .classDef 4 [] [some 4], .name 4, .literal (.int 1), .call (some 6) [some 7] [],
    .exprStatement (some 8), .name 1, .literal (.str "s"), .call (some 10) [some 11] [],
    .exprStatement (some 12), .module [some 2, some 5, some 9, some 13]]⟩

def Program.constructing : Program :=
  .bind Tree.constructing ⟨#["", "f", "a", "rest", "C", "__init__", "self", "x"]⟩ (some 14)

/-- The dispatch of a call as one computation, with what two objects are to it: the callee when
it has resolved, and a function once it is decided what is called. -/
def Infer.dispatch (p : Program) (scope : ScopeId) (call func : NodeRef) (callee f : ObjectId) :
    Infer ((Option Name × Option Name) × Object × Option CallTarget × Object) := do
  let x ← primaryAndResult p p.evaluate scope func
  let before ← get
  let y ← callTarget p scope call x.1 callee
  let after ← get
  return (x, before.objects.get callee, y, after.objects.get f)

theorem Dispatched.of_dispatch {c f : ObjectId} {origin : Origin} {arguments : Arguments}
    {o o' : Object} (h : (Infer.dispatch p scope call func c f).value? s =
      some ((primary, some ⟨c, origin⟩), o, some ⟨f, arguments⟩, o')) :
    ∃ s₁ s₂, Dispatched p scope call func s primary ⟨c, origin⟩ s₁ (some ⟨f, arguments⟩) s₂ ∧
      s₁.objects.get c = o ∧ s₂.objects.get f = o' := by
  obtain ⟨s', h⟩ := Infer.value?_eq_some.1 h
  obtain ⟨x, s₁, hresolves, h⟩ := Infer.bind_eq_ok.1 h
  rw [Infer.get_bind_run] at h
  obtain ⟨y, s₂, hdecides, h⟩ := Infer.bind_eq_ok.1 h
  rw [Infer.get_bind_run] at h
  cases h
  exact ⟨s₁, s', ⟨hresolves, hdecides⟩, rfl, rfl⟩

/-- The function is recorded with the string, which is the only object in its context. The
constructor is recorded with the instance that its call evaluates to. -/
theorem calls_simulated_as_evaluated_constructing :
    let p := Program.constructing
    let s := State.start (.fresh p) {} {}
    Tree.constructing.Descending ∧ s.inFlight.visiting = [] ∧
      (∃ s₃ g' s', Infer.visitCall p p.evaluate {} 0 12 (some 10) s =
          .ok () ((Handling.recorded 16 [19, .unknown]).leave s₃) ∧
        p.evaluate 0 (some 12) s =
          .ok (some (.unbound 19)) (Infer.closed (some [19]) g' s')) ∧
      ∃ s₂ s₃, p.evaluate 0 (some 8) s = .ok (some (.unbound 19)) s₂ ∧
        Infer.visitCall p p.evaluate {} 0 8 (some 6) s =
          .ok () ((Handling.recorded 18 [19, 20]).leave s₃) := by
  intro p s
  have hd : Tree.constructing.Descending := by decide
  have hs : s.inFlight.visiting = [] := rfl
  have hlatest : ∀ f record (t : State),
      ((Handling.recorded f record).leave t).calls.latest f = some record := by
    intro f record t
    rw [CallLog.latest, Handling.calls_leave, Handling.entries, if_pos rfl, List.getLast?_concat]
  refine ⟨hd, hs, ?_, ?_⟩
  · have hrun : (Infer.dispatch p 0 (some 12) (some 10) 16 16).value? s =
        some ((none, some ⟨16, .defined 1⟩), .function 1,
          some ⟨16, .callSite (some 12) 0 none⟩, .function 1) := by decide +kernel
    obtain ⟨s₁, s₂, hdispatched, hcallee, hf⟩ := Dispatched.of_dispatch hrun
    have hcall : p.tree.get? 12 = some (.call (some 10) [some 11] []) := rfl
    obtain ⟨_, hagree⟩ := calls_simulated_as_evaluated hd {} 0 hcall hs
    obtain ⟨hfunction, _⟩ := hagree _ _ s₁ _ s₂ hdispatched
    have hkind : s₁.objects.kind 16 ≠ .cls := by
      rw [ObjectStore.kind, hcallee]
      decide
    obtain ⟨record, s₃, _, hvisit, _, hcontext⟩ := hfunction 1 hkind hf
    have hleft : ((Infer.visitCall p p.evaluate {} 0 12 (some 10)).after? s).map
        (fun t => (t.calls.latest 16, (t.inFlight.refresh.enter 16).1,
          p.parameters t.objects 16)) =
        some (some [19, .unknown], .entered, [.ordinary 2, ⟨3, .varArgs⟩]) := by decide +kernel
    rw [Infer.after?_of_ok hvisit] at hleft
    obtain ⟨hrecord, hleft⟩ := Prod.mk.inj (Option.some.inj hleft)
    obtain ⟨hentered, hparams⟩ := Prod.mk.inj hleft
    obtain rfl : record = [19, .unknown] := Option.some.inj ((hlatest _ _ _).symm.trans hrecord)
    have hparams : p.parameters s₃.objects 16 = [.ordinary 2, ⟨3, .varArgs⟩] := hparams
    have henter : s₃.inFlight.refresh.enter 16 =
        (.entered, (s₃.inFlight.refresh.enter 16).2) := Prod.ext hentered rfl
    obtain ⟨r, s', g', _, hevaluate⟩ := hcontext _ (by decide +kernel) henter
    rw [hparams] at hevaluate
    obtain ⟨_, hgiven⟩ := Infer.value?_eq_some.1
      (by decide +kernel : (p.evaluate 0 (some 12)).value? s = some (some (.unbound 19)))
    rw [(EStateM.Result.ok.inj (hevaluate.symm.trans hgiven)).1] at hevaluate
    exact ⟨s₃, g', s', hvisit, hevaluate⟩
  · have hrun : (Infer.dispatch p 0 (some 8) (some 6) 17 18).value? s =
        some ((none, some ⟨17, .defined 4⟩), .cls 2,
          some ⟨18, .callSite (some 8) 0 (some 19)⟩, .function 3) := by decide +kernel
    obtain ⟨s₁, s₂, hdispatched, hcallee, hf⟩ := Dispatched.of_dispatch hrun
    have hcall : p.tree.get? 8 = some (.call (some 6) [some 7] []) := rfl
    obtain ⟨_, hagree⟩ := calls_simulated_as_evaluated hd {} 0 hcall hs
    obtain ⟨_, hclass⟩ := hagree _ _ s₁ _ s₂ hdispatched
    obtain ⟨o, _, harguments, hevaluate, hrecorded⟩ := hclass 2 hcallee
    cases harguments
    have hkind : s₂.objects.kind 18 = .function := by
      rw [ObjectStore.kind, hf]
      rfl
    obtain ⟨a, s₃, _, hvisit⟩ := hrecorded hkind
    have hleft : ((Infer.visitCall p p.evaluate {} 0 8 (some 6)).after? s).map
        (fun t => t.calls.latest 18) = some (some [19, 20]) := by decide +kernel
    rw [Infer.after?_of_ok hvisit] at hleft
    have hrecord := (hlatest _ _ _).symm.trans (Option.some.inj hleft)
    rw [Option.some.inj hrecord] at hvisit
    exact ⟨s₂, s₃, hevaluate, hvisit⟩

end ObjectInference
