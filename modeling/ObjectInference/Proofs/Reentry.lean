import ObjectInference.Proofs.Coherence
import ObjectInference.Proofs.Discipline

/-!
Requests for a function in flight.

The guard of functions in flight looks at its limits before it looks for a
cycle. So a request for the result of a function in flight is reported as such
if the limits leave room for one more function, and is given up like any other
if they do not. `tryReturned_of_inFlight` says which of the two happens, at any
depth and whatever else is in flight.

A returned value that ends on the signal is passed over, and the values before
it are tried as if it were not there. `answered_by_literal` follows one request
through all of that: a function that calls itself in its last returned value,
after a literal, returns the literal, as soon as two functions may be in flight.
-/

namespace ObjectInference

namespace Guard

variable {κ : Type} [DecidableEq κ] {g : Guard κ} {k : κ}

/-- Attempts are counted before anything else is looked at. -/
theorem enter_of_iterations (h : g.maxIterations < g.tried.iterations) :
    g.enter k = (.iterationExceeded, g.tried.markExceeded) := by
  unfold enter
  simp only
  rw [if_pos (show g.tried.maxIterations < g.tried.iterations from h)]

/-- A key being visited is a cycle if the guard is not full. -/
theorem enter_of_visiting (hk : k ∈ g.visiting) (hi : g.tried.iterations ≤ g.maxIterations)
    (hd : g.depth < g.maxDepth) : g.enter k = (.cycle, g.tried) := by
  unfold enter
  simp only
  rw [if_neg (show ¬ g.tried.maxIterations < g.tried.iterations from Nat.not_lt.2 hi),
    if_neg (show ¬ g.tried.maxDepth ≤ g.tried.depth from Nat.not_le.2 hd),
    if_pos (isVisiting_iff.2 (show k ∈ g.tried.visiting from hk))]

/-- A full guard lets no key in, and does not look whether it is being visited. -/
theorem enter_of_full (hi : g.tried.iterations ≤ g.maxIterations) (hd : g.maxDepth ≤ g.depth) :
    g.enter k = (.depthExceeded, g.tried.markExceeded) := by
  unfold enter
  simp only
  rw [if_neg (show ¬ g.tried.maxIterations < g.tried.iterations from Nat.not_lt.2 hi),
    if_pos (show g.tried.maxDepth ≤ g.tried.depth from hd)]

/-- Leaving a key counts no attempt. -/
theorem iterations_of_leave {g' : Guard κ} (h : g.leave k = .ok g') :
    g'.iterations = g.iterations ∧ g'.maxIterations = g.maxIterations := by
  unfold leave at h
  split at h
  · cases h
    exact ⟨rfl, rfl⟩
  · cases h

end Guard

namespace State

/-- The state after a request that was reported as a cycle. -/
def reported (s : State) : State :=
  { s with inFlight := s.inFlight.tried }

def bailedOut (s : State) : State :=
  { s with
    inFlight := s.inFlight.tried.markExceeded
    stats := { s.stats with limitBailouts := s.stats.limitBailouts + 1 } }

def passedOver (s : State) : State :=
  { s with stats := { s.stats with reentrantSites := s.stats.reentrantSites + 1 } }

end State

namespace Infer

variable {p : Program} {eval : Evaluator} {f : ObjectId} {scope : ScopeId}
  {arguments : Option Arguments} {parameters : Option (List ObjectId)} {s s₁ : State}

/-! ### Requests -/

/-- Binding the arguments of a request leaves the guards as they were. -/
theorem settles_of_boundParameters
    (h : arguments.mapM (boundParameters p p.evaluate f) s = .ok parameters s₁) :
    s.Settles s₁ := by
  cases arguments with
  | none =>
      cases h
      exact .refl s
  | some a =>
      rw [Option.mapM_some] at h
      obtain ⟨ps, s₂, hps, h⟩ := bind_eq_ok.1 h
      cases h
      obtain ⟨bound, s₃, hbound, hps⟩ := bind_eq_ok.1 hps
      cases hps
      have hend := (Operation.bindArguments f a).ended (p := p) s
      change Operation.Ended p s (bindArguments p p.evaluate f a s) at hend
      rw [hbound] at hend
      cases hend with
      | ok h => exact h

section InFlight

variable (hscope : s.objects.scopeOf? f = some scope) (hsites : p.returnedSites scope ≠ [])
  (hbound : arguments.mapM (boundParameters p eval f) s = .ok parameters s₁)

include hscope hsites hbound

/-- A request for a function that has returned values comes down to the attempt to mark
the function once its arguments are bound. -/
theorem tryReturned_of_bound {e : Entry} {g : Guard ObjectId}
    (henter : s₁.inFlight.refresh.enter f = (e, g)) (he : e ≠ .entered) :
    tryReturned p eval f arguments s =
      if e = .cycle then .error (.reentrant f) { s₁ with inFlight := g }
      else .ok none
        { s₁ with
          inFlight := g
          stats := { s₁.stats with limitBailouts := s₁.stats.limitBailouts + 1 } } := by
  have hentered : enterFunction f s₁ = .ok e { s₁ with inFlight := g } := by
    change EStateM.Result.ok (s₁.inFlight.refresh.enter f).1
      { s₁ with inFlight := (s₁.inFlight.refresh.enter f).2 } = _
    rw [henter]
  unfold tryReturned
  rw [get_bind_run, hscope]
  simp only [List.isEmpty_iff, hsites, if_false]
  rw [bind_of_ok hbound, bind_of_ok hentered]
  cases e with
  | entered => exact absurd rfl he
  | cycle => rfl
  | depthExceeded => rfl
  | iterationExceeded => rfl

variable (hf : f ∈ s₁.inFlight.visiting) (hactive : 0 < s₁.inFlight.depth)

include hf hactive

theorem tryReturned_reports (hi : s₁.inFlight.tried.iterations ≤ s₁.inFlight.maxIterations)
    (hd : s₁.inFlight.depth < s₁.inFlight.maxDepth) :
    tryReturned p eval f arguments s = .error (.reentrant f) s₁.reported := by
  have henter := Guard.enter_of_visiting hf hi hd
  rw [← Guard.refresh_of_active hactive] at henter
  rw [tryReturned_of_bound hscope hsites hbound henter (by decide), if_pos rfl,
    Guard.refresh_of_active hactive]
  rfl

omit hf in
theorem tryReturned_bailsOut
    (h : s₁.inFlight.maxIterations < s₁.inFlight.tried.iterations ∨
      s₁.inFlight.maxDepth ≤ s₁.inFlight.depth) :
    tryReturned p eval f arguments s = .ok none s₁.bailedOut := by
  rcases Nat.lt_or_ge s₁.inFlight.maxIterations s₁.inFlight.tried.iterations with hi | hi
  · have henter := Guard.enter_of_iterations (k := f) hi
    rw [← Guard.refresh_of_active hactive] at henter
    rw [tryReturned_of_bound hscope hsites hbound henter (by decide), if_neg (by decide),
      Guard.refresh_of_active hactive]
    rfl
  · have henter := Guard.enter_of_full (k := f) hi (h.resolve_left (Nat.not_lt.2 hi))
    rw [← Guard.refresh_of_active hactive] at henter
    rw [tryReturned_of_bound hscope hsites hbound henter (by decide), if_neg (by decide),
      Guard.refresh_of_active hactive]
    rfl

end InFlight

/-! ### Returned values -/

/-- A returned value that ends on a function in flight is counted and passed over. -/
theorem scanReturned_of_reentrant {generator : Bool} {site : NodeId} {sites : List NodeId}
    {g : ObjectId} (h : eval scope (some site) s = .error (.reentrant g) s₁) :
    scanReturned eval scope generator (site :: sites) s =
      scanReturned eval scope generator sites s₁.passedOver := by
  have hattempt : attempt (eval scope (some site)) s = .ok (.error g) s₁ := by
    rw [attempt, h]
  rw [scanReturned, bind_of_ok hattempt]
  rfl

/-! ### Calls by name -/

/-- A name whose last definition is a known object resolves to it. -/
theorem resolveLocal_object {name : Atom} {others : List Definition} {o : ObjectId}
    (hdef : p.definitions scope name = others ++ [.object o]) (ho : o.isKnown = true)
    {g g' : Guard (ScopeId × Atom)}
    (henter : s.resolving.refresh.enter (scope, name) = (.entered, g))
    (hleave : g.leave (scope, name) = .ok g') :
    resolveLocal p eval scope name s =
      .ok (some ⟨o, .defined name⟩) { s with resolving := g' } := by
  have hentered : enterName (scope, name) s = .ok .entered { s with resolving := g } := by
    rw [enterName_run, henter]
  have hfirst : firstKnown p eval scope name (.ok none) (p.definitions scope name).reverse
      { s with resolving := g } =
      .ok (.ok (some ⟨o, .defined name⟩)) { s with resolving := g } := by
    rw [hdef, List.reverse_append, List.reverse_singleton, List.singleton_append, firstKnown_cons]
    have hfound : attempt (resolveDefinition p eval scope name (.object o))
        { s with resolving := g } =
        .ok (.ok (some ⟨o, .defined name⟩)) { s with resolving := g } := rfl
    have hknown : isKnownOutcome (.ok (some ⟨o, .defined name⟩)) = true := ho
    rw [bind_of_ok hfound, if_pos hknown]
    rfl
  have hleft : leaveName (scope, name) { s with resolving := g } =
      .ok () { s with resolving := g' } := by
    unfold leaveName
    rw [get_bind_run, hleave]
    rfl
  obtain ⟨d, ds, hds⟩ : ∃ d ds, p.definitions scope name = d :: ds :=
    List.exists_cons_of_ne_nil (by simp [hdef])
  rw [hds] at hfirst
  unfold resolveLocal
  rw [hds]
  simp only
  rw [bind_of_ok hentered]
  simp only
  rw [bind_of_ok hfirst, bind_of_ok hleft]
  rfl

/-- A call that calls a function, and is not that of a class, asks for what the function
returns. -/
theorem evaluateCall_of_target {call func : NodeRef} {primary : Option Name} {callee : Name}
    {target : CallTarget} {s₂ : State}
    (hcallee : primaryAndResult p eval scope func s = .ok (primary, some callee) s₁)
    (hkind : s₁.objects.kind callee.object ≠ .cls)
    (htarget : callTarget p scope call primary callee.object s₁ = .ok (some target) s₂)
    {inner : ScopeId} (hf : s₂.objects.get target.function = .function inner) :
    evaluateCall p eval scope call func s =
      (do
        let result ← tryReturned p eval target.function (some target.arguments)
        return some (.unbound (result.getD .unknown)) : Infer (Option Name)) s₂ := by
  unfold evaluateCall
  rw [bind_of_ok hcallee]
  simp only
  rw [get_bind_run, if_neg hkind, bind_of_ok htarget]
  simp only [calledObject]
  rw [bind_assoc, get_bind_run, hf]
  simp only [bind_assoc, pure_bind]

/-- A call by a name that stands for a function asks for what the function returns. -/
theorem evaluateCall_function {call func : NodeRef} {name : Atom}
    (hfunc : p.tree.node? func = some (.name name))
    (hname : eval scope func s = .ok (some ⟨f, .defined name⟩) s₁) {inner : ScopeId}
    (hf : s₁.objects.get f = .function inner) :
    evaluateCall p eval scope call func s =
      (do
        let result ← tryReturned p eval f (some (.callSite call scope none))
        return some (.unbound (result.getD .unknown)) : Infer (Option Name)) s₁ := by
  have hprimary : primaryAndResult p eval scope func s =
      .ok (none, some ⟨f, .defined name⟩) s₁ := by
    unfold primaryAndResult
    rw [hfunc]
    exact bind_of_ok hname
  have hkind : s₁.objects.kind f = .function := by
    rw [ObjectStore.kind, hf]
    rfl
  have htarget : callTarget p scope call none f s₁ =
      .ok (some ⟨f, .callSite call scope none⟩) s₁ := by
    unfold callTarget
    rw [get_bind_run, hkind]
    rfl
  exact evaluateCall_of_target hprimary (hkind.trans_ne (by decide)) htarget hf

/-- The guards and the function in flight are after the arguments of a request as they
were before. -/
theorem inFlight_of_boundParameters
    (hbound : arguments.mapM (boundParameters p p.evaluate f) s = .ok parameters s₁)
    (hs : s.inFlight.Balanced) (hf : f ∈ s.inFlight.visiting) :
    f ∈ s₁.inFlight.visiting ∧ 0 < s₁.inFlight.depth ∧ s₁.inFlight.depth = s.inFlight.depth ∧
      s₁.inFlight.maxDepth = s.inFlight.maxDepth := by
  have h := (settles_of_boundParameters hbound).inFlight
  refine ⟨?_, ?_, h.depth, h.maxDepth⟩
  · rw [h.visiting_eq hs]
    exact hf
  · rw [h.depth, hs.depth_eq]
    exact List.length_pos_of_mem hf

/-- A request for a function in flight that has a result has used up the attempts, as
long as the guard is not full. -/
theorem tryReturned_eq_ok {r : Option ObjectId} {s' : State}
    (h : tryReturned p p.evaluate f arguments s = .ok r s')
    (hscope : s.objects.scopeOf? f = some scope) (hsites : p.returnedSites scope ≠ [])
    (hs : s.inFlight.Balanced) (hf : f ∈ s.inFlight.visiting)
    (hdepth : s.inFlight.depth < s.inFlight.maxDepth) :
    r = none ∧ s'.inFlight.maxIterations < s'.inFlight.iterations := by
  -- The arguments have been bound, or the request would have ended with them.
  have hbound : ∃ parameters s₁,
      arguments.mapM (boundParameters p p.evaluate f) s = .ok parameters s₁ := by
    have h' := h
    unfold tryReturned at h'
    rw [get_bind_run, hscope] at h'
    simp only [List.isEmpty_iff, hsites, if_false] at h'
    obtain ⟨parameters, s₁, hbound, _⟩ := bind_eq_ok.1 h'
    exact ⟨parameters, s₁, hbound⟩
  obtain ⟨parameters, s₁, hbound⟩ := hbound
  obtain ⟨hf₁, hactive, hdepth₁, hmax⟩ := inFlight_of_boundParameters hbound hs hf
  rcases Nat.lt_or_ge s₁.inFlight.maxIterations s₁.inFlight.tried.iterations with hi | hi
  · rw [tryReturned_bailsOut hscope hsites hbound hactive (.inl hi)] at h
    cases h
    exact ⟨rfl, hi⟩
  · rw [tryReturned_reports hscope hsites hbound hf₁ hactive hi (by omega)] at h
    cases h

end Infer

/-- An expression is a name that stands for a function as it is seen from a scope. -/
def Program.Names (p : Program) (scope : ScopeId) (expr : NodeRef) (f : ObjectId) : Prop :=
  ∃ name binder others, p.tree.node? expr = some (.name name) ∧
    p.binder? scope name = some binder ∧ p.definitions binder name = others ++ [.object f]

/-- The last returned value of a function is a call of the function itself by a name, and
the one before it is a literal. -/
structure Program.CallsItselfLast (p : Program) (f : ObjectId) (scope : ScopeId) (l : Literal) :
    Prop where
  function : p.objects.get f = .function scope
  sites : ∃ earlier literal call, p.returnedSites scope = earlier ++ [literal, call] ∧
    p.tree.get? literal = some (.literal l) ∧
    ∃ func args keywords, p.tree.get? call = some (.call func args keywords) ∧
      p.Names scope func f

/-- An object is what a literal gives, in a generator or not. -/
def ObjectStore.IsLiteral (st : ObjectStore) (l : Literal) (generator : Bool) (o : ObjectId) :
    Prop :=
  ∃ i, st.get i = .inst (BuiltinClass.ofLiteral l).object none ∧
    if generator then st.get o = .generator i else o = i

namespace Infer

variable {p : Program} {f : ObjectId} {scope : ScopeId} {s s' : State}

/-- A call of a function in flight by a name ends on a function in flight, unless the
guard is full or attempts are used up by it. -/
theorem evaluate_call_inFlight (hd : p.tree.Descending) {call func : NodeRef}
    {args keywords : List NodeRef} (hcall : p.tree.node? call = some (.call func args keywords))
    (hfunc : p.Names scope func f) (hknown : f.isKnown = true) {inner : ScopeId}
    (hf : s.objects.get f = .function inner) (hsites : p.returnedSites inner ≠ [])
    (hs : s.inFlight.Balanced) (hvisiting : f ∈ s.inFlight.visiting)
    (hdepth : s.inFlight.depth < s.inFlight.maxDepth)
    (hresolving : ∀ key, ∃ g, s.resolving.refresh.enter key = (.entered, g)) :
    (∃ g s', p.evaluate scope call s = .error (.reentrant g) s' ∧ s.Settles s') ∨
      ∃ s', p.evaluate scope call s = .ok (some (.unbound .unknown)) s' ∧ s.Settles s' ∧
        s'.inFlight.maxIterations < s'.inFlight.iterations := by
  have hend := (Operation.evaluate scope call).ended (p := p) s
  change Operation.Ended p s (p.evaluate scope call s) at hend
  cases hrun : p.evaluate scope call s with
  | error e s' =>
      rw [hrun] at hend
      cases hend with
      | reentrant h _ => exact .inl ⟨_, s', rfl, h⟩
      | exhausted h => exact absurd hd h
  | ok found s' =>
      rw [hrun] at hend
      cases hend with
      | ok hsettles =>
      -- The callee resolves, and then the function is asked for.
      obtain ⟨name, binder, others, hexpr, hbinder, hdef⟩ := hfunc
      obtain ⟨g, henter⟩ := hresolving (binder, name)
      obtain ⟨g', hleave, hg'⟩ := Guard.leave_of_settles henter (.refl g)
      have hname := evaluate_name hexpr hbinder fun _ =>
        resolveLocal_object hdef hknown henter hleave
      rw [p.evaluate_eq_step hd, evaluateStep, hcall] at hrun
      simp only at hrun
      rw [evaluateCall_function hexpr hname hf] at hrun
      obtain ⟨r, s₃, hasked, hrun⟩ := bind_eq_ok.1 hrun
      cases hrun
      have hscope : s.objects.scopeOf? f = some inner := by rw [ObjectStore.scopeOf?, hf]
      obtain ⟨rfl, hused⟩ := tryReturned_eq_ok hasked hscope hsites hs hvisiting
        hdepth
      exact .inr ⟨s', rfl, hsettles, hused⟩

/-! ### A function that calls itself -/

/-- A result in a generator or not, with nothing but the store touched. -/
theorem returnedAs_run (generator : Bool) (o : ObjectId) (s : State) :
    ∃ o' st, returnedAs generator o s = .ok o' { s with objects := st } ∧ s.objects.Keeps st ∧
      if generator then st.get o' = .generator o else o' = o := by
  cases generator with
  | false => exact ⟨o, s.objects, rfl, .refl _, rfl⟩
  | true =>
      exact ⟨_, _, rfl, s.objects.keeps_intern _, s.objects.get_intern _⟩

/-- A literal among the returned values answers, whatever stands before it. -/
theorem scanReturned_literal (hp : p.WellBound) (hd : p.tree.Descending)
    (hs : p.objects.Extends s.objects) {l : Literal} {literal : NodeId}
    (hliteral : p.tree.get? literal = some (.literal l)) (generator : Bool)
    (sites : List NodeId) :
    ∃ o st, scanReturned p.evaluate scope generator (literal :: sites) s =
      .ok (some o) { s with objects := st } ∧ st.IsLiteral l generator o := by
  let object : Object := .inst (BuiltinClass.ofLiteral l).object none
  let i := (s.objects.intern object).1
  let st := (s.objects.intern object).2
  have hi : st.get i = object := s.objects.get_intern object
  have hvalue : attempt (p.evaluate scope (some literal)) s =
      .ok (.ok (some (.unbound i))) { s with objects := st } := by
    have hrun : p.evaluate scope (some literal) s =
        .ok (some (.unbound i)) { s with objects := st } := by
      rw [p.evaluate_eq_step hd]
      unfold evaluateStep
      rw [show p.tree.node? (some literal) = _ from hliteral]
      rfl
    rw [attempt, hrun]
  have hknown : i.isKnown = true := by
    refine hp.isKnown_of_get (hs.keeps.trans (s.objects.keeps_intern object)) ?_
    rw [hi]
    exact Object.noConfusion
  obtain ⟨o, st', hrun, hkeeps, ho⟩ := returnedAs_run generator i { s with objects := st }
  refine ⟨o, st', ?_, i, ?_, ho⟩
  · rw [scanReturned, bind_of_ok hvalue]
    simp only
    rw [if_pos (show (Name.unbound i).object.isKnown = true from hknown)]
    exact bind_of_ok hrun
  · rw [hkeeps.get_eq (s.objects.intern_lt object)]
    exact hi

/-- A returned value that is not known ends the search. -/
theorem scanReturned_unknown {eval : Evaluator} {generator : Bool} {site : NodeId}
    {sites : List NodeId} (h : eval scope (some site) s = .ok (some (.unbound .unknown)) s') :
    scanReturned eval scope generator (site :: sites) s = .ok none s' := by
  have hvalue : attempt (eval scope (some site)) s =
      .ok (.ok (some (.unbound .unknown))) s' := by
    rw [attempt, h]
  rw [scanReturned, bind_of_ok hvalue]
  rfl

theorem returned_of_ok {eval : Evaluator} {arguments : Option Arguments} {r : Option ObjectId}
    (h : tryReturned p eval f arguments s = .ok r s') :
    returned p eval f arguments s = .ok r s' := by
  have hattempt : attempt (tryReturned p eval f arguments) s = .ok (.ok r) s' := by
    rw [attempt, h]
  exact bind_of_ok hattempt

/-- A request without arguments gives what the returned values give while the function
is in flight. -/
theorem returned_of_entered {eval : Evaluator} (hscope : s.objects.scopeOf? f = some scope)
    (hsites : p.returnedSites scope ≠ []) {g g' : Guard ObjectId} {r : Option ObjectId}
    (henter : s.inFlight.refresh.enter f = (.entered, g))
    (hscan : scanReturned eval scope (p.isGenerator scope) (p.returnedSites scope).reverse
      { s with inFlight := g } = .ok r s')
    (hleave : s'.inFlight.leave f = .ok g') :
    returned p eval f none s = .ok r { s' with inFlight := g' } := by
  have hentered : enterFunction f s = .ok .entered { s with inFlight := g } := by
    change EStateM.Result.ok (s.inFlight.refresh.enter f).1
      { s with inFlight := (s.inFlight.refresh.enter f).2 } = _
    rw [henter]
  have hrun : tryReturned p eval f none s = .ok r { s' with inFlight := g' } := by
    unfold tryReturned
    rw [get_bind_run, hscope]
    simp only [List.isEmpty_iff, hsites, if_false, Option.mapM_none, pure_bind]
    rw [bind_of_ok hentered]
    simp only [inferInFlight]
    rw [bind_of_ok hscan, bind_of_ok (leaveFunction_eq hleave)]
    rfl
  exact returned_of_ok hrun

/-- Such a function returns the literal, unless the call of itself uses up the attempts. -/
theorem answered_by_literal (hp : p.WellBound) (hd : p.tree.Descending) (hs : s.Reached p)
    {l : Literal} (h : p.CallsItselfLast f scope l) (hdepth : 2 ≤ s.inFlight.maxDepth)
    (hiterations : 1 ≤ s.inFlight.maxIterations) :
    ∃ r s', returned p p.evaluate f none s = .ok r s' ∧
      (s'.inFlight.iterations ≤ s'.inFlight.maxIterations →
        ∃ o, r = some o ∧ s'.objects.IsLiteral l (p.isGenerator scope) o) := by
  obtain ⟨earlier, literal, call, hsites, hliteral, func, args, keywords, hcall, hfunc⟩ := h.sites
  replace hcall : p.tree.node? (some call) = some (.call func args keywords) := hcall
  have hf : s.objects.get f = .function scope := by
    rw [hs.extends.keeps.get_eq (ObjectStore.lt_size_of_get (by simp [h.function])), h.function]
  have hscope : s.objects.scopeOf? f = some scope := by rw [ObjectStore.scopeOf?, hf]
  have hne : p.returnedSites scope ≠ [] := by simp [hsites]
  have hreverse : (p.returnedSites scope).reverse = call :: literal :: earlier.reverse := by
    simp [hsites]
  -- The function is in flight, and nothing else is.
  have hactive := hs.depth_eq_zero.1
  have henter := Guard.enter_of_inactive hactive (Nat.lt_of_lt_of_le Nat.two_pos hdepth) hiterations
    (by rw [hs.maxVisiting_inFlight]; decide) f
  generalize hg : s.inFlight.reset.tried.visit f = g at henter
  have hbalanced := Guard.balanced_of_enter henter
    (Guard.balanced_refresh hs.disciplined_and_idle.1.inFlight)
  have hvisiting : f ∈ g.visiting := hg ▸ List.mem_cons_self
  have hroom : g.depth < g.maxDepth := hg ▸ hdepth
  have hknown : f.isKnown = true := hp.isKnown_of_get hs.extends.keeps (by simp [hf])
  rcases evaluate_call_inFlight (s := { s with inFlight := g }) hd hcall hfunc hknown hf hne
    hbalanced hvisiting hroom fun key => hs.enter_resolving key with
    ⟨e, s₂, hrun, hsettles⟩ | ⟨s₂, hrun, hsettles, hused⟩
  · -- The call is passed over, and the literal answers.
    obtain ⟨o, st, hscan, ho⟩ := scanReturned_literal (s := s₂.passedOver) hp hd
      (hs.extends.trans hsettles.objects) hliteral (p.isGenerator scope) earlier.reverse
    obtain ⟨g', hleave, _⟩ := Guard.leave_of_settles henter hsettles.inFlight
    rw [← scanReturned_of_reentrant hrun, ← hreverse] at hscan
    exact ⟨some o, _, returned_of_entered hscope hne henter hscan hleave, fun _ => ⟨o, rfl, ho⟩⟩
  · -- The call has bailed out, which the guard remembers.
    have hscan : scanReturned p.evaluate scope (p.isGenerator scope)
        (call :: literal :: earlier.reverse) { s with inFlight := g } = .ok none s₂ :=
      scanReturned_unknown hrun
    rw [← hreverse] at hscan
    obtain ⟨g', hleave, _⟩ := Guard.leave_of_settles henter hsettles.inFlight
    obtain ⟨hcount, hmax⟩ := Guard.iterations_of_leave hleave
    refine ⟨none, _, returned_of_entered hscope hne henter hscan hleave, fun hi => ?_⟩
    rw [hcount, hmax] at hi
    exact absurd hi (Nat.not_le.2 hused)

end Infer

/-- Requests for a function in flight, at any depth. One is reported as a cycle if one
more function might be in flight and attempts are left, and bails out if the guard is
full. A returned value that ends on such a report is passed over, and the values before
it are tried. So a function with a call of itself after a literal gives the literal, if
the guard has room for two functions and the request leaves attempts over. -/
theorem reentry_reported {tree : Tree} (hd : tree.Descending) (atoms : Interner)
    (root : NodeRef) :
    let p := Program.bind tree atoms root
    (∀ (s s₁ : State) (f : ObjectId) (scope : ScopeId) (arguments : Option Arguments)
        (parameters : Option (List ObjectId)), s.Disciplined p → f ∈ s.inFlight.visiting →
      s.objects.scopeOf? f = some scope → p.returnedSites scope ≠ [] →
      arguments.mapM (Infer.boundParameters p p.evaluate f) s = .ok parameters s₁ →
      s₁.inFlight.tried.iterations ≤ s₁.inFlight.maxIterations →
      (Operation.tryReturned f arguments).perform p s =
        if s.inFlight.depth < s.inFlight.maxDepth then .error (.reentrant f) s₁.reported
        else .ok none s₁.bailedOut) ∧
    (∀ (s s₁ : State) (f : ObjectId) (scope : ScopeId) (generator : Bool) (site : NodeId)
        (sites : List NodeId), p.evaluate scope (some site) s = .error (.reentrant f) s₁ →
      Infer.scanReturned p.evaluate scope generator (site :: sites) s =
        Infer.scanReturned p.evaluate scope generator sites s₁.passedOver) ∧
    (∀ (s : State) (f : ObjectId) (scope : ScopeId) (l : Literal), s.Reached p →
      p.CallsItselfLast f scope l → 2 ≤ s.inFlight.maxDepth → 1 ≤ s.inFlight.maxIterations →
      ∃ r s₁, (Operation.returned f none).perform p s = .ok r s₁ ∧
        (s₁.inFlight.iterations ≤ s₁.inFlight.maxIterations →
          ∃ o, r = some o ∧ s₁.objects.IsLiteral l (p.isGenerator scope) o)) := by
  intro p
  have hp : p.WellBound := (Program.wellBound_bind tree atoms root).1
  have hpd : p.tree.Descending := hd
  refine ⟨fun s s₁ f scope arguments parameters hs hf hscope hsites hbound hi => ?_,
    fun s s₁ f scope generator site sites h => Infer.scanReturned_of_reentrant h,
    fun s f scope l hs h hdepth hi => Infer.answered_by_literal hp hpd hs h hdepth hi⟩
  obtain ⟨hf₁, hactive, hdepth, hmax⟩ :=
    Infer.inFlight_of_boundParameters hbound hs.inFlight hf
  change Infer.tryReturned p p.evaluate f arguments s = _
  split
  · exact Infer.tryReturned_reports hscope hsites hbound hf₁ hactive hi (by omega)
  · exact Infer.tryReturned_bailsOut hscope hsites hbound hactive (.inr (by omega))

/-- A function that returns a literal or, after that, what a call of itself gives. -/
def Tree.selfCallingLast : Tree :=
  ⟨#[.literal (.int 1), .returnStatement (some 0), .name 1, .call (some 2) [] [],
    .returnStatement (some 3), .functionDef 1 [] [] [some 1, some 4], .module [some 5]]⟩

theorem Program.callsItselfLast_selfCallingLast :
    (Program.bind Tree.selfCallingLast ⟨#["", "f"]⟩ (some 6)).CallsItselfLast 16 1 (.int 1) :=
  ⟨by decide +kernel, [], 0, 3, by decide +kernel, rfl, some 2, [], [], rfl, 1, 0, [], rfl,
    by decide +kernel, by decide +kernel⟩

/-- With the usual limits the call is reported, and the literal answers. -/
theorem reentry_reported_selfCallingLast :
    let p := Program.bind Tree.selfCallingLast ⟨#["", "f"]⟩ (some 6)
    let s := State.start (.fresh p) {} {}
    let t := { s with inFlight := (s.inFlight.refresh.enter 16).2 }
    Tree.selfCallingLast.Descending ∧ t.Disciplined p ∧ 16 ∈ t.inFlight.visiting ∧
      t.objects.scopeOf? 16 = some 1 ∧ p.returnedSites 1 ≠ [] ∧
      t.inFlight.tried.iterations ≤ t.inFlight.maxIterations ∧
      (Operation.tryReturned 16 none).perform p t = .error (.reentrant 16) t.reported ∧
      s.Reached p ∧ p.CallsItselfLast 16 1 (.int 1) ∧ 2 ≤ s.inFlight.maxDepth ∧
      1 ≤ s.inFlight.maxIterations ∧
      ∃ o s₁, (Operation.returned 16 none).perform p s = .ok (some o) s₁ ∧
        s₁.objects.IsLiteral (.int 1) false o := by
  intro p s t
  have hd : Tree.selfCallingLast.Descending := by decide
  have hdisciplined : t.Disciplined p := by decide +kernel
  have hf : 16 ∈ t.inFlight.visiting := by decide +kernel
  have hscope : t.objects.scopeOf? 16 = some 1 := by decide +kernel
  have hsites : p.returnedSites 1 ≠ [] := by decide +kernel
  have hi : t.inFlight.tried.iterations ≤ t.inFlight.maxIterations := by decide +kernel
  obtain ⟨hrequest, _, hliteral⟩ := reentry_reported hd ⟨#["", "f"]⟩ (some 6)
  have hreported := hrequest t t 16 1 none none hdisciplined hf hscope hsites rfl hi
  rw [if_pos (by decide +kernel)] at hreported
  have hs : s.Reached p := .start _ _
  obtain ⟨r, s₁, hrun, hanswer⟩ := hliteral s 16 1 (.int 1) hs
    Program.callsItselfLast_selfCallingLast (by decide) (by decide)
  -- Two attempts are made, and far more are allowed.
  have hleft : (match (Operation.returned 16 none).perform p s with
      | .ok _ s₁ => decide (s₁.inFlight.iterations ≤ s₁.inFlight.maxIterations)
      | .error _ _ => false) = true := by decide +kernel
  rw [hrun] at hleft
  obtain ⟨o, rfl, ho⟩ := hanswer (of_decide_eq_true hleft)
  exact ⟨hd, hdisciplined, hf, hscope, hsites, hi, hreported, hs,
    Program.callsItselfLast_selfCallingLast, by decide, by decide, o, s₁, hrun, ho⟩

/-- With room for one function in flight the same call is not reported. It bails out,
although attempts are left, and the function gives nothing. -/
theorem reentry_unreported_selfCallingLast :
    let p := Program.bind Tree.selfCallingLast ⟨#["", "f"]⟩ (some 6)
    let s := State.start (.fresh p) {} { maxInferenceDepth := 1 }
    let t := { s with inFlight := (s.inFlight.refresh.enter 16).2 }
    Tree.selfCallingLast.Descending ∧ t.Disciplined p ∧ 16 ∈ t.inFlight.visiting ∧
      t.objects.scopeOf? 16 = some 1 ∧ p.returnedSites 1 ≠ [] ∧
      t.inFlight.tried.iterations ≤ t.inFlight.maxIterations ∧
      (Operation.tryReturned 16 none).perform p t = .ok none t.bailedOut ∧
      s.Reached p ∧ p.CallsItselfLast 16 1 (.int 1) ∧ 1 ≤ s.inFlight.maxDepth ∧
      1 ≤ s.inFlight.maxIterations ∧
      ∃ s₁, (Operation.returned 16 none).perform p s = .ok none s₁ ∧
        s₁.inFlight.iterations ≤ s₁.inFlight.maxIterations := by
  intro p s t
  have hd : p.tree.Descending := by decide
  have hscope : t.objects.scopeOf? 16 = some 1 := by decide +kernel
  have hsites : p.returnedSites 1 ≠ [] := by decide +kernel
  have hs : s.Reached p := .start _ _
  have hbailed : (Operation.tryReturned 16 none).perform p t = .ok none t.bailedOut :=
    Infer.tryReturned_bailsOut hscope hsites rfl (by decide +kernel) (.inr (by decide +kernel))
  obtain ⟨r, s₁, hrun, _⟩ := hs.perform_ok hd (.returned 16 none)
  have hnone : (match (Operation.returned 16 none).perform p s with
      | .ok r s₁ => decide (r = none ∧ s₁.inFlight.iterations ≤ s₁.inFlight.maxIterations)
      | .error _ _ => false) = true := by decide +kernel
  rw [hrun] at hnone
  obtain ⟨rfl, hi⟩ := of_decide_eq_true hnone
  exact ⟨hd, by decide +kernel, by decide +kernel, hscope, hsites, by decide +kernel, hbailed, hs,
    Program.callsItselfLast_selfCallingLast, by decide, by decide, s₁, hrun, hi⟩

end ObjectInference
