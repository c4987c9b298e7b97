import Mathlib.Algebra.GroupWithZero.Nat
import ObjectInference.Proofs.Moves
import ObjectInference.Proofs.Signals

/-!
The counts of an analysis balance.

Every call that an analysis meets, and every assignment to an item that it turns
into a call, is dealt with in one of four ways: the callee does not resolve, or
it cannot be called, or the call is entered in the log, or it is carried out as
a call of a built-in function. `Stats.Accounts` says so of what is added to the
counts. Evaluation adds nothing but what it gives up, and a part of an analysis
adds what its own parts add. That every target of a call is a function, and that
binding its arguments has a result, closes the account.
-/

namespace ObjectInference

namespace Stats

def plus (c d : Stats) : Stats :=
  { entitiesAnalyzed := c.entitiesAnalyzed + d.entitiesAnalyzed
    callSites := c.callSites + d.callSites
    unresolvedCallees := c.unresolvedCallees + d.unresolvedCallees
    skippedCallees := c.skippedCallees + d.skippedCallees
    recordedCalls := c.recordedCalls + d.recordedCalls
    builtinCalls := c.builtinCalls + d.builtinCalls
    subscriptAssignments := c.subscriptAssignments + d.subscriptAssignments
    reentrantSites := c.reentrantSites + d.reentrantSites
    limitBailouts := c.limitBailouts + d.limitBailouts }

@[simp] theorem plus_zero (c : Stats) : c.plus {} = c := rfl

theorem plus_assoc (c d e : Stats) : (c.plus d).plus e = c.plus (d.plus e) := by
  simp only [plus, Nat.add_assoc]

def gaveUp (sites bailouts : Nat) : Stats :=
  { reentrantSites := sites, limitBailouts := bailouts }

def met (c : Stats) : Nat := c.callSites + c.subscriptAssignments

def dealtWith (c : Stats) : Nat :=
  c.unresolvedCallees + c.skippedCallees + c.recordedCalls + c.builtinCalls

/-- What is counted for so many scopes and calls, when so many calls beside those
met have been dealt with. If calls of built-in functions are not carried out,
they are not counted, and nothing else is left out. -/
structure Accounts (options : Options) (scopes calls owed : Nat) (c : Stats) : Prop where
  scopes : c.entitiesAnalyzed = scopes
  calls : c.callSites = calls
  eager (h : options.eagerBuiltinCalls = true) : c.dealtWith = c.met + owed
  lazy (h : options.eagerBuiltinCalls = false) :
    c.builtinCalls = 0 ∧ c.dealtWith ≤ c.met + owed

namespace Accounts

variable {options : Options} {scopes scopes' calls calls' owed owed' : Nat} {c d : Stats}

theorem gaveUp (options : Options) (sites bailouts : Nat) :
    Accounts options 0 0 0 (.gaveUp sites bailouts) :=
  ⟨rfl, rfl, fun _ => rfl, fun _ => ⟨rfl, Nat.le_refl 0⟩⟩

theorem plus (h : Accounts options scopes calls owed c)
    (h' : Accounts options scopes' calls' owed' d) :
    Accounts options (scopes + scopes') (calls + calls') (owed + owed') (c.plus d) := by
  obtain ⟨rfl, rfl, heager, hlazy⟩ := h
  obtain ⟨rfl, rfl, heager', hlazy'⟩ := h'
  refine ⟨rfl, rfl, fun h => ?_, fun h => ?_⟩
  · have := heager h
    have := heager' h
    simp only [met, dealtWith, Stats.plus] at *
    omega
  · have := hlazy h
    have := hlazy' h
    simp only [met, dealtWith, Stats.plus] at *
    omega

/-- A call that has been met is no longer owed. -/
theorem call (h : Accounts options scopes calls (owed + 1) c) :
    Accounts options scopes (calls + 1) owed (.plus { callSites := 1 } c) := by
  obtain ⟨rfl, rfl, heager, hlazy⟩ := h
  refine ⟨by simp [Stats.plus], Nat.add_comm _ _, fun h => ?_, fun h => ?_⟩
  · have := heager h
    simp only [met, dealtWith, Stats.plus] at *
    omega
  · have := hlazy h
    simp only [met, dealtWith, Stats.plus] at *
    omega

/-- Nor is an assignment. -/
theorem assignment (h : Accounts options scopes calls (owed + 1) c) :
    Accounts options scopes calls owed (.plus { subscriptAssignments := 1 } c) := by
  obtain ⟨rfl, rfl, heager, hlazy⟩ := h
  refine ⟨by simp [Stats.plus], by simp [Stats.plus], fun h => ?_, fun h => ?_⟩
  · have := heager h
    simp only [met, dealtWith, Stats.plus] at *
    omega
  · have := hlazy h
    simp only [met, dealtWith, Stats.plus] at *
    omega

end Accounts

end Stats

/-! ### Calls met -/

def Tree.isCall (t : Tree) (i : NodeId) : Bool :=
  match t.get? i with
  | some (.call ..) => true
  | _ => false

def Program.calls (p : Program) (s : ScopeId) : List NodeId :=
  (p.sites s).filter p.tree.isCall

/-! ### What a computation adds -/

/-- From one state to another so much has been added to the counts, one call in the
log for each that is counted as recorded. -/
structure State.Adds (c : Stats) (s s' : State) : Prop where
  stats : s'.stats = s.stats.plus c
  log : s'.calls.size = s.calls.size + c.recordedCalls

theorem State.Adds.trans {c d : Stats} {s₁ s₂ s₃ : State} (h : s₁.Adds c s₂)
    (h' : s₂.Adds d s₃) : s₁.Adds (c.plus d) s₃ := by
  refine ⟨by rw [h'.stats, h.stats, Stats.plus_assoc], ?_⟩
  rw [h'.log, h.log]
  simp only [Stats.plus]
  omega

/-- Nothing is added by a move, unless it records, but what it gives up. -/
theorem State.Move.adds {p : Program} {s s' : State} (h : s.Move p False s') :
    ∃ m n, s.Adds (.gaveUp m n) s' := by
  cases h with
  | giveUp h =>
      cases h with
      | reentrantSite => exact ⟨1, 0, rfl, rfl⟩
      | limitBailout => exact ⟨0, 1, rfl, rfl⟩
  | record h _ => exact h.elim
  | tally h _ => exact h.elim
  | _ => exact ⟨0, 0, rfl, rfl⟩

theorem State.Moves.adds {p : Program} {s s' : State} (h : s.Moves p False s') :
    ∃ m n, s.Adds (.gaveUp m n) s' := by
  induction h with
  | refl => exact ⟨0, 0, rfl, rfl⟩
  | tail _ hmove ih =>
      obtain ⟨m, n, h⟩ := ih
      obtain ⟨m', n', h'⟩ := hmove.adds
      exact ⟨m + m', n + n', h.trans h'⟩

/-- A computation that, when it has a result, has added to the counts what
accounts for so many scopes and calls. -/
def Infer.Adding {α : Type} (options : Options) (scopes calls owed : Nat) (s : State)
    (x : Infer α) : Prop :=
  ∀ a s', x s = .ok a s' → ∃ c, s.Adds c s' ∧ c.Accounts options scopes calls owed

namespace Infer

variable {α β : Type} {p : Program} {options : Options} {s : State}
  {scopes scopes' calls calls' owed owed' : Nat}

theorem Moving.adding {x : Infer α} (hx : Moving p False x) (options : Options) (s : State) :
    Adding options 0 0 0 s x := by
  intro a s' hrun
  obtain ⟨m, n, h⟩ := (hx s a s' hrun).adds
  exact ⟨_, h, .gaveUp options m n⟩

namespace Adding

theorem pure (a : α) : Adding options 0 0 0 s (Pure.pure a : Infer α) :=
  fun _ s' hrun => by
    cases hrun
    exact ⟨_, ⟨rfl, rfl⟩, .gaveUp options 0 0⟩

theorem bind {x : Infer α} {f : α → Infer β} (hx : Adding options scopes calls owed s x)
    (hf : ∀ a s', x s = .ok a s' → Adding options scopes' calls' owed' s' (f a)) :
    Adding options (scopes + scopes') (calls + calls') (owed + owed') s (x >>= f) := by
  intro b s'' hrun
  obtain ⟨a, s', hs', hrun⟩ := bind_eq_ok.1 hrun
  obtain ⟨c, hc, haccounts⟩ := hx a s' hs'
  obtain ⟨d, hd, haccounts'⟩ := hf a s' hs' b s'' hrun
  exact ⟨_, hc.trans hd, haccounts.plus haccounts'⟩

/-- What moves first adds nothing. -/
theorem bind_of_moving {x : Infer α} {f : α → Infer β} (hx : Moving p False x)
    (hf : ∀ a s', x s = .ok a s' → Adding options scopes calls owed s' (f a)) :
    Adding options scopes calls owed s (x >>= f) := by
  have h := (hx.adding options s).bind hf
  simpa only [Nat.zero_add] using h

theorem count {change : Stats → Stats} {c : Stats} (hchange : ∀ d, change d = d.plus c)
    (hc : c.recordedCalls = 0) (h : c.Accounts options scopes calls owed) :
    Adding options scopes calls owed s (Infer.count change) := by
  intro _ s' hrun
  cases hrun
  exact ⟨c, ⟨hchange _, by simp [hc]⟩, h⟩

/-- What is counted first, and what follows. -/
theorem count_bind {change : Stats → Stats} {c : Stats} (hchange : ∀ d, change d = d.plus c)
    (hc : c.recordedCalls = 0) {x : Infer β}
    (h : ∀ d : Stats, d.Accounts options scopes calls owed →
      (c.plus d).Accounts options scopes' calls' owed')
    (hx : Adding options scopes calls owed { s with stats := change s.stats } x) :
    Adding options scopes' calls' owed' s (do Infer.count change; x) := by
  intro b s'' hrun
  obtain ⟨_, s', hs', hrun⟩ := bind_eq_ok.1 hrun
  cases hs'
  obtain ⟨d, hd, haccounts⟩ := hx b s'' hrun
  exact ⟨_, State.Adds.trans ⟨hchange _, by simp [hc]⟩ hd, h d haccounts⟩

theorem call {x : Infer β}
    (hx : Adding options scopes calls (owed + 1)
      { s with stats := { s.stats with callSites := s.stats.callSites + 1 } } x) :
    Adding options scopes (calls + 1) owed s (do
      Infer.count fun c => { c with callSites := c.callSites + 1 }
      x) :=
  count_bind (fun _ => rfl) rfl (fun _ h => h.call) hx

theorem assignment {x : Infer β}
    (hx : Adding options scopes calls (owed + 1)
      { s with stats :=
        { s.stats with subscriptAssignments := s.stats.subscriptAssignments + 1 } } x) :
    Adding options scopes calls owed s (do
      Infer.count fun c => { c with subscriptAssignments := c.subscriptAssignments + 1 }
      x) :=
  count_bind (fun _ => rfl) rfl (fun _ h => h.assignment) hx

/-- The parts of a loop add up. -/
theorem forM {f : α → Infer Unit} {calls : α → Nat}
    (h : ∀ x s, Adding options scopes (calls x) 0 s (f x)) (xs : List α) (s : State) :
    Adding options (xs.length * scopes) (xs.map calls).sum 0 s (xs.forM f) := by
  induction xs generalizing s with
  | nil =>
      have hpure : Adding options 0 0 0 s (Pure.pure () : Infer Unit) := .pure ()
      simpa using hpure
  | cons x xs ih =>
      have hall := (h x s).bind fun _ s' _ => ih s'
      simpa [Nat.succ_mul, Nat.add_comm] using hall

end Adding

/-! ### Calls -/

/-- Every operation but an analysis adds nothing. -/
theorem moving_perform (op : Operation α) (hop : ¬ op.IsAnalysis) :
    Moving p False (op.perform p) :=
  op.moving hop

theorem adding_recordCall (f : ObjectId) (record : CallRecord) :
    Adding options 0 0 1 s (recordCall f record) := by
  intro _ s' hrun
  cases hrun
  refine ⟨{ recordedCalls := 1 }, ⟨rfl, rfl⟩, rfl, rfl, fun _ => rfl, fun _ => ⟨rfl, ?_⟩⟩
  exact Nat.le_refl 1

/-- A call of a function is recorded or carried out. -/
theorem adding_simulateCall {target : CallTarget}
    (hf : (s.objects.kind target.function).isFunction = true) :
    Adding options 0 0 1 s (Uncaught.simulateCall p p.evaluate options target) := by
  have hbind := moving_perform (p := p) (.bindArguments target.function target.arguments) id
  intro a s' hrun
  unfold Uncaught.simulateCall at hrun
  rw [get_bind_run] at hrun
  cases hk : s.objects.kind target.function with
  | function =>
      rw [hk] at hrun
      exact Adding.bind_of_moving hbind (fun bound s₁ _ => adding_recordCall _ bound) a s' hrun
  | builtinFunction =>
      rw [hk] at hrun
      dsimp only at hrun
      split at hrun
      · rename_i heager
        have hcall : ∀ bound, Moving p False
            (discard (callBuiltinObject target.function bound)) :=
          fun bound => .bind (moving_callBuiltinObject _ bound) fun _ => .pure ()
        refine Adding.bind_of_moving hbind (fun bound s₁ _ => ?_) a s' hrun
        refine .bind_of_moving (hcall bound) fun _ s₂ _ => ?_
        refine .count (c := { builtinCalls := 1 }) (fun _ => rfl) rfl ⟨rfl, rfl, fun _ => rfl, ?_⟩
        intro hlazy
        rw [heager] at hlazy
        cases hlazy
      · rename_i hlazy
        cases hrun
        refine ⟨{}, ⟨rfl, rfl⟩, rfl, rfl, fun heager => absurd heager hlazy, fun _ => ⟨rfl, ?_⟩⟩
        exact Nat.zero_le _
  | _ =>
      rw [hk] at hf
      cases hf

/-- Methods with special names are functions. -/
theorem specialMethod?_isFunction {st : ObjectStore} {o m : ObjectId} {name : String}
    (h : p.specialMethod? st o name = some m) : (st.kind m).isFunction = true := by
  unfold Program.specialMethod? at h
  obtain ⟨_, _, h⟩ := Option.bind_eq_some_iff.1 h
  obtain ⟨_, _, h⟩ := Option.bind_eq_some_iff.1 h
  split at h
  · rename_i hfunction
    cases h
    exact hfunction
  · cases h

theorem constructor?_isFunction {st : ObjectStore} {c m : ObjectId}
    (h : p.constructor? st c = some m) : (st.kind m).isFunction = true := by
  unfold Program.constructor? at h
  split at h
  · exact specialMethod?_isFunction h
  · cases h

theorem callOperator?_isFunction {st : ObjectStore} {o m : ObjectId}
    (h : p.callOperator? st o = some m) : (st.kind m).isFunction = true := by
  unfold Program.callOperator? at h
  split at h
  · exact specialMethod?_isFunction h
  · cases h

theorem itemSetter?_isFunction {st : ObjectStore} {o m : ObjectId}
    (h : p.itemSetter? st o = some m) : (st.kind m).isFunction = true := by
  unfold Program.itemSetter? at h
  split at h
  · exact specialMethod?_isFunction h
  · cases h

theorem isFunction_of_extends {st st' : ObjectStore} (h : st.Extends st') {o : ObjectId}
    (ho : (st.kind o).isFunction = true) : (st'.kind o).isFunction = true := by
  unfold ObjectStore.kind at ho ⊢
  rcases h.get_eq_or o with heq | ⟨hunknown, _⟩
  · rwa [heq]
  · rw [hunknown] at ho
    cases ho

/-- Whatever is called is a function. -/
theorem callTarget_isFunction {scope : ScopeId} {call : NodeRef} {primary : Option Name}
    {callee : ObjectId} {target : CallTarget} {s' : State}
    (h : callTarget p scope call primary callee s = .ok (some target) s') :
    (s'.objects.kind target.function).isFunction = true := by
  unfold callTarget at h
  rw [get_bind_run] at h
  cases hk : s.objects.kind callee with
  | function =>
      rw [hk] at h
      cases h
      rw [hk]
      rfl
  | builtinFunction =>
      rw [hk] at h
      cases h
      rw [hk]
      rfl
  | cls =>
      rw [hk] at h
      dsimp only at h
      cases hf : p.constructor? s.objects callee with
      | none =>
          rw [hf] at h
          cases h
      | some f =>
          rw [hf] at h
          -- The new instance leaves what the constructor is as it was.
          obtain ⟨o, s₁, hs₁, h⟩ := bind_eq_ok.1 h
          obtain ⟨o', s₁', hs₁', hsettles⟩ := settling_newInstance callee call s
          rw [hs₁] at hs₁'
          cases hs₁'
          cases h
          exact isFunction_of_extends hsettles.objects (constructor?_isFunction hf)
  | inst =>
      rw [hk] at h
      cases hf : p.callOperator? s.objects callee with
      | none =>
          rw [hf] at h
          cases h
      | some f =>
          rw [hf] at h
          cases h
          exact callOperator?_isFunction hf
  | module =>
      rw [hk] at h
      cases h
  | unknown =>
      rw [hk] at h
      cases h

/-! ### Sites and scopes -/

section Visit

variable (scope : ScopeId)

theorem adding_visitCall (call : NodeId) (func : NodeRef) :
    Adding options 0 1 0 s (Uncaught.visitCall p p.evaluate options scope call func) := by
  refine .call ?_
  refine .bind_of_moving (moving_perform (.primaryAndResult scope func) id) fun x s₁ _ => ?_
  obtain ⟨primary, _ | callee⟩ := x
  · refine .count (c := { unresolvedCallees := 1 }) (fun _ => rfl) rfl ⟨rfl, rfl, fun _ => rfl, ?_⟩
    exact fun _ => ⟨rfl, Nat.le_refl 1⟩
  · refine .bind_of_moving (moving_callTarget scope _ _ _) fun target s₂ hs₂ => ?_
    cases target with
    | none =>
        refine .count (c := { skippedCallees := 1 }) (fun _ => rfl) rfl ⟨rfl, rfl, fun _ => rfl, ?_⟩
        exact fun _ => ⟨rfl, Nat.le_refl 1⟩
    | some target => exact adding_simulateCall (callTarget_isFunction hs₂)

theorem adding_simulateItemSetter (container index value : ObjectId) :
    Adding options 0 0 0 s
      (Uncaught.simulateItemSetter p p.evaluate options container index value) := by
  unfold Uncaught.simulateItemSetter
  split
  · intro a s' hrun
    rw [get_bind_run] at hrun
    cases hsetter : p.itemSetter? s.objects container with
    | none =>
        rw [hsetter] at hrun
        exact Adding.pure () a s' hrun
    | some setter =>
        rw [hsetter] at hrun
        have hf := itemSetter?_isFunction hsetter
        exact Adding.assignment (adding_simulateCall hf) a s' hrun
  · exact .pure ()

theorem adding_visitItemTarget (value : NodeRef) (target : NodeRef × List Nat) :
    Adding options 0 0 0 s
      (Uncaught.visitItemTarget p p.evaluate options scope value target) := by
  have heval : ∀ e, Moving p False (p.evaluate scope e) :=
    fun e => moving_perform (.evaluate scope e) id
  unfold Uncaught.visitItemTarget
  split
  · refine .bind_of_moving (heval _) fun container s₁ _ => ?_
    cases container with
    | none => exact .pure ()
    | some container =>
        refine .bind_of_moving (.bind (heval _) fun _ => .pure _) fun i s₂ _ => ?_
        refine .bind_of_moving (moving_perform (.assignedObject scope value target.2) id)
          fun v s₃ _ => ?_
        cases v with
        | none => exact .pure ()
        | some v => exact adding_simulateItemSetter container.object i v
  · exact .pure ()

theorem adding_visitSite (site : NodeId) :
    Adding options 0 (p.tree.isCall site).toNat 0 s
      (Uncaught.visitSite p p.evaluate options scope site) := by
  unfold Uncaught.visitSite Tree.isCall
  cases p.tree.get? site with
  | none => exact .pure ()
  | some node =>
      cases node with
      | call func args keywords => exact adding_visitCall scope site func
      | assign targets value =>
          dsimp only
          split
          · have htarget : ∀ target s, Adding options 0 0 0 s
                (Uncaught.visitItemTarget p p.evaluate options scope value target) :=
              fun target s => adding_visitItemTarget scope value target
            simpa using Adding.forM htarget (p.tree.itemTargets targets) s
          · exact .pure ()
      | _ => exact .pure ()

theorem adding_analyzeScope :
    Adding options 1 (p.calls scope).length 0 s
      (Uncaught.analyzeScope p p.evaluate options scope) := by
  have hcount : ∀ sites : List NodeId, (sites.map fun i => (p.tree.isCall i).toNat).sum =
      (sites.filter p.tree.isCall).length := by
    intro sites
    induction sites with
    | nil => rfl
    | cons i sites ih => cases hi : p.tree.isCall i <;> simp [hi, ih, Nat.add_comm]
  unfold Program.calls
  rw [← hcount]
  have hscope : Adding options 1 0 0 s
      (count fun c => { c with entitiesAnalyzed := c.entitiesAnalyzed + 1 }) :=
    .count (c := { entitiesAnalyzed := 1 }) (fun _ => rfl) rfl
      ⟨rfl, rfl, fun _ => rfl, fun _ => ⟨rfl, Nat.le_refl 0⟩⟩
  have hsite : ∀ site s, Adding options 0 (p.tree.isCall site).toNat 0 s
      (Uncaught.visitSite p p.evaluate options scope site) :=
    fun site s => adding_visitSite scope site
  have hall := hscope.bind fun _ s' _ => Adding.forM hsite (p.sites scope) s'
  simp only [Nat.mul_zero, Nat.add_zero, Nat.zero_add] at hall
  exact hall

end Visit

/-- What an analysis adds: one scope for each that is on its agenda, and one call for
each that it meets there. -/
theorem adding_analyze (entity : ObjectId) (analyzes searches : ObjectId → Bool) {scope : ScopeId}
    (hscope : s.objects.scopeOf? entity = some scope) :
    Adding options (p.agenda analyzes searches scope).length
      ((p.agenda analyzes searches scope).flatMap p.calls).length 0 s
      (Uncaught.analyze p options entity analyzes searches) := by
  intro a s' hrun
  unfold Uncaught.analyze at hrun
  rw [get_bind_run, hscope] at hrun
  have hscope : ∀ scope s, Adding options 1 (p.calls scope).length 0 s
      (Uncaught.analyzeScope p p.evaluate options scope) :=
    fun scope s => adding_analyzeScope scope
  have h := Adding.forM hscope (p.agenda analyzes searches scope) s a s' hrun
  simpa [List.length_flatMap] using h

/-- With nothing in flight an analysis accounts for what is on its agenda. -/
theorem adds_of_analyze (hs : s.inFlight.visiting = []) {entity : ObjectId}
    {analyzes searches : ObjectId → Bool} {s' : State}
    (hrun : analyze p options entity analyzes searches s = .ok () s') :
    ∃ c, s.Adds c s' ∧ c.Accounts options
      (((s.objects.scopeOf? entity).map (p.agenda analyzes searches)).getD []).length
      ((((s.objects.scopeOf? entity).map (p.agenda analyzes searches)).getD []).flatMap
        p.calls).length 0 := by
  rw [(calm_analyze p options entity analyzes searches s hs).1] at hrun
  cases hscope : s.objects.scopeOf? entity with
  | some scope => exact adding_analyze entity analyzes searches hscope () s' hrun
  | none =>
      unfold Uncaught.analyze at hrun
      rw [get_bind_run, hscope] at hrun
      exact Adding.pure () () s' hrun

/-- With nothing in flight an analysis has a result, if the tree lets it end. -/
theorem analyze_ok (hd : p.tree.Descending) (hs : s.inFlight.visiting = []) (options : Options)
    (entity : ObjectId) (analyzes searches : ObjectId → Bool) :
    ∃ s', analyze p options entity analyzes searches s = .ok () s' ∧ s.Settles s' := by
  have hend := (calm_analyze p options entity analyzes searches s hs).2
  generalize analyze p options entity analyzes searches s = r at hend ⊢
  cases hend with
  | ok h => exact ⟨_, rfl, h⟩
  | exhausted h => exact absurd hd h

end Infer

/-- The counts of an analysis that starts with nothing in flight. The log grows by the
calls that are counted as recorded. Every call that is met, and every assignment to an
item that is turned into a call, is counted once more by what became of it; unless
calls of built-in functions are left out, which are not counted then. -/
theorem analysis_counts_balance (p : Program) (options : Options) (entity : ObjectId)
    (analyzes searches : ObjectId → Bool) (s : State) (hs : s.inFlight.visiting = []) :
    (p.tree.Descending → ∃ s', Infer.analyze p options entity analyzes searches s = .ok () s') ∧
    ∀ s', Infer.analyze p options entity analyzes searches s = .ok () s' →
      ∃ c : Stats, s'.stats = s.stats.plus c ∧
        s'.calls.size = s.calls.size + c.recordedCalls ∧
        (options.eagerBuiltinCalls = true →
          c.unresolvedCallees + c.skippedCallees + c.recordedCalls + c.builtinCalls =
            c.callSites + c.subscriptAssignments) ∧
        (options.eagerBuiltinCalls = false → c.builtinCalls = 0 ∧
          c.unresolvedCallees + c.skippedCallees + c.recordedCalls + c.builtinCalls ≤
            c.callSites + c.subscriptAssignments) := by
  refine ⟨fun hd => ?_, fun s' hrun => ?_⟩
  · obtain ⟨s', hrun, _⟩ := Infer.analyze_ok hd hs options entity analyzes searches
    exact ⟨s', hrun⟩
  · obtain ⟨c, hadds, haccounts⟩ := Infer.adds_of_analyze hs hrun
    exact ⟨c, hadds.stats, hadds.log, haccounts.eager, haccounts.lazy⟩

/-- A module that calls its function, appends to a list, calls what is not defined, and
assigns to an item. -/
def Tree.visiting : Tree :=
  ⟨#[.pass, .functionDef 1 [⟨2, .positional, none⟩] [] [some 0], .list [], .name 3,
    .assign [some 3] (some 2), .name 1, .literal (.int 0), .call (some 5) [some 6] [],
    .exprStatement (some 7), .name 3, .attr (some 9) 4, .literal (.int 1),
    .call (some 10) [some 11] [], .exprStatement (some 12), .name 5, .call (some 14) [] [],
    .exprStatement (some 15), .name 3, .index (some 6), .subscript (some 17) (some 18),
    .assign [some 19] (some 11),
    .module [some 1, some 4, some 8, some 13, some 16, some 20]]⟩

def Program.visiting : Program :=
  .bind Tree.visiting ⟨#["", "f", "a", "xs", "append", "g"]⟩ (some 21)

/-- Of three calls one is recorded, one is carried out and one does not resolve; the
assignment is carried out. -/
theorem analysis_counts_balance_visiting :
    let p := Program.visiting
    let s := State.start (.fresh p) {} {}
    s.inFlight.visiting = [] ∧ ∃ s' c, Infer.analyze p {} p.module (fun _ => true)
        (fun _ => true) s = .ok () s' ∧
      s'.stats =
        { entitiesAnalyzed := 2, callSites := 3, unresolvedCallees := 1, recordedCalls := 1,
          builtinCalls := 2, subscriptAssignments := 1 } ∧
      s'.stats = s.stats.plus c ∧ s'.calls.size = s.calls.size + c.recordedCalls ∧
      c.unresolvedCallees + c.skippedCallees + c.recordedCalls + c.builtinCalls =
        c.callSites + c.subscriptAssignments := by
  intro p s
  have hcounts : (match Infer.analyze p {} p.module (fun _ => true) (fun _ => true) s with
      | .ok _ s' => s'.stats
      | .error _ s' => s'.stats) =
        { entitiesAnalyzed := 2, callSites := 3, unresolvedCallees := 1, recordedCalls := 1,
          builtinCalls := 2, subscriptAssignments := 1 } := by decide +kernel
  have hs : s.inFlight.visiting = [] := rfl
  obtain ⟨hend, hbalance⟩ :=
    analysis_counts_balance p {} p.module (fun _ => true) (fun _ => true) s hs
  obtain ⟨s', hrun⟩ := hend (by decide +kernel)
  obtain ⟨c, hstats, hlog, heager, _⟩ := hbalance s' hrun
  rw [hrun] at hcounts
  exact ⟨hs, s', c, hrun, hcounts, hstats, hlog, heager rfl⟩

end ObjectInference
