import ObjectInference.Proofs.Agenda
import ObjectInference.Proofs.Discipline
import ObjectInference.Proofs.Moves
import ObjectInference.Proofs.Slots
import ObjectInference.Session

/-!
The cache of parameter objects is coherent.

The cache outlives the analysis that has filled it, and the records that its
entries come from do not. Everything that changes the records of a function, or
puts others in their place, drops its entry, so what the cache holds is what
would be worked out anew: for each ordinary parameter what the latest recorded
call says of it. This holds between the operations on any sessions, one after the
other, and wherever an expression is evaluated in between. With nothing in
flight the name of a parameter then stands for what its session says of it.
-/

namespace ObjectInference

/-! ### What the cache may hold -/

namespace State

variable {p : Program} {s s' : State} {f : ObjectId} {os : List ObjectId}

/-- A state without what has been worked out for a function. -/
def dropParameters (s : State) (f : ObjectId) : State :=
  { s with parameterCache := s.parameterCache.erase f }

def parametersAnew? (p : Program) (s : State) (f : ObjectId) : Option (List ObjectId) :=
  match Infer.evidenceParameters p f (s.dropParameters f) with
  | .ok os _ => some os
  | .error _ _ => none

/-- A list for the parameters of a function is backed by the latest recorded call. -/
structure Backs (p : Program) (s : State) (f : ObjectId) (os : List ObjectId) : Prop where
  length : os.length = (placeholders (p.parameters s.objects f)).length
  slot : ∀ k, (hk : k < (p.parameters s.objects f).length) →
    (p.parameters s.objects f)[k].isSpecial = false →
    ∃ o ∈ os[slotOf (p.parameters s.objects f) k]?, p.StandsFor s f k (s.recordedAt f k) o
  anew : s.parametersAnew? p f = some os

/-- Every entry of the cache is backed. -/
def Coherent (p : Program) (s : State) : Prop :=
  ∀ f os, s.parameterCache.get? f = some os → s.Backs p f os

theorem backs_iff : s.Backs p f os ↔
    os.length = (placeholders (p.parameters s.objects f)).length ∧
    (∀ k, (hk : k < (p.parameters s.objects f).length) →
      (p.parameters s.objects f)[k].isSpecial = false →
      ∃ o ∈ os[slotOf (p.parameters s.objects f) k]?, p.StandsFor s f k (s.recordedAt f k) o) ∧
    s.parametersAnew? p f = some os :=
  ⟨fun h => ⟨h.length, h.slot, h.anew⟩, fun ⟨h₁, h₂, h₃⟩ => ⟨h₁, h₂, h₃⟩⟩

instance (p : Program) (s : State) (f : ObjectId) (os : List ObjectId) :
    Decidable (s.Backs p f os) :=
  decidable_of_iff' _ backs_iff

theorem coherent_iff : s.Coherent p ↔ ∀ f ∈ s.parameterCache.keys,
    ∀ os ∈ s.parameterCache.get? f, s.Backs p f os :=
  ⟨fun h f _ os hos => h f os hos, fun h f os hos => h f (Table.mem_keys hos) os hos⟩

instance (p : Program) (s : State) : Decidable (s.Coherent p) :=
  decidable_of_iff' _ coherent_iff

/-! ### What every move keeps -/

/-- The store has grown without repetition, and the cache holds what is supplied. -/
structure Tended (p : Program) (s : State) : Prop where
  objects : p.objects.Extends s.objects
  distinct : s.objects.Distinct
  cache {f : ObjectId} {os : List ObjectId} (h : s.parameterCache.get? f = some os) :
    p.Supplied s f os

namespace Tended

theorem change (hs : s.Tended p) (ho : s.objects.Extends s'.objects) (hd : s'.objects.Distinct)
    (hc : ∀ {f os}, s'.parameterCache.get? f = some os →
      s.parameterCache.get? f = some os ∧ s'.calls.latest f = s.calls.latest f ∨
        p.Supplied s' f os) : s'.Tended p := by
  refine ⟨hs.objects.trans ho, hd, fun {f os} h => ?_⟩
  rcases hc h with ⟨hcached, hlatest⟩ | hsupplied
  · exact (hs.cache hcached).mono ho hlatest
  · exact hsupplied

/-- Neither the records nor the store has changed, and the cache has lost entries at most. -/
theorem lose (hs : s.Tended p) (ho : s'.objects = s.objects) (hcalls : s'.calls = s.calls)
    (hc : ∀ {f os}, s'.parameterCache.get? f = some os → s.parameterCache.get? f = some os) :
    s'.Tended p := by
  refine hs.change (ho ▸ .refl _) (ho ▸ hs.distinct) fun h => .inl ⟨hc h, ?_⟩
  rw [hcalls]

theorem move {recording : Prop} (hs : s.Tended p) (h : Move p recording s s') : s'.Tended p := by
  cases h with
  | giveUp _ => exact hs.lose rfl rfl id
  | make hobject =>
      exact hs.change (ObjectStore.extends_intern s.objects hobject) (hs.distinct.intern _)
        fun h => .inl ⟨h, rfl⟩
  | note scope container => exact hs.lose rfl rfl id
  | see _ o => exact hs.lose rfl rfl id
  | supply hsupplied =>
      exact hs.change (.refl _) hs.distinct fun h =>
        (hsupplied.of_insert h).imp (⟨·, rfl⟩) (·.mono (.refl _) rfl)
  | resolve g => exact hs.lose rfl rfl id
  | fly g => exact hs.lose rfl rfl id
  | bind contexts => exact hs.lose rfl rfl id
  | call _ scope parameters =>
      refine hs.lose (Infer.objects_opened _) rfl fun {g os} h => ?_
      change (s.toMemory.forgetTree p scope).parameterCache.get? g = some os at h
      rw [Memory.forgetTree_eq] at h
      exact Table.of_get?_restrict h
  | @record _ f r _ =>
      -- The only entry that the new record could contradict is dropped.
      refine hs.change (.refl _) hs.distinct fun {g os} h => .inl ?_
      rw [Table.get?_erase] at h
      split at h
      · cases h
      · rename_i hfg
        exact ⟨h, (latest_record s.calls f g r).trans (if_neg hfg)⟩
  | tally _ change => exact hs.lose rfl rfl id

/-- Working out what is not cached changes nothing that evaluation reads. -/
theorem evidenceParameters (hp : p.WellBound) (hs : s.Tended p) (f : ObjectId) :
    ∃ os s', Infer.evidenceParameters p f s = .ok os s' ∧ s.Quiet s' ∧ s'.Tended p ∧
      p.Supplied s' f os := by
  rcases Program.evidenceParameters_cases p s f with
    ⟨os, hcached, hrun⟩ | ⟨os, s₁, _, hsupplied, hmade, hrun⟩
  · exact ⟨os, s, hrun, .refl s, hs, hs.cache hcached⟩
  · have hs₁ : s₁.Tended p := by
      cases hmade with
      | none => exact hs
      | made _ => exact hs.move (show Move p True s _ from .make rfl)
    have hkept : Tended p { s₁ with parameterCache := s₁.parameterCache.insert f os } :=
      hs₁.move (show Move p True s₁ _ from .supply hsupplied)
    exact ⟨os, _, hrun, (hmade.quiet hp).trans (s₁.quiet_cache f os), hkept,
      hsupplied.mono (.refl _) rfl⟩

theorem dropParameters (hs : s.Tended p) (f : ObjectId) : (s.dropParameters f).Tended p := by
  refine hs.lose rfl rfl fun {g os} hg => ?_
  rw [State.dropParameters, Table.get?_erase] at hg
  split at hg
  · cases hg
  · exact hg

theorem coherent (hp : p.WellBound) (hs : s.Tended p) : s.Coherent p := by
  intro f os hcached
  have h := hs.cache hcached
  obtain ⟨os', s', hrun, hquiet, hs', h'⟩ := (hs.dropParameters f).evidenceParameters hp f
  have hsame : os' = os :=
    h'.unique hs'.distinct (h.mono hquiet.objects (congrArg (·.latest f) hquiet.calls))
  refine ⟨h.length_eq, fun k hk ho => h.slot (List.getElem?_eq_getElem hk) ho, ?_⟩
  rw [parametersAnew?, hrun, hsame]

end Tended

theorem Reached.tended (hp : p.WellBound) (h : s.Reached p) : s.Tended p := by
  have hstart : ∀ (m : Memory) (calls : CallLog) (options : Options), p.objects.Extends m.objects →
      m.objects.Distinct → m.parameterCache = .empty → (State.start m calls options).Tended p := by
    intro m calls options ho hd hcache
    refine ⟨ho, hd, fun {f os} h => ?_⟩
    rw [show (State.start m calls options).parameterCache = .empty from hcache] at h
    cases h
  exact h.of_after (fun calls options => hstart _ calls options (.refl _) hp.distinct rfl)
    (fun s hs calls options => hstart _ calls options hs.objects hs.distinct rfl)
    fun s hs α op => op.after_perform (fun _ _ hmove h => h.move hmove) (fun _ => trivial) hs

/-! ### Sessions -/

/-- The states of sessions over a program, one after the other over one memory. Each may
take over the calls recorded by a session over the program, or none. -/
inductive Led (p : Program) : State → Prop where
  | start (options : Options) : Led p (.start (.fresh p) {} options)
  | resume {s s' : State} (h : Led p s) (h' : Led p s') (options : Options) :
      Led p (.start s.toMemory.clearParameters s'.calls options)
  | ok {s s' : State} (h : Led p s) {α : Type} (op : Operation α) {a : α}
      (hrun : op.perform p s = .ok a s') : Led p s'
  | reentrant {s s' : State} (h : Led p s) {α : Type} (op : Operation α) {f : ObjectId}
      (hrun : op.perform p s = .error (.reentrant f) s') : Led p s'

theorem Led.reached (h : s.Led p) : s.Reached p := by
  induction h with
  | start options => exact .start {} options
  | resume _ _ options ih _ => exact .resume ih _ options
  | ok _ op hrun ih => exact .ok ih op hrun
  | reentrant _ op hrun ih => exact .reentrant ih op hrun

end State

/-- The latest call of every function has one object for each parameter. -/
def CallLog.Fits (p : Program) (l : CallLog) : Prop :=
  ∀ f record, l.latest f = some record → record.length = (p.parameters p.objects f).length

theorem CallLog.Fits.move {p : Program} {recording : Prop} {s s' : State} (hfits : s.calls.Fits p)
    (hs : s.Tended p) (h : State.Move p recording s s') : s'.calls.Fits p := by
  cases h with
  | @record _ f r hlength =>
      intro g record hg
      have hg : (s.calls.record f r).latest g = some record := hg
      rw [State.latest_record] at hg
      split at hg
      · rename_i hfg
        obtain rfl := Option.some.inj hg
        rw [← hfg, hlength, p.parameters_of_extends hs.objects]
      · exact hfits g record hg
  | _ => exact hfits

theorem State.Led.fits {p : Program} (hp : p.WellBound) {s : State} (h : s.Led p) :
    s.calls.Fits p := by
  have hafter : ∀ {α : Type} (op : Operation α) {s : State}, s.Led p → s.calls.Fits p →
      State.After (fun s => s.Tended p ∧ s.calls.Fits p) (op.perform p s) := by
    intro α op s hs hfits
    exact op.after_perform (fun _ _ hmove h => ⟨h.1.move hmove, h.2.move h.1 hmove⟩)
      (fun _ => trivial) ⟨hs.reached.tended hp, hfits⟩
  induction h with
  | start options =>
      intro f record hf
      cases hf
  | resume _ _ options _ ih => exact ih
  | @ok s s' hs α op a hrun ih =>
      have h := hafter op hs ih
      rw [hrun] at h
      exact h.2
  | @reentrant s s' hs α op f hrun ih =>
      have h := hafter op hs ih
      rw [hrun] at h
      exact h.2

/-! ### Names of parameters -/

namespace Infer

variable {p : Program} {s s' : State} {scope start : ScopeId} {name : Atom}

/-- A name with one definition is what that definition gives. -/
theorem firstKnown_single (eval : Evaluator) (d : Definition) :
    firstKnown p eval scope name (.ok none) [d] =
      attempt (resolveDefinition p eval scope name d) := by
  simp only [firstKnown, ite_self]
  exact bind_pure _

theorem parameterObject_run {d : Scope} {param : Param} {k : Nat} {os : List ObjectId}
    (hd : p.scope? scope = some d) (hk : d.params[k]? = some param) (ho : param.isSpecial = false)
    (hcurrent : currentParameters p d.owner s = .ok os s') :
    parameterObject p scope k s = .ok ((os[slotOf d.params k]?).getD .unknown) s' := by
  unfold parameterObject
  simp only [hd, hk, ho, Bool.false_eq_true, if_false]
  change EStateM.bind (currentParameters p d.owner) _ s = _
  rw [EStateM.bind, hcurrent]
  rfl

/-- With no name being resolved a name that is only a parameter is resolved to its
object. -/
theorem resolveLocal_parameter (eval : Evaluator) {k : Nat}
    (hdef : p.definitions scope name = [.parameter k]) {g : Guard (ScopeId × Atom)}
    (henter : s.resolving.refresh.enter (scope, name) = (.entered, g))
    {o : ObjectId} (hrun : parameterObject p scope k { s with resolving := g } = .ok o s')
    {g' : Guard (ScopeId × Atom)} (hleave : s'.resolving.leave (scope, name) = .ok g') :
    resolveLocal p eval scope name s =
      .ok (some ⟨o, .parameter name⟩) { s' with resolving := g' } := by
  have hentered : enterName (scope, name) s = .ok .entered { s with resolving := g } := by
    rw [enterName_run, henter]
  have hfirst : firstKnown p eval scope name (.ok none) [.parameter k] { s with resolving := g } =
      .ok (.ok (some ⟨o, .parameter name⟩)) s' := by
    have hresolved : resolveDefinition p eval scope name (.parameter k) { s with resolving := g } =
        .ok (some ⟨o, .parameter name⟩) s' := bind_eq_ok.2 ⟨_, _, hrun, rfl⟩
    rw [firstKnown_single, attempt, hresolved]
  have hleft : leaveName (scope, name) s' = .ok () { s' with resolving := g' } := by
    unfold leaveName
    rw [get_bind_run, hleave]
    rfl
  unfold resolveLocal
  rw [hdef]
  exact bind_eq_ok.2 ⟨_, _, hentered, bind_eq_ok.2 ⟨_, _, hfirst, bind_eq_ok.2 ⟨_, _, hleft, rfl⟩⟩⟩

/-- A name evaluates as it is resolved in the scope that binds it. -/
theorem evaluate_name {expr : NodeRef} (hexpr : p.tree.node? expr = some (.name name))
    (hstart : p.binder? start name = some scope) {r : EStateM.Result Interrupt State (Option Name)}
    (hrun : ∀ eval, resolveLocal p eval scope name s = r) : p.evaluate start expr s = r := by
  have hbudget : 0 < p.budget s := Nat.mul_pos (Nat.succ_pos _) (Nat.succ_pos _)
  unfold Program.evaluate
  generalize p.budget s = n at hbudget ⊢
  obtain ⟨n, rfl⟩ := Nat.exists_eq_succ_of_ne_zero (Nat.ne_of_gt hbudget)
  unfold evaluateWithin evaluateStep resolveName
  simp only [hexpr, hstart]
  exact hrun _

end Infer

/-- A name is seen from the scope that binds it. -/
theorem Program.binder?_self {p : Program} {scope : ScopeId} {name : Atom}
    (h : p.definitions scope name ≠ []) : p.binder? scope name = some scope := by
  cases hd : p.scope? scope with
  | none => simp [definitions, hd] at h
  | some d =>
      have hsize : 0 < p.scopes.size :=
        Nat.zero_lt_of_lt (Array.getElem?_eq_some_iff.1 (show p.scopes[scope]? = some d from hd)).1
      obtain ⟨n, hn⟩ := Nat.exists_eq_succ_of_ne_zero (Nat.ne_of_gt hsize)
      have hbinds : d.binds name = true := by
        simpa [definitions, hd, Scope.definitions, Scope.binds, List.filter_eq_nil_iff] using h
      simp [binder?, hn, binderWithin, hd, hbinds]

/-- The scope of a function binds a name only as the ordinary parameter at a place. -/
structure Program.BindsParameter (p : Program) (f : ObjectId) (scope : ScopeId) (name : Atom)
    (k : Nat) : Prop where
  function : p.objects.get f = .function scope
  definitions : p.definitions scope name = [.parameter k]
  ordinary : ∃ param, (p.parameters p.objects f)[k]? = some param ∧ param.isSpecial = false

namespace Program.BindsParameter

variable {p : Program} {f : ObjectId} {scope start : ScopeId} {name : Atom} {k : Nat}
  (h : p.BindsParameter f scope name k)

include h

/-- The name is seen from the scope itself. -/
theorem binder?_self : p.binder? scope name = some scope :=
  Program.binder?_self (by simp [h.definitions])

/-- Outside of all calls the parameter is what stands for it. -/
theorem parameterObject (hp : p.WellBound) (hframed : p.binding.Framed) {s : State}
    (hs : s.Tended p) (hcontexts : s.contexts = []) :
    ∃ o s', Infer.parameterObject p scope k s = .ok o s' ∧ s.Quiet s' ∧
      p.StandsFor s' f k (s.recordedAt f k) o := by
  obtain ⟨param, hk, ho⟩ := h.ordinary
  obtain ⟨os, s', hrun, hquiet, hs', hsupplied⟩ := hs.evidenceParameters hp f
  -- The parameters of the function are those of its scope.
  have hget : p.binding.objects.get f = Binding.ownerObject .function scope := h.function
  obtain ⟨d, hd, _, rfl⟩ := hframed.owned hget
  have hparameters : p.parameters s'.objects d.owner = d.params := by
    rw [p.parameters_of_extends hs'.objects, parameters, h.function]
    show ((p.scope? scope).map Scope.params).getD [] = _
    rw [show p.scope? scope = some d from hd]
    rfl
  have hk' : (p.parameters s'.objects d.owner)[k]? = some param := by
    rw [p.parameters_of_extends hs'.objects]
    exact hk
  obtain ⟨o, hslot, hstands⟩ := hsupplied.slot hk' ho
  rw [hparameters] at hk' hslot
  have hbound : s.boundParameters? d.owner = none := by
    unfold State.boundParameters?
    rw [hcontexts]
    rfl
  have hcurrent : Infer.currentParameters p d.owner s = .ok os s' := by
    unfold Infer.currentParameters
    rw [Infer.get_bind_run, hbound]
    exact hrun
  have hobject := Infer.parameterObject_run hd hk' ho hcurrent
  rw [hslot] at hobject
  have hrecorded : s'.recordedAt d.owner k = s.recordedAt d.owner k := by
    unfold State.recordedAt
    rw [hquiet.calls]
  rw [hrecorded] at hstands
  exact ⟨o, s', hobject, hquiet, hstands⟩

/-- The name evaluates to what stands for the parameter. -/
theorem evaluate (hp : p.WellBound) (hframed : p.binding.Framed) {s : State} (hs : s.Reached p)
    (hstart : p.binder? start name = some scope) {expr : NodeRef}
    (hexpr : p.tree.node? expr = some (.name name)) :
    ∃ o s', p.evaluate start expr s = .ok (some ⟨o, .parameter name⟩) s' ∧
      p.StandsFor s' f k (s.recordedAt f k) o := by
  obtain ⟨g, henter⟩ := hs.enter_resolving (scope, name)
  have htended : State.Tended p { s with resolving := g } := (hs.tended hp).lose rfl rfl id
  obtain ⟨o, s', hrun, hquiet, hstands⟩ :=
    h.parameterObject hp hframed htended hs.disciplined_and_idle.2.contexts
  obtain ⟨g', hleave, _⟩ := Guard.leave_of_settles henter (.refl g)
  refine ⟨o, { s' with resolving := g' }, Infer.evaluate_name hexpr hstart fun eval => ?_, hstands⟩
  have hleave' : s'.resolving.leave (scope, name) = .ok g' := hquiet.resolving ▸ hleave
  exact Infer.resolveLocal_parameter eval h.definitions henter hrun hleave'

/-- A session gives what is recorded for the parameter. -/
theorem parameterObjects (hp : p.WellBound) {t : Session} (ht : t.program = p)
    (hs : t.state.Led p) : (t.parameterObjects f)[slotOf (p.parameters p.objects f) k]? =
      some (t.state.recordedAt f k) := by
  obtain ⟨param, hk, ho⟩ := h.ordinary
  have hparameters := p.parameters_of_extends (hs.reached.tended hp).objects f
  rw [← hparameters] at hk ⊢
  unfold Session.parameterObjects
  rw [ht]
  cases hlatest : t.state.calls.latest f with
  | none =>
      have hrecorded : t.state.recordedAt f k = .unknown := by
        rw [State.recordedAt, hlatest]
        rfl
      rw [hrecorded]
      exact getElem?_placeholders (slotOf_lt hk ho)
  | some record =>
      have hlength := hs.fits hp f record hlatest
      rw [← hparameters] at hlength
      exact Program.ordinaryObjects_slot_latest hk ho hlatest hlength

end Program.BindsParameter

/-- The parameters of the cache are coherent with the records, between operations and
wherever an expression is evaluated. In the sessions over a program the name of a
parameter stands for what its session says of the parameter, unless that is the
unknown receiver of a method. -/
theorem cached_parameters_coherent (tree : Tree) (atoms : Interner) (root : NodeRef) :
    let p := Program.bind tree atoms root
    (∀ s : State, s.Reached p → s.Coherent p) ∧
    (∀ (α : Type) (op : Operation α) (s : State), s.Reached p →
      Operation.Ended p s (op.watch p (State.Coherent p) s) ∧
      (tree.Descending → op.watch p (State.Coherent p) s = op.perform p s)) ∧
    (∀ s : State, s.Led p → s.Reached p) ∧
    ∀ (t : Session) (f : ObjectId) (scope : ScopeId) (name : Atom) (k : Nat), t.program = p →
      t.state.Led p → p.BindsParameter f scope name k →
      p.binder? scope name = some scope ∧
      ∀ (start : ScopeId) (expr : NodeRef), p.binder? start name = some scope →
        tree.node? expr = some (.name name) →
        ∃ o recorded u, t.run (p.evaluate start expr) = (.ok (some ⟨o, .parameter name⟩), u) ∧
          (t.parameterObjects f)[slotOf (p.parameters p.objects f) k]? = some recorded ∧
          p.StandsFor u.state f k recorded o := by
  intro p
  have hp : p.WellBound := (Program.wellBound_bind tree atoms root).1
  have hframed : p.binding.Framed := Program.framed_bind tree atoms root
  refine ⟨fun s hs => (hs.tended hp).coherent hp, fun α op s hs => ?_, fun s hs => hs.reached, ?_⟩
  · exact op.watch_of_move (fun _ _ hmove h => h.move hmove) (fun _ => trivial) (hs.tended hp)
      fun _ h => h.coherent hp
  · intro t f scope name k ht hled h
    refine ⟨h.binder?_self, fun start expr hstart hexpr => ?_⟩
    obtain ⟨o, s', hrun, hstands⟩ := h.evaluate hp hframed hled.reached hstart hexpr
    refine ⟨o, _, { t with state := s' }, ?_, h.parameterObjects hp ht hled, hstands⟩
    unfold Session.run
    rw [hrun]

/-- A session that has analysed is one of those over its program. -/
theorem Session.led_analyze_start {p : Program} (hd : p.tree.Descending) (options : Options) :
    let s := (start p (.fresh p) options).analyze.2
    s.program = p ∧ s.state.Led p := by
  intro s
  let s₀ := start p (.fresh p) options
  let op : Operation Unit := .analyze options p.module (fun _ => true) fun _ => true
  obtain ⟨_, s', hrun, _⟩ := op.perform_ok hd (s := s₀.state) rfl
  have hs : s = { s₀ with state := s' } := congrArg Prod.snd (analyze_of_ok (s := s₀) hrun)
  rw [hs]
  exact ⟨rfl, .ok (.start options) op hrun⟩

/-- A class with a method that returns its receiver, and a function that is called with a
number. -/
def Tree.receiving : Tree :=
  ⟨#[.name 1, .returnStatement (some 0), .functionDef 2 [⟨1, .positional, none⟩] [] [some 1],
    .classDef 3 [] [some 2], .name 4, .returnStatement (some 4),
    .functionDef 5 [⟨4, .positional, none⟩] [] [some 5], .name 5, .literal (.int 1),
    .call (some 7) [some 8] [], .exprStatement (some 9), .module [some 3, some 6, some 10]]⟩

/-- Before any call the receiver is not known to the session, and its name stands for
the shared instance of the class. After an analysis the parameter of the function that was
called is known, and its name stands for what was recorded. -/
theorem cached_parameters_coherent_receiving :
    let p := Program.bind Tree.receiving ⟨#["", "self", "m", "C", "a", "g"]⟩ (some 11)
    let t := Session.start p (.fresh p) {}
    let u := t.analyze.2
    let integer : ObjectId := 19
    (t.state.Led p ∧ p.BindsParameter 17 2 1 0 ∧ t.parameterObjects 17 = [.unknown] ∧
      ∃ o v, t.run (p.evaluate 2 (some 0)) = (.ok (some ⟨o, .parameter 1⟩), v) ∧
        v.state.objects.get o = .inst 16 none) ∧
    u.state.Led p ∧ p.BindsParameter 18 3 4 0 ∧ u.parameterObjects 18 = [integer] ∧
      u.state.objects.get integer = .inst BuiltinClass.int.object none ∧
      ∃ v, u.run (p.evaluate 3 (some 4)) = (.ok (some ⟨integer, .parameter 4⟩), v) ∧
        v.state.parameterCache.get? 18 = some [integer] ∧ v.state.Backs p 18 [integer] := by
  intro p t u integer
  obtain ⟨hcoherent, _, _, hnames⟩ := cached_parameters_coherent Tree.receiving
    ⟨#["", "self", "m", "C", "a", "g"]⟩ (some 11)
  constructor
  · have hled : t.state.Led p := .start {}
    have hbinds : p.BindsParameter 17 2 1 0 :=
      ⟨by decide +kernel, by decide +kernel, .ordinary 1, by decide +kernel, rfl⟩
    have hunknown : t.parameterObjects 17 = [.unknown] := by decide +kernel
    obtain ⟨hself, heval⟩ := hnames t 17 2 1 0 rfl hled hbinds
    obtain ⟨o, recorded, v, hrun, hrecorded, hstands⟩ := heval 2 (some 0) hself rfl
    refine ⟨hled, hbinds, hunknown, o, v, hrun, ?_⟩
    rw [hunknown] at hrecorded
    obtain rfl : ObjectId.unknown = recorded := Option.some.inj hrecorded
    obtain rfl : (t.run (p.evaluate 2 (some 0))).2 = v := congrArg Prod.snd hrun
    have hreceiver : p.receiverFor? (t.run (p.evaluate 2 (some 0))).2.state 17 0 .unknown =
        some 16 := by decide +kernel
    rwa [Program.StandsFor, hreceiver] at hstands
  · obtain ⟨hprogram, hled⟩ : u.program = p ∧ u.state.Led p :=
      Session.led_analyze_start (by decide) {}
    have hbinds : p.BindsParameter 18 3 4 0 :=
      ⟨by decide +kernel, by decide +kernel, .ordinary 4, by decide +kernel, rfl⟩
    have hknown : u.parameterObjects 18 = [integer] := by decide +kernel
    obtain ⟨hself, heval⟩ := hnames u 18 3 4 0 hprogram hled hbinds
    obtain ⟨o, recorded, v, hrun, hrecorded, hstands⟩ := heval 3 (some 4) hself rfl
    rw [hknown] at hrecorded
    obtain rfl : integer = recorded := Option.some.inj hrecorded
    have hv : (u.run (p.evaluate 3 (some 4))).2 = v := congrArg Prod.snd hrun
    have hreceiver : p.receiverFor? v.state 18 0 integer = none := by
      rw [← hv]
      decide +kernel
    rw [Program.StandsFor, hreceiver] at hstands
    obtain rfl : o = integer := hstands
    have hcached : v.state.parameterCache.get? 18 = some [integer] := by
      rw [← hv]
      decide +kernel
    have hreached : v.state.Reached p := by
      unfold Session.run at hrun
      split at hrun
      · rename_i heq
        cases hrun
        exact hled.reached.ok (.evaluate 3 (some 4)) heq
      · cases hrun
    exact ⟨hled, hbinds, hknown, by decide +kernel, v, hrun, hcached,
      hcoherent _ hreached 18 _ hcached⟩

end ObjectInference
