import ObjectInference.Analysis.Run
import ObjectInference.Proofs.Forgetting
import ObjectInference.Proofs.Guard
import ObjectInference.Proofs.Store

/-!
What every computation leaves as it found it.

`State.Settles` is `Guard.Settles` for both guards of a state, together with the
contexts, which come back exactly, and the store and the notes of containers,
which grow. The computations of this module open no bracket. They end with a
result whatever the state is, and settle; `Infer.Settling` says so, and has a
rule for each way of putting computations together.
-/

namespace ObjectInference

/-- What is left of a state after a computation. -/
structure State.Settles (s s' : State) : Prop where
  inFlight : s.inFlight.Settles s'.inFlight
  resolving : s.resolving.Settles s'.resolving
  contexts : s'.contexts = s.contexts
  objects : s.objects.Extends s'.objects
  allocated (scope : ScopeId) : s.allocated scope ⊆ s'.allocated scope

namespace State.Settles

theorem refl (s : State) : s.Settles s :=
  ⟨.refl _, .refl _, rfl, .refl _, fun _ _ => id⟩

theorem trans {s₁ s₂ s₃ : State} (h : s₁.Settles s₂) (h' : s₂.Settles s₃) : s₁.Settles s₃ :=
  ⟨h.inFlight.trans h'.inFlight, h.resolving.trans h'.resolving,
    h'.contexts.trans h.contexts, h.objects.trans h'.objects,
    fun scope => List.Subset.trans (h.allocated scope) (h'.allocated scope)⟩

end State.Settles

namespace Infer

variable {α β : Type}

theorem get_bind_run (f : State → Infer α) (s : State) :
    (MonadState.get >>= f : Infer α) s = f s s := rfl

theorem bind_of_ok {x : Infer α} {f : α → Infer β} {s s' : State} {a : α} (h : x s = .ok a s') :
    (x >>= f) s = f a s' := by
  change EStateM.bind x f s = _
  simp only [EStateM.bind, h]

theorem bind_eq_ok {x : Infer α} {f : α → Infer β} {s s' : State} {b : β} :
    (x >>= f) s = .ok b s' ↔ ∃ a s₁, x s = .ok a s₁ ∧ f a s₁ = .ok b s' := by
  change EStateM.bind x f s = _ ↔ _
  unfold EStateM.bind
  cases x s <;> simp

def value? (x : Infer α) (s : State) : Option α :=
  match x s with
  | .ok a _ => some a
  | .error _ _ => none

def interrupt? (x : Infer α) (s : State) : Option Interrupt :=
  match x s with
  | .ok _ _ => none
  | .error e _ => some e

def after? (x : Infer α) (s : State) : Option State :=
  match x s with
  | .ok _ s' => some s'
  | .error _ _ => none

theorem after?_of_ok {x : Infer α} {s s' : State} {a : α} (h : x s = .ok a s') :
    x.after? s = some s' := by
  rw [after?, h]

theorem value?_eq_some {x : Infer α} {s : State} {a : α} :
    x.value? s = some a ↔ ∃ s', x s = .ok a s' := by
  unfold value?
  cases x s <;> simp

theorem interrupt?_eq_some {x : Infer α} {s : State} {e : Interrupt} :
    x.interrupt? s = some e ↔ ∃ s', x s = .error e s' := by
  unfold interrupt?
  cases x s <;> simp

def Settling (x : Infer α) : Prop :=
  ∀ s, ∃ a s', x s = .ok a s' ∧ s.Settles s'

namespace Settling

theorem pure (a : α) : Settling (Pure.pure a : Infer α) :=
  fun s => ⟨a, s, rfl, .refl s⟩

theorem get : Settling (MonadState.get : Infer State) :=
  fun s => ⟨s, s, rfl, .refl s⟩

theorem bind {x : Infer α} {f : α → Infer β} (hx : Settling x) (hf : ∀ a, Settling (f a)) :
    Settling (x >>= f) := by
  intro s
  obtain ⟨a, s₁, hs₁, h⟩ := hx s
  obtain ⟨b, s₂, hs₂, h'⟩ := hf a s₁
  refine ⟨b, s₂, ?_, h.trans h'⟩
  change EStateM.bind x f s = _
  simp only [EStateM.bind, hs₁, hs₂]

theorem modify {f : State → State} (h : ∀ s : State, s.Settles (f s)) :
    Settling (modifyGet fun s => ((), f s) : Infer Unit) :=
  fun s => ⟨(), f s, rfl, h s⟩

end Settling

theorem settling_count (change : Stats → Stats) : Settling (count change) :=
  .modify fun _ => ⟨.refl _, .refl _, rfl, .refl _, fun _ _ => id⟩

/-- Learning touches neither the store nor the names being resolved, and no note
of a container is lost. -/
theorem settling_changeMemory {change : Memory → Memory}
    (hobjects : ∀ m, (change m).objects = m.objects)
    (hresolving : ∀ m, (change m).resolving = m.resolving)
    (hallocated : ∀ m scope, m.allocated scope ⊆ (change m).allocated scope) :
    Settling (changeMemory change) := by
  refine .modify fun s => ⟨.refl _, ?_, rfl, ?_, hallocated s.toMemory⟩
  · change s.resolving.Settles (change s.toMemory).resolving
    rw [hresolving]
    exact .refl _
  · change s.objects.Extends (change s.toMemory).objects
    rw [hobjects]
    exact .refl _

/-! ### Objects -/

theorem settling_intern {object : Object} (h : object.kind = .inst) :
    Settling (intern object) := by
  intro s
  exact ⟨_, _, rfl, .refl _, .refl _, rfl, ObjectStore.extends_intern s.objects h, fun _ _ => id⟩

theorem settling_builtinInstance (c : BuiltinClass) : Settling (builtinInstance c) :=
  settling_intern rfl

theorem settling_newInstance (c : ObjectId) (site : NodeRef) : Settling (newInstance c site) := by
  refine .bind .get fun s => ?_
  split <;> exact settling_intern rfl

theorem settling_generatorOf (element : ObjectId) : Settling (generatorOf element) :=
  settling_intern rfl

theorem settling_allocate (scope : ScopeId) (container : ObjectId) :
    Settling (allocate scope container) := by
  refine settling_changeMemory (fun m => ?_) (fun m => ?_) fun m scope' o ho => ?_
  · split <;> rfl
  · split <;> rfl
  · split
    · exact ho
    · by_cases hs : scope = scope'
      · subst hs
        simp only [Memory.allocated, Table.get?_insert, if_true, Option.getD_some]
        exact List.mem_append_left _ ho
      · simpa only [Memory.allocated, Table.get?_insert, if_neg hs] using ho

theorem settling_newContainer (scope : ScopeId) (c : BuiltinClass) (site : NodeRef) :
    Settling (newContainer scope c site) :=
  .bind (settling_intern rfl) fun _ => .bind (settling_allocate _ _) fun _ => .pure _

theorem settling_observe (container : ObjectId) (slot : Slot) (o : ObjectId) :
    Settling (observe container slot o) :=
  settling_changeMemory (fun _ => rfl) (fun _ => rfl) fun _ _ _ => id

/-! ### Parameters and calls -/

theorem settling_supplyReceiver (p : Program) (f : ObjectId) (objects : List ObjectId) :
    Settling (supplyReceiver p f objects) := by
  refine .bind .get fun s => ?_
  split
  · split
    · exact .pure _
    · exact .bind (settling_newInstance _ _) fun _ => .pure _
  · exact .pure _

theorem settling_evidenceParameters (p : Program) (f : ObjectId) :
    Settling (evidenceParameters p f) := by
  refine .bind .get fun s => ?_
  split
  · exact .pure _
  · refine .bind .get fun s => .bind (settling_supplyReceiver p f _) fun objects => ?_
    refine .bind (settling_changeMemory ?_ ?_ ?_) fun _ => .pure _
    · exact fun _ => rfl
    · exact fun _ => rfl
    · exact fun _ _ _ => id

theorem settling_currentParameters (p : Program) (f : ObjectId) :
    Settling (currentParameters p f) := by
  refine .bind .get fun s => ?_
  split
  · exact .pure _
  · exact settling_evidenceParameters p f

theorem settling_parameterObject (p : Program) (scope : ScopeId) (index : Nat) :
    Settling (parameterObject p scope index) := by
  unfold parameterObject
  split
  · exact .pure _
  · split
    · exact .pure _
    · split
      · exact .pure _
      · exact .bind (settling_currentParameters p _) fun _ => .pure _

theorem settling_recordCall (f : ObjectId) (record : CallRecord) :
    Settling (recordCall f record) := by
  refine .bind (.modify fun s => ?_) fun _ => ?_
  · exact ⟨.refl _, .refl _, rfl, .refl _, fun _ _ => id⟩
  · refine .bind (settling_count _) fun _ => ?_
    exact settling_changeMemory (fun _ => rfl) (fun _ => rfl) fun _ _ _ => id

end Infer

/-! ### Forgetting -/

namespace Memory

theorem objects_forgetTree (p : Program) (m : Memory) (scope : ScopeId) :
    (m.forgetTree p scope).objects = m.objects := by
  rw [forgetTree_eq]
  rfl

theorem resolving_forgetTree (p : Program) (m : Memory) (scope : ScopeId) :
    (m.forgetTree p scope).resolving = m.resolving := by
  rw [forgetTree_eq]
  rfl

theorem allocations_forgetTree (p : Program) (m : Memory) (scope : ScopeId) :
    (m.forgetTree p scope).allocations = m.allocations := by
  rw [forgetTree_eq]
  rfl

end Memory

/-! ### Brackets -/

namespace Infer

/-- An attempt to mark a name changes nothing but the guard of names. -/
theorem enterName_run (key : ScopeId × Atom) (s : State) :
    enterName key s = .ok (s.resolving.refresh.enter key).1
      { s with resolving := (s.resolving.refresh.enter key).2 } := rfl

/-- An attempt to mark a name is denied, or it marks the name and nothing else. -/
theorem enterName_cases (key : ScopeId × Atom) (s : State) :
    (∃ e s', e ≠ .entered ∧ enterName key s = .ok e s' ∧ s.Settles s') ∨
    ∃ g, s.resolving.refresh.enter key = (.entered, g) ∧
      enterName key s = .ok .entered { s with resolving := g } := by
  cases h : s.resolving.refresh.enter key with
  | mk e g =>
      have hrun : enterName key s = .ok e { s with resolving := g } := by
        rw [enterName_run, h]
      by_cases he : e = .entered
      · subst he
        exact .inr ⟨g, rfl, hrun⟩
      · refine .inl ⟨e, _, he, hrun, .refl _, ?_, rfl, .refl _, fun _ _ => id⟩
        exact (Guard.settles_refresh _).trans (Guard.settles_of_enter h he)

/-- An attempt to mark a function as in flight changes nothing but the guard of
functions. -/
theorem enterFunction_run (f : ObjectId) (s : State) :
    enterFunction f s = .ok (s.inFlight.refresh.enter f).1
      { s with inFlight := (s.inFlight.refresh.enter f).2 } := rfl

/-- An attempt to mark a function as in flight is denied, or it marks the
function and nothing else. -/
theorem enterFunction_cases (f : ObjectId) (s : State) :
    (∃ e s', e ≠ .entered ∧ enterFunction f s = .ok e s' ∧ s.Settles s' ∧
      (e = .cycle → f ∈ s.inFlight.visiting)) ∨
    ∃ g, s.inFlight.refresh.enter f = (.entered, g) ∧
      enterFunction f s = .ok .entered { s with inFlight := g } := by
  cases h : s.inFlight.refresh.enter f with
  | mk e g =>
      have hrun : enterFunction f s = .ok e { s with inFlight := g } := by
        rw [enterFunction_run, h]
      by_cases he : e = .entered
      · subst he
        exact .inr ⟨g, rfl, hrun⟩
      · refine .inl ⟨e, _, he, hrun, ⟨?_, .refl _, rfl, .refl _, fun _ _ => id⟩, fun hcycle => ?_⟩
        · exact (Guard.settles_refresh _).trans (Guard.settles_of_enter h he)
        · subst hcycle
          exact (Guard.settles_refresh _).subset (Guard.mem_of_enter_cycle h)

theorem leaveName_eq_ok {key : ScopeId × Atom} {s s' : State} {a : Unit}
    (h : leaveName key s = .ok a s') : ∃ g, s' = { s with resolving := g } := by
  unfold leaveName at h
  rw [get_bind_run] at h
  cases hleave : s.resolving.leave key <;> rw [hleave] at h <;> cases h
  exact ⟨_, rfl⟩

theorem leaveFunction_eq_ok {f : ObjectId} {s s' : State} {a : Unit}
    (h : leaveFunction f s = .ok a s') : ∃ g, s' = { s with inFlight := g } := by
  unfold leaveFunction at h
  rw [get_bind_run] at h
  cases hleave : s.inFlight.leave f <;> rw [hleave] at h <;> cases h
  exact ⟨_, rfl⟩

/-- A name that was marked can be left after any computation that settles. -/
theorem leaveName_of_settles {key : ScopeId × Atom} {s s'' : State} {g : Guard (ScopeId × Atom)}
    (h : s.resolving.refresh.enter key = (.entered, g))
    (h' : State.Settles { s with resolving := g } s'') :
    ∃ g₃, s''.resolving.leave key = .ok g₃ ∧
      leaveName key s'' = .ok () { s'' with resolving := g₃ } ∧
      s.Settles { s'' with resolving := g₃ } := by
  obtain ⟨g₃, hleave, hg₃⟩ := Guard.leave_of_settles h h'.resolving
  refine ⟨g₃, hleave, ?_, h'.inFlight, hg₃, h'.contexts, h'.objects, h'.allocated⟩
  unfold leaveName
  rw [get_bind_run, hleave]
  rfl

/-- The state in which a call of a function, marked as in flight, is open. -/
def opened (p : Program) (f : ObjectId) (scope : ScopeId) (parameters : Option (List ObjectId))
    (s : State) : State :=
  match parameters with
  | some parameters =>
    { s with
      toMemory := s.toMemory.forgetTree p scope
      contexts := ⟨f, parameters⟩ :: s.contexts }
  | none => s

/-- The state after a call is closed, with what is left of the guard then. -/
def closed (parameters : Option (List ObjectId)) (g : Guard ObjectId) (s : State) : State :=
  match parameters with
  | some _ => { s with inFlight := g, contexts := s.contexts.tail }
  | none => { s with inFlight := g }

theorem leaveFunction_eq {f : ObjectId} {s : State} {g : Guard ObjectId}
    (h : s.inFlight.leave f = .ok g) : leaveFunction f s = .ok () { s with inFlight := g } := by
  unfold leaveFunction
  rw [get_bind_run, h]
  rfl

end Infer

end ObjectInference
