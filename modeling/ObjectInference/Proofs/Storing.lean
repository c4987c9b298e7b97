import ObjectInference.Proofs.Settling
import ObjectInference.Proofs.SpecialMethods

/-!
What an assignment to items leaves behind.

An analysis takes the items among the targets of an assignment one after the other. For each
it evaluates the container, the index and the assigned value, and if there is something to be
learnt it simulates one call of the item setter that the class of the container defines.
`ItemAssigned` is the relation between the states before and after, written down with the
evaluations that are made and the whole of what is done besides. Whether there is something
to be learnt, and what, is said of the objects alone, so nothing of the simulation is in it.

A setter of the source is only recorded. The two built-in setters leave evidence in the
container, which a later reading of an item finds there.
-/

namespace ObjectInference

variable {α : Type} {p : Program} {s s' s₁ s₂ : State} {c i v f : ObjectId}

/-! ### Attempts -/

/-- What an attempt comes to: what the computation gives, or nothing if it ends on a function
in flight. -/
inductive Infer.ComesTo (x : Infer (Option α)) (s : State) : Option α → State → Prop where
  | result {a : Option α} {s' : State} (h : x s = .ok a s') : ComesTo x s a s'
  | signal {f : ObjectId} {s' : State} (h : x s = .error (.reentrant f) s') : ComesTo x s none s'

def Infer.outcome (r : Except ObjectId (Option α)) : Option α :=
  match r with
  | .ok a => a
  | .error _ => none

/-- Everything that is evaluated in a well-formed state comes to something, in a well-formed
state. -/
theorem Operation.attempt_perform (hp : p.WellBound) (hd : p.tree.Descending)
    (hs : s.WellFormed p) (op : Operation (Option α)) (hop : op.InRange s.objects.size) :
    ∃ r s', Infer.attempt (op.perform p) s = .ok r s' ∧
      Infer.ComesTo (op.perform p) s (Infer.outcome r) s' ∧ s'.WellFormed p := by
  have hend := op.ended (p := p) s
  have hafter := op.wellFormed_after hp hs hop
  unfold Infer.attempt
  generalize hrun : op.perform p s = end_ at hend hafter
  cases hend with
  | ok _ => exact ⟨_, _, rfl, .result hrun, hafter.1⟩
  | reentrant _ _ => exact ⟨_, _, rfl, .signal hrun, hafter.1⟩
  | exhausted h => exact absurd hd h

/-! ### Calls of setters -/

namespace State

/-- A call has been entered in the log, and what was worked out from earlier calls of the
function is gone. -/
def recorded (s : State) (f : ObjectId) (record : CallRecord) : State :=
  { s.recordCall f record with
    parameterCache := s.parameterCache.erase f
    stats := { s.stats with recordedCalls := s.stats.recordedCalls + 1 } }

def withNone (s : State) : State :=
  { s with objects := (s.objects.intern (.inst BuiltinClass.noneType.object none)).2 }

def builtinCounted (s : State) : State :=
  { s with stats := { s.stats with builtinCalls := s.stats.builtinCalls + 1 } }

def assignmentCounted (s : State) : State :=
  { s with stats := { s.stats with subscriptAssignments := s.stats.subscriptAssignments + 1 } }

end State

/-- One call of an item setter has been simulated: of a function of the source it is recorded,
and a built-in one is carried out unless such calls are left out. -/
inductive SetterCalled (p : Program) (options : Options) (c i v f : ObjectId) (s : State) :
    State → Prop where
  | recorded (hk : s.objects.kind f = .function) :
      SetterCalled p options c i v f s
        (s.recorded f (bindObjects (p.parameters s.objects f) { positional := [c, i, v] }))
  | list (heager : options.eagerBuiltinCalls = true) (hf : f = BuiltinFunction.listSetItem.object)
      (hc : s.objects.builtinClassOf? c = some .list) :
      SetterCalled p options c i v f s (s.seeInto c .element v).withNone.builtinCounted
  | dict (heager : options.eagerBuiltinCalls = true) (hf : f = BuiltinFunction.dictSetItem.object)
      (hc : s.objects.builtinClassOf? c = some .dict) :
      SetterCalled p options c i v f s
        ((s.seeInto c .element i).seeInto c .value v).withNone.builtinCounted
  | left (hlazy : options.eagerBuiltinCalls = false)
      (hk : s.objects.kind f = .builtinFunction) : SetterCalled p options c i v f s s

def Program.SetsItems (p : Program) (st : ObjectStore) (c f : ObjectId) : Prop :=
  ∃ cls site, st.get c = .inst cls site ∧ p.ClassDefines st cls "__setitem__" f

/-- From one state to another the object assigned to an item has been dealt with. If the
container and the object are known and the container sets items, one call of its setter has
been simulated, and nothing has been done otherwise. -/
inductive ItemSet (p : Program) (options : Options) (c i v : ObjectId) (s : State) :
    State → Prop where
  | passed (h : ¬ (c.isKnown = true ∧ v.isKnown = true ∧ ∃ f, p.SetsItems s.objects c f)) :
      ItemSet p options c i v s s
  | called {f : ObjectId} {s' : State} (hc : c.isKnown = true) (hv : v.isKnown = true)
      (hf : p.SetsItems s.objects c f) (h : SetterCalled p options c i v f s.assignmentCounted s') :
      ItemSet p options c i v s s'

/-- From one state to another the assignment to an item among the targets has been simulated.
The container is evaluated first. If it resolves, the index is, which is unknown unless it
resolves, and then the assigned value along the path to the item. -/
inductive ItemAssigned (p : Program) (options : Options) (scope : ScopeId) (value : NodeRef) :
    NodeRef × List Nat → State → State → Prop where
  | lost {leaf container slice index : NodeRef} {path : List Nat} {s s₁ : State}
      (hleaf : p.tree.node? leaf = some (.subscript container slice))
      (hslice : p.tree.node? slice = some (.index index))
      (hc : Infer.ComesTo (p.evaluate scope container) s none s₁) :
      ItemAssigned p options scope value (leaf, path) s s₁
  | valueless {leaf container slice index : NodeRef} {path : List Nat} {s s₁ s₂ s₃ : State}
      {c : Name} {i : Option Name} (hleaf : p.tree.node? leaf = some (.subscript container slice))
      (hslice : p.tree.node? slice = some (.index index))
      (hc : Infer.ComesTo (p.evaluate scope container) s (some c) s₁)
      (hi : Infer.ComesTo (p.evaluate scope index) s₁ i s₂)
      (hv : Infer.ComesTo (Infer.assignedObject p p.evaluate scope value path) s₂ none s₃) :
      ItemAssigned p options scope value (leaf, path) s s₃
  | assigned {leaf container slice index : NodeRef} {path : List Nat} {s s₁ s₂ s₃ s₄ : State}
      {c : Name} {i : Option Name} {v : ObjectId}
      (hleaf : p.tree.node? leaf = some (.subscript container slice))
      (hslice : p.tree.node? slice = some (.index index))
      (hc : Infer.ComesTo (p.evaluate scope container) s (some c) s₁)
      (hi : Infer.ComesTo (p.evaluate scope index) s₁ i s₂)
      (hv : Infer.ComesTo (Infer.assignedObject p p.evaluate scope value path) s₂ (some v) s₃)
      (h : ItemSet p options c.object (Name.objectOf i) v s₃ s₄) :
      ItemAssigned p options scope value (leaf, path) s s₄

inductive ItemsAssigned (p : Program) (options : Options) (scope : ScopeId) (value : NodeRef) :
    List (NodeRef × List Nat) → State → State → Prop where
  | nil (s : State) : ItemsAssigned p options scope value [] s s
  | cons {target : NodeRef × List Nat} {targets : List (NodeRef × List Nat)} {s s₁ s₂ : State}
      (h : ItemAssigned p options scope value target s s₁)
      (hrest : ItemsAssigned p options scope value targets s₁ s₂) :
      ItemsAssigned p options scope value (target :: targets) s s₂

/-! ### What the two built-in setters do -/

namespace Infer

variable {options : Options} {eval : Evaluator} {os : List ObjectId}

theorem simulateCall_recorded (hk : s.objects.kind f = .function) :
    simulateCall p eval options ⟨f, .objects os⟩ s =
      .ok () (s.recorded f (bindObjects (p.parameters s.objects f) { positional := os })) := by
  unfold simulateCall
  rw [get_bind_run]
  simp only [hk]
  rfl

/-- A built-in function gets the objects that it is called with. -/
theorem bindObjects_builtin {m : BuiltinFunction} (hm : s.objects.get m.object = .builtinFunction m)
    (hlength : os.length = m.paramNames.length) :
    bindObjects (p.parameters s.objects m.object) { positional := os } = os := by
  have hparams : p.parameters s.objects m.object =
      m.paramNames.map fun n => .ordinary ((p.atoms.find? n).getD 0) := by
    rw [Program.parameters, hm]
  rw [hparams]
  refine bindObjects_positional (fun param hparam => ?_) (by simpa using hlength)
  obtain ⟨n, _, rfl⟩ := List.mem_map.1 hparam
  rfl

theorem simulateCall_carriedOut {m : BuiltinFunction} {a : Option ObjectId}
    (heager : options.eagerBuiltinCalls = true)
    (hm : s.objects.get m.object = .builtinFunction m) (hlength : os.length = m.paramNames.length)
    (hrun : callBuiltin m os s = .ok a s') :
    simulateCall p eval options ⟨m.object, .objects os⟩ s =
      .ok () s'.builtinCounted := by
  have hk : s.objects.kind m.object = .builtinFunction := by rw [ObjectStore.kind, hm]; rfl
  have hbound : attempt (bindArguments p eval m.object (.objects os)) s = .ok (.ok os) s := by
    have hbind : bindArguments p eval m.object (.objects os) s =
        .ok (bindObjects (p.parameters s.objects m.object) { positional := os }) s := rfl
    rw [attempt, hbind, bindObjects_builtin hm hlength]
  have hcall : discard (callBuiltinObject m.object os) s = .ok () s' := by
    have hobject : callBuiltinObject m.object os s = .ok a s' := by
      unfold callBuiltinObject
      rw [get_bind_run, hm]
      exact hrun
    change EStateM.map _ (callBuiltinObject m.object os) s = _
    rw [EStateM.map, hobject]
  unfold simulateCall
  rw [get_bind_run]
  simp only [hk, heager, if_true]
  rw [bind_of_ok hbound]
  simp only
  rw [bind_of_ok hcall]
  rfl

theorem callBuiltin_listSetItem (hc : s.objects.builtinClassOf? c = some .list) :
    ∃ a, callBuiltin .listSetItem [c, i, v] s = .ok a (s.seeInto c .element v).withNone := by
  refine ⟨some (s.objects.intern (.inst BuiltinClass.noneType.object none)).1, ?_⟩
  unfold callBuiltin
  rw [get_bind_run]
  simp only [List.getElem?_cons_zero, Option.getD_some, hc, BuiltinFunction.owner]
  rfl

theorem callBuiltin_dictSetItem (hc : s.objects.builtinClassOf? c = some .dict) :
    ∃ a, callBuiltin .dictSetItem [c, i, v] s =
      .ok a ((s.seeInto c .element i).seeInto c .value v).withNone := by
  refine ⟨some (s.objects.intern (.inst BuiltinClass.noneType.object none)).1, ?_⟩
  unfold callBuiltin
  rw [get_bind_run]
  simp only [List.getElem?_cons_zero, Option.getD_some, hc, BuiltinFunction.owner]
  rfl

/-- Of the built-in functions two are item setters. -/
theorem eq_setItem_of_name {m : BuiltinFunction} (h : m.name = "__setitem__") :
    m = .listSetItem ∧ m.owner = some .list ∨ m = .dictSetItem ∧ m.owner = some .dict := by
  cases m with
  | listSetItem => exact .inl ⟨rfl, rfl⟩
  | dictSetItem => exact .inr ⟨rfl, rfl⟩
  | _ => simp [BuiltinFunction.name] at h

/-- The setter of an object can be called, with what it does. -/
theorem exists_setterCalled (hp : p.WellBound) (hs : p.Made s.objects)
    (hf : p.SetsItems s.objects c f) :
    ∃ s', simulateCall p eval options ⟨f, .objects [c, i, v]⟩ s = .ok () s' ∧
      SetterCalled p options c i v f s s' := by
  obtain ⟨cls, site, hc, hdefines⟩ := hf
  cases hdefines with
  | source _ _ _ _ hk => exact ⟨_, simulateCall_recorded hk, .recorded hk⟩
  | @builtin b m hcls howner hname =>
      have hm := hs.get_builtinFunction hp m
      have hclass : s.objects.builtinClassOf? c = some b :=
        ObjectStore.builtinClassOf?_eq_some.2 ⟨cls, site, hc, hcls⟩
      cases heager : options.eagerBuiltinCalls with
      | true =>
          rcases eq_setItem_of_name hname with ⟨rfl, hb⟩ | ⟨rfl, hb⟩
          · obtain rfl : b = .list := Option.some.inj (howner.symm.trans hb)
            obtain ⟨a, hrun⟩ := callBuiltin_listSetItem hclass
            exact ⟨_, simulateCall_carriedOut heager hm rfl hrun, .list heager rfl hclass⟩
          · obtain rfl : b = .dict := Option.some.inj (howner.symm.trans hb)
            obtain ⟨a, hrun⟩ := callBuiltin_dictSetItem hclass
            exact ⟨_, simulateCall_carriedOut heager hm rfl hrun, .dict heager rfl hclass⟩
      | false =>
          have hk := hs.kind_builtinFunction hp m
          refine ⟨s, ?_, .left heager hk⟩
          unfold simulateCall
          rw [get_bind_run]
          simp only [hk, heager]
          rfl

end Infer

/-! ### Every assignment is simulated -/

theorem Infer.elementObject_of_attempt {eval : Evaluator} {scope : ScopeId} {expr : NodeRef}
    {r : Except ObjectId (Option Name)} (h : attempt (eval scope expr) s = .ok r s') :
    elementObject eval scope expr s = .ok (Name.objectOf (outcome r)) s' := by
  unfold elementObject
  rw [bind_of_ok h]
  cases r <;> rfl

/-- Dealing with an item leaves a well-formed state. -/
theorem State.WellFormed.visitItemTarget (hp : p.WellBound) (hs : s.WellFormed p)
    {options : Options} {scope : ScopeId} {value : NodeRef} {target : NodeRef × List Nat}
    (hrun : Infer.visitItemTarget p p.evaluate options scope value target s = .ok () s') :
    s'.WellFormed p := by
  have hrel : (Pairing.ranging p).rel s s s := ⟨⟨rfl, .refl s, trivial⟩, hs⟩
  have hpairs : (Pairing.ranging p).Ends _ s s s
      (Infer.visitItemTarget p p.evaluate options scope value target)
      (Infer.visitItemTarget p p.evaluate options scope value target) :=
    (Pairing.ranging.lawful hp).visitItemTarget Pairing.bracketing.records.confined
      (.of_forall (Pairing.ranging.pairsOn_evaluate hp)) options hrel trivial trivial
  have hafter : State.After (State.WellFormed p) _ :=
    hpairs.after_of_reaches fun _ _ h => h.rel.2
  rwa [hrun] at hafter

section Sourced

variable (hp : p.Sourced)

include hp

theorem Infer.exists_itemSet (hs : p.Made s.objects) (options : Options) (c i v : ObjectId) :
    ∃ s', simulateItemSetter p p.evaluate options c i v s = .ok () s' ∧
      ItemSet p options c i v s s' := by
  unfold simulateItemSetter
  by_cases hknown : (c.isKnown && v.isKnown) = true
  · rw [if_pos hknown, get_bind_run]
    rw [Bool.and_eq_true] at hknown
    cases hsetter : p.itemSetter? s.objects c with
    | none =>
        refine ⟨s, rfl, .passed fun h => ?_⟩
        obtain ⟨f, hf⟩ := h.2.2
        rw [(Program.itemSetter?_eq_some_iff hp hs).2 hf] at hsetter
        cases hsetter
    | some f =>
        have hf := (Program.itemSetter?_eq_some_iff hp hs).1 hsetter
        have hs' : p.Made s.assignmentCounted.objects := hs
        obtain ⟨s', hrun, hcalled⟩ := exists_setterCalled hp.wellBound hs' hf
        exact ⟨s', hrun, .called hknown.1 hknown.2 hf hcalled⟩
  · rw [if_neg hknown]
    refine ⟨s, rfl, .passed fun h => hknown ?_⟩
    rw [h.1, h.2.1]
    rfl

theorem Infer.exists_attempt_evaluate (hs : s.WellFormed p) (scope : ScopeId) (expr : NodeRef) :
    ∃ r s', attempt (p.evaluate scope expr) s = .ok r s' ∧
      ComesTo (p.evaluate scope expr) s (outcome r) s' ∧ s'.WellFormed p :=
  (Operation.evaluate scope expr).attempt_perform hp.wellBound hp.descending hs trivial

theorem Infer.exists_attempt_assignedObject (hs : s.WellFormed p) (scope : ScopeId)
    (value : NodeRef) (path : List Nat) :
    ∃ r s', attempt (assignedObject p p.evaluate scope value path) s = .ok r s' ∧
      ComesTo (assignedObject p p.evaluate scope value path) s (outcome r) s' ∧ s'.WellFormed p :=
  (Operation.assignedObject scope value path).attempt_perform hp.wellBound hp.descending hs trivial

/-- An item among the targets is dealt with. -/
theorem Infer.exists_itemAssigned (hs : s.WellFormed p) (options : Options) (scope : ScopeId)
    (value : NodeRef) {target : NodeRef × List Nat} (htarget : p.tree.IsItem target.1) :
    ∃ s', visitItemTarget p p.evaluate options scope value target s = .ok () s' ∧
      ItemAssigned p options scope value target s s' := by
  obtain ⟨leaf, path⟩ := target
  obtain ⟨container, slice, index, hleaf, hslice⟩ := htarget
  have hindex : p.tree.simpleIndex? leaf = some index := by
    unfold Tree.simpleIndex?
    rw [hleaf]
    dsimp only
    rw [hslice]
  unfold visitItemTarget
  rw [hleaf, hindex]
  dsimp only
  obtain ⟨r, s₁, hrun, hc, hs₁⟩ := exists_attempt_evaluate hp hs scope container
  rw [bind_of_ok hrun]
  rcases r with _ | _ | c
  · exact ⟨s₁, rfl, .lost hleaf hslice hc⟩
  · exact ⟨s₁, rfl, .lost hleaf hslice hc⟩
  dsimp only
  obtain ⟨i, s₂, hrun, hi, hs₂⟩ := exists_attempt_evaluate hp hs₁ scope index
  rw [bind_of_ok (elementObject_of_attempt hrun)]
  obtain ⟨r, s₃, hrun, hv, hs₃⟩ := exists_attempt_assignedObject hp hs₂ scope value path
  rw [bind_of_ok hrun]
  rcases r with _ | _ | v
  · exact ⟨s₃, rfl, .valueless hleaf hslice hc hi hv⟩
  · exact ⟨s₃, rfl, .valueless hleaf hslice hc hi hv⟩
  obtain ⟨s₄, hrun, hset⟩ :=
    exists_itemSet hp hs₃.made options c.object (Name.objectOf (outcome i)) v
  exact ⟨s₄, hrun, .assigned hleaf hslice hc hi hv hset⟩

theorem Infer.exists_itemsAssigned (hs : s.WellFormed p) (options : Options) (scope : ScopeId)
    (value : NodeRef) {targets : List (NodeRef × List Nat)}
    (htargets : ∀ target ∈ targets, p.tree.IsItem target.1) :
    ∃ s', targets.forM (visitItemTarget p p.evaluate options scope value) s = .ok () s' ∧
      ItemsAssigned p options scope value targets s s' ∧ s'.WellFormed p := by
  induction targets generalizing s with
  | nil => exact ⟨s, rfl, .nil s, hs⟩
  | cons target targets ih =>
      obtain ⟨s₁, hrun, h⟩ :=
        exists_itemAssigned hp hs options scope value (htargets target List.mem_cons_self)
      obtain ⟨s₂, hrest, hall, hs₂⟩ := ih (hs.visitItemTarget hp.wellBound hrun)
        fun target h => htargets target (List.mem_cons_of_mem _ h)
      exact ⟨s₂, (bind_of_ok hrun).trans hrest, .cons h hall, hs₂⟩

end Sourced

/-! ### What is found afterwards -/

/-- What is seen in the slots of a list when an object is assigned to an item. -/
def seenInList (v : ObjectId) : Slot → ObjectId
  | .element => v
  | _ => .unknown

/-- What is seen in the slots of a dict when an object is assigned under a key. -/
def seenInDict (key v : ObjectId) : Slot → ObjectId
  | .element => key
  | .value => v
  | .item _ => .unknown

namespace State

/-- From one state to another a container has gained what is seen in its slots: a known
object is in its slot, unless something was there. Other slots are as they were, and so are
all other containers. -/
def Gains (s s' : State) (c : ObjectId) (seen : Slot → ObjectId) : Prop :=
  ∀ c' slot, s'.evidence.get? c' slot =
    if c = c' ∧ (seen slot).isKnown = true then some ((s.evidence.get? c slot).getD (seen slot))
    else s.evidence.get? c' slot

theorem gains_list (s : State) (c v : ObjectId) :
    s.Gains (s.seeInto c .element v).withNone.builtinCounted c (seenInList v) := by
  intro c' slot
  change (s.seeInto c .element v).evidence.get? c' slot = _
  rw [seeInto, Evidence.get?_add]
  cases slot with
  | element => by_cases hv : v.isKnown = true <;> simp [seenInList, hv]
  | value => simp [seenInList, ObjectId.isKnown]
  | item n => simp [seenInList, ObjectId.isKnown]

theorem gains_dict (s : State) (c i v : ObjectId) :
    s.Gains ((s.seeInto c .element i).seeInto c .value v).withNone.builtinCounted c
      (seenInDict i v) := by
  intro c' slot
  change ((s.seeInto c .element i).seeInto c .value v).evidence.get? c' slot = _
  simp only [seeInto, Evidence.get?_add]
  cases slot with
  | element => by_cases hi : i.isKnown = true <;> simp [seenInDict, hi]
  | value => by_cases hv : v.isKnown = true <;> simp [seenInDict, hv]
  | item n => simp [seenInDict, ObjectId.isKnown]

/-- What an open slot has gained is there. -/
theorem Gains.get?_eq {seen : Slot → ObjectId} (h : s.Gains s' c seen) {slot : Slot}
    (hopen : s.evidence.get? c slot = none) (hknown : (seen slot).isKnown = true) :
    s'.evidence.get? c slot = some (seen slot) := by
  rw [h c slot, if_pos ⟨rfl, hknown⟩, hopen, Option.getD_none]

/-- A call is recorded behind those of its function, and those of others stay. -/
theorem calls_recorded (s : State) (f g : ObjectId) (record : CallRecord) :
    (s.recorded f record).calls.calls g =
      s.calls.calls g ++ if f = g then [record] else [] := by
  change (s.calls.record f record).calls g = _
  rw [CallLog.calls_record]
  split
  · rename_i h
    rw [h]
  · rw [List.append_nil]

end State

namespace Infer

variable {eval : Evaluator} {scope : ScopeId} {index : NodeRef}

theorem indexedObject_list (hc : s.objects.builtinClassOf? c = some .list)
    (hv : s.evidence.get? c .element = some v) :
    indexedObject p eval scope c index s = .ok v s := by
  obtain ⟨cls, site, hget, _⟩ := ObjectStore.builtinClassOf?_eq_some.1 hc
  have helement : s.elementOf c = v := by
    simp only [Memory.elementOf, hget, hc, hv, Option.getD_some]
  unfold indexedObject
  rw [get_bind_run, hc]
  exact congrArg (EStateM.Result.ok · s) helement

theorem indexedObject_dict (hc : s.objects.builtinClassOf? c = some .dict)
    (hv : s.evidence.get? c .value = some v) :
    indexedObject p eval scope c index s = .ok v s := by
  have hvalue : s.valueOf c = v := by
    rw [Memory.valueOf, hv, Option.getD_some]
  unfold indexedObject
  rw [get_bind_run, hc]
  exact congrArg (EStateM.Result.ok · s) hvalue

end Infer

namespace SetterCalled

variable {options : Options} (h : SetterCalled p options c i v f s s') (hp : p.WellBound)
  (hs : p.Made s.objects)

include h hp hs

/-- A call of a setter of the source is recorded. -/
theorem calls_eq (hk : s.objects.kind f = .function) (g : ObjectId) :
    s'.calls.calls g = s.calls.calls g ++
      if f = g then [bindObjects (p.parameters s.objects f) { positional := [c, i, v] }]
      else [] := by
  have hnot : ∀ m : BuiltinFunction, f ≠ m.object := by
    rintro m rfl
    rw [hs.kind_builtinFunction hp] at hk
    cases hk
  cases h with
  | recorded _ => exact s.calls_recorded f g _
  | list _ hf _ => exact absurd hf (hnot _)
  | dict _ hf _ => exact absurd hf (hnot _)
  | left _ hk' =>
      rw [hk] at hk'
      cases hk'

variable (heager : options.eagerBuiltinCalls = true)

include heager

/-- A list gains an element, and reading an item finds it. -/
theorem list_gains (hf : f = BuiltinFunction.listSetItem.object) (hv : v.isKnown = true) :
    s.Gains s' c (seenInList v) ∧
      (s.evidence.get? c .element = none → ∀ (eval : Evaluator) (scope : ScopeId)
        (index : NodeRef), Infer.indexedObject p eval scope c index s' = .ok v s') := by
  subst hf
  cases h with
  | recorded hk =>
      rw [hs.kind_builtinFunction hp] at hk
      cases hk
  | list _ _ hc =>
      have hgains := s.gains_list c v
      refine ⟨hgains, fun hopen eval scope index => Infer.indexedObject_list ?_ ?_⟩
      · exact (s.objects.keeps_intern _).builtinClassOf?_eq hc
      · exact hgains.get?_eq hopen hv
  | dict _ hf _ => cases hf
  | left hlazy _ =>
      rw [heager] at hlazy
      cases hlazy

/-- A dict gains a key and a value, and reading under a key finds the value. -/
theorem dict_gains (hf : f = BuiltinFunction.dictSetItem.object) (hv : v.isKnown = true) :
    s.Gains s' c (seenInDict i v) ∧
      (s.evidence.get? c .value = none → ∀ (eval : Evaluator) (scope : ScopeId)
        (index : NodeRef), Infer.indexedObject p eval scope c index s' = .ok v s') := by
  subst hf
  cases h with
  | recorded hk =>
      rw [hs.kind_builtinFunction hp] at hk
      cases hk
  | list _ hf _ => cases hf
  | dict _ _ hc =>
      have hgains := s.gains_dict c i v
      refine ⟨hgains, fun hopen eval scope index => Infer.indexedObject_dict ?_ ?_⟩
      · exact (s.objects.keeps_intern _).builtinClassOf?_eq hc
      · exact hgains.get?_eq hopen hv
  | left hlazy _ =>
      rw [heager] at hlazy
      cases hlazy

end SetterCalled

/-- Assignments to items are simulated where they carry evidence. An analysis of an assignment
goes through the items among the leaves of its targets, in the order of the text, and from
every well-formed state it comes to an end that `ItemsAssigned` describes: one call of the
setter for each item whose container and value are known and whose container sets items, and
nothing besides the evaluations otherwise. What a setter of the source is called with is
recorded behind its other calls. Unless calls of built-in functions are left out, a list gains
the value as its element and a dict the index as its key and the value as its value, where
these slots are open, and reading an item of the container then gives the value. -/
theorem item_assignments_simulated {tree : Tree} (ht : tree.Descending) (atoms : Interner)
    (root : NodeRef) :
    let p := Program.bind tree atoms root
    (∀ (options : Options) (scope : ScopeId) (site : NodeId) (targets : List NodeRef)
      (value : NodeRef) (s : State), options.analyzeSubscriptAssignments = true →
      tree.get? site = some (.assign targets value) → s.WellFormed p →
      ∃ s', Infer.visitSite p p.evaluate options scope site s = .ok () s' ∧ s'.WellFormed p ∧
        ItemsAssigned p options scope value
          ((targets.flatMap tree.leaves).filter fun leaf => tree.IsItem leaf.1) s s') ∧
    (∀ target, (tree.leaves target).Pairwise (fun a b => a.2 < b.2) ∧
      ∀ leaf path, (leaf, path) ∈ tree.leaves target ↔
        tree.At target path leaf ∧ tree.sequence? leaf = none) ∧
    ∀ (options : Options) (c i v f : ObjectId) (s s' : State), s.WellFormed p →
      v.isKnown = true → SetterCalled p options c i v f s s' →
      (s.objects.kind f = .function → ∀ g, s'.calls.calls g = s.calls.calls g ++
        if f = g then [bindObjects (p.parameters s.objects f) { positional := [c, i, v] }]
        else []) ∧
      (options.eagerBuiltinCalls = true → f = BuiltinFunction.listSetItem.object →
        s.Gains s' c (seenInList v) ∧
        (s.evidence.get? c .element = none → ∀ (eval : Evaluator) (scope : ScopeId)
          (index : NodeRef), Infer.indexedObject p eval scope c index s' = .ok v s')) ∧
      (options.eagerBuiltinCalls = true → f = BuiltinFunction.dictSetItem.object →
        s.Gains s' c (seenInDict i v) ∧
        (s.evidence.get? c .value = none → ∀ (eval : Evaluator) (scope : ScopeId)
          (index : NodeRef), Infer.indexedObject p eval scope c index s' = .ok v s')) := by
  intro p
  have hp : p.Sourced := Program.sourced_bind ht atoms root
  refine ⟨fun options scope site targets value s hoption hsite hs => ?_,
    fun target => ⟨Tree.pairwise_leaves ht target, fun leaf path => Tree.mem_leaves ht⟩,
    fun options c i v f s s' hs hv h => ⟨fun hk => h.calls_eq hp.wellBound hs.made hk,
      fun heager hf => h.list_gains hp.wellBound hs.made heager hf hv,
      fun heager hf => h.dict_gains hp.wellBound hs.made heager hf hv⟩⟩
  have hitems : ∀ target ∈ p.tree.itemTargets targets, p.tree.IsItem target.1 := by
    intro target htarget
    rw [Tree.itemTargets_eq] at htarget
    exact of_decide_eq_true (List.mem_filter.1 htarget).2
  obtain ⟨s', hrun, hall, hs'⟩ := Infer.exists_itemsAssigned hp hs options scope value hitems
  rw [Tree.itemTargets_eq] at hall
  refine ⟨s', ?_, hs', hall⟩
  unfold Infer.visitSite
  rw [show p.tree.get? site = _ from hsite]
  dsimp only
  rw [if_pos hoption]
  exact hrun

/-- A class with an item setter and the assignment `(b[1], xs[0]) = ("s", 2)`, where `b` is an
instance of the class and `xs` a list. -/
def Tree.storing : Tree :=
  ⟨#[.pass,
    .functionDef 2 [⟨3, .positional, none⟩, ⟨4, .positional, none⟩, ⟨5, .positional, none⟩] []
      [some 0],
    .classDef 1 [] [some 1], .name 1, .call (some 3) [] [], .name 6, .assign [some 5] (some 4),
    .list [], .name 7, .assign [some 8] (some 7), .name 6, .literal (.int 1), .index (some 11),
    .subscript (some 10) (some 12), .name 7, .literal (.int 0), .index (some 15),
    .subscript (some 14) (some 16), .tuple [some 13, some 17], .literal (.str "s"),
    .literal (.int 2), .tuple [some 19, some 20], .assign [some 18] (some 21),
    .module [some 2, some 6, some 9, some 22]]⟩

def Program.storing : Program :=
  .bind Tree.storing ⟨#["", "B", "__setitem__", "self", "key", "value", "b", "xs"]⟩ (some 23)

/-- The setter is recorded with the instance, an integer and a string, and the list has got an
integer. -/
theorem item_assignments_simulated_storing :
    let p := Program.storing
    let s := State.start (.fresh p) {} {}
    Tree.storing.Descending ∧ s.WellFormed p ∧
      ∃ s', Infer.visitSite p p.evaluate {} 0 22 s = .ok () s' ∧
        ItemsAssigned p {} 0 (some 21) [(some 13, [0]), (some 17, [1])] s s' ∧
        s'.calls.calls 17 = [[18, 19, 20]] ∧ s'.evidence.get? 21 .element = some 19 := by
  intro p s
  have ht : Tree.storing.Descending := by decide
  have hs : s.WellFormed p := .start (Program.sourced_bind ht _ _).wellBound
    (fun _ _ hr => absurd hr List.not_mem_nil) {}
  obtain ⟨hruns, _⟩ := item_assignments_simulated ht _ (some 23)
  obtain ⟨s', hrun, _, hall⟩ := hruns {} 0 22 [some 18] (some 21) s rfl rfl hs
  change Infer.visitSite p p.evaluate {} 0 22 s = .ok () s' at hrun
  have hleft : ((Infer.visitSite p p.evaluate {} 0 22).after? s).map
      (fun s' => (s'.calls.calls 17, s'.evidence.get? 21 .element)) =
      some ([[18, 19, 20]], some 19) := by decide +kernel
  rw [Infer.after?_of_ok hrun] at hleft
  obtain ⟨hcalls, hevidence⟩ := Prod.mk.inj (Option.some.inj hleft)
  have hleaves : (([some 18].flatMap Tree.storing.leaves).filter fun leaf =>
      Tree.storing.IsItem leaf.1) = [(some 13, [0]), (some 17, [1])] := by decide +kernel
  rw [hleaves] at hall
  exact ⟨ht, hs, s', hrun, hall, hcalls, hevidence⟩

end ObjectInference
