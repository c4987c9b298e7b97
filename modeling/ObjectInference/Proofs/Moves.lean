import Mathlib.Logic.Relation
import ObjectInference.Proofs.Matching.Laws
import ObjectInference.Proofs.Pairing.Tracking
import ObjectInference.Proofs.Runs

/-!
How a state changes.

Evaluation changes a state in nine ways, and an analysis in two more: it enters
calls in the log, and it counts. `State.Move` lists them. Whatever an operation
does is made of moves, and what every move keeps holds at every point of it:
after it, however it ends, and wherever an expression is evaluated in between.
-/

namespace ObjectInference

/-- One change of a state. Only an analysis is `recording`. -/
inductive State.Move (p : Program) (recording : Prop) : State → State → Prop where
  | giveUp {s : State} {change : Stats → Stats} (h : Stats.GivesUp change) :
      Move p recording s { s with stats := change s.stats }
  | make {s : State} {object : Object} (h : object.kind = .inst) :
      Move p recording s { s with objects := (s.objects.intern object).2 }
  | note {s : State} (scope : ScopeId) (container : ObjectId) :
      Move p recording s (s.noteAllocation scope container)
  | see {s : State} {container : ObjectId} {slot : Slot}
      (hslot : s.objects.HasSlot container slot) (o : ObjectId) :
      Move p recording s (s.seeInto container slot o)
  /-- Keep what has been worked out for the parameters of a function. -/
  | supply {s : State} {f : ObjectId} {os : List ObjectId} (h : p.Supplied s f os) :
      Move p recording s { s with parameterCache := s.parameterCache.insert f os }
  | resolve {s : State} (g : Guard (ScopeId × Atom)) :
      Move p recording s { s with resolving := g }
  | fly {s : State} (g : Guard ObjectId) : Move p recording s { s with inFlight := g }
  | bind {s : State} (contexts : List Context) : Move p recording s { s with contexts }
  /-- Bind the parameters of a function for a call of it, and forget what earlier calls
  have led to. -/
  | call {s : State} (f : ObjectId) (scope : ScopeId) (parameters : List ObjectId) :
      Move p recording s (Infer.opened p f scope (some parameters) s)
  /-- Enter a call in the log, and forget what was worked out from earlier ones. -/
  | record {s : State} (hrecording : recording) {f : ObjectId} {r : CallRecord}
      (hlength : r.length = (p.parameters s.objects f).length) :
      Move p recording s
        { s.recordCall f r with parameterCache := s.parameterCache.erase f }
  | tally {s : State} (hrecording : recording) (change : Stats → Stats) :
      Move p recording s { s with stats := change s.stats }

abbrev State.Moves (p : Program) (recording : Prop) : State → State → Prop :=
  Relation.ReflTransGen (State.Move p recording)

namespace Infer

variable {p : Program} {recording : Prop} {α β : Type}

def Moving (p : Program) (recording : Prop) (x : Infer α) : Prop :=
  ∀ s a s', x s = .ok a s' → s.Moves p recording s'

namespace Moving

theorem pure (a : α) : Moving p recording (Pure.pure a : Infer α) := by
  intro s b s' h
  cases h
  exact .refl

theorem bind {x : Infer α} {f : α → Infer β} (hx : Moving p recording x)
    (hf : ∀ a, Moving p recording (f a)) : Moving p recording (x >>= f) := by
  intro s b s' h
  obtain ⟨a, s₁, hs₁, h⟩ := bind_eq_ok.1 h
  exact (hx s a s₁ hs₁).trans (hf a s₁ b s' h)

theorem get_bind {f : State → Infer α} (hf : ∀ s, Moving p recording (f s)) :
    Moving p recording (get >>= f) :=
  fun s => hf s s

theorem modify {f : State → State} (h : ∀ s : State, s.Moves p recording (f s)) :
    Moving p recording (modifyGet fun s => ((), f s) : Infer Unit) := by
  intro s _ s' hrun
  cases hrun
  exact h s

end Moving

theorem moving_intern {object : Object} (h : object.kind = .inst) :
    Moving p recording (intern object) := by
  intro s o s' hrun
  cases hrun
  exact .single (.make h)

theorem moving_newInstance (c : ObjectId) (site : NodeRef) :
    Moving p recording (newInstance c site) := by
  refine .get_bind fun s => ?_
  split <;> exact moving_intern rfl

theorem moving_newContainer (scope : ScopeId) (c : BuiltinClass) (site : NodeRef) :
    Moving p recording (newContainer scope c site) := by
  intro s o s' hrun
  rw [Pairing.matching.newContainer_run] at hrun
  cases hrun
  exact .tail (.single (.make rfl)) (.note scope _)

theorem moving_currentParameters (f : ObjectId) :
    Moving p recording (currentParameters p f) := by
  intro s os s' hrun
  unfold currentParameters at hrun
  rw [get_bind_run] at hrun
  cases hbound : s.boundParameters? f with
  | some parameters =>
      rw [hbound] at hrun
      cases hrun
      exact .refl
  | none =>
      rw [hbound] at hrun
      change evidenceParameters p f s = .ok os s' at hrun
      rcases Program.evidenceParameters_cases p s f with
        ⟨os, _, hcached⟩ | ⟨os, s₁, _, hsupplied, hmade, hworked⟩
      · rw [hcached] at hrun
        cases hrun
        exact .refl
      · rw [hworked] at hrun
        cases hrun
        cases hmade with
        | none => exact .single (.supply hsupplied)
        | made _ => exact .tail (.single (.make rfl)) (.supply hsupplied)

theorem moving_callTarget (scope : ScopeId) (call : NodeRef) (primary : Option Name)
    (callee : ObjectId) : Moving p recording (callTarget p scope call primary callee) := by
  refine .get_bind fun s => ?_
  dsimp only
  split
  · exact .pure _
  · exact .pure _
  · split
    · exact .bind (moving_newInstance callee call) fun _ => .pure _
    · exact .pure _
  · exact .pure _
  · exact .pure _
  · exact .pure _

theorem moving_callBuiltin (b : BuiltinFunction) (os : List ObjectId) :
    Moving p recording (callBuiltin b os) := by
  have hresult : ∀ c, Moving p recording (do return some (← builtinInstance c)) :=
    fun _ => .bind (moving_intern rfl) fun _ => .pure _
  intro s r s' hrun
  unfold callBuiltin at hrun
  rw [get_bind_run] at hrun
  split at hrun
  · cases hrun
    exact .refl
  · rename_i hreceiver
    have hslot : ∀ c : BuiltinClass, b.owner = some c → ∀ slot : Slot, slot.isOf c = true →
        s.objects.HasSlot ((os[0]?).getD .unknown) slot :=
      fun c hc slot hslot => ⟨c, hslot, .inr (ObjectStore.builtinClassOf?_receiver hreceiver hc)⟩
    cases b with
    | len => exact hresult .int s r s' hrun
    | listAppend =>
        obtain ⟨_, s₁, hseen, hrun⟩ := bind_eq_ok.1 hrun
        cases hseen
        exact .head (.see (hslot .list rfl .element rfl) _) (hresult .noneType _ r s' hrun)
    | listSetItem =>
        obtain ⟨_, s₁, hseen, hrun⟩ := bind_eq_ok.1 hrun
        cases hseen
        exact .head (.see (hslot .list rfl .element rfl) _) (hresult .noneType _ r s' hrun)
    | dictSetItem =>
        obtain ⟨_, s₁, hseen, hrun⟩ := bind_eq_ok.1 hrun
        cases hseen
        obtain ⟨_, s₂, hseen, hrun⟩ := bind_eq_ok.1 hrun
        cases hseen
        have hvalue : (s.seeInto ((os[0]?).getD .unknown) .element
            ((os[1]?).getD .unknown)).objects.HasSlot ((os[0]?).getD .unknown) .value :=
          hslot .dict rfl .value rfl
        exact .head (.see (hslot .dict rfl .element rfl) _)
          (.head (.see hvalue _) (hresult .noneType _ r s' hrun))
    | listGetItem =>
        cases hrun
        exact .refl
    | dictGetItem =>
        cases hrun
        exact .refl

theorem moving_callBuiltinObject (f : ObjectId) (os : List ObjectId) :
    Moving p recording (callBuiltinObject f os) := by
  refine .get_bind fun s => ?_
  split
  · exact moving_callBuiltin _ os
  · exact .pure _

theorem moving_leaveName (key : ScopeId × Atom) : Moving p recording (leaveName key) := by
  intro s _ s' hrun
  obtain ⟨g, rfl⟩ := leaveName_eq_ok hrun
  exact .single (.resolve g)

theorem moving_leaveFunction (f : ObjectId) : Moving p recording (leaveFunction f) := by
  intro s _ s' hrun
  obtain ⟨g, rfl⟩ := leaveFunction_eq_ok hrun
  exact .single (.fly g)

theorem moving_openCall (f : ObjectId) (scope : ScopeId) (parameters : Option (List ObjectId)) :
    Moving p recording (openCall p f scope parameters) := by
  intro s _ s' hrun
  rw [openCall_eq] at hrun
  cases hrun
  cases parameters with
  | none => exact .refl
  | some parameters => exact .single (.call f scope parameters)

theorem moving_closeCall (f : ObjectId) (parameters : Option (List ObjectId)) :
    Moving p recording (closeCall f parameters) := by
  cases parameters with
  | none => exact moving_leaveFunction f
  | some parameters =>
      exact .bind (.modify fun _ => .single (.bind _)) fun _ => moving_leaveFunction f

end Infer

/-! ### What every move keeps -/

variable {p : Program} {recording : Prop} {J : State → Prop}

theorem State.Moves.kept (hJ : ∀ s s', Move p recording s s' → J s → J s') {s s' : State}
    (h : s.Moves p recording s') (hs : J s) : J s' := by
  induction h with
  | refl => exact hs
  | tail _ hmove ih => exact hJ _ _ hmove ih

section Kept

variable (hJ : ∀ s s', State.Move p recording s s' → J s → J s')

include hJ

theorem Infer.Moving.keeps {α : Type} {x : Infer α} (hx : Infer.Moving p recording x) :
    Infer.Keeps J x :=
  fun s hs a s' hrun => (hx s a s' hrun).kept hJ hs

theorem Kept.of_move : Kept p J where
  count {_} hchange := (Infer.Moving.modify fun _ => .single (.giveUp hchange)).keeps hJ
  builtinInstance _ := (Infer.moving_intern rfl).keeps hJ
  newInstance c site := (Infer.moving_newInstance c site).keeps hJ
  newContainer scope c site := (Infer.moving_newContainer scope c site).keeps hJ
  generatorOf _ := (Infer.moving_intern rfl).keeps hJ
  observe {_ _ _} hslot o hs {_} hrun := by
    cases hrun
    exact hJ _ _ (.see hslot o) hs
  currentParameters f := (Infer.moving_currentParameters f).keeps hJ
  enterName key := by
    intro s hs e s' hrun
    cases hrun
    exact hJ _ _ (.resolve _) hs
  leaveName key := (Infer.moving_leaveName key).keeps hJ
  enterFunction f := by
    intro s hs e s' hrun
    cases hrun
    exact hJ _ _ (.fly _) hs
  openCall f scope parameters := (Infer.moving_openCall f scope parameters).keeps hJ
  closeCall f parameters := (Infer.moving_closeCall f parameters).keeps hJ

theorem KeptByRecords.of_move (hrecording : recording) : KeptByRecords p J where
  record {s f os} hlength hs {s'} hrun := by
    cases hrun
    have hrecorded := hJ s _ (.record hrecording hlength) hs
    exact hJ { s.recordCall f os with parameterCache := s.parameterCache.erase f } _
      (.tally hrecording fun c => { c with recordedCalls := c.recordedCalls + 1 }) hrecorded
  count change := (Infer.Moving.modify fun _ => .single (.tally hrecording change)).keeps hJ

end Kept

/-! ### Operations -/

namespace Pairing

/-- A run beside itself, with a property that every move keeps. -/
abbrev tracking (J : State → Prop) : Pairing :=
  (bracketing fun _ => True).track J

variable (hJ : ∀ s s', State.Move p recording s s' → J s → J s')

include hJ

theorem tracking.lawful : (tracking J).Lawful p :=
  (bracketing.lawful (.trivial p)).track (.of_move hJ)

theorem tracking.pairsOn_evaluateBy {F F' : Nat → Evaluator}
    (hzero : ∀ scope expr, F 0 scope expr = throw .exhausted)
    (hstep : ∀ (n m : Nat) (expr : NodeRef) (excused : State → Prop),
      (tracking J).PairsOn excused (Infer.evaluateStep p (F n)) (Infer.evaluateStep p (F' m))
        expr →
      (tracking J).PairsOn excused (F (n + 1)) (F' (m + 1)) expr) (expr : NodeRef) :
    (tracking J).PairsOn (fun _ => ¬ p.tree.Descending) (p.evaluateBy F) (p.evaluateBy F')
      expr :=
  (tracking.lawful hJ).pairsOn_evaluateBy State.room id
    (fun h => bracketing.room_and_budget h.1) hzero
    (fun n m expr excused h => hstep n m expr excused fun scope => h scope trivial) expr

end Pairing

namespace Operation

variable {α : Type} {s : State} (hJ : ∀ s s', State.Move p recording s s' → J s → J s')
  (op : Operation α) (hop : op.IsAnalysis → recording) (hs : J s)

include hJ hop hs

theorem pairs_tracking {eval eval' : Evaluator}
    (H : ∀ e, (Pairing.tracking J).PairsOn (fun _ => ¬ p.tree.Descending) eval eval' e) :
    (Pairing.tracking J).Pairs
      ((Pairing.tracking J).exits (fun _ => ¬ p.tree.Descending) s) s s s
      (fun _ _ => Eq) (op.run p eval) (op.run p eval') := by
  refine (Pairing.tracking.lawful hJ).operation_eq Pairing.bracketing.diagonal.track H (fun _ => id)
    ⟨⟨rfl, .refl s, trivial⟩, hs⟩ op fun h => ?_
  exact Pairing.bracketing.records.track (.of_move hJ (hop h))

/-- What every move keeps holds after an operation. -/
theorem after_perform : State.After J (op.perform p s) := by
  have H : ∀ e, (Pairing.tracking J).PairsOn (fun _ => ¬ p.tree.Descending) p.evaluate
      p.evaluate e :=
    Pairing.tracking.pairsOn_evaluateBy hJ (fun _ _ => rfl) fun _ _ _ _ h => h
  exact (pairs_tracking hJ op hop hs H).after

/-- What every move keeps, and whatever follows from it, holds wherever an expression
is evaluated. -/
theorem watch_of_move {W : State → Prop} [DecidablePred W] (hW : ∀ s, J s → W s) :
    Ended p s (op.watch p W s) ∧ (p.tree.Descending → op.watch p W s = op.perform p s) := by
  have H := (Pairing.tracking.lawful hJ).pairsOn_watching State.room id
    (fun h => Pairing.bracketing.room_and_budget h.1) (fun _ _ => trivial) (fun h => hW _ h.2)
  have h := (pairs_tracking hJ op hop hs H).untrack
  refine ⟨ended_of_pairs h (fun f g hfg => hfg.1 ▸ hfg.2) id, fun hd => ?_⟩
  exact Pairing.bracketing.eq_of_pairs h (fun f g hfg => hfg.1) fun he => he hd

end Operation

/-- What holds at the start of a session, and after every operation before which it holds,
holds between operations. -/
theorem State.Reached.of_after {J : State → Prop}
    (start : ∀ calls options, J (.start (.fresh p) calls options))
    (resume : ∀ s, J s → ∀ calls options, J (.start s.toMemory.clearParameters calls options))
    (after : ∀ s, J s → ∀ {α : Type} (op : Operation α), State.After J (op.perform p s))
    {s : State} (h : s.Reached p) : J s := by
  induction h with
  | start calls options => exact start calls options
  | resume _ calls options ih => exact resume _ ih calls options
  | ok _ op hrun ih =>
      have h := after _ ih op
      rwa [hrun] at h
  | reentrant _ op hrun ih =>
      have h := after _ ih op
      rwa [hrun] at h

/-- Every operation moves, and none but an analysis records. -/
theorem Operation.moving {α : Type} (op : Operation α) (hop : op.IsAnalysis → recording) :
    Infer.Moving p recording (op.perform p) := by
  intro s a s' hrun
  have h := op.after_perform (p := p) (fun _ _ hmove h => Relation.ReflTransGen.tail h hmove) hop
    (.refl : s.Moves p recording s)
  rw [hrun] at h
  exact h

/-! ### Slots -/

/-- The store has grown from that of a program by instances, and nothing is held but by
containers, each in the slots that it has. -/
structure State.InSlots (p : Program) (s : State) : Prop where
  objects : p.objects.Extends s.objects
  hasSlot {c : ObjectId} {slot : Slot} {o : ObjectId} (h : s.evidence.get? c slot = some o) :
    s.objects.HasSlot c slot

namespace State.InSlots

variable {s s' : State}

theorem start (calls : CallLog) (options : Options) :
    (State.start (.fresh p) calls options).InSlots p :=
  ⟨.refl _, fun h => nomatch h⟩

theorem of_subset (hs : s.InSlots p) (hobjects : s.objects.Extends s'.objects)
    (hevidence : ∀ {c slot o}, s'.evidence.get? c slot = some o → s.evidence.get? c slot = some o) :
    s'.InSlots p :=
  ⟨hs.objects.trans hobjects, fun h => (hs.hasSlot (hevidence h)).keeps hobjects.keeps⟩

theorem seeInto (hs : s.InSlots p) {c : ObjectId} {slot : Slot} (hslot : s.objects.HasSlot c slot)
    (o : ObjectId) : (s.seeInto c slot o).InSlots p := by
  refine ⟨hs.objects, fun {c' slot' v} h => ?_⟩
  change (s.evidence.add c slot o).get? c' slot' = some v at h
  rw [Evidence.get?_add] at h
  split at h
  · rename_i hmatch
    obtain ⟨-, rfl, rfl⟩ := hmatch
    exact hslot
  · exact hs.hasSlot h

theorem forgetTree (hs : s.InSlots p) (scope : ScopeId) :
    State.InSlots p { s with toMemory := s.toMemory.forgetTree p scope } := by
  refine hs.of_subset ?_ fun {c slot o} h => ?_
  · rw [Memory.objects_forgetTree]
    exact .refl _
  · change (s.toMemory.forgetTree p scope).evidence.get? c slot = some o at h
    rw [Memory.forgetTree_eq, Memory.get?_without] at h
    split at h
    · exact h
    · cases h

theorem move (hmove : State.Move p recording s s') (hs : s.InSlots p) : s'.InSlots p := by
  cases hmove with
  | make hobject => exact hs.of_subset (ObjectStore.extends_intern _ hobject) id
  | see hslot o => exact hs.seeInto hslot o
  | call f scope parameters => exact (hs.forgetTree scope).of_subset (.refl _) id
  | _ => exact hs.of_subset (.refl _) id

theorem after {α : Type} (hs : s.InSlots p) (op : Operation α) :
    State.After (State.InSlots p) (op.perform p s) :=
  op.after_perform (fun _ _ => move) (fun _ => trivial) hs

/-- Nothing is held but by an instance of a built-in class that has the slot. -/
theorem builtinClassOf? (hs : s.InSlots p) (hp : p.WellBound) {c : ObjectId} {slot : Slot}
    {o : ObjectId} (h : s.evidence.get? c slot = some o) :
    ∃ b, s.objects.builtinClassOf? c = some b ∧ slot.isOf b = true := by
  have hkeeps := hs.objects.keeps
  obtain ⟨b, hb, ⟨site, hget⟩ | hclass⟩ := hs.hasSlot h
  · refine ⟨b, ObjectStore.builtinClassOf?_eq_some.2 ⟨b.object, site, hget, ?_⟩, hb⟩
    rw [hkeeps.get_eq (hp.builtinClass_lt b), hp.get_builtinClass]
  · exact ⟨b, hclass, hb⟩

end State.InSlots

end ObjectInference
