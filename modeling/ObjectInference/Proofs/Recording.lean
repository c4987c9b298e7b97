import ObjectInference.Proofs.Arguments
import ObjectInference.Proofs.Discipline
import ObjectInference.Proofs.Moves

/-!
What is entered in the log of calls.

Only an analysis enters calls, and it enters them after those that are there. So no
call of a function is lost or moved, and functions keep their places too. What is
entered is a call of a function of the source, with one object for each of its
parameters. `State.Logs` says this of two states. Moves enter nothing, and every part
of an analysis enters what its own parts enter.
-/

namespace ObjectInference

/-! ### Appending to a log -/

namespace CallLog

def recordAll (l : CallLog) (entries : List (ObjectId × CallRecord)) : CallLog :=
  entries.foldl (fun l e => l.record e.1 e.2) l

theorem recordAll_append (l : CallLog) (entries entries' : List (ObjectId × CallRecord)) :
    l.recordAll (entries ++ entries') = (l.recordAll entries).recordAll entries' :=
  List.foldl_append

/-- The calls of a function stand behind those it had. -/
theorem calls_recordAll (l : CallLog) (entries : List (ObjectId × CallRecord)) (f : ObjectId) :
    (l.recordAll entries).calls f =
      l.calls f ++ (entries.filter fun e => e.1 = f).map Prod.snd := by
  induction entries generalizing l with
  | nil => simp [recordAll]
  | cons e entries ih =>
      have hrest := ih (l.record e.1 e.2)
      by_cases he : e.1 = f
      · rw [calls_record, if_pos he, he] at hrest
        simpa [recordAll, he] using hrest
      · rw [calls_record, if_neg he] at hrest
        simpa [recordAll, he] using hrest

theorem functions_prefix_recordAll (l : CallLog) (entries : List (ObjectId × CallRecord)) :
    l.functions <+: (l.recordAll entries).functions := by
  induction entries generalizing l with
  | nil => exact List.prefix_refl _
  | cons e entries ih =>
      exact (l.byFunction.keys_prefix_insert e.1 _).trans (ih (l.record e.1 e.2))

end CallLog

/-- A record of a call of a function of the source: one object for each parameter, and
the unknown one for each that is special. -/
structure CallRecord.Fits (p : Program) (f : ObjectId) (r : CallRecord) : Prop where
  function : p.objects.kind f = .function
  length : r.length = (p.parameters p.objects f).length
  special {i : Nat} {q : Param} (hq : (p.parameters p.objects f)[i]? = some q)
    (hs : q.isSpecial = true) : r[i]? = some .unknown

/-- Between two states calls of functions of the source have been entered in the log,
and nothing else has happened to it. -/
structure State.Logs (p : Program) (s s' : State) : Prop where
  objects : s.objects.Extends s'.objects
  calls : ∃ entries, s'.calls = s.calls.recordAll entries ∧
    ∀ e ∈ entries, CallRecord.Fits p e.1 e.2

namespace State

variable {p : Program} {recording : Prop} {s s' s₁ s₂ s₃ : State}

namespace Logs

theorem of_calls_eq (hobjects : s.objects.Extends s'.objects) (hcalls : s'.calls = s.calls) :
    s.Logs p s' :=
  ⟨hobjects, [], hcalls, fun _ he => nomatch he⟩

theorem refl (s : State) : s.Logs p s :=
  .of_calls_eq (.refl _) rfl

theorem trans (h : s₁.Logs p s₂) (h' : s₂.Logs p s₃) : s₁.Logs p s₃ := by
  obtain ⟨entries, hcalls, hfits⟩ := h.calls
  obtain ⟨entries', hcalls', hfits'⟩ := h'.calls
  refine ⟨h.objects.trans h'.objects, entries ++ entries', ?_, fun e he => ?_⟩
  · rw [hcalls', hcalls, CallLog.recordAll_append]
  · exact (List.mem_append.1 he).elim (hfits e) (hfits' e)

end Logs

/-- No move but one of an analysis touches the log. -/
theorem Move.calls_eq (h : Move p False s s') : s'.calls = s.calls := by
  cases h with
  | record h _ => exact h.elim
  | _ => rfl

theorem Move.extends (h : Move p recording s s') : s.objects.Extends s'.objects := by
  cases h with
  | make h => exact ObjectStore.extends_intern _ h
  | call f scope parameters =>
      rw [Infer.objects_opened]
      exact .refl _
  | _ => exact .refl _

theorem Moves.logs (h : Moves p False s s') : s.Logs p s' := by
  induction h with
  | refl => exact .refl s
  | tail _ hmove ih => exact ih.trans (.of_calls_eq hmove.extends hmove.calls_eq)

end State

namespace Infer

variable {p : Program} {α β : Type} {s : State} {options : Options}

def Logging (p : Program) (s : State) (x : Infer α) : Prop :=
  p.objects.Extends s.objects → ∀ a s', x s = .ok a s' → s.Logs p s'

theorem Moving.logging {x : Infer α} (hx : Moving p False x) (s : State) : Logging p s x :=
  fun _ a s' hrun => (hx s a s' hrun).logs

namespace Logging

theorem pure (a : α) : Logging p s (Pure.pure a : Infer α) :=
  (Moving.pure a).logging s

theorem bind {x : Infer α} {f : α → Infer β} (hx : Logging p s x)
    (hf : ∀ a s', x s = .ok a s' → Logging p s' (f a)) : Logging p s (x >>= f) := by
  intro hs b s'' hrun
  obtain ⟨a, s', hs', hrun⟩ := bind_eq_ok.1 hrun
  have h := hx hs a s' hs'
  exact h.trans (hf a s' hs' (hs.trans h.objects) b s'' hrun)

theorem get_bind {f : State → Infer α} (hf : Logging p s (f s)) : Logging p s (get >>= f) :=
  hf

theorem count (change : Stats → Stats) : Logging p s (count change) := by
  intro _ _ s' hrun
  cases hrun
  exact .of_calls_eq (.refl _) rfl

theorem forM {f : α → Infer Unit} (h : ∀ x s, Logging p s (f x)) (xs : List α) (s : State) :
    Logging p s (xs.forM f) := by
  induction xs generalizing s with
  | nil => exact .pure ()
  | cons x xs ih => exact (h x s).bind fun _ s' _ => ih s'

end Logging

/-! ### Calls -/

/-- An attempt of an operation other than an analysis moves, however the operation ends. -/
theorem moving_attempt (op : Operation α) (hop : ¬ op.IsAnalysis) :
    Moving p False (attempt (op.perform p)) := by
  intro s r s' hrun
  have hafter := op.after_perform (p := p) (fun _ _ hmove h => Relation.ReflTransGen.tail h hmove)
    hop (.refl : s.Moves p False s)
  unfold attempt at hrun
  split at hrun
  · rename_i hend
    rw [hend] at hafter
    cases hrun
    exact hafter
  · rename_i hend
    rw [hend] at hafter
    cases hrun
    exact hafter
  · cases hrun

theorem attempt_eq_ok {x : Infer α} {a : α} {s' : State}
    (h : attempt x s = .ok (.ok a) s') : x s = .ok a s' := by
  unfold attempt at h
  split at h
  · rename_i hx
    cases h
    exact hx
  · cases h
  · cases h

/-- The objects that a call binds are those of its arguments. -/
theorem bindArguments_eq_ok {eval : Evaluator} {f : ObjectId} {arguments : Arguments}
    {bound : List ObjectId} {s' : State}
    (h : bindArguments p eval f arguments s = .ok bound s') :
    ∃ resolved, bound = bindObjects (p.parameters s'.objects f) resolved := by
  obtain ⟨resolved, s₁, _, h⟩ := bind_eq_ok.1 h
  cases h
  exact ⟨resolved, rfl⟩

theorem logging_recordCall {f : ObjectId} {r : CallRecord} (h : r.Fits p f) :
    Logging p s (recordCall f r) := by
  intro _ _ s' hrun
  cases hrun
  refine ⟨.refl _, [(f, r)], rfl, fun e he => ?_⟩
  obtain rfl := List.mem_singleton.1 he
  exact h

theorem logging_simulateCall (target : CallTarget) :
    Logging p s (simulateCall p p.evaluate options target) := by
  have hattempt := moving_attempt (p := p) (.bindArguments target.function target.arguments) id
  refine .get_bind ?_
  cases hk : s.objects.kind target.function with
  | function =>
      intro hs
      have hf : p.objects.kind target.function = .function := by
        unfold ObjectStore.kind at hk ⊢
        rcases hs.get_eq_or target.function with h | ⟨_, h⟩
        · rwa [← h]
        · rw [h] at hk
          cases hk
      refine Logging.bind (hattempt.logging s) (fun r s₁ hs₁ hextends => ?_) hs
      cases r with
      | error _ => exact Logging.pure () hextends
      | ok bound =>
          obtain ⟨resolved, rfl⟩ := bindArguments_eq_ok (attempt_eq_ok hs₁)
          rw [p.parameters_of_extends hextends]
          exact logging_recordCall ⟨hf, length_bindObjects _ resolved,
            fun hq hspecial => bindObjects_special hq hspecial resolved⟩ hextends
  | builtinFunction =>
      dsimp only
      split
      · refine .bind (hattempt.logging s) fun r s₁ _ => ?_
        cases r with
        | error _ => exact .pure ()
        | ok bound =>
            have hcall : Moving p False (discard (callBuiltinObject target.function bound)) :=
              .bind (moving_callBuiltinObject _ bound) fun _ => .pure ()
            exact .bind (hcall.logging s₁) fun _ _ _ => .count _
      · exact .pure ()
  | _ => exact .pure ()

/-! ### Sites and scopes -/

section Visit

variable (scope : ScopeId)

theorem logging_visitCall (call : NodeId) (func : NodeRef) :
    Logging p s (visitCall p p.evaluate options scope call func) := by
  refine .bind (.count _) fun _ s₁ _ => ?_
  refine .bind ((moving_attempt (.primaryAndResult scope func) id).logging s₁) fun r s₂ _ => ?_
  rcases r with _ | ⟨primary, _ | callee⟩
  · exact .count _
  · exact .count _
  · refine .bind ((moving_callTarget scope _ _ _).logging s₂) fun target s₃ _ => ?_
    cases target with
    | none => exact .count _
    | some target => exact logging_simulateCall target

theorem logging_simulateItemSetter (container index value : ObjectId) :
    Logging p s (simulateItemSetter p p.evaluate options container index value) := by
  unfold simulateItemSetter
  split
  · refine .get_bind ?_
    cases p.itemSetter? s.objects container with
    | none => exact .pure ()
    | some setter => exact .bind (.count _) fun _ _ _ => logging_simulateCall _
  · exact .pure ()

theorem logging_visitItemTarget (value : NodeRef) (target : NodeRef × List Nat) :
    Logging p s (visitItemTarget p p.evaluate options scope value target) := by
  have heval : ∀ e, Moving p False (attempt (p.evaluate scope e)) :=
    fun e => moving_attempt (.evaluate scope e) id
  unfold visitItemTarget
  split
  · rename_i container _ index _ _
    refine .bind ((heval container).logging s) fun r s₁ _ => ?_
    rcases r with _ | _ | container
    · exact .pure ()
    · exact .pure ()
    · have helement : Moving p False (elementObject p.evaluate scope index) :=
        .bind (heval index) fun r => by cases r <;> exact .pure _
      refine .bind (helement.logging s₁) fun i s₂ _ => ?_
      have hvalue := moving_attempt (p := p) (.assignedObject scope value target.2) id
      refine .bind (hvalue.logging s₂) fun r s₃ _ => ?_
      rcases r with _ | _ | v
      · exact .pure ()
      · exact .pure ()
      · exact logging_simulateItemSetter container.object i v
  · exact .pure ()

theorem logging_visitSite (site : NodeId) :
    Logging p s (visitSite p p.evaluate options scope site) := by
  unfold visitSite
  split
  · exact logging_visitCall scope site _
  · split
    · exact .forM (fun target _ => logging_visitItemTarget scope _ target) _ s
    · exact .pure ()
  · exact .pure ()

theorem logging_analyzeScope : Logging p s (analyzeScope p p.evaluate options scope) :=
  .bind (.count _) fun _ s₁ _ => .forM (fun site _ => logging_visitSite scope site) _ s₁

end Visit

theorem logging_analyze (entity : ObjectId) (analyzes searches : ObjectId → Bool) :
    Logging p s (analyze p options entity analyzes searches) := by
  refine .get_bind ?_
  cases s.objects.scopeOf? entity with
  | some scope => exact .forM (fun scope _ => logging_analyzeScope scope) _ s
  | none => exact .pure ()

end Infer

/-! ### Operations -/

namespace Operation

variable {p : Program} {α : Type} {s s' : State}

/-- Inference leaves the log as it was. -/
theorem calls_after_perform (op : Operation α) (hop : ¬ op.IsAnalysis) (s : State) :
    State.After (fun s' => s'.calls = s.calls) (op.perform p s) :=
  op.after_perform (fun _ _ hmove h => hmove.calls_eq.trans h) hop rfl

/-- Any operation enters nothing but calls of functions of the source. -/
theorem logs_of_perform (op : Operation α) (hs : p.objects.Extends s.objects) {a : α}
    (hrun : op.perform p s = .ok a s') : s.Logs p s' := by
  by_cases hop : op.IsAnalysis
  · cases op with
    | analyze options entity analyzes searches =>
        exact Infer.logging_analyze entity analyzes searches hs a s' hrun
    | _ => exact hop.elim
  · exact (op.moving hop).logging s hs a s' hrun

end Operation

def State.Performs (p : Program) (s s' : State) : Prop :=
  ∃ (α : Type) (op : Operation α) (a : α), op.perform p s = .ok a s'

/-- Operations one after the other log what each of them logs. -/
theorem State.logs_of_performs {p : Program} {s s' : State} (hs : p.objects.Extends s.objects)
    (h : Relation.ReflTransGen (State.Performs p) s s') : s.Logs p s' := by
  induction h with
  | refl => exact .refl s
  | tail _ hlast ih =>
      obtain ⟨α, op, a, hrun⟩ := hlast
      exact ih.trans (op.logs_of_perform (hs.trans ih.objects) hrun)

/-- The log of calls is append-only, and an analysis alone writes it. Inference leaves
it as it was, at its end and wherever an expression is evaluated. Whatever has been
recorded at the start, operations one after the other put calls behind those that are
there, and all of them are calls of functions of the source with one object for each
parameter, unknown for each that is special. -/
theorem call_log_append_only (p : Program) :
    (∀ (α : Type) (op : Operation α) (s : State), ¬ op.IsAnalysis →
      State.After (fun s' => s'.calls = s.calls) (op.perform p s) ∧
      Operation.Ended p s (op.watch p (fun t => t.calls = s.calls) s) ∧
      (p.tree.Descending → op.watch p (fun t => t.calls = s.calls) s = op.perform p s)) ∧
    (∀ (α : Type) (op : Operation α) (s : State), p.tree.Descending → s.Reached p →
      ∃ a s', op.perform p s = .ok a s' ∧ s'.Reached p) ∧
    ∀ s s' : State, s.Reached p → Relation.ReflTransGen (State.Performs p) s s' →
      (∀ f, s.calls.calls f <+: s'.calls.calls f) ∧
      s.calls.functions <+: s'.calls.functions ∧
      ∃ entries : List (ObjectId × CallRecord),
        s'.calls = s.calls.recordAll entries ∧
        (∀ f, s'.calls.calls f =
          s.calls.calls f ++ (entries.filter fun e => e.1 = f).map Prod.snd) ∧
        ∀ e ∈ entries, CallRecord.Fits p e.1 e.2 := by
  refine ⟨fun α op s hop => ⟨op.calls_after_perform hop s, ?_⟩, fun α op s hd hs => ?_,
    fun s s' hs hrun => ?_⟩
  · exact op.watch_of_move (fun _ _ hmove h => hmove.calls_eq.trans h) hop rfl fun _ h => h
  · obtain ⟨a, s', hrun, _⟩ := hs.perform_ok hd op
    exact ⟨a, s', hrun, hs.ok op hrun⟩
  · obtain ⟨entries, hcalls, hfits⟩ := (State.logs_of_performs hs.extends hrun).calls
    have hof : ∀ f, s'.calls.calls f =
        s.calls.calls f ++ (entries.filter fun e => e.1 = f).map Prod.snd := by
      intro f
      rw [hcalls, CallLog.calls_recordAll]
    refine ⟨fun f => ?_, ?_, entries, hcalls, hof, hfits⟩
    · rw [hof f]
      exact List.prefix_append _ _
    · rw [hcalls]
      exact s.calls.functions_prefix_recordAll entries

/-- A function with an ordinary parameter and one for the remaining arguments, and a call
of it with three. -/
def Tree.recording : Tree :=
  ⟨#[.pass, .functionDef 1 [⟨2, .positional, none⟩, ⟨3, .varArgs, none⟩] [] [some 0], .name 1,
    .literal (.int 0), .call (some 2) [some 3, some 3, some 3] [], .exprStatement (some 4),
    .module [some 1, some 5]]⟩

/-- Behind the call that was there at the start stands the one of the module, with
nothing but the first argument. -/
theorem call_log_append_only_recording :
    let p := Program.bind Tree.recording ⟨#["", "f", "a", "rest"]⟩ (some 6)
    let s := State.start (.fresh p) (.record {} 16 [.unknown, .unknown]) {}
    s.Reached p ∧ p.objects.kind 16 = .function ∧
      ∃ s', Relation.ReflTransGen (State.Performs p) s s' ∧
        s'.calls.calls 16 = [[.unknown, .unknown], [17, .unknown]] ∧
        s.calls.calls 16 <+: s'.calls.calls 16 ∧
        ∃ entries, s'.calls = s.calls.recordAll entries ∧
          ∀ e ∈ entries, CallRecord.Fits p e.1 e.2 := by
  intro p s
  have hs : s.Reached p := .start _ {}
  obtain ⟨_, hok, happends⟩ := call_log_append_only p
  let op : Operation Unit := .analyze {} p.module (fun _ => true) (fun _ => true)
  obtain ⟨a, s', hrun, _⟩ := hok Unit op s (by decide +kernel) hs
  have hperforms : Relation.ReflTransGen (State.Performs p) s s' := .single ⟨Unit, op, a, hrun⟩
  obtain ⟨hbehind, _, entries, hcalls, _, hfits⟩ := happends s s' hs hperforms
  let logged : Infer (List (List ObjectId)) := do
    let _ ← op.perform p
    return (← get).calls.calls 16
  have hlog : logged.run' s = some [[.unknown, .unknown], [17, .unknown]] := by decide +kernel
  have hrun' : logged.run s = .ok (s'.calls.calls 16) s' := Infer.bind_of_ok hrun
  delta EStateM.run' at hlog
  rw [hrun'] at hlog
  exact ⟨hs, by decide +kernel, s', hperforms, Option.some.inj hlog, hbehind 16, entries, hcalls,
    hfits⟩

end ObjectInference
