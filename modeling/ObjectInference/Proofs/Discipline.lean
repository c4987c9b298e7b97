import ObjectInference.Proofs.Runs

/-!
The discipline of guards and contexts.

A state is disciplined when both guards count what they visit, every context
belongs to a function in flight, no function has two, and a context has one
object for each ordinary parameter. Every operation keeps all of it, and gives
back the guards and the contexts as it found them, however it ends. It holds
wherever an expression is evaluated in between, too.
-/

namespace ObjectInference

namespace Guard

variable {κ : Type}

theorem balanced_iff {g : Guard κ} :
    g.Balanced ↔ g.depth = g.visiting.length ∧ g.visiting.Nodup :=
  ⟨fun h => ⟨h.depth_eq, h.nodup⟩, fun h => ⟨h.1, h.2⟩⟩

instance [DecidableEq κ] (g : Guard κ) : Decidable g.Balanced :=
  decidable_of_iff' _ balanced_iff

/-- A guard over limits of any kind starts balanced. -/
theorem balanced_ofProfile (profile : Profile) : (ofProfile profile : Guard κ).Balanced :=
  ⟨rfl, List.nodup_nil⟩

end Guard

structure State.Disciplined (p : Program) (s : State) : Prop where
  inFlight : s.inFlight.Balanced
  resolving : s.resolving.Balanced
  visiting : ∀ c ∈ s.contexts, c.function ∈ s.inFlight.visiting
  nodup : (s.contexts.map Context.function).Nodup
  parameters : ∀ c ∈ s.contexts,
    c.parameters.length = (placeholders (p.parameters s.objects c.function)).length

namespace State

variable {p : Program} {s s' : State}

theorem disciplined_iff : s.Disciplined p ↔
    s.inFlight.Balanced ∧ s.resolving.Balanced ∧
      (∀ c ∈ s.contexts, c.function ∈ s.inFlight.visiting) ∧
      (s.contexts.map Context.function).Nodup ∧
      ∀ c ∈ s.contexts,
        c.parameters.length = (placeholders (p.parameters s.objects c.function)).length :=
  ⟨fun h => ⟨h.1, h.2, h.3, h.4, h.5⟩, fun ⟨h₁, h₂, h₃, h₄, h₅⟩ => ⟨h₁, h₂, h₃, h₄, h₅⟩⟩

instance (p : Program) (s : State) : Decidable (s.Disciplined p) :=
  decidable_of_iff' _ disciplined_iff

namespace Disciplined

theorem settles (hs : s.Disciplined p) (h : s.Settles s') : s'.Disciplined p where
  inFlight := h.inFlight.balanced hs.inFlight
  resolving := h.resolving.balanced hs.resolving
  visiting := by
    rw [h.contexts, h.inFlight.visiting_eq hs.inFlight]
    exact hs.visiting
  nodup := by
    rw [h.contexts]
    exact hs.nodup
  parameters := by
    intro c hc
    rw [h.contexts] at hc
    rw [p.parameters_of_extends h.objects]
    exact hs.parameters c hc

theorem enterName (hs : s.Disciplined p) {key : ScopeId × Atom} {g : Guard (ScopeId × Atom)}
    (h : s.resolving.refresh.enter key = (.entered, g)) :
    Disciplined p { s with resolving := g } :=
  ⟨hs.inFlight, Guard.balanced_of_enter h (Guard.balanced_refresh hs.resolving), hs.visiting,
    hs.nodup, hs.parameters⟩

theorem enterFunction (hs : s.Disciplined p) {f : ObjectId} {g : Guard ObjectId}
    (h : s.inFlight.refresh.enter f = (.entered, g)) :
    Disciplined p { s with inFlight := g } ∧ f ∈ g.visiting ∧
      ∀ c ∈ s.contexts, c.function ≠ f := by
  have hbalanced := Guard.balanced_of_enter h (Guard.balanced_refresh hs.inFlight)
  obtain ⟨rfl, hf, _, _⟩ := Guard.enter_eq_entered h
  have hrefresh : s.inFlight.refresh.visiting = s.inFlight.visiting :=
    (Guard.settles_refresh _).visiting_eq hs.inFlight
  rw [hrefresh] at hf
  refine ⟨⟨hbalanced, hs.resolving, fun c hc => ?_, hs.nodup, hs.parameters⟩, ?_, ?_⟩
  · change c.function ∈ f :: s.inFlight.refresh.visiting
    rw [hrefresh]
    exact List.mem_cons_of_mem _ (hs.visiting c hc)
  · exact List.mem_cons_self
  · rintro c hc rfl
    exact hf (hs.visiting c hc)

end Disciplined

theorem inherited_disciplined (p : Program) : Inherited p (State.Disciplined p) where
  settles {_ _} hs h := hs.settles h
  name {_} hs {_ _} h := hs.enterName h
  call {s} hs {f g} h scope {parameters} hp := by
    obtain ⟨hentered, hf, hfresh⟩ := hs.enterFunction h
    cases parameters with
    | none => exact hentered
    | some parameters =>
        refine ⟨hentered.inFlight, ?_, fun c hc => ?_, ?_, fun c hc => ?_⟩
        · rw [Infer.resolving_opened]
          exact hentered.resolving
        · rcases List.mem_cons.1 hc with rfl | hc
          · exact hf
          · exact hentered.visiting c hc
        · refine List.nodup_cons.2 ⟨fun hmem => ?_, hentered.nodup⟩
          -- A function with a context is in flight, so it cannot be entered again.
          obtain ⟨c, hc, hcf⟩ := List.mem_map.1 hmem
          exact hfresh c hc hcf
        · rw [Infer.objects_opened]
          rcases List.mem_cons.1 hc with rfl | hc
          · exact hp _ rfl
          · exact hentered.parameters c hc

/-- The guards and the contexts of two states are the same. -/
structure Restored (s s' : State) : Prop where
  inFlight_visiting : s'.inFlight.visiting = s.inFlight.visiting
  inFlight_depth : s'.inFlight.depth = s.inFlight.depth
  contexts : s'.contexts = s.contexts
  resolving_visiting : s'.resolving.visiting = s.resolving.visiting
  resolving_depth : s'.resolving.depth = s.resolving.depth

theorem Disciplined.restored (hs : s.Disciplined p) (h : s.Settles s') : s.Restored s' :=
  ⟨h.inFlight.visiting_eq hs.inFlight, h.inFlight.depth, h.contexts,
    h.resolving.visiting_eq hs.resolving, h.resolving.depth⟩

/-- Nothing is in flight, and no name is being resolved. -/
structure Idle (s : State) : Prop where
  inFlight : s.inFlight.visiting = []
  resolving : s.resolving.visiting = []
  contexts : s.contexts = []

theorem Idle.settles (hs : s.Idle) (h : s.Settles s') : s'.Idle where
  inFlight := h.inFlight.visiting_eq_nil hs.inFlight
  resolving := h.resolving.visiting_eq_nil hs.resolving
  contexts := h.contexts.trans hs.contexts

/-- What holds at the start of a session, and after whatever settles, holds between
operations. -/
theorem Reached.of_settles {motive : (s : State) → s.Reached p → Prop}
    (start : ∀ calls options, motive _ (.start calls options))
    (resume : ∀ s (h : s.Reached p) calls options, motive s h → motive _ (.resume h calls options))
    (settles : ∀ s s' (h : s.Reached p) (h' : s'.Reached p), motive s h → s.Settles s' →
      motive s' h') {s : State} (h : s.Reached p) : motive s h := by
  induction h with
  | start calls options => exact start calls options
  | resume h calls options ih => exact resume _ h calls options ih
  | @ok s s' h α op a hrun ih =>
      have hend := op.ended (p := p) s
      rw [hrun] at hend
      cases hend with
      | ok hst => exact settles s s' h _ ih hst
  | @reentrant s s' h α op f hrun ih =>
      have hend := op.ended (p := p) s
      rw [hrun] at hend
      cases hend with
      | reentrant hst _ => exact settles s s' h _ ih hst

/-- Between operations everything is in order and nothing is in flight. -/
theorem Reached.disciplined_and_idle (h : State.Reached p s) : s.Disciplined p ∧ s.Idle := by
  have hstart : ∀ (m : Memory) (calls : CallLog) (options : Options), m.resolving.Balanced →
      m.resolving.visiting = [] →
      (State.start m calls options).Disciplined p ∧ (State.start m calls options).Idle :=
    fun m calls options hm hv => ⟨⟨Guard.balanced_ofProfile _, hm,
      fun _ hc => (List.not_mem_nil hc).elim, List.nodup_nil,
      fun _ hc => (List.not_mem_nil hc).elim⟩, rfl, hv, rfl⟩
  induction h using Reached.of_settles with
  | start calls options => exact hstart _ calls options (Guard.balanced_ofProfile _) rfl
  | resume s _ calls options hs => exact hstart _ calls options hs.1.resolving hs.2.resolving
  | settles s s' _ _ hs h => exact ⟨hs.1.settles h, hs.2.settles h⟩

/-- Between operations nothing is counted by the guards. -/
theorem Reached.depth_eq_zero (h : State.Reached p s) :
    s.inFlight.depth = 0 ∧ s.resolving.depth = 0 := by
  obtain ⟨hdisciplined, hidle⟩ := h.disciplined_and_idle
  rw [hdisciplined.inFlight.depth_eq, hdisciplined.resolving.depth_eq, hidle.inFlight,
    hidle.resolving]
  exact ⟨rfl, rfl⟩

/-- With nothing in flight every operation has a result. -/
theorem Reached.perform_ok (hd : p.tree.Descending) (h : State.Reached p s) {α : Type}
    (op : Operation α) : ∃ a s', op.perform p s = .ok a s' ∧ s.Settles s' :=
  op.perform_ok hd h.disciplined_and_idle.2.inFlight

/-- Between operations the store has what binding has put there. -/
theorem Reached.extends (h : State.Reached p s) : p.objects.Extends s.objects := by
  induction h using Reached.of_settles with
  | start calls options => exact .refl _
  | resume s _ calls options hs => exact hs
  | settles s s' _ _ hs h => exact hs.trans h.objects

/-- As many functions may be in flight as any guard has room for. -/
theorem Reached.maxVisiting_inFlight (h : State.Reached p s) :
    s.inFlight.maxVisiting = Guard.defaultRoom := by
  induction h using Reached.of_settles with
  | start calls options => rfl
  | resume s _ calls options hs => rfl
  | settles s s' _ _ hs h => rw [h.inFlight.maxVisiting, hs]

/-- The limits on names being resolved are those of a fresh memory. -/
theorem Reached.resolving_limits (h : State.Reached p s) :
    0 < s.resolving.maxDepth ∧ 0 < s.resolving.maxIterations ∧ 0 < s.resolving.maxVisiting := by
  induction h using Reached.of_settles with
  | start calls options =>
      show 0 < Profile.nameResolution.maxDepth ∧ 0 < Profile.nameResolution.maxIterations ∧
        0 < Guard.defaultRoom
      decide
  | resume s _ calls options hs => exact hs
  | settles s s' _ _ hs h =>
      rwa [h.resolving.maxDepth, h.resolving.maxIterations, h.resolving.maxVisiting]

/-- Between operations any name may be resolved. -/
theorem Reached.enter_resolving (h : State.Reached p s) (key : ScopeId × Atom) :
    ∃ g, s.resolving.refresh.enter key = (.entered, g) := by
  obtain ⟨hdepth, hiterations, hvisiting⟩ := h.resolving_limits
  exact ⟨_, Guard.enter_of_inactive h.depth_eq_zero.2 hdepth hiterations hvisiting key⟩

end State

namespace Operation

variable {p : Program} {α : Type}

/-- An operation that ends from a disciplined state, with a result or on a
function in flight, gives back what it found. -/
def Restores (p : Program) (s : State) : EStateM.Result Interrupt State α → Prop
  | .ok _ s' => s.Restored s' ∧ s'.Disciplined p
  | .error (.reentrant _) s' => s.Restored s' ∧ s'.Disciplined p
  | .error (.misuse _) _ => False
  | .error .exhausted _ => ¬ p.tree.Descending

theorem Ended.restores {s : State} (hs : s.Disciplined p)
    {r : EStateM.Result Interrupt State α} (h : Ended p s r) : Restores p s r := by
  cases h with
  | ok h => exact ⟨hs.restored h, hs.settles h⟩
  | reentrant h _ => exact ⟨hs.restored h, hs.settles h⟩
  | exhausted h => exact h

end Operation

/-- Guards and contexts over whole runs. Every operation restores them, from all
states in order and whatever the limits are; it is the same operation when every
state in which an expression is evaluated is watched, so all of those are in
order; and between operations nothing is in flight and both guards can be
given up. -/
theorem guards_and_contexts_disciplined (p : Program) :
    (∀ (α : Type) (op : Operation α) (s : State), s.Disciplined p →
      Operation.Restores p s (op.perform p s) ∧
      Operation.Restores p s (op.watch p (State.Disciplined p) s) ∧
      (p.tree.Descending → op.watch p (State.Disciplined p) s = op.perform p s)) ∧
    (∀ s : State, s.Reached p →
      s.Disciplined p ∧ s.Idle ∧ s.inFlight.drop = .ok () ∧ s.resolving.drop = .ok ()) ∧
    (∀ (s : State) (f : ObjectId), s.Disciplined p →
      (s.contexts.filter fun c => c.function == f).length ≤ 1) := by
  refine ⟨fun α op s hs => ?_, fun s hs => ?_, fun s f hs => ?_⟩
  · obtain ⟨hwatch, heq⟩ := op.watch_ended (State.inherited_disciplined p) hs
    exact ⟨(op.ended s).restores hs, hwatch.restores hs, heq⟩
  · obtain ⟨hd, hidle⟩ := hs.disciplined_and_idle
    exact ⟨hd, hidle, by simp [Guard.drop, hidle.inFlight], by simp [Guard.drop, hidle.resolving]⟩
  · have hcount := List.nodup_iff_count.1 hs.nodup f
    rw [← List.countP_eq_length_filter]
    rwa [List.count_eq_countP, List.countP_map] at hcount

end ObjectInference
