import ObjectInference.Proofs.Belonging
import ObjectInference.Proofs.Drifting
import ObjectInference.Proofs.Succession

/-!
The containers of a function are noted for it.

A container is noted for the scope in which it was made, and forgetting a scope takes away
what has been seen in the containers that are noted for it. If a function has no definition
inside its own, then whatever a session is asked, the displays and calls inside the function
are evaluated in the scope of the function and in no other one. So all containers that are
made inside it are noted there, and none of them keeps anything when the scope is forgotten.
-/

namespace ObjectInference

open Relation

namespace State

variable {p : Program} {home : ScopeId} {n : NodeId} {s s' : State}

/-- Every container made inside a node is noted for one scope. -/
structure Registers (p : Program) (home : ScopeId) (n : NodeId) (s : State) : Prop where
  keeps : p.objects.Keeps s.objects
  noted {c : ObjectId} {i : NodeId} (hc : s.objects.ContainerAt c (some i))
    (hi : p.tree.Inside n i) : c ∈ s.allocated home

theorem registers_start (hp : p.WellBound) (calls : CallLog) (options : Options) :
    (State.start (.fresh p) calls options).Registers p home n := by
  refine ⟨.refl _, ?_⟩
  rintro c i ⟨b, _, hget⟩ _
  have hmade := hp.made c
  rw [ObjectStore.kind, show p.objects.get c = _ from hget] at hmade
  exact absurd rfl hmade

theorem Registers.of_eq (hs : s.Registers p home n) (ho : s'.objects = s.objects)
    (ha : s'.allocations = s.allocations) : s'.Registers p home n := by
  refine ⟨ho ▸ hs.keeps, fun {c i} hc hi => ?_⟩
  rw [ho] at hc
  rw [Memory.allocated, ha]
  exact hs.noted hc hi

theorem Registers.drift (hp : p.WellBound) (hs : s.Registers p home n) (h : s.Drifts s') :
    s'.Registers p home n := by
  refine ⟨hs.keeps.trans h.objects.keeps, ?_⟩
  rintro c i ⟨b, hb, hget⟩ hi
  rw [Memory.allocated, h.allocations]
  rcases h.made hget (Option.some_ne_none i) with hget | hplain
  · exact hs.noted ⟨b, hb, hget⟩ hi
  · have hclass := hs.keeps.get_eq_of_known (hp.get_builtinClass b) Object.noConfusion
    rw [hplain b hclass] at hb
    cases hb

/-- A container that is made where evaluation may go is noted for the scope of the function
if it is inside. -/
theorem Registers.addContainer (hs : s.Registers p home n) {scope : ScopeId} {site : NodeRef}
    (hsite : p.Apart home n scope site) (b : BuiltinClass) :
    (s.addContainer scope b site).Registers p home n := by
  let object : Object := .inst b.object site
  have hnoted := mem_noteAllocation { s with objects := (s.objects.intern object).2 } scope home
    (s.objects.intern object).1
  refine ⟨hs.keeps.trans (s.objects.keeps_intern _), ?_⟩
  rintro c i ⟨b', hb', hget⟩ hi
  refine (hnoted c).2 ?_
  have hold : s.objects.get c = .inst b'.object (some i) → c ∈ s.allocated home :=
    fun hget => hs.noted ⟨b', hb', hget⟩ hi
  have hget : (s.objects.intern object).2.get c = .inst b'.object (some i) := hget
  rcases s.objects.intern_cases object with ⟨o, h, _, _⟩ | ⟨h, _⟩
  · rw [h] at hget
    exact .inl (hold hget)
  · rw [h, ObjectStore.get_push] at hget
    split at hget
    · rename_i hc
      obtain ⟨-, rfl⟩ := Object.inst.inj hget
      exact .inr ⟨hsite i rfl hi, by rw [h, hc]⟩
    · exact .inl (hold hget)

end State

theorem Program.WellBound.kept_registers {p : Program} (hp : p.WellBound) (home : ScopeId)
    (n : NodeId) : KeptAmong p (p.Apart home n) (State.Registers p home n) :=
  .of_drifts (fun hs h => hs.drift hp h) (fun hs hmay _ b => hs.addContainer hmay b)
    fun hs _ _ => hs.of_eq rfl rfl

namespace Pairing

abbrev registering (p : Program) (home : ScopeId) (n : NodeId) : Pairing :=
  (bracketingAmong (p.Apart home n) fun _ => True).track (State.Registers p home n)

namespace registering

variable {p : Program} {r n : NodeId} {f : ObjectId} {home : ScopeId}

theorem lawful (hp : p.WellBound) : (registering p home n).Lawful p :=
  (bracketing.lawfulAmong ((Inherited.trivial p).among _)).trackAmong (hp.kept_registers home n)

theorem records (hp : p.WellBound) : (registering p home n).Records p :=
  bracketing.records.track (.of_drifts fun hs h => hs.drift hp h)

theorem diagonal : (registering p home n).Diagonal := ⟨Iff.rfl⟩

theorem pairsIn_evaluate (hp : p.WellBound) (h : p.Lone r f home n) {scope : ScopeId}
    {expr : NodeRef} (hexpr : p.Apart home n scope expr) :
    (registering p home n).PairsIn (fun _ => ¬ p.tree.Descending) p.evaluate p.evaluate scope
      expr :=
  (lawful hp).pairsIn_evaluate h.closed_apart (fun he _ => he) State.room id
    (fun h => bracketing.room_and_budget h.1) hexpr

theorem agree (hp : p.WellBound) (h : p.Lone r f home n) :
    (registering p home n).Agree p (fun _ => ¬ p.tree.Descending) p.evaluate p.evaluate
      (p.Apart home n) :=
  ⟨fun he => h.closed_apart.below (R := registering p home n) he,
    fun he => pairsIn_evaluate hp h he⟩

theorem within (hp : p.WellBound) (h : p.Lone r f home n) :
    (registering p home n).Within p (fun _ => ¬ p.tree.Descending)
      (fun _ => ¬ p.tree.Descending) p.evaluate p.evaluate :=
  ⟨fun he => pairsIn_evaluate hp h (h.closed_apart.leads he), fun _ => id⟩

end registering

end Pairing

/-! ### What sessions do -/

namespace State

variable {p : Program} {options : Options} {r n : NodeId} {f : ObjectId} {home : ScopeId}
  {s s' : State}

inductive Passes (p : Program) (options : Options) (s : State) : State → Prop where
  | analyzed {s' : State} (hrun : Infer.analyze p options p.module (fun _ => true)
      (fun _ => true) s = .ok () s') : Passes p options s s'
  | returned {f : ObjectId} {os : Option (List ObjectId)} {o : Option ObjectId} {s' : State}
      (hf : f < s.objects.size) (hos : ∀ objects ∈ os, ∀ o ∈ objects, o < s.objects.size)
      (hrun : Infer.returned p p.evaluate f (os.map .objects) s = .ok o s') : Passes p options s s'
  | handed {c : BuiltinClass} (hc : c.isContainer = false) :
      Passes p options s { s with objects := (s.objects.intern (.inst c.object none)).2 }

theorem Passes.settles (h : s.Passes p options s') : s.Settles s' := by
  have hended : ∀ {α : Type} (op : Operation α) {a : α}, op.perform p s = .ok a s' →
      s.Settles s' := by
    intro α op a hrun
    have hend := op.ended (p := p) s
    rw [hrun] at hend
    cases hend with
    | ok hst => exact hst
  cases h with
  | analyzed hrun => exact hended (.analyze options p.module (fun _ => true) fun _ => true) hrun
  | @returned f os _ _ _ _ hrun => exact hended (.returned f (os.map .objects)) hrun
  | handed hc =>
      obtain ⟨_, _, hrun, hsettles⟩ := Infer.settling_builtinInstance _ s
      cases hrun
      exact hsettles

theorem Passes.visited (hp : p.WellBound) (hmodule : p.module < p.objects.size)
    (hs : s.Visited p) (h : s.Passes p options s') : s'.Visited p := by
  cases h with
  | analyzed hrun =>
      exact hs.ok (.analyze options p.module (fun _ => true) fun _ => true)
        (Nat.lt_of_lt_of_le hmodule (hs.consistent hp).sound.grown.size_le) hrun
  | @returned f os _ _ hf hos hrun =>
      exact hs.ok (.returned f (os.map .objects)) ⟨hf, inRange_objects hos⟩ hrun
  | handed hc =>
      refine hs.make rfl ?_ nofun
      rintro _ _ ⟨⟩
      exact ⟨hp.builtinClass_lt _, hp.kind_builtinClass _⟩

/-- Whatever a session is asked, the containers of the function stay noted. -/
theorem Passes.registers (hp : p.WellBound) (hl : p.Lone r f home n)
    (hs : s.Registers p home n) (h : s.Passes p options s') : s'.Registers p home n := by
  have hrel : (Pairing.registering p home n).rel s s s := ⟨⟨rfl, .refl s, trivial⟩, hs⟩
  have L : (Pairing.registering p home n).Lawful p := Pairing.registering.lawful hp
  have hsame : ∀ {α : Type} (op : Operation α), op.Given (Pairing.registering p home n) s s :=
    Pairing.registering.diagonal.given
  have A := Pairing.registering.agree hp hl
  cases h with
  | analyzed hrun =>
      have hafter := (L.analyzeWith (Pairing.registering.records hp) A
        (fun _ _ hsite => hl.apart_of_mem_sites hsite) options hrel
        (hsame (.analyze options p.module (fun _ => true) fun _ => true)) (fun _ => true)
        fun _ => true).after
      rw [show Infer.analyzeWith p p.evaluate options p.module _ _ s = _ from hrun] at hafter
      exact hafter
  | @returned g os _ _ _ _ hrun =>
      have hon : ∀ x ∈ os.map Arguments.objects,
          Pairing.ArgumentsOn p (p.Apart home n) x := by
        intro x hx
        obtain ⟨objects, _, rfl⟩ := Option.mem_map.1 hx
        trivial
      have hgiven := hsame (.returned g (os.map .objects))
      have hafter := (L.returned A (Pairing.registering.within hp hl) hrel hgiven.1 hgiven.2
        hon).after
      rw [hrun] at hafter
      exact hafter
  | handed hc =>
      refine hs.drift hp (.intern s rfl ?_)
      rintro _ _ ⟨⟩ hsite
      exact absurd rfl hsite

end State

namespace Session

/-- One operation of a session. It is asked about objects of the store; the shared instance of
a built-in class of values may be handed out to those who ask. -/
inductive Step : Session → Session → Prop where
  | analyze (s : Session) : Step s s.analyze.2
  | returned (s : Session) {f : ObjectId} (hf : f < s.state.objects.size) :
      Step s (s.returnedObject f).2
  | returnedFor (s : Session) {f : ObjectId} {os : List ObjectId} (hf : f < s.state.objects.size)
      (hos : ∀ o ∈ os, o < s.state.objects.size) : Step s (s.returnedObjectFor f os).2
  | value (s : Session) {c : BuiltinClass} (hc : c.isContainer = false) :
      Step s (s.run (Infer.builtinInstance c)).2

/-- The sessions over a program, at any point of their runs. They may come one after the other
over one memory, and take over calls recorded by any of them. -/
inductive Ran (p : Program) : Session → Prop where
  | start (options : Options) : Ran p (.start p (.fresh p) options)
  | resume {s : Session} (h : Ran p s) {calls : CallLog}
      (hc : calls.InRange s.state.objects.size) (options : Options) :
      Ran p (.resume p s.state.toMemory options calls)
  | step {s t : Session} (h : Ran p s) (hstep : s.Step t) : Ran p t

/-- What holds of a session over a program between operations. -/
structure Ready (p : Program) (s : Session) : Prop where
  program : s.program = p
  visited : s.state.Visited p
  inFlight : (Guard.ofProfile s.options.profile).Settles s.state.inFlight
  contexts : s.state.contexts = []

variable {p : Program} {r n : NodeId} {f : ObjectId} {home : ScopeId} {s t : Session}

/-- Nothing is in flight, so every operation has a result. -/
theorem Step.passes (hd : p.tree.Descending) (hs : s.Ready p) (h : s.Step t) :
    t.program = p ∧ t.options = s.options ∧ s.state.Passes p s.options t.state := by
  have hidle : s.state.inFlight.visiting = [] := hs.inFlight.visiting_eq_nil rfl
  have hprogram := hs.program
  cases h with
  | analyze =>
      obtain ⟨_, s', hrun, _⟩ := (Operation.analyze s.options p.module (fun _ => true)
        fun _ => true).perform_ok hd hidle
      have hanalyze : s.analyze = (.ok s'.stats, { s with state := s' }) := by
        refine analyze_of_ok ?_
        rw [hprogram]
        exact hrun
      rw [hanalyze]
      exact ⟨hprogram, rfl, .analyzed hrun⟩
  | @returned f hf =>
      obtain ⟨o, s', hrun, _⟩ := (Operation.returned f none).perform_ok hd hidle
      have hanswer : s.returnedObject f = (.ok o, { s with state := s' }) := by
        refine run_of_ok ?_
        rw [hprogram]
        exact hrun
      rw [hanswer]
      have hnone : ∀ objects ∈ (none : Option (List ObjectId)), ∀ o ∈ objects,
          o < s.state.objects.size := nofun
      exact ⟨hprogram, rfl, .returned hf hnone hrun⟩
  | @returnedFor f os hf hos =>
      obtain ⟨o, s', hrun, _⟩ := (Operation.returned f (some (.objects os))).perform_ok hd hidle
      have hanswer : s.returnedObjectFor f os = (.ok o, { s with state := s' }) := by
        refine run_of_ok ?_
        rw [hprogram]
        exact hrun
      rw [hanswer]
      have hsome : ∀ objects ∈ some os, ∀ o ∈ objects, o < s.state.objects.size := by
        rintro _ ⟨⟩
        exact hos
      exact ⟨hprogram, rfl, .returned hf hsome hrun⟩
  | value hc => exact ⟨hprogram, rfl, .handed hc⟩

theorem Ready.step (hd : p.tree.Descending) (hp : p.WellBound)
    (hmodule : p.module < p.objects.size) (hs : s.Ready p) (h : s.Step t) : t.Ready p := by
  obtain ⟨hprogram, hoptions, hpasses⟩ := h.passes hd hs
  refine ⟨hprogram, hpasses.visited hp hmodule hs.visited, ?_, ?_⟩
  · rw [hoptions]
    exact hs.inFlight.trans hpasses.settles.inFlight
  · exact hpasses.settles.contexts.trans hs.contexts

theorem Ran.ready (hd : p.tree.Descending) (hp : p.WellBound)
    (hmodule : p.module < p.objects.size) (h : s.Ran p) : s.Ready p := by
  induction h with
  | start options => exact ⟨rfl, .start options, .refl _, rfl⟩
  | resume _ hc options ih => exact ⟨rfl, ih.visited.resume hc options, .refl _, rfl⟩
  | step _ hstep ih => exact ih.step hd hp hmodule hstep

/-- Between operations the containers of a function with no definition inside its own are
noted for it. -/
theorem Ran.registers (hp : p.WellBound) (hmodule : p.module < p.objects.size)
    (hl : p.Lone r f home n) (h : s.Ran p) : s.state.Registers p home n := by
  induction h with
  | start options => exact State.registers_start hp {} options
  | resume _ _ options ih => exact ih.of_eq rfl rfl
  | step hran hstep ih =>
      obtain ⟨_, _, hpasses⟩ := hstep.passes hl.descending (hran.ready hl.descending hp hmodule)
      exact hpasses.registers hp hl ih

/-- What later operations find of the store and of the limits. -/
theorem Ran.later (hd : p.tree.Descending) (hp : p.WellBound)
    (hmodule : p.module < p.objects.size) (hs : s.Ran p) (h : ReflTransGen Step s t) :
    t.Ran p ∧ t.options = s.options ∧ s.state.Settles t.state := by
  induction h with
  | refl => exact ⟨hs, rfl, .refl _⟩
  | tail _ hstep ih =>
      obtain ⟨hran, hoptions, hsettles⟩ := ih
      obtain ⟨_, hoptions', hpasses⟩ := hstep.passes hd (hran.ready hd hp hmodule)
      exact ⟨hran.step hstep, hoptions'.trans hoptions, hsettles.trans hpasses.settles⟩

end Session

end ObjectInference
