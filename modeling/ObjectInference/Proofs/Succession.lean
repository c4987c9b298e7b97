import ObjectInference.Proofs.Matching.Retracing
import ObjectInference.Proofs.Moves

/-!
Sessions one after the other.

A new session has no recorded calls, and forgets what was worked out from those of
earlier sessions. What earlier sessions have seen in containers belongs to the memory of
the program, and is there until the scope of the container is invalidated. So a new
session answers as one over a fresh memory does, up to the numbers of objects, as long
as its requests do not lead to the places of containers that are known from before, with
something in them or noted for another scope. Inference for given objects invalidates
the function first, and may lead there. If earlier sessions have left no containers at
all, there is nothing to keep clear of.
-/

namespace ObjectInference

open ObjectStore

namespace State

/-- The states that the sessions over a program come to, one after the other over one
memory. They may be asked anything about objects of the store, and instances and
generators may be handed out to those who ask. -/
inductive Visited (p : Program) : State → Prop where
  | start (options : Options) : Visited p (.start (.fresh p) {} options)
  | resume {s : State} (h : Visited p s) {calls : CallLog} (hc : calls.InRange s.objects.size)
      (options : Options) : Visited p (.start s.toMemory.clearParameters calls options)
  | ok {s s' : State} (h : Visited p s) {α : Type} (op : Operation α)
      (hop : op.InRange s.objects.size) {a : α} (hrun : op.perform p s = .ok a s') : Visited p s'
  | make {s : State} (h : Visited p s) {object : Object} (hobject : object.kind = .inst)
      (hinst : ∀ c site, object = .inst c site → c < p.objects.size ∧ p.objects.kind c = .cls)
      (hgenerator : ∀ e, object = .generator e → e < s.objects.size) :
      Visited p { s with objects := (s.objects.intern object).2 }

namespace Visited

variable {p : Program} {s : State}

theorem consistent (hp : p.WellBound) (h : s.Visited p) : s.Consistent p := by
  induction h with
  | start options => exact consistent_start hp options
  | resume _ hc options ih => exact ih.resume hp hc options
  | ok _ op hop hrun ih => exact ih.perform hp op hop hrun
  | make _ hobject hinst hgenerator ih => exact ih.make hobject hinst hgenerator

theorem inSlots (h : s.Visited p) : s.InSlots p := by
  induction h with
  | start options => exact .start {} options
  | resume _ _ options ih => exact ih.of_subset (.refl _) id
  | ok _ op _ hrun ih =>
      have hafter := ih.after op
      rwa [hrun] at hafter
  | make _ hobject _ _ ih => exact ih.of_subset (extends_intern _ hobject) id

/-- Between operations the guard of names is as at the start. -/
theorem resolving (h : s.Visited p) : (Memory.fresh p).resolving.Settles s.resolving := by
  induction h with
  | start => exact .refl _
  | resume _ _ _ ih => exact ih
  | @ok s s' _ _ op _ _ hrun ih =>
      have hend := op.ended (p := p) s
      rw [hrun] at hend
      cases hend with
      | ok hst => exact ih.trans hst.resolving
  | make _ _ _ _ ih => exact ih

/-- Only in containers something has been seen. -/
theorem containerAt (hp : p.WellBound) (h : s.Visited p) {c v : ObjectId} {slot : Slot}
    (hv : s.evidence.get? c slot = some v) : ∃ site, s.objects.ContainerAt c site := by
  have hkeeps := h.inSlots.objects.keeps
  obtain ⟨b, hclass, hslot⟩ := h.inSlots.builtinClassOf? hp hv
  obtain ⟨k, site, hget, hk⟩ := builtinClassOf?_eq_some.1 hclass
  have hb : s.objects.get b.object = .builtinClass b := by
    rw [hkeeps.get_eq (hp.builtinClass_lt b), hp.get_builtinClass]
  have hlt : k < s.objects.size := lt_size_of_get (by simp [hk])
  have hltb : b.object < s.objects.size := lt_size_of_get (by simp [hb])
  obtain rfl := (h.consistent hp).sound.grown.distinct k b.object hlt hltb (hk.trans hb.symm)
  exact ⟨site, b, Slot.isContainer_of_isOf hslot, hget⟩

/-- From the start a session over a used memory retraces one over a fresh memory. -/
theorem retracedBy_start (hp : p.WellBound) (h : s.Visited p) (options : Options) :
    (State.start (.fresh p) {} options).RetracedBy p
      (.start s.toMemory.clearParameters {} options) := by
  have hnone : CallLog.InRange {} s.objects.size := fun f record hf => nomatch hf
  have hsound := (consistent_start hp options).sound
  have hsound' := ((h.consistent hp).resume hp hnone options).sound
  let t : State := .start s.toMemory.clearParameters {} options
  have honly : ∀ {c : ObjectId} {site : NodeRef}, s.objects.ContainerAt c site →
      t.OnlyIn (.start (.fresh p) {} options) c site := by
    rintro c site ⟨b, hb, hget⟩
    refine ⟨⟨b, hb, hget⟩, fun o ho => hp.made o ?_⟩
    have hget' : p.objects.get o = .inst b.object site := ho.trans hget
    rw [kind, hget']
    rfl
  have hforth : (State.start (.fresh p) {} options).Carries .none t := by
    refine ⟨fun {a v slot} hv => ?_, fun {scope a} ha => ?_, fun {a record} ha => ?_⟩
    · cases hv
    · cases ha
    · cases ha
  have hback : t.Carries ((State.start (.fresh p) {} options).beyond t)
      (.start (.fresh p) {} options) := by
    refine ⟨fun {a v slot} hv => ?_, fun {scope a} ha => ?_, fun {a record} ha => ?_⟩
    · obtain ⟨site, hat⟩ := h.containerAt hp hv
      exact .inr ⟨site, honly hat, a, Evidence.mem_containers hv, honly hat⟩
    · obtain ⟨site, hat⟩ := (h.consistent hp).sound.noted ha
      exact .inr ⟨site, honly hat, a, ha, honly hat⟩
    · cases ha
  exact ⟨hsound, hsound', ⟨hforth, hback, .nil, alike_start _, .of_inactive h.resolving rfl⟩,
    ⟨rfl, fun _ => rfl⟩⟩

end Visited

end State

/-! ### Requests -/

/-- What a function may be called with in a request: an object that binding made, or the
instance that values of a built-in class share. -/
inductive Argument where
  | bound (o : ObjectId)
  | value (c : BuiltinClass) (hc : c.isContainer = false)
deriving DecidableEq, Repr

def Argument.object : Argument → Infer ObjectId
  | bound o => return o
  | value c _ => Infer.builtinInstance c

def Argument.objects : List Argument → Infer (List ObjectId)
  | [] => return []
  | a :: as => do
    let o ← a.object
    return o :: (← objects as)

/-- Handed out arguments are in the store, and the state is visited. -/
theorem State.Visited.objects {p : Program} {s s' : State} (hp : p.WellBound) (h : s.Visited p)
    {arguments : List Argument} (harguments : ∀ o, .bound o ∈ arguments → o < p.objects.size)
    {os : List ObjectId} (hrun : Argument.objects arguments s = .ok os s') :
    s'.Visited p ∧ s.objects.size ≤ s'.objects.size ∧ ∀ o ∈ os, o < s'.objects.size := by
  induction arguments generalizing s os with
  | nil =>
      cases hrun
      exact ⟨h, Nat.le_refl _, by simp⟩
  | cons a as ih =>
      obtain ⟨o, s₁, ho, hrest⟩ := Infer.bind_eq_ok.1 hrun
      obtain ⟨os, s₂, hos, hpure⟩ := Infer.bind_eq_ok.1 hrest
      cases hpure
      have hfirst : s₁.Visited p ∧ s.objects.size ≤ s₁.objects.size ∧ o < s₁.objects.size := by
        cases a with
        | bound b =>
            have hlt := harguments b List.mem_cons_self
            cases ho
            exact ⟨h, Nat.le_refl _,
              Nat.lt_of_lt_of_le hlt (h.consistent hp).sound.grown.size_le⟩
        | value c hc =>
            cases ho
            refine ⟨h.make rfl ?_ nofun, (keeps_intern _ _).size_le, intern_lt _ _⟩
            rintro _ _ ⟨⟩
            exact ⟨hp.builtinClass_lt c, hp.kind_builtinClass c⟩
      obtain ⟨h₁, hle, ho⟩ := hfirst
      obtain ⟨h₂, hle', hos⟩ := ih h₁ (fun o ho => harguments o (List.mem_cons_of_mem _ ho)) hos
      exact ⟨h₂, Nat.le_trans hle hle',
        List.forall_mem_cons.2 ⟨Nat.lt_of_lt_of_le ho hle', hos⟩⟩

inductive Request where
  | analyze
  | returned (f : ObjectId)
  | returnedFor (f : ObjectId) (arguments : List Argument)
  | parameters (f : ObjectId)
deriving DecidableEq, Repr

def Request.Within (n : Nat) : Request → Prop
  | analyze => True
  | returned f => f < n
  | returnedFor f arguments => f < n ∧ ∀ o, .bound o ∈ arguments → o < n
  | parameters f => f < n

/-- What a session answers, objects being described. -/
inductive Response where
  | counts (stats : Stats)
  | returned (description : Option String)
  | parameters (descriptions : List String)
deriving DecidableEq, Repr

namespace Session

def describe (s : Session) (o : ObjectId) : String :=
  s.program.describe s.state.objects o

def describeReturned : Except Interrupt (Option ObjectId) × Session →
    Except Interrupt Response × Session
  | (o, s) => (o.map fun o => .returned (o.map s.describe), s)

def serve (s : Session) : Request → Except Interrupt Response × Session
  | .analyze => s.analyze.map (·.map .counts) id
  | .returned f => describeReturned (s.returnedObject f)
  | .returnedFor f arguments =>
    match s.run (Argument.objects arguments) with
    | (.ok os, s) => describeReturned (s.returnedObjectFor f os)
    | (.error e, s) => (.error e, s)
  | .parameters f => (.ok (.parameters ((s.parameterObjects f).map s.describe)), s)

def serveAll (s : Session) : List Request → List (Except Interrupt Response) × Session
  | [] => ([], s)
  | r :: rs =>
    let (a, t) := s.serve r
    let (as, u) := t.serveAll rs
    (a :: as, u)

theorem run_eq_ok {s t : Session} {α : Type} {x : Infer α} {a : α} :
    s.run x = (.ok a, t) ↔ ∃ s', x s.state = .ok a s' ∧ { s with state := s' } = t := by
  unfold run
  cases x s.state <;> simp

theorem map_eq_ok {α β : Type} {f : α → β} {q : Except Interrupt α × Session} {t : Session} {b : β}
    (h : q.map (·.map f) id = (.ok b, t)) : ∃ a, q = (.ok a, t) := by
  obtain ⟨a | a, u⟩ := q
  · simp [Except.map] at h
  · exact ⟨a, congrArg (Prod.mk _) (Prod.mk.inj h).2⟩

theorem describeReturned_eq_ok {q : Except Interrupt (Option ObjectId) × Session} {t : Session}
    {a : Response} (h : describeReturned q = (.ok a, t)) : ∃ o, q = (.ok o, t) := by
  obtain ⟨o | o, u⟩ := q
  · simp [describeReturned, Except.map] at h
  · exact ⟨o, congrArg (Prod.mk _) (Prod.mk.inj h).2⟩

/-- Serving a request leads to a state that is visited. -/
theorem visited_serve {s t : Session} (hp : s.program.WellBound)
    (hmodule : s.program.module < s.program.objects.size) (h : s.state.Visited s.program)
    {r : Request} (hr : r.Within s.program.objects.size) {a : Response}
    (hserve : s.serve r = (.ok a, t)) : t.state.Visited s.program := by
  have hle : ∀ {s' : State}, s'.Visited s.program →
      s.program.objects.size ≤ s'.objects.size :=
    fun h => (h.consistent hp).sound.grown.size_le
  cases r with
  | analyze =>
      obtain ⟨stats, hanswer⟩ := map_eq_ok hserve
      obtain ⟨s', hrun, rfl⟩ := run_eq_ok.1 hanswer
      obtain ⟨_, s₁, hanalyze, hstats⟩ := Infer.bind_eq_ok.1 hrun
      cases hstats
      exact h.ok (.analyze s.options s.program.module (fun _ => true) fun _ => true)
        (Nat.lt_of_lt_of_le hmodule (hle h)) hanalyze
  | returned f =>
      obtain ⟨o, hanswer⟩ := describeReturned_eq_ok hserve
      obtain ⟨s', hrun, rfl⟩ := run_eq_ok.1 hanswer
      exact h.ok (.returned f none) ⟨Nat.lt_of_lt_of_le hr (hle h), nofun⟩ hrun
  | returnedFor f arguments =>
      simp only [serve] at hserve
      split at hserve
      · next os u hobjects =>
          obtain ⟨s₁, hhanded, rfl⟩ := run_eq_ok.1 hobjects
          obtain ⟨h₁, -, hos⟩ := h.objects hp hr.2 hhanded
          obtain ⟨o, hanswer⟩ := describeReturned_eq_ok hserve
          obtain ⟨s', hrun, rfl⟩ := run_eq_ok.1 hanswer
          refine h₁.ok (.returned f (some (.objects os)))
            ⟨Nat.lt_of_lt_of_le hr.1 (hle h₁), ?_⟩ hrun
          rintro _ ⟨⟩
          exact hos
      · cases hserve
  | parameters f =>
      obtain ⟨-, rfl⟩ := Prod.mk.inj hserve
      exact h

/-! ### Keeping clear of what is known from before -/

/-- Inference of a function in one session keeps clear of what only another session
knows, once both have forgotten what the inference forgets. -/
def returnsClear (s t : Session) (f : ObjectId) (os os' : Option (List ObjectId)) : Bool :=
  let p := s.program
  (Infer.returned p (p.avoiding ((s.state.view p f os).clearAt (t.state.view p f os'))) f
    (os.map .objects)).completes s.state

/-- Serving a request in one session keeps clear of what only another session knows. -/
def keepsClear (s t : Session) : Request → Bool
  | .analyze =>
    (Infer.analyzeWith s.program (s.program.avoiding (s.state.clearAt t.state)) s.options
      s.program.module (fun _ => true) fun _ => true).completes s.state
  | .returned f => s.returnsClear t f none none
  | .returnedFor f arguments =>
    match s.run (Argument.objects arguments), t.run (Argument.objects arguments) with
    | (.ok os, s), (.ok os', t) => s.returnsClear t f (some os) (some os')
    | _, _ => false
  | .parameters _ => true

/-- Serving requests, one after the other in both sessions, keeps clear in each of them. -/
def keepsClearAll (s t : Session) : List Request → Bool
  | [] => true
  | r :: rs => s.keepsClear t r && (s.serve r).2.keepsClearAll (t.serve r).2 rs

theorem serve_analyze (s : Session) : s.serve .analyze = s.analyze.map (·.map .counts) id :=
  rfl

theorem serve_returnedFor {s : Session} {f : ObjectId} {arguments : List Argument}
    {os : List ObjectId} {s' : State} (h : Argument.objects arguments s.state = .ok os s') :
    s.serve (.returnedFor f arguments) =
      describeReturned (Session.returnedObjectFor { s with state := s' } f os) := by
  simp only [serve, run_of_ok h]

theorem keepsClear_returnedFor {s t : Session} {f : ObjectId} {arguments : List Argument}
    {os os' : List ObjectId} {s' t' : State} (h : Argument.objects arguments s.state = .ok os s')
    (h' : Argument.objects arguments t.state = .ok os' t') :
    s.keepsClear t (.returnedFor f arguments) =
      returnsClear { s with state := s' } { t with state := t' } f (some os) (some os') := by
  simp only [keepsClear, run_of_ok h, run_of_ok h']

/-- A session whose state retraces that of another session over the same program. -/
structure RetracedBy (s t : Session) : Prop where
  program : t.program = s.program
  options : t.options = s.options
  wellBound : s.program.WellBound
  module : s.program.module < s.program.objects.size
  state : s.state.RetracedBy s.program t.state

/-- The second session goes on retracing the first one. -/
structure GoesOn (s t u v : Session) : Prop where
  retraced : u.RetracedBy v
  program : u.program = s.program
  agree : s.state.Matches .none t.state → u.state.Matches .none v.state

theorem GoesOn.trans {s t u v u' v' : Session} (h : s.GoesOn t u v) (h' : u.GoesOn v u' v') :
    s.GoesOn t u' v' :=
  ⟨h'.retraced, h'.program.trans h.program, h'.agree ∘ h.agree⟩

namespace RetracedBy

variable {s t : Session} {f : ObjectId}

theorem goesOn (h : s.RetracedBy t) {s' t' : State}
    (h' : s.state.GoesOn s.program t.state s' t') :
    s.GoesOn t { s with state := s' } { t with state := t' } :=
  ⟨⟨h.program, h.options, h.wellBound, h.module, h'.retraced⟩, rfl, h'.agree⟩

theorem describe_eq (h : s.RetracedBy t) {a b : ObjectId} (hab : s.state.SameShape t.state a b) :
    t.describe b = s.describe a := by
  rw [describe, describe, h.program, h.state.describe_eq hab]

theorem map_describe_eq (h : s.RetracedBy t) {os os' : List ObjectId}
    (hos : List.Forall₂ (s.state.SameShape t.state) os os') :
    os'.map t.describe = os.map s.describe := by
  induction hos with
  | nil => rfl
  | cons hab _ ih => rw [List.map_cons, List.map_cons, ih, h.describe_eq hab]

/-- Arguments are handed out alike. -/
theorem objects (h : s.RetracedBy t) {arguments : List Argument}
    (harguments : ∀ o, .bound o ∈ arguments → o < s.program.objects.size) :
    ∃ os os' s' t', Argument.objects arguments s.state = .ok os s' ∧
      Argument.objects arguments t.state = .ok os' t' ∧
      List.Forall₂ (s'.SameShape t') os os' ∧ s.state.GoesOn s.program t.state s' t' := by
  let R := Pairing.retracing s.program (s.state, t.state)
  have L := Pairing.retracing.lawful h.wellBound (s.state, t.state)
  have hpairs : ∀ (arguments : List Argument) (s' t' : State), R.rel (s.state, t.state) s' t' →
      (∀ o, .bound o ∈ arguments → o < s.program.objects.size) →
      R.Pairs .none (s.state, t.state) s' t' R.SameList (Argument.objects arguments)
        (Argument.objects arguments) := by
    intro arguments
    induction arguments with
    | nil => exact fun s' t' hr _ => .pure hr .nil
    | cons a as ih =>
        intro s' t' hr hbound
        have ha : R.Pairs .none (s.state, t.state) s' t' R.same a.object a.object := by
          cases a with
          | bound o =>
              exact .pure hr ((h.state.goesOn h.wellBound hr).retraced.sameShape h.wellBound
                (hbound o List.mem_cons_self))
          | value c hc => exact L.builtinInstance hr hc
        refine .bind ha fun o o' s₁ t₁ hr₁ ho => ?_
        refine .bind (ih s₁ t₁ hr₁.rel fun o ho => hbound o (List.mem_cons_of_mem _ ho))
          fun os os' s₂ t₂ hr₂ hos => ?_
        exact .pure hr₂.rel (.cons (hr₂.same ho) hos)
  have hrun := hpairs arguments s.state t.state h.state.rel harguments
  unfold Pairing.Pairs at hrun
  generalize Argument.objects arguments s.state = r, Argument.objects arguments t.state = r'
    at hrun ⊢
  cases hrun with
  | ok hr hos => exact ⟨_, _, _, _, rfl, rfl, hos, h.state.goesOn h.wellBound hr.rel⟩
  | reentrant _ hfg => exact hfg.elim
  | exhausted he => exact he.elim
  | strayed _ _ hs => exact hs.elim
  | strayedReentrant _ hfg _ => exact hfg.elim

/-- Inference of a function is described alike. -/
theorem returned (h : s.RetracedBy t) (hf : f < s.program.objects.size)
    (os os' : Option (List ObjectId))
    (hos : Option.Rel (List.Forall₂ (s.state.SameShape t.state)) os os')
    (hclear : s.returnsClear t f os os' = true) :
    ∃ a u v,
      describeReturned (s.run (Infer.returned s.program s.program.evaluate f (os.map .objects))) =
        (.ok a, u) ∧
      describeReturned (t.run (Infer.returned t.program t.program.evaluate f (os'.map .objects))) =
        (.ok a, v) ∧ s.GoesOn t u v := by
  obtain ⟨a, b, s', t', hrun, hrun', hab, hgoes⟩ := h.state.returned h.wellBound hf hos hclear
  have hmoved := h.goesOn hgoes
  rw [← h.program] at hrun'
  rw [run_of_ok hrun, run_of_ok hrun']
  refine ⟨_, _, _, rfl, ?_, hmoved⟩
  cases hab with
  | none => rfl
  | some hab =>
      simp only [describeReturned, Except.map, Option.map_some]
      rw [hmoved.retraced.describe_eq hab]

theorem parameterObjects (h : s.RetracedBy t) (hf : f < s.program.objects.size) :
    List.Forall₂ (s.state.SameShape t.state) (s.parameterObjects f) (t.parameterObjects f) := by
  have hshape := h.state.sameShape h.wellBound hf
  have hlatest := h.state.agree.forth.latest_rel h.state.agree.back h.state.soundLeft
    h.state.soundRight hshape
  have hparameters : t.program.parameters t.state.objects f =
      s.program.parameters s.state.objects f := by
    rw [h.program, Program.parameters, Program.parameters, h.state.get_eq hf]
  unfold Session.parameterObjects
  rw [hparameters]
  generalize s.state.calls.latest f = x, t.state.calls.latest f = y at hlatest
  cases hlatest with
  | none =>
      exact Program.placeholders_related (h.state.sameShape h.wellBound h.wellBound.unknown_lt) _
  | some hrecord => exact ordinaryObjects_related _ hrecord

/-- Analysis counts alike. -/
theorem analyze (h : s.RetracedBy t) (hclear : s.keepsClear t .analyze = true) :
    ∃ stats u v, s.analyze = (.ok stats, u) ∧ t.analyze = (.ok stats, v) ∧ s.GoesOn t u v := by
  have hp := h.wellBound
  have hpairs := (Pairing.retracing.lawful hp (s.state, t.state)).analyzeWith
    (Pairing.retracing.records hp _) (.of_forall (Pairing.retracing.pairsOn_avoiding hp _))
    (fun _ _ _ => trivial) s.options h.state.rel (h.state.sameShape hp h.module) (fun _ => true)
    fun _ => true
  obtain ⟨_, _, s', t', hrun, hrun', _, hgoes⟩ := h.state.of_pairs hp hpairs hclear
  let op : Operation Unit := .analyze s.options s.program.module (fun _ => true) fun _ => true
  have hperform : op.perform s.program s.state = .ok () s' :=
    (op.run_avoiding_of_completes _ hclear).symm.trans hrun
  rw [← h.program, ← h.options] at hrun'
  have hcounts := analyze_of_ok hrun'
  rw [← hgoes.retraced.counts.stats] at hcounts
  exact ⟨_, _, _, analyze_of_ok hperform, hcounts, h.goesOn hgoes⟩

/-- A request that keeps clear has the same response in both sessions. -/
theorem serve (h : s.RetracedBy t) {r : Request} (hr : r.Within s.program.objects.size)
    (hclear : s.keepsClear t r = true) :
    ∃ a u v, s.serve r = (.ok a, u) ∧ t.serve r = (.ok a, v) ∧ s.GoesOn t u v := by
  cases r with
  | analyze =>
      obtain ⟨stats, u, v, hu, hv, huv⟩ := h.analyze hclear
      refine ⟨.counts stats, u, v, ?_, ?_, huv⟩
      · rw [serve_analyze, hu]
        rfl
      · rw [serve_analyze, hv]
        rfl
  | returned f => exact h.returned hr none none .none hclear
  | returnedFor f arguments =>
      obtain ⟨os, os', s', t', hrun, hrun', hos, hgoes⟩ := h.objects hr.2
      have hmoved := h.goesOn hgoes
      rw [keepsClear_returnedFor hrun hrun'] at hclear
      rw [serve_returnedFor hrun, serve_returnedFor hrun']
      obtain ⟨a, u, v, hu, hv, huv⟩ :=
        hmoved.retraced.returned hr.1 (some os) (some os') (.some hos) hclear
      exact ⟨a, u, v, hu, hv, hmoved.trans huv⟩
  | parameters f =>
      refine ⟨.parameters ((s.parameterObjects f).map s.describe), s, t, rfl, ?_, h, rfl, id⟩
      rw [← h.map_describe_eq (h.parameterObjects hr)]
      rfl

/-- Requests that keep clear, one after the other, have the same responses in both
sessions. -/
theorem serveAll (h : s.RetracedBy t) {rs : List Request}
    (hrs : ∀ r ∈ rs, r.Within s.program.objects.size) (hclear : s.keepsClearAll t rs = true) :
    ∃ (responses : List Response) (u v : Session), s.serveAll rs = (responses.map .ok, u) ∧
      t.serveAll rs = (responses.map .ok, v) ∧ s.GoesOn t u v := by
  induction rs generalizing s t with
  | nil => exact ⟨[], s, t, rfl, rfl, h, rfl, id⟩
  | cons r rs ih =>
      obtain ⟨hr, hrest⟩ := List.forall_mem_cons.1 hrs
      simp only [keepsClearAll, Bool.and_eq_true] at hclear
      obtain ⟨hclear, hclear'⟩ := hclear
      obtain ⟨a, u, v, hu, hv, huv⟩ := h.serve hr hclear
      rw [hu, hv] at hclear'
      obtain ⟨responses, u', v', hu', hv', huv'⟩ :=
        ih huv.retraced (by rwa [huv.program]) hclear'
      refine ⟨a :: responses, u', v', ?_, ?_, huv.trans huv'⟩
      · simp only [Session.serveAll, hu, hu', List.map_cons]
      · simp only [Session.serveAll, hv, hv', List.map_cons]

/-! ### Nothing left behind -/

/-- Inference keeps clear if the other session knows nothing more. -/
theorem returnsClear_of_matches (h : s.RetracedBy t) (hd : s.program.tree.Descending)
    (hst : s.state.Matches .none t.state) (hf : f < s.program.objects.size)
    {os os' : Option (List ObjectId)} (hos : os.isSome = os'.isSome) :
    s.returnsClear t f os os' = true := by
  have hview := h.state.view h.wellBound hf hos
  have hclear := (h.state.matches_view h.wellBound hf hst hos).clearAt h.wellBound hview.soundLeft
    hview.soundRight
  rw [returnsClear, Program.avoiding_eq_evaluate hclear]
  exact Operation.completes_perform hd (.returned f (os.map .objects)) s.state

theorem keepsClear_of_matches (h : s.RetracedBy t) (hd : s.program.tree.Descending)
    (hst : s.state.Matches .none t.state) {r : Request}
    (hr : r.Within s.program.objects.size) : s.keepsClear t r = true := by
  cases r with
  | analyze =>
      have hclear := hst.clearAt h.wellBound h.state.soundLeft h.state.soundRight
      rw [keepsClear, Program.avoiding_eq_evaluate hclear]
      exact Operation.completes_perform hd
        (.analyze s.options s.program.module (fun _ => true) fun _ => true) s.state
  | returned f => exact h.returnsClear_of_matches hd hst hr rfl
  | returnedFor f arguments =>
      obtain ⟨os, os', s', t', hrun, hrun', -, hgoes⟩ := h.objects hr.2
      rw [keepsClear_returnedFor hrun hrun']
      exact (h.goesOn hgoes).retraced.returnsClear_of_matches hd (hgoes.agree hst) hr.1 rfl
  | parameters f => rfl

theorem keepsClearAll_of_matches (h : s.RetracedBy t) (hd : s.program.tree.Descending)
    (hst : s.state.Matches .none t.state) {rs : List Request}
    (hrs : ∀ r ∈ rs, r.Within s.program.objects.size) : s.keepsClearAll t rs = true := by
  induction rs generalizing s t with
  | nil => rfl
  | cons r rs ih =>
      obtain ⟨hr, hrest⟩ := List.forall_mem_cons.1 hrs
      have hclear := h.keepsClear_of_matches hd hst hr
      obtain ⟨a, u, v, hu, hv, huv⟩ := h.serve hr hclear
      have hds : u.program.tree.Descending := by rwa [huv.program]
      simp only [keepsClearAll, hclear, hu, hv, Bool.true_and]
      exact ih huv.retraced hds (huv.agree hst) (by rwa [huv.program])

end RetracedBy

end Session

theorem Session.retracedBy_start {p : Program} (hp : p.WellBound)
    (hmodule : p.module < p.objects.size) {s : State} (hs : s.Visited p) (options : Options) :
    (start p (.fresh p) options).RetracedBy (start p s.toMemory options) :=
  ⟨rfl, rfl, hp, hmodule, hs.retracedBy_start hp options⟩

/-- If the sessions before have left no containers, a new session keeps clear of
everything, whatever it is asked. -/
theorem Session.keepsClearAll_of_no_containers {p : Program} (hd : p.tree.Descending)
    (hp : p.WellBound) (hmodule : p.module < p.objects.size) {s : State} (hs : s.Visited p)
    (hseen : s.evidence.containers = []) (hnoted : ∀ scope, s.allocated scope = [])
    (options : Options) {rs : List Request} (hrs : ∀ r ∈ rs, r.Within p.objects.size) :
    (start p (.fresh p) options).keepsClearAll (start p s.toMemory options) rs = true := by
  have hstart := retracedBy_start hp hmodule hs options
  have hnothing := State.beyond_eq_none (s := .start (.fresh p) {} options)
    (t := .start s.toMemory.clearParameters {} options) hseen hnoted
  exact hstart.keepsClearAll_of_matches hd (hnothing ▸ hstart.state.agree) hrs

/-- A new session over a program, whatever sessions were over it before, has the same
responses to requests as a session over a fresh memory, and as many calls of each
function recorded, if the requests keep clear of what is known from before. They do if
the sessions before have left no containers. -/
theorem answers_after_other_sessions {tree : Tree} {atoms : Interner} {root : NodeRef}
    {p : Program} (hprogram : p = .bind tree atoms root) {s : State} (hs : s.Visited p)
    (options : Options) {rs : List Request} (hrs : ∀ r ∈ rs, r.Within p.objects.size) :
    let fresh := Session.start p (.fresh p) options
    let used := Session.start p s.toMemory options
    (fresh.keepsClearAll used rs = true →
      ∃ (responses : List Response) (u v : Session),
        fresh.serveAll rs = (responses.map .ok, u) ∧ used.serveAll rs = (responses.map .ok, v) ∧
        ∀ f < p.objects.size,
          (u.state.calls.calls f).length = (v.state.calls.calls f).length) ∧
      (tree.Descending → s.evidence.containers = [] → (∀ scope, s.allocated scope = []) →
        fresh.keepsClearAll used rs = true) := by
  intro fresh used
  obtain ⟨hp, hmodule⟩ := Program.wellBound_bind tree atoms root
  rw [← hprogram] at hp hmodule
  refine ⟨fun hclear => ?_, fun hd hseen hnoted => ?_⟩
  · obtain ⟨responses, u, v, hu, hv, huv⟩ :=
      (Session.retracedBy_start hp hmodule hs options).serveAll hrs hclear
    exact ⟨responses, u, v, hu, hv,
      fun f hf => huv.retraced.state.counts.calls (by rwa [huv.program])⟩
  · have hds : p.tree.Descending := by
      rw [hprogram]
      exact hd
    exact Session.keepsClearAll_of_no_containers hds hp hmodule hs hseen hnoted options hrs

/-- A function with a parameter, which makes a list, appends a number to it and returns
what is in it, and a call of the function with a string. -/
def Tree.gathering : Tree :=
  ⟨#[.list [], .name 1, .assign [some 1] (some 0), .name 1, .attr (some 3) 2, .literal (.int 1),
    .call (some 4) [some 5] [], .exprStatement (some 6), .name 1, .literal (.int 0),
    .index (some 9), .subscript (some 8) (some 10), .returnStatement (some 11),
    .functionDef 4 [⟨3, .positional, none⟩] [] [some 2, some 7, some 12],
    .name 4, .literal (.str ""), .call (some 14) [some 15] [], .exprStatement (some 16),
    .module [some 13, some 17]]⟩

theorem visited_analyze_gathering :
    let p := Program.bind Tree.gathering ⟨#["", "x", "append", "a", "f"]⟩ (some 18)
    ((Session.start p (.fresh p) {}).serve .analyze).2.state.Visited p := by
  intro p
  obtain ⟨hp, hmodule⟩ :=
    Program.wellBound_bind Tree.gathering ⟨#["", "x", "append", "a", "f"]⟩ (some 18)
  have hanswer : ((Session.start p (.fresh p) {}).serve .analyze).1 = .ok (.counts
      { entitiesAnalyzed := 2, callSites := 2, recordedCalls := 1, builtinCalls := 1 }) := by
    decide +kernel
  exact Session.visited_serve hp hmodule (.start {}) (r := .analyze) trivial
    (Prod.ext hanswer rfl)

/-- An earlier session has seen a number go into the list. Inference for a string forgets
that first, and so the new session goes on as one over a fresh memory does. -/
theorem answers_after_other_sessions_gathering :
    let p := Program.bind Tree.gathering ⟨#["", "x", "append", "a", "f"]⟩ (some 18)
    let s := ((Session.start p (.fresh p) {}).serve .analyze).2.state
    let requests : List Request :=
      [.returnedFor 16 [.value .str rfl], .analyze, .parameters 16, .returned 16]
    s.Visited p ∧ s.evidence.containers ≠ [] ∧ (∀ r ∈ requests, r.Within p.objects.size) ∧
      (Session.start p (.fresh p) {}).keepsClearAll (.start p s.toMemory {}) requests = true ∧
      ∃ (responses : List Response) (u v : Session),
        (Session.start p (.fresh p) {}).serveAll requests = (responses.map .ok, u) ∧
        (Session.start p s.toMemory {}).serveAll requests = (responses.map .ok, v) ∧
        ∀ f < p.objects.size,
          (u.state.calls.calls f).length = (v.state.calls.calls f).length := by
  intro p s requests
  have hs : s.Visited p := visited_analyze_gathering
  have hsize : 16 < p.objects.size := by decide +kernel
  have hrequests : ∀ r ∈ requests, r.Within p.objects.size := by
    simp [requests, Request.Within, hsize]
  have hclear : (Session.start p (.fresh p) {}).keepsClearAll (.start p s.toMemory {})
      requests = true := by
    decide +kernel
  exact ⟨hs, by decide +kernel, hrequests, hclear,
    (answers_after_other_sessions rfl hs {} hrequests).1 hclear⟩

/-- A new session finds what an earlier one has seen in a list, if it comes to the list
without forgetting that. -/
theorem answers_differ_gathering :
    let p := Program.bind Tree.gathering ⟨#["", "x", "append", "a", "f"]⟩ (some 18)
    let s := ((Session.start p (.fresh p) {}).serve .analyze).2.state
    s.Visited p ∧ p.objects.get 16 = .function 1 ∧
      ((Session.start p (.fresh p) {}).serveAll [.returned 16]).1 = [.ok (.returned none)] ∧
      ((Session.start p s.toMemory {}).serveAll [.returned 16]).1 =
        [.ok (.returned (some "int"))] := by
  intro p s
  exact ⟨visited_analyze_gathering, by decide +kernel, by decide +kernel, by decide +kernel⟩

end ObjectInference
