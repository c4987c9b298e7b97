import ObjectInference.Proofs.Moves

/-!
Inference that keeps a log.

Three kinds of events concern containers: one is made in a scope, an object is put
into a slot of one, and a scope is invalidated with all that is nested in it, when a
function of the source is entered by a call. A `Logging` computation writes each of them
down as it happens, in `Logging.allocate`, `Logging.observe` and `Logging.forget`, and
nowhere else. It also keeps the moments that it has been through: one after every event,
and one at every evaluation of an expression. Nothing that a computation does depends on
either of them.

`Traces` says that a logging computation does what an inference does, and that its log goes
on telling what containers hold. This module has the judgement and its rules, and what is
uneventful, which is all that an inference does apart from the three things above.
-/

namespace ObjectInference

inductive Event where
  /-- An object is put into a slot, known or not. -/
  | added (container : ObjectId) (slot : Slot) (o : ObjectId)
  /-- A container is made in a scope. -/
  | allocated (scope : ScopeId) (container : ObjectId)
  /-- What a scope and those nested in it have led to is forgotten. -/
  | invalidated (scope : ScopeId)
deriving DecidableEq, Repr

namespace Event

/-! ### Reading logs

Logs have the latest event first. -/

/-- A container is forgotten, after earlier events, when a scope is invalidated whose
subtree has a scope that the container was made in. -/
def Forgets (p : Program) (c : ObjectId) (earlier : List Event) : Event → Prop
  | invalidated scope => ∃ inner ∈ p.subtree scope, allocated inner c ∈ earlier
  | _ => False

instance (p : Program) (c : ObjectId) (earlier : List Event) :
    DecidablePred (Forgets p c earlier)
  | invalidated scope =>
    inferInstanceAs (Decidable (∃ inner ∈ p.subtree scope, allocated inner c ∈ earlier))
  | added .. => inferInstanceAs (Decidable False)
  | allocated .. => inferInstanceAs (Decidable False)

/-- The events since a container was last forgotten. -/
def sinceForgotten (p : Program) (c : ObjectId) : List Event → List Event
  | [] => []
  | e :: earlier => if e.Forgets p c earlier then [] else e :: sinceForgotten p c earlier

/-- One of some later events forgets a container. -/
def ForgottenIn (p : Program) (c : ObjectId) (log later : List Event) : Prop :=
  ∃ after e before, later = after ++ e :: before ∧ e.Forgets p c (before ++ log)

def known? (c : ObjectId) (slot : Slot) : Event → Option ObjectId
  | added c' slot' o => if o.isKnown ∧ c' = c ∧ slot' = slot then some o else none
  | _ => none

def firstKnown (c : ObjectId) (slot : Slot) (log : List Event) : Option ObjectId :=
  log.reverse.findSome? (known? c slot)

variable {p : Program} {c : ObjectId} {slot : Slot} {log later : List Event} {o : ObjectId}

theorem firstKnown_cons (e : Event) :
    firstKnown c slot (e :: log) = (firstKnown c slot log).or (known? c slot e) := by
  simp [firstKnown, List.findSome?_append]

theorem isKnown_of_known? {e : Event} (h : known? c slot e = some o) : o.isKnown = true := by
  cases e with
  | added c' slot' o' =>
      simp only [known?, Option.ite_none_right_eq_some, Option.some.injEq] at h
      obtain ⟨⟨hknown, -, -⟩, rfl⟩ := h
      exact hknown
  | allocated scope c' => cases h
  | invalidated scope => cases h

theorem isKnown_of_firstKnown (h : firstKnown c slot log = some o) : o.isKnown = true := by
  obtain ⟨e, -, he⟩ := List.exists_of_findSome?_eq_some h
  exact isKnown_of_known? he

/-- What later events put into a slot that is filled is of no account, unless the
container is forgotten. -/
theorem firstKnown_of_not_forgotten (hlater : ¬ ForgottenIn p c log later)
    (h : firstKnown c slot (sinceForgotten p c log) = some o) :
    firstKnown c slot (sinceForgotten p c (later ++ log)) = some o := by
  induction later with
  | nil => exact h
  | cons e later ih =>
      have he : ¬ e.Forgets p c (later ++ log) := fun he => hlater ⟨[], e, later, rfl, he⟩
      have hrest : ¬ ForgottenIn p c log later := by
        rintro ⟨after, e', before, rfl, he'⟩
        exact hlater ⟨e :: after, e', before, rfl, he'⟩
      rw [List.cons_append, sinceForgotten, if_neg he, firstKnown_cons, ih hrest]
      rfl

end Event

/-! ### Moments -/

/-- A state of a run, and the log until then. -/
structure Moment extends State where
  log : List Event
deriving DecidableEq, Repr

/-- A log tells what containers hold: where they were made, and for every slot the first
known object that was put there since the container was last forgotten. -/
structure Moment.Told (p : Program) (m : Moment) : Prop where
  inSlots : m.InSlots p
  allocated (scope : ScopeId) (c : ObjectId) :
    c ∈ m.allocated scope ↔ .allocated scope c ∈ m.log
  evidence (c : ObjectId) (slot : Slot) :
    m.evidence.get? c slot = Event.firstKnown c slot (Event.sinceForgotten p c m.log)

/-- Nothing happens to containers on the way from one state to another. -/
structure State.Uneventful (s s' : State) : Prop where
  objects : s.objects.Extends s'.objects
  evidence : s'.evidence = s.evidence
  allocations : s'.allocations = s.allocations

namespace State.Uneventful

variable {s s' s'' : State}

theorem refl (s : State) : s.Uneventful s :=
  ⟨.refl _, rfl, rfl⟩

theorem trans (h : s.Uneventful s') (h' : s'.Uneventful s'') : s.Uneventful s'' :=
  ⟨h.objects.trans h'.objects, h'.evidence.trans h.evidence,
    h'.allocations.trans h.allocations⟩

theorem of_objects {objects : ObjectStore} (h : s.objects.Extends objects) :
    s.Uneventful { s with objects } :=
  ⟨h, rfl, rfl⟩

end State.Uneventful

namespace Moment.Told

variable {p : Program} {s s' : State} {log : List Event}

theorem start (calls : CallLog) (options : Options) :
    Told p ⟨.start (.fresh p) calls options, []⟩ where
  inSlots := .start calls options
  allocated scope c := by simp [State.start, Memory.fresh, Memory.allocated]
  evidence c slot := rfl

theorem uneventful (h : Told p ⟨s, log⟩) (hq : s.Uneventful s') : Told p ⟨s', log⟩ where
  inSlots := h.inSlots.of_subset hq.objects fun hv => by rwa [hq.evidence] at hv
  allocated scope c := by
    simpa only [Memory.allocated, hq.allocations] using h.allocated scope c
  evidence c slot := by
    simpa only [hq.evidence] using h.evidence c slot

/-! ### What the three events do -/

theorem noteAllocation (h : Told p ⟨s, log⟩) (scope : ScopeId) (c : ObjectId) :
    Told p ⟨s.noteAllocation scope c, .allocated scope c :: log⟩ where
  inSlots := h.inSlots.of_subset (.refl _) id
  allocated scope' c' := by
    have hbefore := h.allocated scope' c'
    have hmade : Event.allocated scope' c' = .allocated scope c ↔ scope = scope' ∧ c = c' := by
      rw [eq_comm, Event.allocated.injEq]
    rw [State.mem_noteAllocation, hbefore, List.mem_cons, hmade]
    exact or_comm
  evidence c' slot := by
    show s.evidence.get? c' slot = _
    rw [Event.sinceForgotten, if_neg (by exact id), Event.firstKnown_cons, h.evidence c' slot]
    exact (Option.or_none).symm

theorem seeInto (h : Told p ⟨s, log⟩) {c : ObjectId} {slot : Slot}
    (hslot : s.objects.HasSlot c slot) (o : ObjectId) :
    Told p ⟨s.seeInto c slot o, .added c slot o :: log⟩ where
  inSlots := h.inSlots.seeInto hslot o
  allocated scope c' := by
    show c' ∈ s.allocated scope ↔ _
    simpa using h.allocated scope c'
  evidence c' slot' := by
    show (s.evidence.add c slot o).get? c' slot' = _
    rw [Event.sinceForgotten, if_neg (by exact id), Event.firstKnown_cons,
      ← h.evidence c' slot', Evidence.get?_add, Event.known?]
    split
    · rename_i hmatch
      obtain ⟨-, rfl, rfl⟩ := hmatch
      cases s.evidence.get? c slot <;> rfl
    · exact (Option.or_none).symm

theorem forgetTree (h : Told p ⟨s, log⟩) (scope : ScopeId) :
    Told p ⟨{ s with toMemory := s.toMemory.forgetTree p scope }, .invalidated scope :: log⟩ where
  inSlots := h.inSlots.forgetTree scope
  allocated scope' c := by
    have hkept := Memory.allocations_forgetTree p s.toMemory scope
    simpa [Memory.allocated, hkept] using h.allocated scope' c
  evidence c slot := by
    have hforgets : (Event.invalidated scope).Forgets p c log ↔
        ¬ ∀ inner ∈ p.subtree scope, c ∉ s.allocated inner := by
      simp only [Event.Forgets, ← h.allocated, not_forall, not_not, exists_prop]
    change (s.toMemory.forgetTree p scope).evidence.get? c slot = _
    rw [Memory.forgetTree_eq, Memory.get?_without, Event.sinceForgotten]
    by_cases hf : (Event.invalidated scope).Forgets p c log
    · rw [if_pos hf, if_neg (hforgets.1 hf)]
      rfl
    · rw [if_neg hf, if_pos (not_not.1 (mt hforgets.2 hf)), Event.firstKnown_cons,
        ← h.evidence c slot]
      exact (Option.or_none).symm

end Moment.Told

/-! ### States with a log -/

/-- A state with the log of what has happened to containers on the way to it, and the
moments before, the latest first. -/
structure Logged extends Moment where
  past : List Moment
deriving DecidableEq, Repr

namespace Logged

def moments (l : Logged) : List Moment :=
  l.toMoment :: l.past

def withState (l : Logged) (s : State) : Logged :=
  ⟨⟨s, l.log⟩, l.past⟩

/-- The log has told what containers held at every moment, and has only grown. -/
structure Truthful (p : Program) (l : Logged) : Prop where
  told : ∀ m ∈ l.moments, m.Told p
  ordered : l.moments.Pairwise fun m earlier => earlier.log <:+ m.log

/-- What is left of a state with its log after a computation. -/
structure Leads (p : Program) (l l' : Logged) : Prop where
  objects : l.objects.Extends l'.objects
  past : l.past <:+ l'.past
  truthful (h : l.Truthful p) : l'.Truthful p

variable {p : Program} {l l' l'' : Logged}

theorem Truthful.now (h : l.Truthful p) : l.toMoment.Told p :=
  h.told _ List.mem_cons_self

theorem Truthful.change (h : l.Truthful p) {m : Moment} (htold : m.Told p)
    (hlog : l.log <:+ m.log) : (⟨m, l.past⟩ : Logged).Truthful p := by
  obtain ⟨hnow, hpast⟩ := List.pairwise_cons.1 h.ordered
  refine ⟨List.forall_mem_cons.2 ⟨htold, fun m' hm' => h.told m' (List.mem_cons_of_mem _ hm')⟩, ?_⟩
  exact List.pairwise_cons.2 ⟨fun m' hm' => (hnow m' hm').trans hlog, hpast⟩

theorem Truthful.mark (h : l.Truthful p) : (⟨l.toMoment, l.moments⟩ : Logged).Truthful p := by
  refine ⟨List.forall_mem_cons.2 ⟨h.now, h.told⟩, List.pairwise_cons.2 ⟨fun m hm => ?_, h.ordered⟩⟩
  rcases List.mem_cons.1 hm with rfl | hm
  · exact List.suffix_rfl
  · exact (List.pairwise_cons.1 h.ordered).1 m hm

theorem Leads.refl (l : Logged) : l.Leads p l :=
  ⟨.refl _, List.suffix_rfl, id⟩

theorem Leads.trans (h : l.Leads p l') (h' : l'.Leads p l'') : l.Leads p l'' :=
  ⟨h.objects.trans h'.objects, h.past.trans h'.past, fun ht => h'.truthful (h.truthful ht)⟩

theorem leads_of_uneventful {s : State} (h : l.Uneventful s) : l.Leads p (l.withState s) :=
  ⟨h.objects, List.suffix_rfl, fun ht => ht.change (ht.now.uneventful h) List.suffix_rfl⟩

theorem leads_mark : l.Leads p ⟨l.toMoment, l.moments⟩ :=
  ⟨.refl _, List.suffix_cons _ _, .mark⟩

end Logged

/-! ### Logging -/

abbrev Logging := EStateM Interrupt Logged

namespace Logging

variable {α β : Type}

/-- Run an inference without a word in the log. -/
def silently (x : Infer α) : Logging α := fun l =>
  match x l.toState with
  | .ok a s => .ok a (l.withState s)
  | .error e s => .error e (l.withState s)

instance : MonadLift Infer Logging := ⟨silently⟩

def mark : Logging Unit :=
  modify fun l => ⟨l.toMoment, l.moments⟩

def write (e : Event) : Logging Unit := do
  modify fun l => ⟨⟨l.toState, e :: l.log⟩, l.past⟩
  mark

def observe (container : ObjectId) (slot : Slot) (o : ObjectId) : Logging Unit := do
  Infer.observe container slot o
  write (.added container slot o)

def allocate (scope : ScopeId) (container : ObjectId) : Logging Unit := do
  Infer.allocate scope container
  write (.allocated scope container)

/-- Forget what a scope and all scopes nested in it have led to. -/
def forget (p : Program) (scope : ScopeId) : Logging Unit := do
  Infer.changeMemory fun m => m.forgetTree p scope
  write (.invalidated scope)

def attempt (x : Logging α) : Logging (Except ObjectId α) := fun l =>
  match x l with
  | .ok a l => .ok (.ok a) l
  | .error (.reentrant f) l => .ok (.error f) l
  | .error e l => .error e l

def erase : EStateM.Result Interrupt Logged α → EStateM.Result Interrupt State α
  | .ok a l => .ok a l.toState
  | .error e l => .error e l.toState

/-- The state with its log that a run has come to. -/
def finish : EStateM.Result Interrupt Logged α → Logged
  | .ok _ l => l
  | .error _ l => l

/-! ### Tracing -/

/-- From a state with its log, a logging run has ended as an inference has, and its log has
gone on telling. -/
inductive Traced (p : Program) (l : Logged) :
    EStateM.Result Interrupt Logged α → EStateM.Result Interrupt State α → Prop where
  | ok {a : α} {l' : Logged} (h : l.Leads p l') : Traced p l (.ok a l') (.ok a l'.toState)
  | error {e : Interrupt} {l' : Logged} (h : l.Leads p l') :
      Traced p l (.error e l') (.error e l'.toState)

def TracesFrom (p : Program) (l : Logged) (y : Logging α) (x : Infer α) : Prop :=
  Traced p l (y l) (x l.toState)

/-- A logging computation does what an inference does, wherever it starts. -/
def Traces (p : Program) (y : Logging α) (x : Infer α) : Prop :=
  ∀ l, TracesFrom p l y x

variable {p : Program} {l l' : Logged} {y : Logging α} {x : Infer α} {g : α → Logging β}
  {f : α → Infer β}

theorem Traced.trans {r : EStateM.Result Interrupt Logged α}
    {r' : EStateM.Result Interrupt State α} (h : l.Leads p l') (hr : Traced p l' r r') :
    Traced p l r r' := by
  cases hr with
  | ok h' => exact .ok (h.trans h')
  | error h' => exact .error (h.trans h')

theorem Traced.erase_eq {r : EStateM.Result Interrupt Logged α}
    {r' : EStateM.Result Interrupt State α} (h : Traced p l r r') : erase r = r' := by
  cases h <;> rfl

theorem TracesFrom.leads (h : TracesFrom p l y x) : l.Leads p (finish (y l)) := by
  unfold TracesFrom at h
  generalize y l = r, x l.toState = r' at h
  cases h with
  | ok h => exact h
  | error h => exact h

theorem TracesFrom.bind (h : TracesFrom p l y x)
    (hf : ∀ a l', x l.toState = .ok a l'.toState → l.Leads p l' → TracesFrom p l' (g a) (f a)) :
    TracesFrom p l (y >>= g) (x >>= f) := by
  show Traced p l (EStateM.bind y g l) (EStateM.bind x f l.toState)
  simp only [EStateM.bind]
  unfold TracesFrom at h
  generalize y l = r, hx : x l.toState = r' at h
  cases h with
  | @ok a l' h => exact (hf a l' hx h).trans h
  | error h => exact .error h

theorem TracesFrom.get_bind {g : Logged → Logging α} {f : State → Infer α}
    (h : TracesFrom p l (g l) (f l.toState)) : TracesFrom p l (get >>= g) (get >>= f) :=
  h

namespace Traces

theorem pure (a : α) : Traces p (Pure.pure a) (Pure.pure a) :=
  fun l => .ok (.refl l)

theorem throw (e : Interrupt) : Traces p (MonadExcept.throw e : Logging α) (MonadExcept.throw e) :=
  fun l => .error (.refl l)

theorem bind (h : Traces p y x) (hf : ∀ a, Traces p (g a) (f a)) :
    Traces p (y >>= g) (x >>= f) :=
  fun l => (h l).bind fun a l' _ _ => hf a l'

theorem get_bind {g : Logged → Logging α} {f : State → Infer α}
    (h : ∀ l : Logged, Traces p (g l) (f l.toState)) : Traces p (get >>= g) (get >>= f) :=
  fun l => .get_bind (h l l)

theorem mark_bind (h : Traces p y x) : Traces p (do mark; y) x :=
  fun l => (h ⟨l.toMoment, l.moments⟩).trans Logged.leads_mark

theorem suffix_past (h : Traces p y x) (l : Logged) :
    l.moments <:+ (finish ((do mark; y : Logging α) l)).past :=
  (h ⟨l.toMoment, l.moments⟩).leads.past

theorem attempt (h : Traces p y x) : Traces p (Logging.attempt y) (Infer.attempt x) := by
  intro l
  have hl := h l
  show Traced p l (Logging.attempt y l) (Infer.attempt x l.toState)
  unfold TracesFrom at hl
  unfold Logging.attempt Infer.attempt
  generalize y l = r, x l.toState = r' at hl
  cases hl with
  | ok h => exact .ok h
  | @error e _ h => cases e <;> first | exact .ok h | exact .error h

theorem discard (h : Traces p y x) : Traces p (Functor.discard y) (Functor.discard x) :=
  h.bind fun _ => .pure _

theorem forM {ι : Type} {g : ι → Logging Unit} {f : ι → Infer Unit}
    (h : ∀ i, Traces p (g i) (f i)) (is : List ι) : Traces p (is.forM g) (is.forM f) := by
  induction is with
  | nil => exact .pure ()
  | cons i is ih => exact (h i).bind fun _ => ih

theorem mapM {ι : Type} {g : ι → Logging α} {f : ι → Infer α} (h : ∀ i, Traces p (g i) (f i))
    (is : List ι) : Traces p (is.mapM g) (is.mapM f) := by
  induction is with
  | nil =>
      simp only [List.mapM_nil]
      exact .pure []
  | cons i is ih =>
      simp only [List.mapM_cons]
      exact (h i).bind fun a => ih.bind fun as => .pure (a :: as)

theorem optionMapM {ι : Type} {g : ι → Logging α} {f : ι → Infer α}
    (h : ∀ i, Traces p (g i) (f i)) (i : Option ι) : Traces p (i.mapM g) (i.mapM f) := by
  cases i with
  | none => exact .pure none
  | some i => exact (h i).bind fun a => .pure (some a)

end Traces

end Logging

/-! ### What is uneventful -/

namespace Infer

variable {α β : Type}

/-- A computation in which nothing happens to containers, however it ends. -/
def Uneventful (x : Infer α) : Prop :=
  ∀ s, (∃ a s', x s = .ok a s' ∧ s.Uneventful s') ∨ ∃ e s', x s = .error e s' ∧ s.Uneventful s'

namespace Uneventful

theorem pure (a : α) : Uneventful (Pure.pure a) :=
  fun s => .inl ⟨a, s, rfl, .refl s⟩

theorem throw (e : Interrupt) : Uneventful (MonadExcept.throw e : Infer α) :=
  fun s => .inr ⟨e, s, rfl, .refl s⟩

theorem bind {x : Infer α} {f : α → Infer β} (hx : Uneventful x) (hf : ∀ a, Uneventful (f a)) :
    Uneventful (x >>= f) := by
  intro s
  show (∃ b s', EStateM.bind x f s = .ok b s' ∧ _) ∨ ∃ e s', EStateM.bind x f s = .error e s' ∧ _
  rcases hx s with ⟨a, s₁, hrun, h₁⟩ | ⟨e, s₁, hrun, h₁⟩
  · simp only [EStateM.bind, hrun]
    rcases hf a s₁ with ⟨b, s₂, hrun, h₂⟩ | ⟨e, s₂, hrun, h₂⟩
    · exact .inl ⟨b, s₂, hrun, h₁.trans h₂⟩
    · exact .inr ⟨e, s₂, hrun, h₁.trans h₂⟩
  · simp only [EStateM.bind, hrun]
    exact .inr ⟨e, s₁, rfl, h₁⟩

theorem get_bind {f : State → Infer α} (hf : ∀ s, Uneventful (f s)) : Uneventful (get >>= f) :=
  fun s => hf s s

theorem modifyGet {f : State → α × State} (h : ∀ s : State, s.Uneventful (f s).2) :
    Uneventful (MonadStateOf.modifyGet f : Infer α) :=
  fun s => .inl ⟨(f s).1, (f s).2, rfl, h s⟩

end Uneventful

theorem uneventful_count (change : Stats → Stats) : Uneventful (count change) :=
  .modifyGet fun _ => ⟨.refl _, rfl, rfl⟩

theorem uneventful_settle (r : Except ObjectId α) : Uneventful (settle r) := by
  cases r with
  | ok a => exact .pure a
  | error f => exact .throw _

theorem uneventful_enterFunction (f : ObjectId) : Uneventful (enterFunction f) :=
  .modifyGet fun _ => ⟨.refl _, rfl, rfl⟩

theorem uneventful_enterName (key : ScopeId × Atom) : Uneventful (enterName key) :=
  .modifyGet fun _ => ⟨.refl _, rfl, rfl⟩

theorem uneventful_leaveFunction (f : ObjectId) : Uneventful (leaveFunction f) := by
  intro s
  simp only [leaveFunction, get_bind_run]
  cases s.inFlight.leave f with
  | ok g => exact .inl ⟨(), _, rfl, .refl _, rfl, rfl⟩
  | error fault => exact .inr ⟨_, s, rfl, .refl s⟩

theorem uneventful_leaveName (key : ScopeId × Atom) : Uneventful (leaveName key) := by
  intro s
  simp only [leaveName, get_bind_run]
  cases s.resolving.leave key with
  | ok g => exact .inl ⟨(), _, rfl, .refl _, rfl, rfl⟩
  | error fault => exact .inr ⟨_, s, rfl, .refl s⟩

theorem uneventful_pushContext (c : Context) : Uneventful (pushContext c) :=
  .modifyGet fun _ => ⟨.refl _, rfl, rfl⟩

theorem uneventful_popContext : Uneventful popContext :=
  .modifyGet fun _ => ⟨.refl _, rfl, rfl⟩

theorem uneventful_intern {object : Object} (h : object.kind = .inst) :
    Uneventful (intern object) :=
  .modifyGet fun s => .of_objects (s.objects.extends_intern h)

theorem uneventful_builtinInstance (c : BuiltinClass) : Uneventful (builtinInstance c) :=
  uneventful_intern rfl

theorem uneventful_generatorOf (element : ObjectId) : Uneventful (generatorOf element) :=
  uneventful_intern rfl

theorem uneventful_returnedAs (generator : Bool) (o : ObjectId) :
    Uneventful (returnedAs generator o) := by
  cases generator with
  | false => exact .pure o
  | true => exact uneventful_generatorOf o

theorem uneventful_newInstance (c : ObjectId) (site : NodeRef) :
    Uneventful (newInstance c site) := by
  apply Uneventful.get_bind
  intro s
  split <;> exact uneventful_intern rfl

theorem uneventful_callTarget (p : Program) (scope : ScopeId) (call : NodeRef)
    (primary : Option Name) (callee : ObjectId) :
    Uneventful (callTarget p scope call primary callee) := by
  apply Uneventful.get_bind
  intro s
  dsimp only
  split
  · exact .pure _
  · exact .pure _
  · split
    · exact (uneventful_newInstance callee call).bind fun _ => .pure _
    · exact .pure _
  · exact .pure _
  · exact .pure _
  · exact .pure _

theorem uneventful_supplyReceiver (p : Program) (f : ObjectId) (os : List ObjectId) :
    Uneventful (supplyReceiver p f os) := by
  apply Uneventful.get_bind
  intro s
  split
  · split
    · exact .pure _
    · exact (uneventful_newInstance _ _).bind fun _ => .pure _
  · exact .pure _

theorem uneventful_evidenceParameters (p : Program) (f : ObjectId) :
    Uneventful (evidenceParameters p f) := by
  apply Uneventful.get_bind
  intro s
  split
  · exact .pure _
  · apply Uneventful.get_bind
    intro s'
    apply (uneventful_supplyReceiver p f _).bind
    intro os
    exact (Uneventful.modifyGet fun _ => ⟨.refl _, rfl, rfl⟩).bind fun _ => .pure _

theorem uneventful_currentParameters (p : Program) (f : ObjectId) :
    Uneventful (currentParameters p f) := by
  apply Uneventful.get_bind
  intro s
  split
  · exact .pure _
  · exact uneventful_evidenceParameters p f

theorem uneventful_parameterObject (p : Program) (scope : ScopeId) (index : Nat) :
    Uneventful (parameterObject p scope index) := by
  unfold parameterObject
  split
  · exact .pure _
  · split
    · exact .pure _
    · split
      · exact .pure _
      · exact (uneventful_currentParameters p _).bind fun _ => .pure _

theorem uneventful_attributeName (p : Program) (name : Atom) (value : Option Name) :
    Uneventful (attributeName p name value) :=
  .get_bind fun _ => .pure _

theorem uneventful_recordCall (f : ObjectId) (record : CallRecord) :
    Uneventful (recordCall f record) := by
  apply Uneventful.bind (.modifyGet fun _ => ⟨.refl _, rfl, rfl⟩)
  intro _
  apply (uneventful_count _).bind
  intro _
  exact .modifyGet fun _ => ⟨.refl _, rfl, rfl⟩

end Infer

/-! ### The three events -/

namespace Logging

variable {α : Type} {p : Program} {l : Logged}

theorem Traces.lift {x : Infer α} (h : x.Uneventful) : Traces p (liftM x) x := by
  intro l
  show Traced p l (silently x l) (x l.toState)
  unfold silently
  rcases h l.toState with ⟨a, s', hrun, hq⟩ | ⟨e, s', hrun, hq⟩
  · rw [hrun]
    exact .ok (Logged.leads_of_uneventful hq)
  · rw [hrun]
    exact .error (Logged.leads_of_uneventful hq)

/-- To change the state and then write down the event that has done it. -/
theorem tracesFrom_write {e : Event} {s : State} {x : Infer Unit} (hx : x l.toState = .ok () s)
    (hobjects : l.objects.Extends s.objects)
    (htold : l.toMoment.Told p → Moment.Told p ⟨s, e :: l.log⟩) :
    TracesFrom p l (do x; write e) x := by
  let m : Moment := ⟨s, e :: l.log⟩
  have hrun : (do x; write e : Logging Unit) l = .ok () ⟨m, m :: l.past⟩ := by
    show EStateM.bind (silently x) (fun _ => write e) l = _
    rw [EStateM.bind, silently, hx]
    rfl
  have hleads : l.Leads p ⟨m, m :: l.past⟩ := by
    refine ⟨hobjects, List.suffix_cons _ _, fun h => ?_⟩
    exact (h.change (htold h.now) (List.suffix_cons e l.log)).mark
  unfold TracesFrom
  rw [hrun, hx]
  exact .ok hleads

theorem tracesFrom_observe {c : ObjectId} {slot : Slot} (hslot : l.objects.HasSlot c slot)
    (o : ObjectId) : TracesFrom p l (observe c slot o) (Infer.observe c slot o) :=
  tracesFrom_write rfl (.refl _) fun h => h.seeInto hslot o

theorem traces_allocate (scope : ScopeId) (c : ObjectId) :
    Traces p (allocate scope c) (Infer.allocate scope c) :=
  fun _ => tracesFrom_write (Infer.allocate_run _ scope c) (.refl _) fun h =>
    h.noteAllocation scope c

theorem traces_forget (scope : ScopeId) :
    Traces p (forget p scope) (Infer.changeMemory fun m => m.forgetTree p scope) := by
  intro l
  refine tracesFrom_write rfl ?_ fun h => h.forgetTree scope
  rw [Memory.objects_forgetTree]
  exact .refl _

end Logging

end ObjectInference
