import ObjectInference.Proofs.Matching.Leftovers
import ObjectInference.Session

/-!
Questions to a session.

Inference for a question may leave something behind: containers that it came
across, and what it saw in them. So questions may change the answers to later
ones, but only through a container. An answer is the same as without the earlier
questions, up to the numbers of objects, if its inference sees what it would have
seen in the containers that were there, and if it does not come to the place of
a container that the earlier inference has filled. Two answers are compared through
a state that comes before both, so that nothing need be known of the containers
made since on ways that the question does not go. What a function is called with
in the latest recorded call is not affected by anything.

The condition cannot be dropped. An inference for given objects fills the
containers of the function and forgets them only when the next such inference
begins, so an inference in general in between sees what is left of it.
-/

namespace ObjectInference

inductive Query where
  /-- What it returns, for given objects or in general. -/
  | returned (f : ObjectId) (os : Option (List ObjectId))
  /-- The objects of its ordinary parameters in the latest recorded call. -/
  | parameters (f : ObjectId)

inductive Answer where
  | returned (o : Option ObjectId)
  | parameters (os : List ObjectId)
deriving DecidableEq, Repr

def Query.InRange (n : Nat) : Query → Prop
  | returned f os => f < n ∧ ∀ objects ∈ os, ∀ o ∈ objects, o < n
  | parameters f => f < n

theorem Query.InRange.mono {q : Query} {n m : Nat} (h : q.InRange n) (hle : n ≤ m) :
    q.InRange m := by
  cases q with
  | returned f os =>
      exact ⟨Nat.lt_of_lt_of_le h.1 hle,
        fun objects ho o hmem => Nat.lt_of_lt_of_le (h.2 objects ho o hmem) hle⟩
  | parameters f => exact Nat.lt_of_lt_of_le h hle

/-- Answers of two sessions that are the same. Objects that were made for an answer
may have different numbers. -/
inductive Answer.Same (s t : Session) : Answer → Answer → Prop where
  | returned {x y : Option ObjectId} (h : Option.Rel (s.state.SameShape t.state) x y) :
      Same s t (.returned x) (.returned y)
  | parameters (os : List ObjectId) : Same s t (.parameters os) (.parameters os)

namespace Answer.Same

variable {s t u : Session} {a b c : Answer}

theorem symm (h : a.Same s t b) : b.Same t s a := by
  cases h with
  | parameters os => exact .parameters os
  | returned h =>
      cases h with
      | none => exact .returned .none
      | some hab => exact .returned (.some hab.symm)

theorem trans (h : a.Same s t b) (h' : b.Same t u c) : a.Same s u c := by
  cases h with
  | parameters os =>
      cases h' with
      | parameters => exact .parameters os
  | returned h =>
      cases h' with
      | returned h' =>
          cases h with
          | none =>
              cases h'
              exact .returned .none
          | some hab =>
              cases h' with
              | some hbc => exact .returned (.some (hab.trans hbc))

end Answer.Same

/-- A computation from a state is not given up. -/
def Infer.completes {α : Type} (x : Infer α) (s : State) : Bool :=
  match x s with
  | .error .exhausted _ => false
  | _ => true

/-- An inference of a function is not disturbed by what has led from one state to
another: the later state spares it, and it does not come to a place of a container
that it may not make. -/
structure State.Undisturbed (p : Program) (f : ObjectId) (os : Option (List ObjectId))
    (s t : State) : Prop where
  spares : s.Spares p f os t
  avoids : (Infer.returned p (p.avoiding (State.mayMake p f os s t)) f
    (os.map .objects)).completes s = true

namespace Session

def ask (s : Session) : Query → Except Interrupt Answer × Session
  | .returned f none => (s.returnedObject f).map (·.map .returned) id
  | .returned f (some os) => (s.returnedObjectFor f os).map (·.map .returned) id
  | .parameters f => (.ok (.parameters (s.parameterObjects f)), s)

/-- Ask one question after the other. -/
def askAll (s : Session) : List Query → List (Except Interrupt Answer) × Session
  | [] => ([], s)
  | q :: qs =>
    let (a, t) := s.ask q
    let (as, u) := t.askAll qs
    (a :: as, u)

/-- Each question is about objects that are in the store when it is asked. -/
def Askable (s : Session) : List Query → Prop
  | [] => True
  | q :: qs => q.InRange s.state.objects.size ∧ (s.ask q).2.Askable qs

/-- A question is not disturbed by others that are asked before it. Only inference can
disturb, and be disturbed. -/
def Undisturbed (s : Session) (qs : List Query) : Query → Prop
  | .returned f os =>
    (∃ g os', .returned g os' ∈ qs) → s.state.Undisturbed s.program f os (s.askAll qs).2.state
  | .parameters _ => True

end Session

/-- An evaluator that keeps away from nothing is that of the program. -/
theorem Program.avoiding_eq_evaluate {p : Program} {ok : ScopeId → NodeRef → Bool}
    (h : ∀ scope site, ok scope site = true) : p.avoiding ok = p.evaluate := by
  have hwithin : ∀ n, Infer.evaluateAvoiding p ok n = Infer.evaluateWithin p n := by
    intro n
    induction n with
    | zero => rfl
    | succ n ih =>
        funext scope expr
        simp only [Infer.evaluateAvoiding, Infer.evaluateWithin, h, ih, if_true]
  funext scope expr s
  simp only [avoiding, evaluateBy, evaluate, hwithin]

/-- On a descending tree no operation is given up. -/
theorem Operation.completes_perform {p : Program} (hd : p.tree.Descending) {α : Type}
    (op : Operation α) (s : State) : (op.perform p).completes s = true := by
  have hend := op.ended (p := p) s
  unfold Infer.completes
  generalize op.perform p s = r at hend ⊢
  cases hend with
  | ok => rfl
  | reentrant => rfl
  | exhausted h => exact absurd hd h

/-- An operation that keeps away from some places, and is not given up, is the operation. -/
theorem Operation.run_avoiding_of_completes {p : Program} {α : Type} (op : Operation α)
    (ok : ScopeId → NodeRef → Bool) {s : State}
    (h : (op.run p (p.avoiding ok)).completes s = true) :
    op.run p (p.avoiding ok) s = op.perform p s := by
  rcases op.run_avoiding p ok s with ⟨s', hs'⟩ | heq
  · unfold Infer.completes at h
    rw [hs'] at h
    cases h
  · exact heq

/-! ### Inference of a function -/

theorem inRange_objects {os : Option (List ObjectId)} {n : Nat}
    (h : ∀ objects ∈ os, ∀ o ∈ objects, o < n) : ∀ x ∈ os.map Arguments.objects, x.InRange n := by
  intro x hx
  obtain ⟨objects, hobjects, rfl⟩ := Option.mem_map.1 hx
  exact h objects hobjects

namespace State

variable {p : Program} {f : ObjectId} {os : Option (List ObjectId)} {s t : State}

/-- An inference in a served state has a result. -/
theorem Served.returned_ok (hd : p.tree.Descending) (hs : s.Served p) (f : ObjectId)
    (a : Option Arguments) :
    ∃ o s', Infer.returned p p.evaluate f a s = .ok o s' ∧ s.Settles s' :=
  hs.reached.perform_ok hd (.returned f a)

/-- Inference of a function enters nothing in the log, and its result is in the
store. -/
theorem Served.returned_self (hp : p.WellBound) (hs : s.Served p) (hf : f < s.objects.size)
    {a : Option Arguments} (ha : ∀ x ∈ a, x.InRange s.objects.size) {o : Option ObjectId}
    {s' : State} (hrun : Infer.returned p p.evaluate f a s = .ok o s') :
    s'.calls = s.calls ∧ Option.Rel (s'.SameShape s') o o := by
  obtain ⟨hsound, hm⟩ := hs.sound_and_matches hp
  have hrefl : ∀ o < s.objects.size, s.SameShape s o o := hsound.grown.sameShape_refl hp.made
  have h : Pairing.InMatch p True .none (s, s) s s :=
    ⟨.refl s, .refl s, fun _ => ⟨rfl, rfl⟩, hsound, hsound, hm⟩
  have hpairs := Pairing.matching.returned hp (Pairing.matching.pairsOn_evaluate hp True) h
    (hrefl f hf) (Pairing.sameArguments?_of_inRange hrefl ha)
  unfold Pairing.Pairs at hpairs
  rw [hrun] at hpairs
  cases hpairs with
  | ok hr hab => exact ⟨(hr.rel.calls trivial).1, hab⟩
  | strayed _ _ hs => exact hs.elim

/-- An inference that keeps away from some places, and is not given up, has the result
that the inference has. -/
theorem returned_avoiding (ok : ScopeId → NodeRef → Bool) {a : Option Arguments}
    (h : (Infer.returned p (p.avoiding ok) f a).completes s = true) :
    Infer.returned p (p.avoiding ok) f a s = Infer.returned p p.evaluate f a s :=
  (Operation.returned f a).run_avoiding_of_completes ok h

/-- An inference that is not disturbed has the same result in both states. -/
theorem Served.returned_same (hp : p.WellBound) (hs : s.Served p) (ht : t.Served p)
    (hst : s.Settles t) (hcalls : t.calls = s.calls) (hf : f < s.objects.size)
    (hos : ∀ objects ∈ os, ∀ o ∈ objects, o < s.objects.size)
    (h : s.Undisturbed p f os t) {a b : Option ObjectId} {s' t' : State}
    (hrun : Infer.returned p p.evaluate f (os.map .objects) s = .ok a s')
    (hrun' : Infer.returned p p.evaluate f (os.map .objects) t = .ok b t') :
    Option.Rel (s'.SameShape t') a b := by
  obtain ⟨hsound, hm⟩ := hs.sound_and_matches hp
  obtain ⟨hsound', _⟩ := ht.sound_and_matches hp
  obtain ⟨_, hidle⟩ := hs.reached.disciplined_and_idle
  have hview : Pairing.InMatch p True (leftPlaces p f os s t) (s.view p f os, t.view p f os)
      (s.view p f os) (t.view p f os) :=
    ⟨.refl _, .refl _, fun _ => ⟨rfl, rfl⟩, hsound.view f os, hsound'.view f os,
      h.spares.matches_view hp hsound hsound' hst hm hidle.contexts hs.reached.depth_eq_zero
        hcalls⟩
  have hrefl : ∀ o < s.objects.size, (s.view p f os).SameShape (t.view p f os) o o := by
    intro o ho
    change ObjectStore.SameShape _ _ o o
    rw [objects_view, objects_view]
    exact sameShape_of_settles hp hsound hst ho
  have H := (Pairing.matching.lawful hp True (leftPlaces p f os s t)).pairsOn_avoiding
    (fun h _ => allow_of_mayMake h) fun {_ _ _} h => (Pairing.matching.budget_eq h).symm
  have hpairs := Pairing.matching.returned hp H hview (hrefl f hf)
    (Pairing.sameArguments?_of_inRange hrefl (inRange_objects hos))
  -- From the views the runs have the results that they have from the states.
  have hfirst := Infer.returned_view p (p.avoiding (mayMake p f os s t)) f os s
  rw [returned_avoiding _ h.avoids, hrun] at hfirst
  have hsecond := Infer.returned_view p p.evaluate f os t
  rw [hrun'] at hsecond
  obtain ⟨u, hu, hobjects⟩ := hfirst.of_ok
  obtain ⟨v, hv, hobjects'⟩ := hsecond.of_ok
  unfold Pairing.Pairs at hpairs
  rw [hu, hv] at hpairs
  cases hpairs with
  | ok _ hab =>
      change Option.Rel (ObjectStore.SameShape s'.objects t'.objects) a b
      rw [← hobjects, ← hobjects']
      exact hab
  | strayed _ _ hs => exact hs.elim

end State

/-! ### Sessions -/

namespace Session

variable {s : Session}

/-- A fresh session is served. -/
theorem served_start (p : Program) (options : Options) :
    (start p (.fresh p) options).state.Served p :=
  .start options

theorem ask_returned {f : ObjectId} {os : Option (List ObjectId)} {o : Option ObjectId}
    {t : State} (h : Infer.returned s.program s.program.evaluate f (os.map .objects) s.state =
      .ok o t) : s.ask (.returned f os) = (.ok (.returned o), { s with state := t }) := by
  cases os with
  | none =>
      have hrun : s.returnedObject f = (.ok o, { s with state := t }) := run_of_ok h
      exact congrArg (Prod.map (Except.map Answer.returned) id) hrun
  | some objects =>
      have hrun : s.returnedObjectFor f objects = (.ok o, { s with state := t }) := run_of_ok h
      exact congrArg (Prod.map (Except.map Answer.returned) id) hrun

/-- A session in which questions have been asked since. -/
structure Questioned (s t : Session) : Prop where
  program : t.program = s.program
  served : t.state.Served s.program
  settles : s.state.Settles t.state
  calls : t.state.calls = s.state.calls

structure Asked (s : Session) (q : Query) (a : Answer) (t : Session) : Prop
    extends s.Questioned t where
  answer : s.ask q = (.ok a, t)
  self : a.Same t t a

theorem Questioned.trans {s t u : Session} (h : s.Questioned t) (h' : t.Questioned u) :
    s.Questioned u :=
  ⟨h'.program.trans h.program, h.program ▸ h'.served, h.settles.trans h'.settles,
    h'.calls.trans h.calls⟩

variable {q : Query} {qs : List Query} {a b : Answer} {t u v : Session}

/-- Every question is answered. -/
theorem asked (hd : s.program.tree.Descending) (hp : s.program.WellBound)
    (hs : s.state.Served s.program) (hq : q.InRange s.state.objects.size) :
    ∃ a t, s.Asked q a t := by
  cases q with
  | returned f os =>
      obtain ⟨o, t, hrun, hsettles⟩ := hs.returned_ok hd f (os.map .objects)
      have hrange := inRange_objects hq.2
      obtain ⟨hcalls, hself⟩ := hs.returned_self hp hq.1 hrange hrun
      have hserved := hs.ok (.returned f (os.map .objects)) ⟨hq.1, hrange⟩ hrun
      exact ⟨_, { s with state := t }, ⟨rfl, hserved, hsettles, hcalls⟩, ask_returned hrun,
        .returned hself⟩
  | parameters f => exact ⟨_, s, ⟨rfl, hs, .refl _, rfl⟩, rfl, .parameters _⟩

/-- Questions are answered one after the other. -/
theorem askedAll (hd : s.program.tree.Descending) (hp : s.program.WellBound)
    (hs : s.state.Served s.program) (hqs : s.Askable qs) :
    ∃ (as : List Answer) (t : Session), s.askAll qs = (as.map .ok, t) ∧ s.Questioned t := by
  induction qs generalizing s with
  | nil => exact ⟨[], s, rfl, rfl, hs, .refl _, rfl⟩
  | cons q qs ih =>
      obtain ⟨hq, hrest⟩ := hqs
      obtain ⟨a, t, ht⟩ := asked hd hp hs hq
      rw [ht.answer] at hrest
      obtain ⟨as, u, hu, htu⟩ :=
        ih (ht.program ▸ hd) (ht.program ▸ hp) (ht.program ▸ ht.served) hrest
      refine ⟨a :: as, u, ?_, ht.toQuestioned.trans htu⟩
      simp only [askAll, ht.answer, hu, List.map_cons]

/-- Without inference nothing changes. -/
theorem askAll_parameters (h : ¬ ∃ g os, .returned g os ∈ qs) : (s.askAll qs).2 = s := by
  induction qs with
  | nil => rfl
  | cons q qs ih =>
      cases q with
      | returned g os => exact absurd ⟨g, os, List.mem_cons_self⟩ h
      | parameters g =>
          exact ih fun ⟨g, os, hmem⟩ => h ⟨g, os, List.mem_cons_of_mem _ hmem⟩

theorem parameterObjects_eq (hprogram : t.program = s.program)
    (hobjects : s.state.objects.Extends t.state.objects) (hcalls : t.state.calls = s.state.calls)
    (f : ObjectId) : t.parameterObjects f = s.parameterObjects f := by
  unfold parameterObjects
  rw [hprogram, hcalls, s.program.parameters_of_extends hobjects]

theorem Asked.eq (h : s.Asked q a t) {b : Answer} {u : Session} (hu : s.ask q = (.ok b, u)) :
    a = b ∧ t = u := by
  have heq := h.answer.symm.trans hu
  rw [Prod.mk.injEq, Except.ok.injEq] at heq
  exact heq

/-- A question that is not disturbed by others has the answer that it would have had. -/
theorem Asked.same (hd : s.program.tree.Descending) (hp : s.program.WellBound)
    (hs : s.state.Served s.program) (hq : q.InRange s.state.objects.size)
    (ht : s.Questioned (s.askAll qs).2) (hu : s.Asked q a u) (hv : (s.askAll qs).2.Asked q b v)
    (h : s.Undisturbed qs q) : a.Same u v b := by
  cases q with
  | parameters f =>
      obtain ⟨rfl, rfl⟩ := hu.eq rfl
      obtain ⟨rfl, rfl⟩ := hv.eq rfl
      rw [parameterObjects_eq ht.program ht.settles.objects ht.calls f]
      exact .parameters _
  | returned f os =>
      by_cases hinfers : ∃ g os', .returned g os' ∈ qs
      · -- Both runs of the question have results, and the first is undisturbed.
        obtain ⟨o, w, hrun, _⟩ := hs.returned_ok hd f (os.map .objects)
        obtain ⟨o', w', hrun', _⟩ := ht.served.returned_ok hd f (os.map .objects)
        obtain ⟨rfl, rfl⟩ := hu.eq (ask_returned hrun)
        rw [← ht.program] at hrun'
        obtain ⟨rfl, rfl⟩ := hv.eq (ask_returned hrun')
        rw [ht.program] at hrun'
        exact .returned (hs.returned_same hp ht.served ht.settles ht.calls hq.1 hq.2 (h hinfers)
          hrun hrun')
      · rw [askAll_parameters hinfers] at hv
        obtain ⟨rfl, rfl⟩ := hu.eq hv.answer
        exact hu.self

/-- A question that is asked alone is also answered after others, and in the same way if it
is not disturbed by them. -/
theorem Asked.after (hd : s.program.tree.Descending) (hp : s.program.WellBound)
    (hs : s.state.Served s.program) (hq : q.InRange s.state.objects.size) (hu : s.Asked q a u)
    (hqs : s.Askable qs) :
    ∃ (as : List Answer) (t : Session) (b : Answer) (v : Session),
      s.askAll qs = (as.map .ok, t) ∧ s.Questioned t ∧ t.ask q = (.ok b, v) ∧
      (s.Undisturbed qs q → a.Same u v b) := by
  obtain ⟨as, t, hall, ht⟩ := askedAll hd hp hs hqs
  obtain rfl : (s.askAll qs).2 = t := congrArg Prod.snd hall
  obtain ⟨b, v, hv⟩ := asked (ht.program ▸ hd) (ht.program ▸ hp) (ht.program ▸ ht.served)
    (hq.mono ht.settles.objects.keeps.size_le)
  exact ⟨as, _, b, v, hall, ht, hv.answer, hu.same hd hp hs hq ht hv⟩

end Session

/-- Questions and answers. Whatever is asked, every question is answered, and the recorded
calls are left as they were. A question that is disturbed neither by some questions nor by
others has the same answer after the one as after the other, and if the ones are none, the
answer that it would have had alone. -/
theorem answers_undisturbed {tree : Tree} (hd : tree.Descending) (atoms : Interner)
    (root : NodeRef) {s : Session} (hprogram : s.program = .bind tree atoms root)
    (hs : s.state.Served s.program) {qs qs' : List Query} (hqs : s.Askable qs)
    (hqs' : s.Askable qs') {q : Query} (hq : q.InRange s.state.objects.size) :
    ∃ (as : List Answer) (t : Session) (a : Answer) (u : Session)
      (as' : List Answer) (t' : Session) (a' : Answer) (u' : Session),
      s.askAll qs = (as.map .ok, t) ∧ t.ask q = (.ok a, u) ∧
      s.askAll qs' = (as'.map .ok, t') ∧ t'.ask q = (.ok a', u') ∧
      (t.state.Served t.program ∧ t.state.calls = s.state.calls) ∧
      (t'.state.Served t'.program ∧ t'.state.calls = s.state.calls) ∧
      (s.Undisturbed qs q → s.Undisturbed qs' q → a.Same u u' a') := by
  have hp : s.program.WellBound := hprogram ▸ (Program.wellBound_bind tree atoms root).1
  have hds : s.program.tree.Descending := by
    rw [hprogram]
    exact hd
  -- Asked alone the question has an answer, which is compared with both others.
  obtain ⟨a₀, u₀, h₀⟩ := Session.asked hds hp hs hq
  obtain ⟨as, t, a, u, hall, ht, hu, hsame⟩ := h₀.after hds hp hs hq hqs
  obtain ⟨as', t', a', u', hall', ht', hu', hsame'⟩ := h₀.after hds hp hs hq hqs'
  exact ⟨as, t, a, u, as', t', a', u', hall, hu, hall', hu', ⟨ht.program ▸ ht.served, ht.calls⟩,
    ⟨ht'.program ▸ ht'.served, ht'.calls⟩, fun h h' => (hsame h).symm.trans (hsame' h')⟩

/-- A function that puts its argument into a list and returns what is in it. -/
def Tree.collecting : Tree :=
  ⟨#[.name 1, .list [some 0], .name 2, .assign [some 2] (some 1), .name 2, .literal (.int 0),
    .index (some 5), .subscript (some 4) (some 6), .returnStatement (some 7),
    .functionDef 3 [⟨1, .positional, none⟩] [] [some 3, some 8], .module [some 9]]⟩

def Session.collecting : Session :=
  start (.bind Tree.collecting ⟨#["", "a", "x", "f"]⟩ (some 10))
    (.fresh (.bind Tree.collecting ⟨#["", "a", "x", "f"]⟩ (some 10))) {}

/-- Inference for one object is disturbed neither by inference for another nor by inference
in general. -/
theorem answers_undisturbed_collecting :
    let s := Session.collecting
    let qs : List Query := [.returned 16 (some [16])]
    let qs' : List Query := [.returned 16 (some [15]), .parameters 16, .returned 16 none]
    let q : Query := .returned 16 (some [15])
    Tree.collecting.Descending ∧ s.state.Served s.program ∧ s.Askable qs ∧ s.Askable qs' ∧
      q.InRange s.state.objects.size ∧ s.Undisturbed qs q ∧ s.Undisturbed qs' q ∧
      ∃ (as : List Answer) (t : Session) (a : Answer) (u : Session)
        (as' : List Answer) (t' : Session) (a' : Answer) (u' : Session),
        s.askAll qs = (as.map .ok, t) ∧ t.ask q = (.ok a, u) ∧
        s.askAll qs' = (as'.map .ok, t') ∧ t'.ask q = (.ok a', u') ∧ a.Same u u' a' := by
  intro s qs qs' q
  have hd : Tree.collecting.Descending := by decide
  have hs : s.state.Served s.program := Session.served_start _ _
  have hqs : s.Askable qs := ⟨⟨by decide +kernel, by decide +kernel⟩, trivial⟩
  have hqs' : s.Askable qs' :=
    ⟨⟨by decide +kernel, by decide +kernel⟩, show 16 < _ by decide +kernel,
      ⟨by decide +kernel, nofun⟩, trivial⟩
  have hq : q.InRange s.state.objects.size := ⟨by decide +kernel, by decide +kernel⟩
  have hempty : (s.state.view s.program 16 (some [15])).evidence = {} ∧
      ((s.askAll qs).2.state.view s.program 16 (some [15])).evidence = {} ∧
      ((s.askAll qs').2.state.view s.program 16 (some [15])).evidence = {} := by decide +kernel
  have h : s.Undisturbed qs q := by
    refine fun _ => ⟨⟨fun slot _ => ?_, by decide +kernel⟩, by decide +kernel⟩
    rw [hempty.1, hempty.2.1]
  have h' : s.Undisturbed qs' q := by
    refine fun _ => ⟨⟨fun slot _ => ?_, by decide +kernel⟩, by decide +kernel⟩
    rw [hempty.1, hempty.2.2]
  obtain ⟨as, t, a, u, as', t', a', u', ht, hu, ht', hu', _, _, hsame⟩ :=
    answers_undisturbed hd ⟨#["", "a", "x", "f"]⟩ (some 10) (s := s) rfl hs hqs hqs' hq
  exact ⟨hd, hs, hqs, hqs', hq, h, h', as, t, a, u, as', t', a', u', ht, hu, ht', hu',
    hsame h h'⟩

theorem Session.ask_of_toOption {s : Session} {q : Query} {a : Answer}
    (h : (s.ask q).1.toOption = some a) : s.ask q = (.ok a, (s.ask q).2) := by
  generalize s.ask q = r at h ⊢
  obtain ⟨x, t⟩ := r
  cases x with
  | error => cases h
  | ok b => rw [Option.some.inj h]

/-- Two names that are defined by each other, through a list and a tuple. The value of the
second is what the element of the list holds, or else a list of a number. The function
`f` comes to the second name first, and to the first name then. -/
def Tree.lookingAgain : Tree :=
  ⟨#[.name 2, .list [some 0], .name 1, .assign [some 2] (some 1),
    .name 1, .literal (.int 0), .index (some 5), .subscript (some 4) (some 6),
    .literal (.int 0), .index (some 8), .subscript (some 7) (some 9),
    .literal (.int 1), .list [some 11], .tuple [some 10, some 12],
    .literal (.int 0), .index (some 14), .subscript (some 13) (some 15),
    .name 2, .assign [some 17] (some 16),
    .name 3, .returnStatement (some 19),
    .functionDef 5 [⟨3, .positional, none⟩, ⟨4, .positional, none⟩] [] [some 20],
    .name 5, .name 2, .name 1, .call (some 22) [some 23, some 24] [],
    .returnStatement (some 25), .functionDef 6 [] [] [some 26],
    .module [some 3, some 18, some 21, some 27]]⟩

def Session.lookingAgain : Session :=
  start (.bind Tree.lookingAgain ⟨#["", "x", "y", "a", "b", "k", "f"]⟩ (some 28))
    (.fresh (.bind Tree.lookingAgain ⟨#["", "x", "y", "a", "b", "k", "f"]⟩ (some 28))) {}

/-- Inference for one object changes what inference in general gives. Asked alone it
gives nothing, since the argument is not known. Afterwards the argument of the other
inference is still in the list. Inference in general can also change what it gives itself
when it is asked again: at first the list holds nothing yet when it is looked into, and
the answer is another list. At last it holds that one, and the answer is the number in it. -/
theorem answers_disturbed_collecting :
    (let s := Session.collecting
    let q₁ : Query := .returned 16 (some [16])
    let q₂ : Query := .returned 16 none
    Tree.collecting.Descending ∧ s.state.Served s.program ∧ q₁.InRange s.state.objects.size ∧
      q₂.InRange s.state.objects.size ∧
      ∃ t u v, s.ask q₁ = (.ok (.returned (some 16)), t) ∧ s.ask q₂ = (.ok (.returned none), u) ∧
        t.ask q₂ = (.ok (.returned (some 16)), v) ∧
        ¬ Answer.Same u v (.returned none) (.returned (some 16))) ∧
    (let s := Session.lookingAgain
    let q : Query := .returned 17 none
    Tree.lookingAgain.Descending ∧ s.state.Served s.program ∧ q.InRange s.state.objects.size ∧
      ∃ t u, s.ask q = (.ok (.returned (some 20)), t) ∧ t.ask q = (.ok (.returned (some 21)), u) ∧
        t.state.objects.get 20 = .inst BuiltinClass.list.object (some 12) ∧
        u.state.objects.get 21 = .inst BuiltinClass.int.object none ∧
        ¬ Answer.Same t u (.returned (some 20)) (.returned (some 21))) := by
  constructor
  · intro s q₁ q₂
    refine ⟨by decide, Session.served_start _ _, ⟨by decide +kernel, by decide +kernel⟩,
      ⟨by decide +kernel, by decide +kernel⟩, (s.ask q₁).2, (s.ask q₂).2, ((s.ask q₁).2.ask q₂).2,
      Session.ask_of_toOption (by decide +kernel), Session.ask_of_toOption (by decide +kernel),
      Session.ask_of_toOption (by decide +kernel), fun hsame => ?_⟩
    cases hsame with
    | returned h => cases h
  · intro s q
    have hlist : (s.ask q).2.state.objects.get 20 =
        .inst BuiltinClass.list.object (some 12) := by decide +kernel
    have hint : ((s.ask q).2.ask q).2.state.objects.get 21 =
        .inst BuiltinClass.int.object none := by decide +kernel
    refine ⟨by decide, Session.served_start _ _, ⟨by decide +kernel, by decide +kernel⟩,
      (s.ask q).2, ((s.ask q).2.ask q).2, Session.ask_of_toOption (by decide +kernel),
      Session.ask_of_toOption (by decide +kernel), hlist, hint, fun hsame => ?_⟩
    cases hsame with
    | returned h =>
        cases h with
        | some h =>
            -- The list was made at a place, and the number was not.
            cases h with
            | leaf _ _ _ h =>
                rw [hlist, hint] at h
                cases h
            | inst _ _ hget hget' =>
                rw [hlist] at hget
                rw [hint] at hget'
                cases hget
                cases hget'
            | generator _ _ hget =>
                rw [hlist] at hget
                cases hget

end ObjectInference
