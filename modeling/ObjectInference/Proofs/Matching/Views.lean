import ObjectInference.Proofs.Matching.Runs

/-!
What inference for given objects looks at.

Before a function is inferred for given objects, what has been seen in the
containers that were made in it is forgotten. If that had been forgotten before,
nothing is different: the run has the same outcome. `State.view` is the state as
inference of a function sees it, without what it forgets at once.
-/

namespace ObjectInference

/-- The same result, or the same interruption, over the same store. -/
inductive SameOutcome {α : Type} :
    EStateM.Result Interrupt State α → EStateM.Result Interrupt State α → Prop where
  | ok {a : α} {s t : State} (h : s.objects = t.objects) : SameOutcome (.ok a s) (.ok a t)
  | error {e : Interrupt} {s t : State} (h : s.objects = t.objects) :
      SameOutcome (.error e s) (.error e t)

theorem SameOutcome.refl {α : Type} (r : EStateM.Result Interrupt State α) : SameOutcome r r := by
  cases r with
  | ok => exact .ok rfl
  | error => exact .error rfl

theorem SameOutcome.symm {α : Type} {r r' : EStateM.Result Interrupt State α}
    (h : SameOutcome r r') : SameOutcome r' r := by
  cases h with
  | ok h => exact .ok h.symm
  | error h => exact .error h.symm

theorem SameOutcome.trans {α : Type} {r₁ r₂ r₃ : EStateM.Result Interrupt State α}
    (h : SameOutcome r₁ r₂) (h' : SameOutcome r₂ r₃) : SameOutcome r₁ r₃ := by
  cases h with
  | ok h =>
      cases h' with
      | ok h' => exact .ok (h.trans h')
  | error h =>
      cases h' with
      | error h' => exact .error (h.trans h')

theorem SameOutcome.of_ok {α : Type} {a : α} {s : State} {r : EStateM.Result Interrupt State α}
    (h : SameOutcome (.ok a s) r) : ∃ t, r = .ok a t ∧ t.objects = s.objects := by
  cases h with
  | ok h => exact ⟨_, rfl, h.symm⟩

namespace Infer

variable {p : Program} {eval : Evaluator} {f : ObjectId} {scope : ScopeId} {os : List ObjectId}
  {s : State}

/-- What is forgotten when a call is opened may as well have been forgotten before. -/
theorem opened_without (p : Program) (f : ObjectId) (scope : ScopeId) (ps : List ObjectId)
    (s : State) :
    opened p f scope (some ps) (s.without p (p.subtree scope)) =
      opened p f scope (some ps) s := by
  rw [State.opened_some, State.opened_some]
  simp only [State.without, Memory.without_without]

theorem inferInFlight_without (ps : List ObjectId) (s : State) :
    (do
      let result ← inferInFlight p eval f scope (some ps)
      leaveFunction f
      return result) (s.without p (p.subtree scope)) =
    (do
      let result ← inferInFlight p eval f scope (some ps)
      leaveFunction f
      return result) s := by
  have hopen : ∀ {α : Type} (x : Infer α) (u : State),
      (openCall p f scope (some ps) >>= fun _ => x) u = x (opened p f scope (some ps) u) := by
    intro α x u
    change EStateM.bind (openCall p f scope (some ps)) (fun _ => x) u = _
    rw [EStateM.bind, openCall_eq]
  rw [inferInFlight_bracket, hopen, hopen, opened_without]

/-- What an inference for bound parameters does about the outcome of its attempt to
enter the function. -/
def afterEntry (p : Program) (eval : Evaluator) (f : ObjectId) (scope : ScopeId)
    (ps : List ObjectId) : Entry → Infer (Option ObjectId)
  | .entered => do
    let result ← inferInFlight p eval f scope (some ps)
    leaveFunction f
    return result
  | .cycle => throw (.reentrant f)
  | _ => do
    count fun c => { c with limitBailouts := c.limitBailouts + 1 }
    return none

theorem afterEntry_without (ps : List ObjectId) (e : Entry) (s : State) :
    SameOutcome (afterEntry p eval f scope ps e s)
      (afterEntry p eval f scope ps e (s.without p (p.subtree scope))) := by
  cases e with
  | entered =>
      have hsame : afterEntry p eval f scope ps .entered (s.without p (p.subtree scope)) =
          afterEntry p eval f scope ps .entered s := inferInFlight_without ps s
      rw [hsame]
      exact .refl _
  | cycle => exact .error rfl
  | _ => exact .ok rfl

/-- An inference for given objects, from the moment that they are bound. -/
theorem tryReturned_objects (hf : s.objects.scopeOf? f = some scope)
    (hsites : (p.returnedSites scope).isEmpty = false) {params : List Param}
    (hparams : p.parameters s.objects f = params) :
    tryReturned p eval f (some (.objects os)) s =
      afterEntry p eval f scope
        (ordinaryObjects params (bindObjects params { positional := os }))
        (s.inFlight.refresh.enter f).1
        { s with inFlight := (s.inFlight.refresh.enter f).2 } := by
  subst hparams
  unfold tryReturned
  rw [get_bind_run, hf]
  simp only [hsites, Bool.false_eq_true, if_false]
  rfl

/-- An inference of a function that returns nothing. -/
theorem tryReturned_of_isEmpty (hf : s.objects.scopeOf? f = some scope)
    (hsites : (p.returnedSites scope).isEmpty = true) (a : Option Arguments) :
    tryReturned p eval f a s = .ok none s := by
  unfold tryReturned
  rw [get_bind_run, hf]
  simp only [hsites, if_true]
  rfl

theorem tryReturned_without (hf : s.objects.scopeOf? f = some scope) :
    SameOutcome (tryReturned p eval f (some (.objects os)) s)
      (tryReturned p eval f (some (.objects os)) (s.without p (p.subtree scope))) := by
  cases hsites : (p.returnedSites scope).isEmpty with
  | true =>
      rw [tryReturned_of_isEmpty hf hsites,
        tryReturned_of_isEmpty (s := s.without p (p.subtree scope)) hf hsites]
      exact .ok rfl
  | false =>
      rw [tryReturned_objects hf hsites rfl,
        tryReturned_objects (s := s.without p (p.subtree scope)) hf hsites rfl]
      exact afterEntry_without _ _ _

/-- What comes out alike of two attempts comes out alike of what is made of them. -/
theorem returned_of_tryReturned {a b : Option Arguments} {t : State}
    (h : SameOutcome (tryReturned p eval f a s) (tryReturned p eval f b t)) :
    SameOutcome (returned p eval f a s) (returned p eval f b t) := by
  unfold returned
  change SameOutcome (EStateM.bind (attempt _) _ s) (EStateM.bind (attempt _) _ t)
  simp only [EStateM.bind, attempt]
  generalize tryReturned p eval f a s = r, tryReturned p eval f b t = r' at h ⊢
  cases h with
  | ok h => exact .ok h
  | @error e s t h =>
      cases e with
      | reentrant => exact .ok h
      | _ => exact .error h

/-- Nor does it matter to the answer. -/
theorem returned_without (hf : s.objects.scopeOf? f = some scope) :
    SameOutcome (returned p eval f (some (.objects os)) s)
      (returned p eval f (some (.objects os)) (s.without p (p.subtree scope))) :=
  returned_of_tryReturned (tryReturned_without hf)

end Infer

/-! ### Views -/

namespace State

variable {p : Program} {f : ObjectId} {os : Option (List ObjectId)} {s : State}

/-- A state as an inference of a function sees it, for given objects or in general. -/
def view (p : Program) (f : ObjectId) (os : Option (List ObjectId)) (s : State) : State :=
  match os, s.objects.scopeOf? f with
  | some _, some scope => s.without p (p.subtree scope)
  | _, _ => s

theorem view_cases (p : Program) (f : ObjectId) (os : Option (List ObjectId)) (s : State) :
    s.view p f os = s ∨
    ∃ objects scope, os = some objects ∧ s.objects.scopeOf? f = some scope ∧
      s.view p f os = s.without p (p.subtree scope) := by
  unfold view
  cases os with
  | none => exact .inl rfl
  | some objects =>
      cases hf : s.objects.scopeOf? f with
      | none => exact .inl rfl
      | some scope => exact .inr ⟨objects, scope, rfl, rfl, rfl⟩

/-- Nothing but the evidence, and what was worked out from it, is out of view. -/
theorem view_eq (p : Program) (f : ObjectId) (os : Option (List ObjectId)) (s : State) :
    ∃ cache evidence, s.view p f os = { s with parameterCache := cache, evidence := evidence } := by
  rcases s.view_cases p f os with h | ⟨_, scope, _, _, h⟩
  · exact ⟨_, _, h⟩
  · exact ⟨_, _, h⟩

@[simp] theorem objects_view (p : Program) (f : ObjectId) (os : Option (List ObjectId))
    (s : State) : (s.view p f os).objects = s.objects := by
  obtain ⟨_, _, h⟩ := s.view_eq p f os
  rw [h]

theorem Sound.view (h : s.Sound p) (f : ObjectId) (os : Option (List ObjectId)) :
    (s.view p f os).Sound p := by
  rcases s.view_cases p f os with hv | ⟨_, scope, _, _, hv⟩
  · rwa [hv]
  · rw [hv]
    exact h.without _

theorem Matches.view_self (h : s.Matches .none s) (hp : p.WellBound) (hs : s.Sound p)
    (f : ObjectId) (os : Option (List ObjectId)) :
    (s.view p f os).Matches .none (s.view p f os) := by
  rcases s.view_cases p f os with hv | ⟨_, scope, _, _, hv⟩
  · rwa [hv]
  · rw [hv]
    exact h.without hp hs hs _

end State

theorem Infer.returned_view (p : Program) (eval : Evaluator) (f : ObjectId)
    (os : Option (List ObjectId)) (s : State) :
    SameOutcome (returned p eval f (os.map .objects) s)
      (returned p eval f (os.map .objects) (s.view p f os)) := by
  rcases s.view_cases p f os with hv | ⟨objects, scope, rfl, hf, hv⟩
  · rw [hv]
    exact .refl _
  · rw [hv]
    exact returned_without hf

end ObjectInference
