import ObjectInference.Proofs.Reentry
import ObjectInference.Proofs.Rebinding

/-!
How returned values are scanned.

The values that a function returns are tried from the last to the first, each in the
state that the one before it in this order has left. One that asks for a function in
flight is passed over, and the first that does not decides: it answers if it resolves to
a known object, and else nothing does. `Answers` says this of a list of values without
the loop, and `scanReturned_eq_ok` that the loop gives just these answers.

`return_sites_scanned` follows the values into a request: whatever state a function is
entered from, and however deep in other inferences, what it returns is what its values
answer in the state in which its call is open.
-/

namespace ObjectInference

namespace Infer

variable {p : Program} {eval : Evaluator} {f : ObjectId} {scope : ScopeId} {generator : Bool}
  {arguments : Option Arguments} {parameters : Option (List ObjectId)} {site : NodeId}
  {sites : List NodeId} {found : Option Name} {r : Option ObjectId} {s s₁ s' : State}

/-! ### Which value decides -/

/-- Returned values that all end on a function in flight when they are tried one after the
other, and the state after them. -/
inductive PassedOver (eval : Evaluator) (scope : ScopeId) : List NodeId → State → State → Prop where
  | nil (s : State) : PassedOver eval scope [] s s
  | cons {site : NodeId} {sites : List NodeId} {s s₁ s' : State} {g : ObjectId}
      (hsite : eval scope (some site) s = .error (.reentrant g) s₁)
      (hsites : PassedOver eval scope sites s₁.passedOver s') :
      PassedOver eval scope (site :: sites) s s'

/-- The first value that is not passed over, what it resolves to, and the state that it
leaves. -/
def Decides (eval : Evaluator) (scope : ScopeId) (sites : List NodeId) (s : State)
    (found : Option Name) (s' : State) : Prop :=
  ∃ passed site rest s₁, sites = passed ++ site :: rest ∧
    PassedOver eval scope passed s s₁ ∧ eval scope (some site) s₁ = .ok found s'

/-- A known object as a function gives it, and the state then: itself, or the generator of
it. -/
def given (generator : Bool) (o : ObjectId) (s : State) : ObjectId × State :=
  if generator then
    ((s.objects.intern (.generator o)).1,
      { s with objects := (s.objects.intern (.generator o)).2 })
  else (o, s)

/-- What returned values answer when they are tried in the given order, and the state that
they leave. -/
def Answers (eval : Evaluator) (scope : ScopeId) (generator : Bool) (sites : List NodeId)
    (s : State) : Option ObjectId → State → Prop
  | some o, s' => ∃ name s₁, Decides eval scope sites s (some name) s₁ ∧
      name.object.isKnown = true ∧ (o, s') = given generator name.object s₁
  | none, s' => PassedOver eval scope sites s s' ∨
      ∃ found, Decides eval scope sites s found s' ∧ (Name.objectOf found).isKnown = false

/-- What a value resolves to either is a name with a known object, or does not answer. -/
theorem known_or_unknown (found : Option Name) :
    (∃ name, found = some name ∧ name.object.isKnown = true) ∨
      (Name.objectOf found).isKnown = false := by
  cases hknown : (Name.objectOf found).isKnown with
  | false => exact .inr rfl
  | true =>
      cases found with
      | none => cases hknown
      | some name => exact .inl ⟨name, rfl, hknown⟩

theorem passedOver_nil : PassedOver eval scope [] s s' ↔ s' = s := by
  constructor
  · rintro ⟨⟩
    rfl
  · rintro rfl
    exact .nil _

theorem not_decides_nil : ¬ Decides eval scope [] s found s' := by
  rintro ⟨passed, site, rest, _, h, _⟩
  simp at h

section Reentrant

variable {g : ObjectId} (h : eval scope (some site) s = .error (.reentrant g) s₁)

include h

theorem passedOver_cons_of_reentrant :
    PassedOver eval scope (site :: sites) s s' ↔ PassedOver eval scope sites s₁.passedOver s' := by
  refine ⟨fun hpassed => ?_, fun hpassed => .cons h hpassed⟩
  cases hpassed with
  | cons hsite hsites =>
      rw [h] at hsite
      cases hsite
      exact hsites

theorem decides_cons_of_reentrant :
    Decides eval scope (site :: sites) s found s' ↔
      Decides eval scope sites s₁.passedOver found s' := by
  constructor
  · rintro ⟨passed, last, rest, s₂, hsites, hpassed, hlast⟩
    cases passed with
    | nil =>
        cases hpassed
        cases hsites
        rw [h] at hlast
        cases hlast
    | cons first passed =>
        obtain ⟨rfl, rfl⟩ := List.cons.inj hsites
        exact ⟨passed, last, rest, s₂, rfl, (passedOver_cons_of_reentrant h).1 hpassed, hlast⟩
  · rintro ⟨passed, last, rest, s₂, rfl, hpassed, hlast⟩
    exact ⟨site :: passed, last, rest, s₂, rfl, .cons h hpassed, hlast⟩

theorem answers_cons_of_reentrant :
    Answers eval scope generator (site :: sites) s r s' ↔
      Answers eval scope generator sites s₁.passedOver r s' := by
  cases r <;> simp only [Answers, passedOver_cons_of_reentrant h, decides_cons_of_reentrant h]

end Reentrant

/-- Only values that end on a function in flight are passed over. -/
theorem decides_cons {found' : Option Name}
    (h : ∀ g s₁, eval scope (some site) s ≠ .error (.reentrant g) s₁) :
    Decides eval scope (site :: sites) s found' s' ↔ eval scope (some site) s = .ok found' s' := by
  constructor
  · rintro ⟨passed, last, rest, s₂, hsites, hpassed, hlast⟩
    cases hpassed with
    | nil =>
        cases hsites
        exact hlast
    | cons hsite _ =>
        cases hsites
        exact absurd hsite (h _ _)
  · exact fun hsite => ⟨[], site, sites, s, rfl, .nil s, hsite⟩

theorem not_passedOver_cons (h : ∀ g s₁, eval scope (some site) s ≠ .error (.reentrant g) s₁) :
    ¬ PassedOver eval scope (site :: sites) s s' := by
  intro hpassed
  cases hpassed with
  | cons hsite _ => exact h _ _ hsite

/-- The first value to be tried answers if it resolves to a known object. -/
theorem answers_cons_of_known {name : Name} (h : eval scope (some site) s = .ok (some name) s₁)
    (hknown : name.object.isKnown = true) :
    Answers eval scope generator (site :: sites) s r s' ↔
      r = some (given generator name.object s₁).1 ∧
        s' = (given generator name.object s₁).2 := by
  have hne : ∀ g s₁, eval scope (some site) s ≠ .error (.reentrant g) s₁ := by simp [h]
  cases r with
  | none =>
      simp only [Answers, not_passedOver_cons hne, decides_cons hne, h, false_or,
        EStateM.Result.ok.injEq, reduceCtorEq, false_and, iff_false]
      rintro ⟨_, ⟨rfl, _⟩, hunknown⟩
      exact absurd hknown (Bool.eq_false_iff.1 hunknown)
  | some o =>
      simp only [Answers, decides_cons hne, h, EStateM.Result.ok.injEq, Option.some.injEq]
      constructor
      · rintro ⟨_, _, ⟨rfl, rfl⟩, _, hgiven⟩
        exact ⟨congrArg Prod.fst hgiven, congrArg Prod.snd hgiven⟩
      · rintro ⟨rfl, rfl⟩
        exact ⟨name, s₁, ⟨rfl, rfl⟩, hknown, rfl⟩

/-- The first value to be tried ends the search if it resolves to nothing that is known. -/
theorem answers_cons_of_unknown (h : eval scope (some site) s = .ok found s₁)
    (hunknown : (Name.objectOf found).isKnown = false) :
    Answers eval scope generator (site :: sites) s r s' ↔ r = none ∧ s' = s₁ := by
  have hne : ∀ g s₁, eval scope (some site) s ≠ .error (.reentrant g) s₁ := by simp [h]
  cases r with
  | none =>
      simp only [Answers, not_passedOver_cons hne, decides_cons hne, h, false_or,
        EStateM.Result.ok.injEq, true_and]
      constructor
      · rintro ⟨_, ⟨_, rfl⟩, _⟩
        rfl
      · rintro rfl
        exact ⟨found, ⟨rfl, rfl⟩, hunknown⟩
  | some o =>
      simp only [Answers, decides_cons hne, h, EStateM.Result.ok.injEq, reduceCtorEq, false_and,
        iff_false]
      rintro ⟨_, _, ⟨rfl, _⟩, hknown, _⟩
      exact absurd hknown (Bool.eq_false_iff.1 hunknown)

theorem not_answers_of_fault {e : Interrupt} (h : eval scope (some site) s = .error e s₁)
    (he : ∀ g, e ≠ .reentrant g) : ¬ Answers eval scope generator (site :: sites) s r s' := by
  have hne : ∀ g s₁, eval scope (some site) s ≠ .error (.reentrant g) s₁ := by
    intro g s₂ hsite
    rw [h] at hsite
    cases hsite
    exact he g rfl
  cases r <;> simp [Answers, not_passedOver_cons hne, decides_cons hne, h]

/-! ### The loop -/

theorem returnedAs_eq (generator : Bool) (o : ObjectId) (s : State) :
    returnedAs generator o s = .ok (given generator o s).1 (given generator o s).2 := by
  cases generator <;> rfl

theorem settles_given (generator : Bool) (o : ObjectId) (s : State) :
    s.Settles (given generator o s).2 := by
  cases generator with
  | false => exact .refl s
  | true =>
      exact ⟨.refl _, .refl _, rfl, s.objects.extends_intern rfl, fun _ _ => id⟩

theorem scanReturned_of_fault {e : Interrupt} (h : eval scope (some site) s = .error e s₁)
    (he : ∀ g, e ≠ .reentrant g) :
    scanReturned eval scope generator (site :: sites) s = .error e s₁ := by
  have hattempt : attempt (eval scope (some site)) s = .error e s₁ := by
    unfold attempt
    rw [h]
    cases e with
    | reentrant g => exact absurd rfl (he g)
    | misuse fault => rfl
    | exhausted => rfl
  change EStateM.bind (attempt (eval scope (some site))) _ s = _
  rw [EStateM.bind, hattempt]

/-- The first value to be tried answers if it resolves to a known object. -/
theorem scanReturned_of_known {name : Name} (h : eval scope (some site) s = .ok (some name) s₁)
    (hknown : name.object.isKnown = true) :
    scanReturned eval scope generator (site :: sites) s =
      .ok (some (given generator name.object s₁).1) (given generator name.object s₁).2 := by
  have hattempt : attempt (eval scope (some site)) s = .ok (.ok (some name)) s₁ := by
    rw [attempt, h]
  rw [scanReturned, bind_of_ok hattempt]
  simp only [hknown, if_true]
  exact bind_of_ok (returnedAs_eq generator name.object s₁)

/-- The first value to be tried ends the search if it resolves to nothing that is known. -/
theorem scanReturned_of_unknown (h : eval scope (some site) s = .ok found s₁)
    (hunknown : (Name.objectOf found).isKnown = false) :
    scanReturned eval scope generator (site :: sites) s = .ok none s₁ := by
  have hattempt : attempt (eval scope (some site)) s = .ok (.ok found) s₁ := by
    rw [attempt, h]
  rw [scanReturned, bind_of_ok hattempt]
  cases found with
  | none => rfl
  | some name =>
      simp only [show name.object.isKnown = false from hunknown]
      rfl

/-- The loop over returned values gives what they answer, and nothing else. -/
theorem scanReturned_eq_ok :
    scanReturned eval scope generator sites s = .ok r s' ↔
      Answers eval scope generator sites s r s' := by
  induction sites generalizing s with
  | nil =>
      change EStateM.Result.ok none s = .ok r s' ↔ _
      cases r with
      | none => simp [Answers, passedOver_nil, not_decides_nil, @eq_comm _ s s']
      | some o => simp [Answers, not_decides_nil]
  | cons site sites ih =>
      cases hsite : eval scope (some site) s with
      | ok found s₁ =>
          obtain ⟨name, rfl, hknown⟩ | hunknown := known_or_unknown found
          · rw [scanReturned_of_known hsite hknown, answers_cons_of_known hsite hknown,
              EStateM.Result.ok.injEq, eq_comm, @eq_comm _ _ s']
          · rw [scanReturned_of_unknown hsite hunknown, answers_cons_of_unknown hsite hunknown,
              EStateM.Result.ok.injEq, eq_comm, @eq_comm _ _ s']
      | error e s₁ =>
          cases e with
          | reentrant g =>
              rw [scanReturned_of_reentrant hsite, answers_cons_of_reentrant hsite, ih]
          | misuse fault => simp [scanReturned_of_fault hsite, not_answers_of_fault hsite]
          | exhausted => simp [scanReturned_of_fault hsite, not_answers_of_fault hsite]

theorem scanReturned_append_of_passedOver {rest : List NodeId}
    (h : PassedOver eval scope sites s s₁) :
    scanReturned eval scope generator (sites ++ rest) s =
      scanReturned eval scope generator rest s₁ := by
  induction h with
  | nil s => rfl
  | cons hsite _ ih => rw [List.cons_append, scanReturned_of_reentrant hsite, ih]

/-- Once a value decides, those that would be tried after it are not looked at. -/
theorem scanReturned_append_of_decides (h : Decides eval scope sites s found s')
    (others : List NodeId) :
    scanReturned eval scope generator (sites ++ others) s =
      scanReturned eval scope generator sites s := by
  obtain ⟨passed, site, rest, s₁, rfl, hpassed, hsite⟩ := h
  have hfirst : ∀ rest, scanReturned eval scope generator (site :: rest) s₁ =
      scanReturned eval scope generator [site] s₁ := by
    intro rest
    obtain ⟨name, rfl, hknown⟩ | hunknown := known_or_unknown found
    · rw [scanReturned_of_known hsite hknown, scanReturned_of_known hsite hknown]
    · rw [scanReturned_of_unknown hsite hunknown, scanReturned_of_unknown hsite hunknown]
  rw [List.append_assoc, scanReturned_append_of_passedOver hpassed,
    scanReturned_append_of_passedOver hpassed, List.cons_append, hfirst (rest ++ others),
    hfirst rest]

/-- In a tree whose children stand before their parents the loop always ends with an
answer. -/
theorem scanReturned_total (hd : p.tree.Descending) (scope : ScopeId) (generator : Bool)
    (sites : List NodeId) (s : State) :
    ∃ r s', scanReturned p.evaluate scope generator sites s = .ok r s' ∧ s.Settles s' := by
  induction sites generalizing s with
  | nil => exact ⟨none, s, rfl, .refl s⟩
  | cons site sites ih =>
      have hend := (Operation.evaluate scope (some site)).ended (p := p) s
      change Operation.Ended p s (p.evaluate scope (some site) s) at hend
      cases hsite : p.evaluate scope (some site) s with
      | ok found s₁ =>
          rw [hsite] at hend
          cases hend with
          | ok h =>
              obtain ⟨name, rfl, hknown⟩ | hunknown := known_or_unknown found
              · exact ⟨_, _, scanReturned_of_known hsite hknown,
                  h.trans (settles_given generator name.object s₁)⟩
              · exact ⟨none, s₁, scanReturned_of_unknown hsite hunknown, h⟩
      | error e s₁ =>
          rw [hsite] at hend
          cases hend with
          | exhausted hnot => exact absurd hd hnot
          | reentrant h _ =>
              obtain ⟨r, s', hrun, h'⟩ := ih s₁.passedOver
              have hpassed : s₁.Settles s₁.passedOver :=
                ⟨.refl _, .refl _, rfl, .refl _, fun _ _ => id⟩
              exact ⟨r, s', by rw [scanReturned_of_reentrant hsite, hrun],
                h.trans (hpassed.trans h')⟩

/-! ### Requests -/

section Requests

variable {g g' : Guard ObjectId} (hscope : s.objects.scopeOf? f = some scope)
  (hsites : p.returnedSites scope ≠ [])

include hscope hsites

/-- A request for a function that is entered gives what the loop gives while its call is
open. -/
theorem tryReturned_of_entered
    (hbound : arguments.mapM (boundParameters p eval f) s = .ok parameters s₁)
    (henter : s₁.inFlight.refresh.enter f = (.entered, g))
    (hscan : scanReturned eval scope (p.isGenerator scope) (p.returnedSites scope).reverse
      (opened p f scope parameters { s₁ with inFlight := g }) = .ok r s')
    (hleave : s'.inFlight.leave f = .ok g') :
    tryReturned p eval f arguments s = .ok r (closed parameters g' s') := by
  have hentered : enterFunction f s₁ = .ok .entered { s₁ with inFlight := g } := by
    rw [enterFunction_run, henter]
  unfold tryReturned
  rw [get_bind_run, hscope]
  simp only [List.isEmpty_iff, hsites, if_false]
  rw [bind_of_ok hbound, bind_of_ok hentered]
  exact inferInFlight_run parameters hscan hleave

/-- A request for a function that is entered has an answer, which is that of the returned
values, from the last to the first, while its call is open. -/
theorem tryReturned_answers (hd : p.tree.Descending)
    (hbound : arguments.mapM (boundParameters p p.evaluate f) s = .ok parameters s₁)
    (henter : s₁.inFlight.refresh.enter f = (.entered, g)) :
    ∃ r s' g', tryReturned p p.evaluate f arguments s = .ok r (closed parameters g' s') ∧
      ∀ r' s'', Answers p.evaluate scope (p.isGenerator scope) (p.returnedSites scope).reverse
        (opened p f scope parameters { s₁ with inFlight := g }) r' s'' ↔ r' = r ∧ s'' = s' := by
  obtain ⟨r, s', hscan, hsettles⟩ := scanReturned_total hd scope (p.isGenerator scope)
    (p.returnedSites scope).reverse (opened p f scope parameters { s₁ with inFlight := g })
  obtain ⟨g', hleave, _⟩ := closeCall_of_settles henter hsettles
  refine ⟨r, s', g', tryReturned_of_entered hscope hsites hbound henter hscan hleave,
    fun r' s'' => ?_⟩
  rw [← scanReturned_eq_ok, hscan, EStateM.Result.ok.injEq, eq_comm, @eq_comm _ s'']

end Requests

/-- An object that a request gives is what one of the returned values decides while the
call is open. -/
theorem tryReturned_decides (hd : p.tree.Descending) {o : ObjectId}
    (h : tryReturned p p.evaluate f arguments s = .ok (some o) s') :
    ∃ scope parameters s₁ g s₂ g' name s₃, s.objects.scopeOf? f = some scope ∧
      arguments.mapM (boundParameters p p.evaluate f) s = .ok parameters s₁ ∧
      s₁.inFlight.refresh.enter f = (.entered, g) ∧
      Decides p.evaluate scope (p.returnedSites scope).reverse
        (opened p f scope parameters { s₁ with inFlight := g }) (some name) s₃ ∧
      name.object.isKnown = true ∧ (o, s₂) = given (p.isGenerator scope) name.object s₃ ∧
      s' = closed parameters g' s₂ := by
  have hrun := h
  unfold tryReturned at h
  rw [get_bind_run] at h
  cases hscope : s.objects.scopeOf? f with
  | none =>
      rw [hscope] at h
      cases h
  | some scope =>
      rw [hscope] at h
      by_cases hsites : p.returnedSites scope = []
      · simp only [hsites, List.isEmpty_nil, if_true] at h
        cases h
      simp only [List.isEmpty_iff, hsites, if_false] at h
      obtain ⟨parameters, s₁, hbound, _⟩ := bind_eq_ok.1 h
      cases henter : s₁.inFlight.refresh.enter f with
      | mk e g =>
          by_cases he : e = .entered
          · subst he
            obtain ⟨r, s₂, g', hgiven, hanswers⟩ :=
              tryReturned_answers hscope hsites hd hbound henter
            rw [hgiven] at hrun
            cases hrun
            obtain ⟨name, s₃, hdecides, hknown, hname⟩ := (hanswers (some o) s₂).2 ⟨rfl, rfl⟩
            exact ⟨scope, parameters, s₁, g, s₂, g', name, s₃, rfl, hbound, henter, hdecides,
              hknown, hname, rfl⟩
          · rw [tryReturned_of_bound hscope hsites hbound henter he] at hrun
            split at hrun <;> cases hrun

/-- An object that a request gives is a known one as the function gives it. -/
theorem tryReturned_eq_some (hd : p.tree.Descending) {o : ObjectId}
    (h : tryReturned p p.evaluate f arguments s = .ok (some o) s') :
    ∃ scope known s₁, s.objects.scopeOf? f = some scope ∧ known.isKnown = true ∧
      o = (given (p.isGenerator scope) known s₁).1 ∧
      s'.objects = (given (p.isGenerator scope) known s₁).2.objects := by
  obtain ⟨scope, parameters, s₁, g, s₂, g', name, s₃, hscope, _, _, _, hknown, hname, rfl⟩ :=
    tryReturned_decides hd h
  refine ⟨scope, name.object, s₃, hscope, hknown, congrArg Prod.fst hname, ?_⟩
  rw [objects_closed, ← congrArg Prod.snd hname]

theorem returned_eq_some {o : ObjectId} (h : returned p eval f arguments s = .ok (some o) s') :
    tryReturned p eval f arguments s = .ok (some o) s' := by
  obtain ⟨result, s₁, hattempt, h⟩ := bind_eq_ok.1 h
  cases result with
  | error g => cases h
  | ok result =>
      cases h
      unfold attempt at hattempt
      split at hattempt <;> cases hattempt
      assumption

end Infer

/-- Whatever state a function is entered from, what it returns is what the last of its
returned values answers that does not ask for a function in flight. That value answers if
it resolves to a known object, which a generator gives as the generator of it, and
without such a value, or if it does not resolve, nothing is answered. The values before it
are not looked at. So no request answers with the unknown object, and a generator function
answers with a generator of a known object. -/
theorem return_sites_scanned {tree : Tree} (hd : tree.Descending) (atoms : Interner)
    (root : NodeRef) :
    let p := Program.bind tree atoms root
    (∀ (s s₁ : State) (f : ObjectId) (scope : ScopeId) (arguments : Option Arguments)
        (parameters : Option (List ObjectId)) (g : Guard ObjectId),
      s.objects.scopeOf? f = some scope → p.returnedSites scope ≠ [] →
      arguments.mapM (Infer.boundParameters p p.evaluate f) s = .ok parameters s₁ →
      s₁.inFlight.refresh.enter f = (.entered, g) →
      ∃ r s' g', (Operation.tryReturned f arguments).perform p s =
          .ok r (Infer.closed parameters g' s') ∧
        ∀ r' s'', Infer.Answers p.evaluate scope (p.isGenerator scope)
          (p.returnedSites scope).reverse
          (Infer.opened p f scope parameters { s₁ with inFlight := g }) r' s'' ↔
            r' = r ∧ s'' = s') ∧
    (∀ (s s' : State) (scope : ScopeId) (generator : Bool) (sites others : List NodeId)
        (found : Option Name), Infer.Decides p.evaluate scope sites s found s' →
      Infer.scanReturned p.evaluate scope generator (sites ++ others) s =
        Infer.scanReturned p.evaluate scope generator sites s) ∧
    (∀ (s : State) (f : ObjectId) (scope : ScopeId) (arguments : Option Arguments),
      s.objects.scopeOf? f = some scope → p.returnedSites scope = [] →
      (Operation.tryReturned f arguments).perform p s = .ok none s) ∧
    (∀ (s s' : State) (f : ObjectId) (arguments : Option Arguments) (o : ObjectId),
      p.objects.Extends s.objects →
      ((Operation.tryReturned f arguments).perform p s = .ok (some o) s' ∨
        (Operation.returned f arguments).perform p s = .ok (some o) s') →
      o.isKnown = true ∧ ∃ scope, s.objects.scopeOf? f = some scope ∧
        (p.isGenerator scope = true →
          ∃ element, s'.objects.get o = .generator element ∧ element.isKnown = true)) := by
  intro p
  have hp : p.WellBound := (Program.wellBound_bind tree atoms root).1
  have hpd : p.tree.Descending := hd
  refine ⟨fun s s₁ f scope arguments parameters g hscope hsites hbound henter =>
      Infer.tryReturned_answers hscope hsites hpd hbound henter,
    fun s s' scope generator sites others found h => Infer.scanReturned_append_of_decides h others,
    fun s f scope arguments hscope hsites =>
      Infer.tryReturned_of_isEmpty hscope (by rw [hsites]; rfl) arguments,
    fun s s' f arguments o hs hrun => ?_⟩
  replace hrun : Infer.tryReturned p p.evaluate f arguments s = .ok (some o) s' :=
    hrun.elim id Infer.returned_eq_some
  obtain ⟨scope, known, s₁, hscope, hknown, ho, hobjects⟩ := Infer.tryReturned_eq_some hpd hrun
  have hend := (Operation.tryReturned f arguments).ended (p := p) s
  change Operation.Ended p s (Infer.tryReturned p p.evaluate f arguments s) at hend
  rw [hrun] at hend
  cases hend with
  | ok hsettles =>
      cases hgenerator : p.isGenerator scope with
      | false =>
          rw [hgenerator] at ho
          exact ⟨ho ▸ hknown, scope, hscope, fun h => by cases hgenerator.symm.trans h⟩
      | true =>
          rw [hgenerator] at ho hobjects
          have hget : s'.objects.get o = .generator known := by
            rw [hobjects, ho]
            exact s₁.objects.get_intern _
          have hkeeps := (hs.trans hsettles.objects).keeps
          exact ⟨hp.isKnown_of_get hkeeps (by rw [hget]; exact Object.noConfusion), scope, hscope,
            fun _ => ⟨known, hget, hknown⟩⟩

/-- A generator function that yields a literal and then what a call of itself gives. -/
def Tree.yieldingItself : Tree :=
  ⟨#[.literal (.int 1), .yield (some 0), .exprStatement (some 1), .name 1, .call (some 3) [] [],
    .yield (some 4), .exprStatement (some 5), .functionDef 1 [] [] [some 2, some 6],
    .module [some 7]]⟩

/-- The call of itself is passed over, the literal decides, and the answer is a generator
of what the literal gives. The module returns nothing, so it has no answer. -/
theorem return_sites_scanned_yieldingItself :
    let p := Program.bind Tree.yieldingItself ⟨#["", "f"]⟩ (some 8)
    let s := State.start (.fresh p) {} {}
    let g := (s.inFlight.refresh.enter 16).2
    Tree.yieldingItself.Descending ∧ s.objects.scopeOf? 16 = some 1 ∧
      p.returnedSites 1 = [0, 4] ∧ s.inFlight.refresh.enter 16 = (.entered, g) ∧
      p.objects.Extends s.objects ∧
      (∃ o s' name s₁, (Operation.tryReturned 16 none).perform p s = .ok (some o) s' ∧
        o.isKnown = true ∧
        (∃ element, s'.objects.get o = .generator element ∧ element.isKnown = true) ∧
        Infer.Decides p.evaluate 1 [4, 0] { s with inFlight := g } (some name) s₁ ∧
        ∀ others, Infer.scanReturned p.evaluate 1 true ([4, 0] ++ others)
            { s with inFlight := g } =
          Infer.scanReturned p.evaluate 1 true [4, 0] { s with inFlight := g }) ∧
      s.objects.scopeOf? p.module = some 0 ∧ p.returnedSites 0 = [] ∧
      (Operation.tryReturned p.module none).perform p s = .ok none s := by
  intro p s g
  have hd : Tree.yieldingItself.Descending := by decide
  have hscope : s.objects.scopeOf? 16 = some 1 := by decide +kernel
  have hsites : p.returnedSites 1 = [0, 4] := by decide +kernel
  have hgenerator : p.isGenerator 1 = true := by decide +kernel
  have henter : s.inFlight.refresh.enter 16 = (.entered, g) := by decide +kernel
  have hextends : p.objects.Extends s.objects := .refl _
  have hmodule : s.objects.scopeOf? p.module = some 0 := by decide +kernel
  have hnothing : p.returnedSites 0 = [] := by decide +kernel
  obtain ⟨hanswers, hothers, hnone, hknown⟩ :=
    return_sites_scanned hd ⟨#["", "f"]⟩ (some 8)
  obtain ⟨r, s', g', hrun, hr⟩ := hanswers s s 16 1 none none g hscope
    (by rw [hsites]; exact List.cons_ne_nil _ _) rfl henter
  have hanswered : (match (Operation.tryReturned 16 none).perform p s with
      | .ok r _ => r.isSome
      | .error _ _ => false) = true := by decide +kernel
  rw [hrun] at hanswered
  obtain ⟨o, rfl⟩ := Option.isSome_iff_exists.1 hanswered
  obtain ⟨name, s₁, hdecides, _⟩ := (hr (some o) s').2 ⟨rfl, rfl⟩
  rw [show (p.returnedSites 1).reverse = [4, 0] by rw [hsites]; rfl] at hdecides
  obtain ⟨ho, scope, hscope', helement⟩ := hknown s _ 16 none o hextends (.inl hrun)
  obtain rfl : (1 : ScopeId) = scope := Option.some.inj (hscope.symm.trans hscope')
  exact ⟨hd, hscope, hsites, henter, hextends,
    ⟨o, _, name, s₁, hrun, ho, helement hgenerator, hdecides,
      fun others => hothers _ _ 1 true _ others _ hdecides⟩,
    hmodule, hnothing, hnone s p.module 0 none hmodule hnothing⟩

end ObjectInference
