import ObjectInference.Proofs.Pairing.Depth
import ObjectInference.Proofs.Pairing.Diagonal
import ObjectInference.Proofs.Settling

/-!
A run beside itself.

`Pairing.bracketing` compares a run with the same run, and the state at every
point of it with the state in which the innermost bracket was opened: the one
has settled from the other. It respects everything that evaluation does in all
states whatever, and three properties of whole runs are read off it. A run
leaves both guards and the contexts as it found them. It reports a function as
in flight only if it found it so. And a bound on its depth does not matter once
it is large enough.

An invariant may ride along, if it is inherited by whatever settles and by what
a bracket opens. One that some names break has to be left aside where they are
read, so the pairing may be restricted to other places.
-/

namespace ObjectInference

theorem State.Settles.room_eq {s s' : State} (h : s.Settles s') : s'.room = s.room := by
  rw [State.room, State.room, h.inFlight.room_eq, h.resolving.room_eq]

/-- An invariant of the states in which the expressions at some places are evaluated. -/
structure InheritedAmong (p : Program) (places : ScopeId → NodeRef → Prop)
    (I : State → Prop) : Prop where
  settles {s s' : State} (hs : I s) (h : s.Settles s') : I s'
  name {s : State} (hs : I s) {key : ScopeId × Atom} (hkey : p.ReadAt places key)
    {g : Guard (ScopeId × Atom)} (h : s.resolving.refresh.enter key = (.entered, g)) :
    I { s with resolving := g }
  call {s : State} (hs : I s) {f : ObjectId} {g : Guard ObjectId}
    (h : s.inFlight.refresh.enter f = (.entered, g)) (scope : ScopeId)
    {parameters : Option (List ObjectId)}
    (hp : ∀ ps ∈ parameters, ps.length = (placeholders (p.parameters s.objects f)).length) :
    I (Infer.opened p f scope parameters { s with inFlight := g })

structure Inherited (p : Program) (I : State → Prop) : Prop where
  settles {s s' : State} (hs : I s) (h : s.Settles s') : I s'
  name {s : State} (hs : I s) {key : ScopeId × Atom} {g : Guard (ScopeId × Atom)}
    (h : s.resolving.refresh.enter key = (.entered, g)) : I { s with resolving := g }
  call {s : State} (hs : I s) {f : ObjectId} {g : Guard ObjectId}
    (h : s.inFlight.refresh.enter f = (.entered, g)) (scope : ScopeId)
    {parameters : Option (List ObjectId)}
    (hp : ∀ ps ∈ parameters, ps.length = (placeholders (p.parameters s.objects f)).length) :
    I (Infer.opened p f scope parameters { s with inFlight := g })

theorem Inherited.among {p : Program} {I : State → Prop} (h : Inherited p I)
    (places : ScopeId → NodeRef → Prop) : InheritedAmong p places I :=
  ⟨h.settles, fun hs _ _ _ => h.name hs, fun hs _ _ => h.call hs⟩

theorem Inherited.trivial (p : Program) : Inherited p fun _ => True :=
  ⟨fun _ _ => True.intro, fun _ _ _ _ => True.intro, fun _ _ _ _ _ _ _ => True.intro⟩

namespace Infer

variable {p : Program} {f : ObjectId} {scope : ScopeId} {parameters : Option (List ObjectId)}

theorem openCall_eq (s : State) :
    openCall p f scope parameters s = .ok () (opened p f scope parameters s) := by
  cases parameters <;> rfl

@[simp] theorem inFlight_opened (s : State) :
    (opened p f scope parameters s).inFlight = s.inFlight := by
  cases parameters <;> rfl

@[simp] theorem resolving_opened (s : State) :
    (opened p f scope parameters s).resolving = s.resolving := by
  cases parameters with
  | none => rfl
  | some parameters => exact Memory.resolving_forgetTree p s.toMemory scope

@[simp] theorem objects_opened (s : State) :
    (opened p f scope parameters s).objects = s.objects := by
  cases parameters with
  | none => rfl
  | some parameters => exact Memory.objects_forgetTree p s.toMemory scope

@[simp] theorem allocated_opened (s : State) (scope' : ScopeId) :
    (opened p f scope parameters s).allocated scope' = s.allocated scope' := by
  unfold Memory.allocated
  cases parameters with
  | none => rfl
  | some parameters => rw [← Memory.allocations_forgetTree p s.toMemory scope]; rfl

@[simp] theorem objects_closed (s : State) : (closed parameters g s).objects = s.objects := by
  cases parameters <;> rfl

theorem closeCall_eq {s : State} {g : Guard ObjectId} (h : s.inFlight.leave f = .ok g) :
    closeCall f parameters s = .ok () (closed parameters g s) := by
  cases parameters with
  | none => exact leaveFunction_eq h
  | some parameters => exact leaveFunction_eq (s := { s with contexts := s.contexts.tail }) h

/-- A call that was opened can be closed after any computation that settles. -/
theorem closeCall_of_settles {s s'' : State} {g : Guard ObjectId}
    (h : s.inFlight.refresh.enter f = (.entered, g))
    (h' : (opened p f scope parameters { s with inFlight := g }).Settles s'') :
    ∃ g₃, s''.inFlight.leave f = .ok g₃ ∧
      closeCall f parameters s'' = .ok () (closed parameters g₃ s'') ∧
      s.Settles (closed parameters g₃ s'') := by
  have hg : g.Settles s''.inFlight := by simpa using h'.inFlight
  have hr : s.resolving.Settles s''.resolving := by simpa using h'.resolving
  have ho : s.objects.Extends s''.objects := by simpa using h'.objects
  have ha : ∀ scope', s.allocated scope' ⊆ s''.allocated scope' := fun scope' o hmem =>
    h'.allocated scope' (by rw [allocated_opened]; exact hmem)
  obtain ⟨g₃, hleave, hg₃⟩ := Guard.leave_of_settles h hg
  refine ⟨g₃, hleave, closeCall_eq hleave, ?_⟩
  cases parameters with
  | none => exact ⟨hg₃, hr, h'.contexts, ho, ha⟩
  | some parameters =>
      have hc : s''.contexts.tail = s.contexts := by rw [h'.contexts]; rfl
      exact ⟨hg₃, hr, hc, ho, ha⟩

end Infer

namespace Pairing

/-- A run at some places beside itself, in the world of the state that its innermost
bracket was opened in. -/
def bracketingAmong (places : ScopeId → NodeRef → Prop) (I : State → Prop) : Pairing where
  World := State
  rel w s t := s = t ∧ w.Settles s ∧ I w
  same _ _ a b := a = b
  signal w f g := f = g ∧ f ∈ w.inFlight.visiting
  inside w w' := w'.room < w.room
  may := places

def bracketing (I : State → Prop) : Pairing :=
  bracketingAmong (fun _ _ => True) I

namespace bracketing

variable {p : Program} {places : ScopeId → NodeRef → Prop} {I : State → Prop} {E : Exits}
  {w s t : State} {α : Type}

theorem reaches {s' : State} (h : (bracketingAmong places I).rel w s t) (h' : s.Settles s') :
    (bracketingAmong places I).Reaches w s t s' s' := by
  obtain ⟨rfl, hw, hI⟩ := h
  exact ⟨⟨rfl, hw.trans h', hI⟩, id, h'.objects.keeps, id⟩

/-- What always has a result, and settles, pairs with itself. -/
theorem pairs_of_settling (h : (bracketingAmong places I).rel w s t) {x : Infer α}
    (hx : Infer.Settling x) {Q : State → State → α → α → Prop} (hQ : ∀ s a, Q s s a a) :
    (bracketingAmong places I).Pairs E w s t Q x x := by
  obtain ⟨rfl, hw, hI⟩ := h
  obtain ⟨a, s', hs', h'⟩ := hx s
  unfold Pairs
  rw [hs']
  exact .ok (reaches ⟨rfl, hw, hI⟩ h') (hQ s' a)

theorem diagonal : (bracketingAmong places I).Diagonal := ⟨Iff.rfl⟩

/-! #### Brackets -/

section Brackets

variable (hI : InheritedAmong p places I) (hws : w.Settles s) (hIw : I w)

include hI hws hIw

theorem opensName {key : ScopeId × Atom} (hkey : p.ReadAt places key)
    {g : Guard (ScopeId × Atom)} (hg : s.resolving.refresh.enter key = (.entered, g)) :
    (bracketingAmong places I).Opens w { s with resolving := g } s s { s with resolving := g }
      { s with resolving := g } (Infer.leaveName key) (Infer.leaveName key) := by
  have hI' := hI.name (hI.settles hIw hws) hkey hg
  refine ⟨?_, ⟨⟨rfl, .refl _, hI'⟩, id, .refl _, id⟩, fun {s'' t''} h'' => ?_⟩
  · change State.room _ < w.room
    rw [← hws.room_eq, State.room, State.room]
    exact Nat.add_lt_add_left (Guard.room_lt_of_enter hg) _
  · obtain ⟨rfl, hsettles, _⟩ := h''
    obtain ⟨g₃, _, hs₃, hsettles⟩ := Infer.leaveName_of_settles hg hsettles
    unfold Ends Pairs
    rw [hs₃]
    exact .ok ⟨⟨rfl, hws.trans hsettles, hIw⟩, id, .refl _, id⟩ trivial

theorem opensCall {f : ObjectId} {g : Guard ObjectId}
    (hg : s.inFlight.refresh.enter f = (.entered, g)) (scope : ScopeId)
    {parameters : Option (List ObjectId)}
    (hlength : ∀ ps ∈ parameters,
      ps.length = (placeholders (p.parameters s.objects f)).length) :
    (bracketingAmong places I).Opens w
      (Infer.opened p f scope parameters { s with inFlight := g }) s s
      (Infer.opened p f scope parameters { s with inFlight := g })
      (Infer.opened p f scope parameters { s with inFlight := g })
      (Infer.closeCall f parameters) (Infer.closeCall f parameters) := by
  have hI' := hI.call (hI.settles hIw hws) hg scope hlength
  have hkeeps : s.objects.Keeps
      (Infer.opened p f scope parameters { s with inFlight := g }).objects := by
    rw [Infer.objects_opened]
    exact .refl _
  refine ⟨?_, ⟨⟨rfl, .refl _, hI'⟩, id, hkeeps, id⟩, fun {s'' t''} h'' => ?_⟩
  · change State.room _ < w.room
    rw [← hws.room_eq, State.room, State.room, Infer.inFlight_opened, Infer.resolving_opened]
    exact Nat.add_lt_add_right (Guard.room_lt_of_enter hg) _
  · obtain ⟨rfl, hsettles, _⟩ := h''
    obtain ⟨g₃, _, hs₃, hsettles⟩ := Infer.closeCall_of_settles hg hsettles
    unfold Ends Pairs
    rw [hs₃]
    refine .ok ⟨⟨rfl, hws.trans hsettles, hIw⟩, id, ?_, id⟩ trivial
    rw [Infer.objects_closed]
    exact .refl _

end Brackets

theorem lawfulAmong (hI : InheritedAmong p places I) :
    (bracketingAmong places I).Lawful p where
  unknown _ := rfl
  isKnown_eq {_ _ _} _ {a b} hab := by rw [show a = b from hab]
  get {_ _ _} h {a b} hab := by
    obtain ⟨rfl, _⟩ := h
    obtain rfl : a = b := hab
    exact Object.Alike.of_eq _
  lookup {_ _ _} h {a b} hab name := by
    obtain ⟨rfl, _⟩ := h
    obtain rfl : a = b := hab
    exact diagonal.sameOption_iff.2 rfl
  evidence {_ _ _} h {a b} hab slot := by
    obtain ⟨rfl, _⟩ := h
    obtain rfl : a = b := hab
    exact diagonal.sameOption_iff.2 rfl
  defined {_ _ _} _ {_ _} _ {_} _ := rfl
  global {_ _ _} _ {_} _ {_} _ := rfl
  count {_ _ _} h {change} _ := pairs_of_settling h (Infer.settling_count change) fun _ _ => trivial
  builtinInstance {_ _ _} h {c} _ :=
    pairs_of_settling h (Infer.settling_builtinInstance c) fun _ _ => rfl
  newInstance {_ _ _} h {c c'} hc _ _ site := by
    obtain rfl : c = c' := hc
    exact pairs_of_settling h (Infer.settling_newInstance c site) fun _ _ => rfl
  newContainer {_ _ _} h {scope site} _ _ {_} _ :=
    pairs_of_settling h (Infer.settling_newContainer scope _ site) fun _ _ => rfl
  generatorOf {_ _ _} h {e e'} he _ := by
    obtain rfl : e = e' := he
    exact pairs_of_settling h (Infer.settling_generatorOf e) fun _ _ => rfl
  observe {_ _ _} h {c c' o o'} hc ho {slot} _ := by
    obtain rfl : c = c' := hc
    obtain rfl : o = o' := ho
    exact pairs_of_settling h (Infer.settling_observe c slot o) fun _ _ => trivial
  currentParameters {_ _ _} h {_ _} _ {d} _ :=
    pairs_of_settling h (Infer.settling_currentParameters p d.owner) fun _ _ =>
      diagonal.sameList_iff.2 rfl
  enterName {w s t} h key hkey := by
    obtain ⟨rfl, hws, hIw⟩ := h
    rcases Infer.enterName_cases key s with ⟨e, s', he, hs', hsettles⟩ | ⟨g, hg, hs'⟩
    · exact .inl ⟨e, s', s', he, hs', hs', reaches ⟨rfl, hws, hIw⟩ hsettles⟩
    · exact .inr ⟨_, _, _, hs', hs', opensName hI hws hIw hkey hg,
        fun f f' hff => ⟨hff.1, hws.inFlight.subset hff.2⟩⟩
  enterFunction {w s t} h {f f'} hf {scope} _ {parameters parameters'} hp := by
    obtain ⟨rfl, hws, hIw⟩ := h
    obtain rfl : f = f' := hf
    obtain rfl : parameters = parameters' := by
      cases hp with
      | none => rfl
      | some hos => rw [diagonal.sameList_iff.1 hos.1]
    rcases Infer.enterFunction_cases f s with
      ⟨e, s', he, hs', hsettles, hcycle⟩ | ⟨g, hg, hs'⟩
    · refine .inl ⟨e, s', s', he, hs', hs', reaches ⟨rfl, hws, hIw⟩ hsettles, fun h => ⟨rfl, ?_⟩⟩
      exact hws.inFlight.subset (hcycle h)
    · have hlength : ∀ ps ∈ parameters,
          ps.length = (placeholders (p.parameters s.objects f)).length := by
        intro ps hps
        cases hp with
        | none => cases hps
        | some hos =>
            cases hps
            exact hos.2
      exact .inr (.inl ⟨_, _, _, _, _, hs', hs', Infer.openCall_eq _, Infer.openCall_eq _,
        opensCall hI hws hIw hg scope hlength⟩)

theorem lawful (hI : Inherited p I) : (bracketing I).Lawful p :=
  lawfulAmong (hI.among _)

end bracketing

end Pairing

end ObjectInference
