import ObjectInference.Proofs.Pairing.Diagonal

/-!
Invariants beside a pairing.

A lawful pairing says nothing of the states themselves. `Pairing.track` adds to
it that the first state satisfies an invariant. It stays lawful if the invariant
is kept by each single thing that evaluation does, and then the invariant holds
wherever the pairing speaks of a state, in the middle of a bracket as well as
after it. `Kept` lists these things; nothing about evaluation as a whole is left
to prove.
-/

namespace ObjectInference

def Infer.Keeps {α : Type} (J : State → Prop) (x : Infer α) : Prop :=
  ∀ s, J s → ∀ a s', x s = .ok a s' → J s'

/-- A property holds after a computation that ends with a result or on a function in
flight. -/
def State.After {α : Type} (J : State → Prop) : EStateM.Result Interrupt State α → Prop
  | .ok _ s' => J s'
  | .error (.reentrant _) s' => J s'
  | .error _ _ => True

/-- A property of states survives each single thing that evaluation does. -/
structure Kept (p : Program) (J : State → Prop) : Prop where
  count {change : Stats → Stats} (hchange : Stats.GivesUp change) :
    Infer.Keeps J (Infer.count change)
  builtinInstance (c : BuiltinClass) : Infer.Keeps J (Infer.builtinInstance c)
  newInstance (c : ObjectId) (site : NodeRef) : Infer.Keeps J (Infer.newInstance c site)
  newContainer (scope : ScopeId) (c : BuiltinClass) (site : NodeRef) :
    Infer.Keeps J (Infer.newContainer scope c site)
  generatorOf (element : ObjectId) : Infer.Keeps J (Infer.generatorOf element)
  observe {s : State} {container : ObjectId} {slot : Slot}
    (hslot : s.objects.HasSlot container slot) (o : ObjectId) (hs : J s) {s' : State}
    (hrun : Infer.observe container slot o s = .ok () s') : J s'
  currentParameters (f : ObjectId) : Infer.Keeps J (Infer.currentParameters p f)
  enterName (key : ScopeId × Atom) : Infer.Keeps J (Infer.enterName key)
  leaveName (key : ScopeId × Atom) : Infer.Keeps J (Infer.leaveName key)
  enterFunction (f : ObjectId) : Infer.Keeps J (Infer.enterFunction f)
  openCall (f : ObjectId) (scope : ScopeId) (parameters : Option (List ObjectId)) :
    Infer.Keeps J (Infer.openCall p f scope parameters)
  closeCall (f : ObjectId) (parameters : Option (List ObjectId)) :
    Infer.Keeps J (Infer.closeCall f parameters)

/-- A property of states survives each single thing that evaluation does, if it makes
containers at some places only. -/
structure KeptAmong (p : Program) (places : ScopeId → NodeRef → Prop) (J : State → Prop) :
    Prop where
  count {change : Stats → Stats} (hchange : Stats.GivesUp change) :
    Infer.Keeps J (Infer.count change)
  builtinInstance {c : BuiltinClass} (hc : c.isContainer = false) :
    Infer.Keeps J (Infer.builtinInstance c)
  newInstance {s : State} {c : ObjectId} (hk : s.objects.kind c = .cls)
    (hb : ∀ b, s.objects.get c = .builtinClass b → b.isContainer = false) (site : NodeRef)
    (hs : J s) {o : ObjectId} {s' : State} (hrun : Infer.newInstance c site s = .ok o s') : J s'
  newContainer {scope : ScopeId} {site : NodeRef} (hmay : places scope site)
    (hsite : site ≠ none) (c : BuiltinClass) : Infer.Keeps J (Infer.newContainer scope c site)
  generatorOf (element : ObjectId) : Infer.Keeps J (Infer.generatorOf element)
  observe {s : State} {container : ObjectId} {slot : Slot}
    (hslot : s.objects.Receives places container slot) (o : ObjectId) (hs : J s) {s' : State}
    (hrun : Infer.observe container slot o s = .ok () s') : J s'
  currentParameters (f : ObjectId) : Infer.Keeps J (Infer.currentParameters p f)
  enterName (key : ScopeId × Atom) : Infer.Keeps J (Infer.enterName key)
  leaveName (key : ScopeId × Atom) : Infer.Keeps J (Infer.leaveName key)
  enterFunction (f : ObjectId) : Infer.Keeps J (Infer.enterFunction f)
  openCall (f : ObjectId) (scope : ScopeId) (parameters : Option (List ObjectId)) :
    Infer.Keeps J (Infer.openCall p f scope parameters)
  closeCall (f : ObjectId) (parameters : Option (List ObjectId)) :
    Infer.Keeps J (Infer.closeCall f parameters)

theorem Kept.among {p : Program} {J : State → Prop} (hJ : Kept p J)
    (places : ScopeId → NodeRef → Prop) : KeptAmong p places J where
  count := hJ.count
  builtinInstance {c} _ := hJ.builtinInstance c
  newInstance {_ c} _ _ site hs {_ _} hrun := hJ.newInstance c site _ hs _ _ hrun
  newContainer {scope site} _ _ c := hJ.newContainer scope c site
  generatorOf := hJ.generatorOf
  observe {_ _ _} hslot o hs {_} hrun := hJ.observe hslot.hasSlot o hs hrun
  currentParameters := hJ.currentParameters
  enterName := hJ.enterName
  leaveName := hJ.leaveName
  enterFunction := hJ.enterFunction
  openCall := hJ.openCall
  closeCall := hJ.closeCall

/-- A property of states survives what an analysis does besides evaluating. -/
structure KeptByRecords (p : Program) (J : State → Prop) : Prop where
  record {s : State} {f : ObjectId} {os : List ObjectId}
    (hlength : os.length = (p.parameters s.objects f).length) (hs : J s) {s' : State}
    (hrun : Infer.recordCall f os s = .ok () s') : J s'
  count (change : Stats → Stats) : Infer.Keeps J (Infer.count change)

namespace Pairing

/-- A pairing together with an invariant of the first state. -/
def track (R : Pairing) (J : State → Prop) : Pairing :=
  { R with rel := fun w s t => R.rel w s t ∧ J s }

variable {R : Pairing} {p : Program} {J : State → Prop} {w w' : R.World} {s t s' t' : State}
  {α β : Type}

theorem Reaches.track (h : R.Reaches w s t s' t') (hs : J s') :
    (R.track J).Reaches w s t s' t' :=
  ⟨⟨h.rel, hs⟩, h.same, h.keeps, h.astray⟩

theorem Reaches.untrack (h : (R.track J).Reaches w s t s' t') : R.Reaches w s t s' t' :=
  ⟨h.rel.1, h.same, h.keeps, h.astray⟩

/-- Computations that have a result in any case, and keep the invariant. -/
theorem Pairs.track {Q : State → State → α → β → Prop} {x : Infer α} {y : Infer β}
    (h : R.Pairs .none w s t Q x y) (hx : ∀ a s', x s = .ok a s' → J s') :
    (R.track J).Pairs .none w s t Q x y := by
  unfold Pairs at h ⊢
  generalize hr : x s = r, y t = r' at h ⊢
  cases h with
  | ok h hab => exact .ok (h.track (hx _ _ hr)) hab
  | reentrant _ hfg => exact hfg.elim
  | exhausted he => exact he.elim
  | strayed h hab hs => exact .strayed (h.track (hx _ _ hr)) hab hs
  | strayedReentrant _ hfg _ => exact hfg.elim

/-- What pairs with the invariant pairs without it. -/
theorem Pairs.untrack {E : Exits} {Q : State → State → α → β → Prop} {x : Infer α} {y : Infer β}
    (h : (R.track J).Pairs E w s t Q x y) : R.Pairs E w s t Q x y := by
  unfold Pairs at h ⊢
  generalize x s = r, y t = r' at h ⊢
  cases h with
  | ok h hab => exact .ok h.untrack hab
  | reentrant h hfg => exact .reentrant h.untrack hfg
  | exhausted he => exact .exhausted he
  | strayed h hab hs => exact .strayed h.untrack hab hs
  | strayedReentrant h hfg hs => exact .strayedReentrant h.untrack hfg hs

/-- What can be told from where two runs have come to holds after the first of them. -/
theorem Pairs.after_of_reaches {E : Exits} {Q : State → State → α → β → Prop} {x : Infer α}
    {y : Infer β} (h : R.Pairs E w s t Q x y) (hJ : ∀ s' t', R.Reaches w s t s' t' → J s') :
    State.After J (x s) := by
  unfold Pairs at h
  generalize x s = r, y t = r' at h ⊢
  cases h with
  | ok h _ => exact hJ _ _ h
  | reentrant h _ => exact hJ _ _ h
  | exhausted _ => trivial
  | strayed h _ _ => exact hJ _ _ h
  | strayedReentrant h _ _ => exact hJ _ _ h

theorem Pairs.after {E : Exits} {Q : State → State → α → β → Prop} {x : Infer α} {y : Infer β}
    (h : (R.track J).Pairs E w s t Q x y) : State.After J (x s) :=
  h.after_of_reaches fun _ _ h => h.rel.2

theorem Opens.track {close close' : Infer Unit} (h : R.Opens w w' s t s' t' close close')
    (hs : J s') (hclose : Infer.Keeps J close) :
    (R.track J).Opens w w' s t s' t' close close' :=
  ⟨h.inside, h.reaches.track hs, fun h' => (h.closes h'.1).track (hclose _ h'.2)⟩

theorem Diagonal.track (hR : R.Diagonal) : (R.track J).Diagonal :=
  ⟨hR.same_iff⟩

theorem Lawful.trackAmong (L : R.Lawful p) (hJ : KeptAmong p R.may J) :
    (R.track J).Lawful p where
  unknown {_ _ _} h := L.unknown h.1
  isKnown_eq {_ _ _} h {_ _} hab := L.isKnown_eq h.1 hab
  get {_ _ _} h {_ _} hab := L.get h.1 hab
  lookup {_ _ _} h {_ _} hab name := L.lookup h.1 hab name
  evidence {_ _ _} h {_ _} hab slot := L.evidence h.1 hab slot
  defined {_ _ _} h {_ _} hread {_} ho := L.defined h.1 hread ho
  global {_ _ _} h {_} hread {_} ho := L.global h.1 hread ho
  count {_ _ _} h {_} hchange := (L.count h.1 hchange).track (hJ.count hchange _ h.2)
  builtinInstance {_ _ _} h {c} hc :=
    (L.builtinInstance h.1 hc).track (hJ.builtinInstance hc _ h.2)
  newInstance {_ _ _} h {_ _} hc hk hb site :=
    (L.newInstance h.1 hc hk hb site).track fun _ _ => hJ.newInstance hk hb site h.2
  newContainer {_ _ _} h {_ _} hmay hsite {_} hc :=
    (L.newContainer h.1 hmay hsite hc).track (hJ.newContainer hmay hsite _ _ h.2)
  generatorOf {_ _ _} h {_ _} he hk := (L.generatorOf h.1 he hk).track (hJ.generatorOf _ _ h.2)
  observe {_ _ _} h {_ _ o _} hc ho {_} hslot :=
    (L.observe h.1 hc ho hslot).track fun _ _ => hJ.observe hslot o h.2
  currentParameters {_ _ _} h {_ _} hread {d} hd :=
    (L.currentParameters h.1 hread hd).track (hJ.currentParameters d.owner _ h.2)
  enterName {w s t} h key hmay := by
    rcases L.enterName h.1 key hmay with
      ⟨e, s', t', he, hs', ht', hr⟩ | ⟨w', s', t', hs', ht', o, hsig⟩
    · exact .inl ⟨e, s', t', he, hs', ht', hr.track (hJ.enterName key s h.2 _ _ hs')⟩
    · exact .inr ⟨w', s', t', hs', ht',
        o.track (hJ.enterName key s h.2 _ _ hs') (hJ.leaveName key), hsig⟩
  enterFunction {w s t} h {f f'} hf {scope} hscope {parameters parameters'} hp := by
    rcases L.enterFunction h.1 hf hscope hp with
      ⟨e, s', t', he, hs', ht', hr, hcycle⟩ | ⟨w', s₁, t₁, s', t', hs₁, ht₁, hs', ht', o⟩ |
        ⟨e, s', t', he, hcycle, hs', hr, hastray⟩
    · exact .inl ⟨e, s', t', he, hs', ht', hr.track (hJ.enterFunction f s h.2 _ _ hs'), hcycle⟩
    · have h₁ := hJ.enterFunction f s h.2 _ _ hs₁
      have h' := hJ.openCall f scope parameters s₁ h₁ _ _ hs'
      exact .inr (.inl ⟨w', s₁, t₁, s', t', hs₁, ht₁, hs', ht',
        o.track h' (hJ.closeCall f parameters)⟩)
    · exact .inr (.inr ⟨e, s', t', he, hcycle, hs', hr.track (hJ.enterFunction f s h.2 _ _ hs'),
        hastray⟩)

theorem Lawful.track (L : R.Lawful p) (hJ : Kept p J) : (R.track J).Lawful p :=
  L.trackAmong (hJ.among _)

theorem Records.track (hlog : R.Records p) (hJ : KeptByRecords p J) :
    (R.track J).Records p where
  record {_ _ _} h {_ _} hf {_ _} hos hlength :=
    (hlog.record h.1 hf hos hlength).track fun _ _ => hJ.record hlength h.2
  count {_ _ _} h {change} hchange := (hlog.count h.1 hchange).track (hJ.count change _ h.2)

end Pairing

end ObjectInference
