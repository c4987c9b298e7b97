import ObjectInference.Proofs.Pairing.Basic

/-!
What a pairing has to respect.

`Lawful` asks that each single thing evaluation does pairs with itself: looking
at an object, making one, seeing it go into a container, entering and leaving a
key. The two brackets are asked for whole. `Opens` says that a bracket has been
opened, which leads to a world inside, and that closing it leads back from any
states that correspond in there.

The lemmas below the laws read more of an object than the laws name.
-/

namespace ObjectInference

/-- What evaluation counts: that it has given something up. Everything else is
counted by an analysis. -/
inductive Stats.GivesUp : (Stats → Stats) → Prop where
  | reentrantSite : GivesUp fun c => { c with reentrantSites := c.reentrantSites + 1 }
  | limitBailout : GivesUp fun c => { c with limitBailouts := c.limitBailouts + 1 }

/-- What an analysis counts besides. -/
def Stats.Tallies (change : Stats → Stats) : Prop :=
  ∀ c, (change c).limitBailouts = c.limitBailouts

def State.bailOut (s : State) : State :=
  { s with stats := { s.stats with limitBailouts := s.stats.limitBailouts + 1 } }

/-- The built-in classes whose instances have a slot. -/
def Slot.isOf : Slot → BuiltinClass → Bool
  | element, c => c.isContainer
  | value, c => c == .dict
  | item _, c => c == .tuple

/-- Only containers have slots. -/
theorem Slot.isContainer_of_isOf {slot : Slot} {c : BuiltinClass} (h : slot.isOf c = true) :
    c.isContainer = true := by
  cases slot <;> cases c <;> first | rfl | cases h

namespace ObjectStore

def HasSlot (st : ObjectStore) (o : ObjectId) (slot : Slot) : Prop :=
  ∃ c : BuiltinClass, slot.isOf c = true ∧
    ((∃ site, st.get o = .inst c.object site) ∨ st.builtinClassOf? o = some c)

/-- An object that evaluation may see something go into, if it makes containers at some
places only: one that was made there, or the list or dict that a method is called on. -/
def Receives (st : ObjectStore) (places : ScopeId → NodeRef → Prop) (o : ObjectId)
    (slot : Slot) : Prop :=
  ∃ c : BuiltinClass, slot.isOf c = true ∧
    ((∃ scope site, places scope site ∧ st.get o = .inst c.object site) ∨
      c ≠ .tuple ∧ st.builtinClassOf? o = some c)

variable {st st' : ObjectStore} {o : ObjectId} {places : ScopeId → NodeRef → Prop}

theorem Receives.hasSlot {slot : Slot} (h : st.Receives places o slot) : st.HasSlot o slot := by
  obtain ⟨c, hc, ⟨_, site, _, hget⟩ | ⟨_, hclass⟩⟩ := h
  · exact ⟨c, hc, .inl ⟨site, hget⟩⟩
  · exact ⟨c, hc, .inr hclass⟩

theorem Keeps.get_eq_of_known (hk : st.Keeps st') {object : Object} (h : st.get o = object)
    (hknown : object ≠ .unknown) : st'.get o = object := by
  rw [hk.get_eq (lt_size_of_get (by rwa [h])), h]

/-- What has a scope keeps it. -/
theorem Keeps.scopeOf?_eq (hk : st.Keeps st') {scope : ScopeId}
    (h : st.scopeOf? o = some scope) : st'.scopeOf? o = some scope := by
  unfold scopeOf? at h ⊢
  rwa [hk.get_eq_of_known rfl fun hu => by rw [hu] at h; cases h]

theorem builtinClassOf?_eq_some {c : BuiltinClass} :
    st.builtinClassOf? o = some c ↔ ∃ k site, st.get o = .inst k site ∧
      st.get k = .builtinClass c := by
  unfold builtinClassOf? classOf?
  cases st.get o with
  | inst k site =>
      simp only [Option.map_some]
      cases hk : st.get k <;> simp [hk]
  | _ => simp

/-- A method that is carried out has an instance of its class as its receiver. -/
theorem builtinClassOf?_receiver {f : BuiltinFunction}
    (h : ¬ (f.owner.isSome && st.builtinClassOf? o != f.owner) = true) {c : BuiltinClass}
    (hc : f.owner = some c) : st.builtinClassOf? o = some c := by
  simpa [hc] using h

theorem Keeps.builtinClassOf?_eq (hk : st.Keeps st') {c : BuiltinClass}
    (h : st.builtinClassOf? o = some c) : st'.builtinClassOf? o = some c := by
  obtain ⟨k, site, ho, hc⟩ := builtinClassOf?_eq_some.1 h
  exact builtinClassOf?_eq_some.2 ⟨k, site, hk.get_eq_of_known ho Object.noConfusion,
    hk.get_eq_of_known hc Object.noConfusion⟩

theorem HasSlot.keeps {slot : Slot} (h : st.HasSlot o slot) (hk : st.Keeps st') :
    st'.HasSlot o slot := by
  obtain ⟨c, hc, ⟨site, hget⟩ | hclass⟩ := h
  · exact ⟨c, hc, .inl ⟨site, hk.get_eq_of_known hget Object.noConfusion⟩⟩
  · exact ⟨c, hc, .inr (hk.builtinClassOf?_eq hclass)⟩

theorem Receives.keeps {slot : Slot} (h : st.Receives places o slot) (hk : st.Keeps st') :
    st'.Receives places o slot := by
  obtain ⟨c, hc, ⟨scope, site, hmay, hget⟩ | ⟨hne, hclass⟩⟩ := h
  · exact ⟨c, hc, .inl ⟨scope, site, hmay, hk.get_eq_of_known hget Object.noConfusion⟩⟩
  · exact ⟨c, hc, .inr ⟨hne, hk.builtinClassOf?_eq hclass⟩⟩

end ObjectStore

namespace Infer

/-- What is left to do before the values of a function are tried for a call of
it, once the function is marked as in flight. -/
def openCall (p : Program) (f : ObjectId) (scope : ScopeId) :
    Option (List ObjectId) → Infer Unit
  | some parameters => do
    changeMemory fun m => m.forgetTree p scope
    pushContext ⟨f, parameters⟩
  | none => pure ()

/-- What is left to do after the values of a function have been tried. -/
def closeCall (f : ObjectId) : Option (List ObjectId) → Infer Unit
  | some _ => do
    popContext
    leaveFunction f
  | none => leaveFunction f

/-- An inference in flight lies between opening a call and closing it. -/
theorem inferInFlight_bracket (p : Program) (eval : Evaluator) (f : ObjectId)
    (scope : ScopeId) (parameters : Option (List ObjectId)) :
    (do
      let result ← inferInFlight p eval f scope parameters
      leaveFunction f
      return result) =
    (do
      openCall p f scope parameters
      let result ← scanReturned eval scope (p.isGenerator scope) (p.returnedSites scope).reverse
      closeCall f parameters
      return result) := by
  cases parameters with
  | none => simp only [inferInFlight, openCall, closeCall, pure_bind]
  | some parameters =>
      simp only [inferInFlight, inContext, openCall, closeCall, bind_assoc, pure_bind]

end Infer

/-- A name of a scope is read in one of some places, and the scope is the one that binds it
there. -/
def Program.ReadAt (p : Program) (places : ScopeId → NodeRef → Prop) (key : ScopeId × Atom) :
    Prop :=
  ∃ start expr, places start expr ∧ p.tree.node? expr = some (.name key.2) ∧
    p.binder? start key.2 = some key.1

/-- A name is read in one of some places, and no scope binds it there. -/
def Program.ReadOutside (p : Program) (places : ScopeId → NodeRef → Prop) (name : Atom) : Prop :=
  ∃ start expr, places start expr ∧ p.tree.node? expr = some (.name name) ∧
    p.binder? start name = none

namespace Pairing

/-- A bracket has been opened on the way from `s` and `t` to `s'` and `t'`, and
closing it leads back. -/
structure Opens (R : Pairing) (w w' : R.World) (s t s' t' : State)
    (close close' : Infer Unit) : Prop where
  inside : R.inside w w'
  reaches : R.Reaches w' s t s' t'
  closes : ∀ {s'' t'' : State}, R.rel w' s'' t'' → R.Ends .none w s'' t'' close close'

/-- The parameters bound by a call: one object for each ordinary parameter. -/
def SameParameters (R : Pairing) (p : Program) (f : ObjectId) (s t : State) :
    Option (List ObjectId) → Option (List ObjectId) → Prop :=
  Option.Rel fun os os' =>
    R.SameList s t os os' ∧ os.length = (placeholders (p.parameters s.objects f)).length

/-- The pairing respects everything that evaluation does. -/
structure Lawful (R : Pairing) (p : Program) : Prop where
  -- Looking.
  unknown {w : R.World} {s t : State} (h : R.rel w s t) : R.same s t .unknown .unknown
  isKnown_eq {w : R.World} {s t : State} (h : R.rel w s t) {a b : ObjectId}
    (hab : R.same s t a b) : a.isKnown = b.isKnown
  get {w : R.World} {s t : State} (h : R.rel w s t) {a b : ObjectId} (hab : R.same s t a b) :
    (s.objects.get a).Alike (R.same s t) (t.objects.get b)
  lookup {w : R.World} {s t : State} (h : R.rel w s t) {a b : ObjectId}
    (hab : R.same s t a b) (name : Atom) :
    R.SameOption s t (p.attribute? s.objects a name) (p.attribute? t.objects b name)
  evidence {w : R.World} {s t : State} (h : R.rel w s t) {a b : ObjectId}
    (hab : R.same s t a b) (slot : Slot) :
    R.SameOption s t (s.evidence.get? a slot) (t.evidence.get? b slot)
  defined {w : R.World} {s t : State} (h : R.rel w s t) {scope : ScopeId} {name : Atom}
    (hread : p.ReadAt R.may (scope, name)) {o : ObjectId}
    (ho : .object o ∈ p.definitions scope name) : R.same s t o o
  global {w : R.World} {s t : State} (h : R.rel w s t) {name : Atom}
    (hread : p.ReadOutside R.may name) {o : ObjectId} (ho : p.global? name = some o) :
    R.same s t o o
  -- Making and seeing.
  count {w : R.World} {s t : State} (h : R.rel w s t) {change : Stats → Stats}
    (hchange : Stats.GivesUp change) :
    R.Ends .none w s t (Infer.count change) (Infer.count change)
  builtinInstance {w : R.World} {s t : State} (h : R.rel w s t) {c : BuiltinClass}
    (hc : c.isContainer = false) :
    R.Pairs .none w s t R.same (Infer.builtinInstance c) (Infer.builtinInstance c)
  newInstance {w : R.World} {s t : State} (h : R.rel w s t) {c c' : ObjectId}
    (hc : R.same s t c c') (hk : s.objects.kind c = .cls)
    (hb : ∀ b, s.objects.get c = .builtinClass b → b.isContainer = false) (site : NodeRef) :
    R.Pairs .none w s t R.same (Infer.newInstance c site) (Infer.newInstance c' site)
  newContainer {w : R.World} {s t : State} (h : R.rel w s t) {scope : ScopeId} {site : NodeRef}
    (hmay : R.may scope site) (hsite : site ≠ none) {c : BuiltinClass} (hc : c.isContainer = true) :
    R.Pairs .none w s t R.same (Infer.newContainer scope c site) (Infer.newContainer scope c site)
  generatorOf {w : R.World} {s t : State} (h : R.rel w s t) {e e' : ObjectId}
    (he : R.same s t e e') (hk : e.isKnown = true) :
    R.Pairs .none w s t R.same (Infer.generatorOf e) (Infer.generatorOf e')
  observe {w : R.World} {s t : State} (h : R.rel w s t) {c c' o o' : ObjectId}
    (hc : R.same s t c c') (ho : R.same s t o o') {slot : Slot}
    (hslot : s.objects.Receives R.may c slot) :
    R.Ends .none w s t (Infer.observe c slot o) (Infer.observe c' slot o')
  currentParameters {w : R.World} {s t : State} (h : R.rel w s t) {scope : ScopeId} {name : Atom}
    (hread : p.ReadAt R.may (scope, name)) {d : Scope} (hd : p.scope? scope = some d) :
    R.Pairs .none w s t R.SameList (Infer.currentParameters p d.owner)
      (Infer.currentParameters p d.owner)
  -- Brackets.
  enterName {w : R.World} {s t : State} (h : R.rel w s t) (key : ScopeId × Atom)
    (hkey : p.ReadAt R.may key) :
    (∃ e s' t', e ≠ .entered ∧ Infer.enterName key s = .ok e s' ∧
      Infer.enterName key t = .ok e t' ∧ R.Reaches w s t s' t') ∨
    ∃ w' s' t', Infer.enterName key s = .ok .entered s' ∧
      Infer.enterName key t = .ok .entered t' ∧
      R.Opens w w' s t s' t' (Infer.leaveName key) (Infer.leaveName key) ∧
      ∀ f g, R.signal w' f g → R.signal w f g
  enterFunction {w : R.World} {s t : State} (h : R.rel w s t) {f f' : ObjectId}
    (hf : R.same s t f f') {scope : ScopeId} (hscope : s.objects.scopeOf? f = some scope)
    {parameters parameters' : Option (List ObjectId)}
    (hp : R.SameParameters p f s t parameters parameters') :
    (∃ e s' t', e ≠ .entered ∧ Infer.enterFunction f s = .ok e s' ∧
      Infer.enterFunction f' t = .ok e t' ∧ R.Reaches w s t s' t' ∧
      (e = .cycle → R.signal w f f')) ∨
    (∃ w' s₁ t₁ s' t', Infer.enterFunction f s = .ok .entered s₁ ∧
      Infer.enterFunction f' t = .ok .entered t₁ ∧
      Infer.openCall p f scope parameters s₁ = .ok () s' ∧
      Infer.openCall p f' scope parameters' t₁ = .ok () t' ∧
      R.Opens w w' s t s' t' (Infer.closeCall f parameters) (Infer.closeCall f' parameters')) ∨
    -- A limit that the second run need not meet leads the first one astray.
    ∃ e s' t', e ≠ .entered ∧ e ≠ .cycle ∧ Infer.enterFunction f s = .ok e s' ∧
      R.Reaches w s t s' t' ∧ R.astray s'.bailOut

namespace Lawful

variable {R : Pairing} {p : Program} {w : R.World} {s t : State} {a b : ObjectId}

/-! ### Reading objects -/

theorem kind_eq (L : R.Lawful p) (h : R.rel w s t) (hab : R.same s t a b) :
    s.objects.kind a = t.objects.kind b :=
  (L.get h hab).kind_eq

theorem scopeOf?_eq (L : R.Lawful p) (h : R.rel w s t) (hab : R.same s t a b) :
    s.objects.scopeOf? a = t.objects.scopeOf? b := by
  have hg := L.get h hab
  unfold ObjectStore.scopeOf?
  generalize s.objects.get a = x, t.objects.get b = y at hg ⊢
  cases hg <;> rfl

theorem parameters_eq (L : R.Lawful p) (h : R.rel w s t) (hab : R.same s t a b) :
    p.parameters s.objects a = p.parameters t.objects b := by
  have hg := L.get h hab
  unfold Program.parameters
  generalize s.objects.get a = x, t.objects.get b = y at hg ⊢
  cases hg <;> rfl

theorem isMethod_eq (L : R.Lawful p) (h : R.rel w s t) (hab : R.same s t a b) :
    p.isMethod s.objects a = p.isMethod t.objects b := by
  have hg := L.get h hab
  unfold Program.isMethod
  generalize s.objects.get a = x, t.objects.get b = y at hg ⊢
  cases hg <;> rfl

theorem builtinClassOf?_eq (L : R.Lawful p) (h : R.rel w s t) (hab : R.same s t a b) :
    s.objects.builtinClassOf? a = t.objects.builtinClassOf? b := by
  have hg := L.get h hab
  unfold ObjectStore.builtinClassOf? ObjectStore.classOf?
  generalize s.objects.get a = x, t.objects.get b = y at hg ⊢
  cases hg with
  | @inst c c' site hc =>
      have hg := L.get h hc
      simp only [Option.map_some]
      generalize s.objects.get c = x, t.objects.get c' = y at hg ⊢
      cases hg <;> rfl
  | _ => rfl

theorem specialMethod? (L : R.Lawful p) (h : R.rel w s t) (hab : R.same s t a b)
    (name : String) :
    R.SameOption s t (p.specialMethod? s.objects a name) (p.specialMethod? t.objects b name) := by
  unfold Program.specialMethod?
  cases p.atoms.find? name with
  | none => exact .none
  | some n =>
      have hn := L.lookup h hab n
      simp only [Option.bind_eq_bind, Option.bind_some]
      generalize p.attribute? s.objects a n = x, p.attribute? t.objects b n = y at hn ⊢
      cases hn with
      | none => exact .none
      | some hm =>
          simp only [Option.bind_some, L.kind_eq h hm]
          split
          · exact .some hm
          · exact .none

theorem constructor? (L : R.Lawful p) (h : R.rel w s t) (hab : R.same s t a b) :
    R.SameOption s t (p.constructor? s.objects a) (p.constructor? t.objects b) := by
  have hg := L.get h hab
  have hm := L.specialMethod? h hab "__init__"
  unfold Program.constructor?
  generalize s.objects.get a = x, t.objects.get b = y at hg ⊢
  cases hg with
  | cls => exact hm
  | _ => exact .none

/-- Only a class of the source has a constructor. -/
theorem get_of_constructor? {st : ObjectStore} {m : ObjectId}
    (h : p.constructor? st a = some m) (b : BuiltinClass) : st.get a ≠ .builtinClass b := by
  intro hget
  simp only [Program.constructor?, hget] at h
  cases h

theorem callOperator? (L : R.Lawful p) (h : R.rel w s t) (hab : R.same s t a b) :
    R.SameOption s t (p.callOperator? s.objects a) (p.callOperator? t.objects b) := by
  have hg := L.get h hab
  have hm := L.specialMethod? h hab "__call__"
  unfold Program.callOperator?
  generalize s.objects.get a = x, t.objects.get b = y at hg ⊢
  cases hg with
  | inst => exact hm
  | _ => exact .none

theorem itemSetter? (L : R.Lawful p) (h : R.rel w s t) (hab : R.same s t a b) :
    R.SameOption s t (p.itemSetter? s.objects a) (p.itemSetter? t.objects b) := by
  have hg := L.get h hab
  have hm := L.specialMethod? h hab "__setitem__"
  unfold Program.itemSetter?
  generalize s.objects.get a = x, t.objects.get b = y at hg ⊢
  cases hg with
  | inst => exact hm
  | _ => exact .none

/-! ### Reading containers -/

/-- An object that may be missing stands for unknown then. -/
theorem getD (L : R.Lawful p) (h : R.rel w s t) {x y : Option ObjectId}
    (hxy : R.SameOption s t x y) : R.same s t (x.getD .unknown) (y.getD .unknown) := by
  cases hxy with
  | none => exact L.unknown h
  | some hab => exact hab

theorem objectOf (L : R.Lawful p) (h : R.rel w s t) {x y : Option Name}
    (hxy : R.SameFound s t x y) : R.same s t (Name.objectOf x) (Name.objectOf y) := by
  cases hxy with
  | none => exact L.unknown h
  | some hab => exact hab.1

theorem valueOf (L : R.Lawful p) (h : R.rel w s t) (hab : R.same s t a b) :
    R.same s t (s.valueOf a) (t.valueOf b) :=
  L.getD h (L.evidence h hab .value)

theorem elementOf (L : R.Lawful p) (h : R.rel w s t) (hab : R.same s t a b) :
    R.same s t (s.elementOf a) (t.elementOf b) := by
  have hc := L.builtinClassOf?_eq h hab
  have hd := L.getD h (L.evidence h hab .element)
  have hu := L.unknown h
  have hg := L.get h hab
  unfold Memory.elementOf
  rw [← hc]
  generalize s.objects.get a = x, t.objects.get b = y at hg ⊢
  cases hg with
  | generator he => exact he
  | _ =>
      -- Every object but a generator is treated by its built-in class.
      simp only
      split
      · exact hab
      · exact hd
      · exact hd
      · exact hd
      · exact hu

theorem itemOf (L : R.Lawful p) (h : R.rel w s t) (hab : R.same s t a b) (position : Nat) :
    R.same s t (s.itemOf a position) (t.itemOf b position) := by
  have he := L.elementOf h hab
  have hi := L.evidence h hab (.item position)
  unfold Memory.itemOf
  rw [← L.builtinClassOf?_eq h hab]
  split
  · cases hx : s.evidence.get? a (.item position) <;>
      cases hy : t.evidence.get? b (.item position) <;> rw [hx, hy] at hi <;> cases hi
    · exact he
    · rename_i hi
      exact hi
  · exact he

theorem unpack (L : R.Lawful p) (h : R.rel w s t) (hab : R.same s t a b) (path : List Nat) :
    R.same s t (s.unpack a path) (t.unpack b path) := by
  unfold Memory.unpack
  induction path generalizing a b with
  | nil => exact hab
  | cons position path ih => exact ih (L.itemOf h hab position)

/-! ### Lists of objects -/

theorem getElem?_getD (L : R.Lawful p) (h : R.rel w s t) {os os' : List ObjectId}
    (hos : R.SameList s t os os') (i : Nat) :
    R.same s t ((os[i]?).getD .unknown) ((os'[i]?).getD .unknown) := by
  refine L.getD h ?_
  induction hos generalizing i with
  | nil => exact .none
  | cons hab _ ih =>
      cases i with
      | zero => exact .some hab
      | succ i => exact ih i

end Lawful

end Pairing

end ObjectInference
