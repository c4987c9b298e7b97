import Mathlib.Data.List.Forall2
import Mathlib.Data.Option.Basic
import ObjectInference.Analysis.Run
import ObjectInference.Proofs.Store

/-!
Two runs side by side.

Most of what can be said of inference compares two runs of it: one evaluator
with another, one state with another, or a run with what it found. A `Pairing`
says when two states correspond and which objects of the one stand for which
objects of the other. `Pairs` lifts that to two computations: started in
corresponding states they end the same way, in corresponding states, with
results that stand for each other.

Three things are not left to the states. A *world* is what a bracket remembers:
a computation that enters a key and leaves it again is in a world of its own in
between, and is back in the first one afterwards. A computation that goes
deeper than its bound is *excused* from corresponding to anything; what excuses
it depends on the world alone. And the first run may go *astray*, as its state
shows from then on; nothing is said of the second run then.

This module has the judgement and its rules. `Pairing.Evaluation` proves once,
function by function, that evaluation pairs with evaluation. Every statement
about whole runs is an instance.
-/

namespace ObjectInference

/-- Two objects with the same head, and with corresponding objects inside. -/
inductive Object.Alike (same : ObjectId → ObjectId → Prop) : Object → Object → Prop where
  | unknown : Alike same .unknown .unknown
  | module (scope : ScopeId) : Alike same (.module scope) (.module scope)
  | function (scope : ScopeId) : Alike same (.function scope) (.function scope)
  | cls (scope : ScopeId) : Alike same (.cls scope) (.cls scope)
  | builtinClass (c : BuiltinClass) : Alike same (.builtinClass c) (.builtinClass c)
  | builtinFunction (f : BuiltinFunction) : Alike same (.builtinFunction f) (.builtinFunction f)
  | inst {c c' : ObjectId} (site : NodeRef) (h : same c c') :
      Alike same (.inst c site) (.inst c' site)
  | generator {e e' : ObjectId} (h : same e e') : Alike same (.generator e) (.generator e')

theorem Object.Alike.kind_eq {same : ObjectId → ObjectId → Prop} {o o' : Object}
    (h : o.Alike same o') : o.kind = o'.kind := by
  cases h <;> rfl

/-- An object has the head it has. -/
theorem Object.Alike.of_eq (o : Object) : o.Alike (· = ·) o := by
  cases o <;> constructor <;> rfl

/-- A way to compare two states. -/
structure Pairing where
  World : Type
  /-- The two states correspond in a world. -/
  rel : World → State → State → Prop
  /-- An object of the first state stands for one of the second. -/
  same : State → State → ObjectId → ObjectId → Prop
  /-- A function of the first run and one of the second that may be reported as
  in flight. -/
  signal : World → ObjectId → ObjectId → Prop
  /-- The second world is entered from the first by a bracket. -/
  inside : World → World → Prop
  /-- The runs may follow the expression at a place in a scope, so that a container may be
  made there, or a name entered that is read there. -/
  may : ScopeId → NodeRef → Prop
  /-- The first run has taken a way of its own. -/
  astray : State → Prop := fun _ => False

/-- How two computations may end without a result: on functions in flight that
the signals of both name, or, with an excuse, anyhow. -/
structure Exits where
  signal : ObjectId → ObjectId → Prop
  excused : Prop

def Exits.none : Exits := ⟨fun _ _ => False, False⟩

/-- The exits that are left when signals are caught. -/
def Exits.silent (E : Exits) : Exits := ⟨fun _ _ => False, E.excused⟩

namespace Pairing

variable (R : Pairing) {α β γ δ : Type}

/-! ### Results that stand for each other -/

def SameName (s t : State) (n n' : Name) : Prop :=
  R.same s t n.object n'.object ∧ n.origin = n'.origin

abbrev SameFound (s t : State) : Option Name → Option Name → Prop :=
  Option.Rel (R.SameName s t)

abbrev SameOption (s t : State) : Option ObjectId → Option ObjectId → Prop :=
  Option.Rel (R.same s t)

abbrev SameList (s t : State) : List ObjectId → List ObjectId → Prop :=
  List.Forall₂ (R.same s t)

inductive SameArguments (s t : State) : Arguments → Arguments → Prop where
  | callSite (call : NodeRef) (scope : ScopeId) {r r' : Option ObjectId}
      (h : R.SameOption s t r r') :
      SameArguments s t (.callSite call scope r) (.callSite call scope r')
  | objects {os os' : List ObjectId} (h : R.SameList s t os os') :
      SameArguments s t (.objects os) (.objects os')

structure SameResolved (s t : State) (a a' : ResolvedArguments) : Prop where
  positional : R.SameList s t a.positional a'.positional
  keywords : List.Forall₂ (fun k k' => k.1 = k'.1 ∧ R.same s t k.2 k'.2) a.keywords a'.keywords

structure SameTarget (s t : State) (c c' : CallTarget) : Prop where
  function : R.same s t c.function c'.function
  arguments : R.SameArguments s t c.arguments c'.arguments

/-- What an attempt gives: results that stand for each other, or functions
reported as in flight. -/
inductive SameAttempt (signal : ObjectId → ObjectId → Prop) (Q : α → β → Prop) :
    Except ObjectId α → Except ObjectId β → Prop where
  | ok {a : α} {b : β} (h : Q a b) : SameAttempt signal Q (.ok a) (.ok b)
  | error {f g : ObjectId} (h : signal f g) : SameAttempt signal Q (.error f) (.error g)

/-! ### The judgement -/

/-- The runs have come from one pair of states to another: the states
correspond again, and objects that stood for each other still do. Of the first run
alone, no object has changed, and it is still astray if it was. -/
structure Reaches (w : R.World) (s t s' t' : State) : Prop where
  rel : R.rel w s' t'
  same : ∀ {a b : ObjectId}, R.same s t a b → R.same s' t' a b
  keeps : s.objects.Keeps s'.objects
  astray : R.astray s → R.astray s'

variable {R} in
theorem Reaches.trans {w w' : R.World} {s₁ t₁ s₂ t₂ s₃ t₃ : State}
    (h : R.Reaches w s₁ t₁ s₂ t₂) (h' : R.Reaches w' s₂ t₂ s₃ t₃) :
    R.Reaches w' s₁ t₁ s₃ t₃ :=
  ⟨h'.rel, fun hab => h'.same (h.same hab), h.keeps.trans h'.keeps,
    fun hs => h'.astray (h.astray hs)⟩

variable {R} in
theorem Reaches.refl {w : R.World} {s t : State} (h : R.rel w s t) : R.Reaches w s t s t :=
  ⟨h, id, .refl _, id⟩

namespace Reaches

variable {R} {w : R.World} {s t s' t' : State}

theorem name (h : R.Reaches w s t s' t') {n n' : Name} (hn : R.SameName s t n n') :
    R.SameName s' t' n n' :=
  ⟨h.same hn.1, hn.2⟩

theorem option (h : R.Reaches w s t s' t') {x y : Option ObjectId}
    (hxy : R.SameOption s t x y) : R.SameOption s' t' x y := by
  cases hxy with
  | none => exact .none
  | some hab => exact .some (h.same hab)

theorem found (h : R.Reaches w s t s' t') {x y : Option Name} (hxy : R.SameFound s t x y) :
    R.SameFound s' t' x y := by
  cases hxy with
  | none => exact .none
  | some hab => exact .some (h.name hab)

theorem list (h : R.Reaches w s t s' t') {os os' : List ObjectId}
    (hos : R.SameList s t os os') : R.SameList s' t' os os' :=
  hos.imp fun _ _ => h.same

end Reaches

/-- How two runs from `s` and `t` may end. A run that has gone astray still ends in a
state that corresponds to some state, though not to the end of the second run. -/
inductive Outcome (E : Exits) (w : R.World) (s t : State)
    (Q : State → State → α → β → Prop) :
    EStateM.Result Interrupt State α → EStateM.Result Interrupt State β → Prop where
  | ok {a : α} {b : β} {s' t' : State} (h : R.Reaches w s t s' t') (hab : Q s' t' a b) :
      Outcome E w s t Q (.ok a s') (.ok b t')
  | reentrant {f g : ObjectId} {s' t' : State} (h : R.Reaches w s t s' t')
      (hfg : E.signal f g) :
      Outcome E w s t Q (.error (.reentrant f) s') (.error (.reentrant g) t')
  | exhausted {s' : State} {r : EStateM.Result Interrupt State β} (h : E.excused) :
      Outcome E w s t Q (.error .exhausted s') r
  | strayed {a : α} {b : β} {s' t' : State} {r : EStateM.Result Interrupt State β}
      (h : R.Reaches w s t s' t') (hab : Q s' t' a b) (hs : R.astray s') :
      Outcome E w s t Q (.ok a s') r
  | strayedReentrant {f g : ObjectId} {s' t' : State} {r : EStateM.Result Interrupt State β}
      (h : R.Reaches w s t s' t') (hfg : E.signal f g) (hs : R.astray s') :
      Outcome E w s t Q (.error (.reentrant f) s') r

/-- Run from `s` and from `t`, two computations end alike. -/
def Pairs (E : Exits) (w : R.World) (s t : State) (Q : State → State → α → β → Prop)
    (x : Infer α) (y : Infer β) : Prop :=
  R.Outcome E w s t Q (x s) (y t)

abbrev Ends (E : Exits) (w : R.World) (s t : State) (x : Infer α) (y : Infer β) : Prop :=
  R.Pairs E w s t (fun _ _ _ _ => True) x y

/-- The exits of an evaluation in a world. -/
def exits (excused : R.World → Prop) (w : R.World) : Exits :=
  ⟨R.signal w, excused w⟩

/-- Two evaluators agree on an expression in a scope, in whatever states. -/
def PairsIn (excused : R.World → Prop) (eval eval' : Evaluator) (scope : ScopeId)
    (e : NodeRef) : Prop :=
  ∀ (w : R.World) (s t : State), R.rel w s t →
    R.Pairs (R.exits excused w) w s t R.SameFound (eval scope e) (eval' scope e)

/-- Two evaluators agree on an expression, in whatever scope. -/
def PairsOn (excused : R.World → Prop) (eval eval' : Evaluator) (e : NodeRef) : Prop :=
  ∀ scope : ScopeId, R.PairsIn excused eval eval' scope e

variable {R} {E : Exits} {w : R.World} {s t : State} {Q : State → State → α → β → Prop}

/-- Once the first run is astray, any run will do as the second. -/
theorem Outcome.stray {r : EStateM.Result Interrupt State α}
    {r₁ r₂ : EStateM.Result Interrupt State β} (h : R.Outcome E w s t Q r r₁)
    (hs : R.astray s) : R.Outcome E w s t Q r r₂ := by
  cases h with
  | ok h hab => exact .strayed h hab (h.astray hs)
  | reentrant h hfg => exact .strayedReentrant h hfg (h.astray hs)
  | exhausted he => exact .exhausted he
  | strayed h hab hs' => exact .strayed h hab hs'
  | strayedReentrant h hfg hs' => exact .strayedReentrant h hfg hs'

namespace Pairs

theorem pure {a : α} {b : β} (h : R.rel w s t) (hab : Q s t a b) :
    R.Pairs E w s t Q (Pure.pure a) (Pure.pure b) :=
  .ok (.refl h) hab

/-- Seen from the states they started in, runs end as seen from those they have
reached since. -/
theorem of_reaches {w' : R.World} {s' t' : State} {r : EStateM.Result Interrupt State α}
    {r' : EStateM.Result Interrupt State β} (h : R.Reaches w' s t s' t')
    (hr : R.Outcome E w s' t' Q r r') : R.Outcome E w s t Q r r' := by
  cases hr with
  | ok h' hab => exact .ok (h.trans h') hab
  | reentrant h' hfg => exact .reentrant (h.trans h') hfg
  | exhausted he => exact .exhausted he
  | strayed h' hab hs => exact .strayed (h.trans h') hab hs
  | strayedReentrant h' hfg hs => exact .strayedReentrant (h.trans h') hfg hs

theorem bind {Q' : State → State → γ → δ → Prop} {x : Infer α} {y : Infer β}
    {f : α → Infer γ} {g : β → Infer δ} (hxy : R.Pairs E w s t Q x y)
    (hfg : ∀ a b s' t', R.Reaches w s t s' t' → Q s' t' a b →
      R.Pairs E w s' t' Q' (f a) (g b)) :
    R.Pairs E w s t Q' (x >>= f) (y >>= g) := by
  unfold Pairs at hxy
  change R.Outcome E w s t Q' (EStateM.bind x f s) (EStateM.bind y g t)
  simp only [EStateM.bind]
  generalize x s = r, y t = r' at hxy
  cases hxy with
  | ok h hab => exact of_reaches h (hfg _ _ _ _ h hab)
  | reentrant h hfg => exact .reentrant h hfg
  | exhausted he => exact .exhausted he
  | strayed h hab hs => exact of_reaches h ((hfg _ _ _ _ h hab).stray hs)
  | strayedReentrant h hfg hs => exact .strayedReentrant h hfg hs

theorem get_bind {f : State → Infer α} {g : State → Infer β}
    (h : R.Pairs E w s t Q (f s) (g t)) : R.Pairs E w s t Q (get >>= f) (get >>= g) := h

theorem imp {Q' : State → State → α → β → Prop} {E' : Exits} {x : Infer α} {y : Infer β}
    (h : R.Pairs E w s t Q x y) (hsignal : ∀ f g, E.signal f g → E'.signal f g)
    (hexcused : E.excused → E'.excused)
    (hQ : ∀ s' t' a b, R.Reaches w s t s' t' → Q s' t' a b → Q' s' t' a b) :
    R.Pairs E' w s t Q' x y := by
  unfold Pairs at h ⊢
  generalize x s = r, y t = r' at h ⊢
  cases h with
  | ok h hab => exact .ok h (hQ _ _ _ _ h hab)
  | reentrant h hfg => exact .reentrant h (hsignal _ _ hfg)
  | exhausted h => exact .exhausted (hexcused h)
  | strayed h hab hs => exact .strayed h (hQ _ _ _ _ h hab) hs
  | strayedReentrant h hfg hs => exact .strayedReentrant h (hsignal _ _ hfg) hs

/-- More may be said of the results. -/
theorem mono {Q' : State → State → α → β → Prop} {x : Infer α} {y : Infer β}
    (h : R.Pairs E w s t Q x y)
    (hQ : ∀ s' t' a b, R.Reaches w s t s' t' → Q s' t' a b → Q' s' t' a b) :
    R.Pairs E w s t Q' x y :=
  h.imp (fun _ _ h => h) id hQ

/-- A result that leaves the first run astray. -/
theorem strayed_of_ok {x : Infer α} {y : Infer β} (h : R.Pairs E w s t Q x y) {a : α}
    {s' : State} (hx : x s = .ok a s') (hs : R.astray s')
    (r : EStateM.Result Interrupt State β) : R.Outcome E w s t Q (x s) r := by
  unfold Pairs at h
  rw [hx] at h ⊢
  generalize y t = r' at h
  cases h with
  | ok h hab => exact .strayed h hab hs
  | strayed h hab hs => exact .strayed h hab hs

/-- What is known of the result of the first run alone may be said besides. -/
theorem and_left {P : State → α → Prop} {x : Infer α} {y : Infer β} (h : R.Pairs E w s t Q x y)
    (hx : ∀ a s', x s = .ok a s' → P s' a) :
    R.Pairs E w s t (fun s' t' a b => Q s' t' a b ∧ P s' a) x y := by
  unfold Pairs at h ⊢
  generalize hr : x s = r, y t = r' at h ⊢
  cases h with
  | ok h hab => exact .ok h ⟨hab, hx _ _ hr⟩
  | reentrant h hfg => exact .reentrant h hfg
  | exhausted h => exact .exhausted h
  | strayed h hab hs => exact .strayed h ⟨hab, hx _ _ hr⟩ hs
  | strayedReentrant h hfg hs => exact .strayedReentrant h hfg hs

/-- What has no exit may stand where there is one. -/
theorem of_none {x : Infer α} {y : Infer β} (h : R.Pairs .none w s t Q x y) :
    R.Pairs E w s t Q x y :=
  h.imp (fun _ _ h => h.elim) False.elim fun _ _ _ _ _ h => h

theorem discard {x : Infer α} {y : Infer β} (h : R.Pairs E w s t Q x y) :
    R.Ends E w s t (Functor.discard x) (Functor.discard y) := by
  have hdiscard : ∀ {γ : Type} (z : Infer γ), Functor.discard z = z >>= fun _ => Pure.pure () := by
    intro γ z
    rfl
  rw [hdiscard, hdiscard]
  exact h.bind fun _ _ _ _ hr _ => .pure hr.rel trivial

theorem attempt {x : Infer α} {y : Infer β} (h : R.Pairs E w s t Q x y) :
    R.Pairs E.silent w s t (fun s' t' => SameAttempt E.signal (Q s' t')) (Infer.attempt x)
      (Infer.attempt y) := by
  unfold Pairs at h ⊢
  unfold Infer.attempt
  generalize x s = r, y t = r' at h ⊢
  cases h with
  | ok h hab => exact .ok h (.ok hab)
  | reentrant h hfg => exact .ok h (.error hfg)
  | exhausted he => exact .exhausted he
  | strayed h hab hs => exact .strayed h (.ok hab) hs
  | strayedReentrant h hfg hs => exact .strayed h (.error hfg) hs

/-- What raises no signal may stand where one may be raised. -/
theorem of_silent {x : Infer α} {y : Infer β} (h : R.Pairs E.silent w s t Q x y) :
    R.Pairs E w s t Q x y :=
  h.imp (fun _ _ h => h.elim) id fun _ _ _ _ _ h => h

end Pairs

end Pairing

end ObjectInference
