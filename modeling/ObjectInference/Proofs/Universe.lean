import Mathlib.Logic.Relation
import ObjectInference.Proofs.Pairing.Tracking
import ObjectInference.Proofs.WellFormed

/-!
The universe of objects.

`Pairing.confined` adds to a pairing that the first state is well formed, and that
the objects it has to do with are in the store. The pairing stays lawful, since
whatever evaluation makes or reads in a well-formed state is in the store again. So a
run that starts in a well-formed state and is about objects of the store goes through
well-formed states only, and its answer is in the store as well.
-/

namespace ObjectInference

namespace Pairing

/-- A pairing of well-formed states, with nothing but objects of the first store. -/
def confined (R : Pairing) (p : Program) : Pairing :=
  { R with
    rel := fun w s t => R.rel w s t ∧ s.WellFormed p
    same := fun s t a b => s.Has a ∧ R.same s t a b }

section Confined

variable {R : Pairing} {p : Program} {w w' : R.World} {s t s' t' : State} {α β : Type}

theorem Reaches.confined (h : R.Reaches w s t s' t') (hs : s'.WellFormed p) :
    (R.confined p).Reaches w s t s' t' :=
  ⟨⟨h.rel, hs⟩, fun hab => ⟨Nat.lt_of_lt_of_le hab.1 h.keeps.size_le, h.same hab.2⟩, h.keeps,
    h.astray⟩

/-- Computations that have a result in any case, and yield it. -/
theorem Pairs.confined {Q Q' : State → State → α → β → Prop} {P : State → α → Prop} {x : Infer α}
    {y : Infer β} (h : R.Pairs .none w s t Q x y) (hx : Infer.Yields p s P x)
    (hQ : ∀ s' t' a b, P s' a → Q s' t' a b → Q' s' t' a b) :
    (R.confined p).Pairs .none w s t Q' x y := by
  unfold Pairs at h ⊢
  generalize hr : x s = r, y t = r' at h ⊢
  cases h with
  | ok h hab =>
      obtain ⟨hs, ha⟩ := hx _ _ hr
      exact .ok (h.confined hs) (hQ _ _ _ _ ha hab)
  | reentrant _ hfg => exact hfg.elim
  | exhausted he => exact he.elim
  | strayed h hab hstray =>
      obtain ⟨hs, ha⟩ := hx _ _ hr
      exact .strayed (h.confined hs) (hQ _ _ _ _ ha hab) hstray
  | strayedReentrant _ hfg _ => exact hfg.elim

theorem Opens.confined {close close' : Infer Unit} (h : R.Opens w w' s t s' t' close close')
    (hs : s'.WellFormed p)
    (hclose : ∀ {s : State}, s.WellFormed p → Infer.Yields p s (fun _ _ => True) close) :
    (R.confined p).Opens w w' s t s' t' close close' :=
  ⟨h.inside, h.reaches.confined hs,
    fun h' => (h.closes h'.1).confined (hclose h'.2) fun _ _ _ _ _ _ => trivial⟩

theorem Rigid.confined (hR : R.Rigid) : (R.confined p).Rigid :=
  ⟨fun h => hR.eq_of_same h.2⟩

theorem sameOption_confined {x y : Option ObjectId} (hx : ∀ o ∈ x, s.Has o)
    (h : R.SameOption s t x y) : (R.confined p).SameOption s t x y := by
  cases h with
  | none => exact .none
  | some hab => exact .some ⟨hx _ rfl, hab⟩

theorem alike_confined {object object' : Object} (hinst : ∀ c site, object = .inst c site → s.Has c)
    (hgenerator : ∀ e, object = .generator e → s.Has e) (h : object.Alike (R.same s t) object') :
    object.Alike ((R.confined p).same s t) object' := by
  cases h with
  | inst site h => exact .inst site ⟨hinst _ site rfl, h⟩
  | generator h => exact .generator ⟨hgenerator _ rfl, h⟩
  | _ => constructor

theorem Lawful.confined (L : R.Lawful p) (hp : p.WellBound) : (R.confined p).Lawful p where
  unknown {_ _ _} h := ⟨h.2.lt_of_lt_base hp.unknown_lt, L.unknown h.1⟩
  isKnown_eq {_ _ _} h {_ _} hab := L.isKnown_eq h.1 hab.2
  get {_ _ _} h {_ _} hab := by
    refine alike_confined (fun c site hc => ?_) (fun e he => ?_) (L.get h.1 hab.2)
    · exact Nat.lt_trans (h.2.made.cls_lt hp hc) hab.1
    · exact Nat.lt_trans (h.2.made.grown.generator he) hab.1
  lookup {_ _ _} h {_ _} hab name :=
    sameOption_confined (fun _ ho => h.2.made.attribute?_lt hp ho) (L.lookup h.1 hab.2 name)
  evidence {_ _ _} h {_ _} hab slot :=
    sameOption_confined (fun _ ho => (h.2.evidence ho).2) (L.evidence h.1 hab.2 slot)
  defined {_ _ _} h {_ _} hread {_} ho :=
    ⟨h.2.lt_of_lt_base (hp.definitions_lt _ _ ho), L.defined h.1 hread ho⟩
  global {_ _ _} h {_} hread {_} ho :=
    ⟨h.2.lt_of_lt_base (hp.global?_lt ho), L.global h.1 hread ho⟩
  count {_ _ _} h {change} hchange :=
    (L.count h.1 hchange).confined (.count h.2 change) fun _ _ _ _ _ _ => trivial
  builtinInstance {_ _ _} h {c} hc :=
    (L.builtinInstance h.1 hc).confined
      (.internInstance h.2 (hp.builtinClass_lt c) (hp.kind_builtinClass c) none)
      fun _ _ _ _ => And.intro
  newInstance {_ _ _} h {_ _} hc hk hb site :=
    (L.newInstance h.1 hc.2 hk hb site).confined (.newInstance h.2 hc.1 hk site)
      fun _ _ _ _ => And.intro
  newContainer {_ _ _} h {scope site} hmay hsite {c} hc :=
    (L.newContainer h.1 hmay hsite hc).confined (.newContainer h.2 hp scope c site)
      fun _ _ _ _ => And.intro
  generatorOf {_ _ _} h {_ _} he hk :=
    (L.generatorOf h.1 he.2 hk).confined (.generatorOf h.2 he.1 hk) fun _ _ _ _ => And.intro
  observe {_ _ _} h {_ _ _ _} hc ho {slot} hslot :=
    (L.observe h.1 hc.2 ho.2 hslot).confined (.observe h.2 hc.1 ho.1 slot)
      fun _ _ _ _ _ _ => trivial
  currentParameters {_ _ _} h {_ _} hread {_} hd :=
    (L.currentParameters h.1 hread hd).confined
      (.currentParameters h.2 hp (h.2.lt_of_lt_base (hp.scope hd).owner))
      fun _ _ _ _ hos h => (List.forall₂_and_left _ _).2 ⟨hos, h⟩
  enterName {w s t} h key hmay := by
    rcases L.enterName h.1 key hmay with
      ⟨e, s', t', he, hs', ht', hr⟩ | ⟨w', s', t', hs', ht', o, hsig⟩
    · exact .inl ⟨e, s', t', he, hs', ht', hr.confined (Infer.Yields.enterName h.2 key _ _ hs').1⟩
    · exact .inr ⟨w', s', t', hs', ht', o.confined (Infer.Yields.enterName h.2 key _ _ hs').1
        fun hs => .leaveName hs key, hsig⟩
  enterFunction {w s t} h {f f'} hf {scope} hscope {parameters parameters'} hps := by
    obtain ⟨hsame, hhas⟩ : R.SameParameters p f s t parameters parameters' ∧
        ∀ os ∈ parameters, ∀ o ∈ os, s.Has o := by
      cases hps with
      | none => exact ⟨.none, fun _ h => by cases h⟩
      | @some os _ hos =>
          obtain ⟨hlt, hsame⟩ := (List.forall₂_and_left _ _).1 hos.1
          refine ⟨.some ⟨hsame, hos.2⟩, fun os' h => ?_⟩
          obtain rfl := Option.some.inj h
          exact hlt
    have henter := Infer.Yields.enterFunction h.2 f
    rcases L.enterFunction h.1 hf.2 hscope hsame with
      ⟨e, s', t', he, hs', ht', hr, hcycle⟩ | ⟨w', s₁, t₁, s', t', hs₁, ht₁, hs', ht', o⟩ |
        ⟨e, s', t', he, hcycle, hs', hr, hastray⟩
    · exact .inl ⟨e, s', t', he, hs', ht', hr.confined (henter _ _ hs').1, hcycle⟩
    · -- Marking the function does not touch the store, so what the call is about is still there.
      obtain ⟨hwf, hobjects⟩ := henter _ _ hs₁
      have hopen : s'.WellFormed p := by
        refine (Infer.Yields.openCall hwf ?_ scope ?_ _ _ hs').1
        · rw [hobjects]
          exact hf.1
        · rw [hobjects]
          exact hhas
      exact .inr (.inl ⟨w', s₁, t₁, s', t', hs₁, ht₁, hs', ht',
        o.confined hopen fun hs => .closeCall hs f parameters⟩)
    · exact .inr (.inr ⟨e, s', t', he, hcycle, hs', hr.confined (henter _ _ hs').1, hastray⟩)

theorem Records.confined (hlog : R.Records p) : (R.confined p).Records p where
  record {_ _ _} h {_ _} hf {_ _} hos hlength := by
    obtain ⟨hlt, hsame⟩ := (List.forall₂_and_left _ _).1 hos
    exact (hlog.record h.1 hf.2 hsame hlength).confined (.recordCall h.2 hf.1 hlt)
      fun _ _ _ _ _ _ => trivial
  count {_ _ _} h {change} hchange :=
    (hlog.count h.1 hchange).confined (.count h.2 change) fun _ _ _ _ _ _ => trivial

end Confined

end Pairing

/-! ### Operations -/

namespace Operation

def AnswersInRange (n : Nat) : {α : Type} → Operation α → α → Prop
  | _, evaluate .. => fun a => ∀ name ∈ a, name.object < n
  | _, primaryAndResult .. => fun a =>
    (∀ name ∈ a.1, name.object < n) ∧ ∀ name ∈ a.2, name.object < n
  | _, assignedObject .. => fun a => ∀ o ∈ a, o < n
  | _, resolveArguments _ => fun a =>
    (∀ o ∈ a.positional, o < n) ∧ ∀ keyword ∈ a.keywords, keyword.2 < n
  | _, bindArguments .. => fun a => ∀ o ∈ a, o < n
  | _, tryReturned .. => fun a => ∀ o ∈ a, o < n
  | _, returned .. => fun a => ∀ o ∈ a, o < n
  | _, analyze .. => fun _ => True

variable {p : Program} {α : Type} {s s' : State} (op : Operation α)

/-- The answers of a run beside another that confines itself to the store are in the store. -/
theorem answersInRange_of_sameResult {R : Pairing} {t : State} {a b : α}
    (h : op.SameResult (R.confined p) s t a b) : op.AnswersInRange s.objects.size a := by
  have hname : ∀ {x y : Option Name}, (R.confined p).SameFound s t x y →
      ∀ name ∈ x, name.object < s.objects.size := by
    intro x y hxy name hname
    cases hxy with
    | none => cases hname
    | some hab =>
        obtain rfl := Option.some.inj hname
        exact hab.1.1
  have hobject : ∀ {x y : Option ObjectId}, (R.confined p).SameOption s t x y →
      ∀ o ∈ x, o < s.objects.size := by
    intro x y hxy o ho
    cases hxy with
    | none => cases ho
    | some hab =>
        obtain rfl := Option.some.inj ho
        exact hab.1
  cases op with
  | evaluate => exact hname h
  | primaryAndResult => exact ⟨hname h.1, hname h.2⟩
  | assignedObject => exact hobject h
  | resolveArguments =>
      have hkeywords := h.keywords.imp fun _ _ hab => And.intro hab.2.1 hab
      exact ⟨((List.forall₂_and_left _ _).1 h.positional).1,
        ((List.forall₂_and_left _ _).1 hkeywords).1⟩
  | bindArguments => exact ((List.forall₂_and_left _ _).1 h).1
  | tryReturned => exact hobject h
  | returned => exact hobject h
  | analyze => trivial

end Operation

namespace Pairing

/-- A run beside itself in well-formed states, about objects of the store. -/
abbrev ranging (p : Program) : Pairing := (bracketing fun _ => True).confined p

namespace ranging

variable {p : Program} {w s t : State} {α : Type}

theorem lawful (hp : p.WellBound) : (ranging p).Lawful p :=
  (bracketing.lawful (.trivial p)).confined hp

theorem room_and_budget (h : (ranging p).rel w s t) : s.room = w.room ∧ p.budget s = p.budget t :=
  bracketing.room_and_budget h.1

theorem pairsOn_evaluate (hp : p.WellBound) (expr : NodeRef) :
    (ranging p).PairsOn (fun _ => ¬ p.tree.Descending) p.evaluate p.evaluate expr :=
  (lawful hp).pairsOn_evaluateBy State.room id room_and_budget (fun _ _ => rfl)
    (fun _ _ _ _ h scope => h scope trivial) expr

theorem operation (hp : p.WellBound) {eval eval' : Evaluator}
    (H : ∀ e, (ranging p).PairsOn (fun _ => ¬ p.tree.Descending) eval eval' e)
    (hs : s.WellFormed p) (op : Operation α) (hop : op.InRange s.objects.size) :
    (ranging p).Pairs ((ranging p).exits (fun _ => ¬ p.tree.Descending) s) s s s
      (fun s' t' => op.SameResult (ranging p) s' t') (op.run p eval) (op.run p eval') := by
  have h : (ranging p).rel s s s := ⟨⟨rfl, .refl s, trivial⟩, hs⟩
  exact (lawful hp).operation H (fun _ => id) h op
    (given_of_inRange (R := ranging p) (fun _ ho => ⟨ho, rfl⟩) hop)
    fun _ => bracketing.records.confined

end ranging

end Pairing

namespace Operation

variable {p : Program} {α : Type} {s : State} (hp : p.WellBound) (hs : s.WellFormed p)
  (op : Operation α) (hop : op.InRange s.objects.size)

include hp hs hop

theorem wellFormed_after :
    State.After (fun s' => s'.WellFormed p ∧ s.objects.Keeps s'.objects) (op.perform p s) :=
  (Pairing.ranging.operation hp (Pairing.ranging.pairsOn_evaluate hp) hs op hop).after_of_reaches
    fun _ _ h => ⟨h.rel.2, h.keeps⟩

theorem answersInRange {a : α} {s' : State} (hrun : op.perform p s = .ok a s') :
    op.AnswersInRange s'.objects.size a := by
  have h := Pairing.ranging.operation hp (Pairing.ranging.pairsOn_evaluate hp) hs op hop
  unfold Pairing.Pairs at h
  change op.run p p.evaluate s = .ok a s' at hrun
  rw [hrun] at h
  cases h with
  | ok _ hab => exact op.answersInRange_of_sameResult hab
  | strayed _ _ hs => exact hs.elim

/-- Every state in which an expression is evaluated is well formed. -/
theorem watch_wellFormed [DecidablePred (State.WellFormed p)] (hd : p.tree.Descending) :
    op.watch p (State.WellFormed p) s = op.perform p s := by
  have H := (Pairing.ranging.lawful hp).pairsOn_watching State.room id
    Pairing.ranging.room_and_budget (fun _ _ => trivial) (W := State.WellFormed p) And.right
  exact (Pairing.ranging.operation hp H hs op hop).eq_run (fun h => h.1.1) (fun _ => id)
    Pairing.bracketing.diagonal.rigid.confined.eq_of_sameResult (fun f g hfg => hfg.1)
    fun he => he hd

end Operation

/-! ### Runs -/

namespace State

/-- A use of an engine from outside, about objects of the store: an operation, or the start of
another engine on what this one has learnt. -/
inductive Advances (p : Program) : State → State → Prop where
  | ok {s s' : State} {α : Type} (op : Operation α) (hop : op.InRange s.objects.size) {a : α}
      (hrun : op.perform p s = .ok a s') : Advances p s s'
  | reentrant {s s' : State} {α : Type} (op : Operation α) (hop : op.InRange s.objects.size)
      {f : ObjectId} (hrun : op.perform p s = .error (.reentrant f) s') : Advances p s s'
  | resume {s : State} {calls : CallLog} (hcalls : calls.Within s.objects.size)
      (options : Options) : Advances p s (.start s.toMemory.clearParameters calls options)

/-- A state of a run that was only given objects of the store. -/
inductive Driven (p : Program) : State → Prop where
  | start {calls : CallLog} (hcalls : calls.Within p.objects.size) (options : Options) :
      Driven p (.start (.fresh p) calls options)
  | advance {s s' : State} (h : Driven p s) (h' : s.Advances p s') : Driven p s'

/-- The places where a program and a state over it refer to objects. -/
inductive Mentions (p : Program) (s : State) : ObjectId → Prop where
  | owner {scope : ScopeId} {d : Scope} (hd : p.scope? scope = some d) : Mentions p s d.owner
  | definition {scope : ScopeId} {d : Scope} (hd : p.scope? scope = some d) {name : Atom}
      {o : ObjectId} (ho : (name, .object o) ∈ d.bindings) : Mentions p s o
  | methodOf {scope : ScopeId} {d : Scope} (hd : p.scope? scope = some d) {c : ObjectId}
      (hc : c ∈ d.methodOf) : Mentions p s c
  | container {c v : ObjectId} {slot : Slot} (h : s.evidence.get? c slot = some v) :
      Mentions p s c
  | content {c v : ObjectId} {slot : Slot} (h : s.evidence.get? c slot = some v) :
      Mentions p s v
  | allocated {scope : ScopeId} {c : ObjectId} (h : c ∈ s.allocated scope) : Mentions p s c
  | cached {f : ObjectId} {os : List ObjectId} (h : s.parameterCache.get? f = some os) :
      Mentions p s f
  | cachedParameter {f o : ObjectId} {os : List ObjectId}
      (h : s.parameterCache.get? f = some os) (ho : o ∈ os) : Mentions p s o
  | context {c : Context} (h : c ∈ s.contexts) : Mentions p s c.function
  | contextParameter {c : Context} {o : ObjectId} (h : c ∈ s.contexts) (ho : o ∈ c.parameters) :
      Mentions p s o
  | callee {f : ObjectId} {record : CallRecord} (h : record ∈ s.calls.calls f) : Mentions p s f
  | argument {f o : ObjectId} {record : CallRecord} (h : record ∈ s.calls.calls f)
      (ho : o ∈ record) : Mentions p s o

variable {p : Program} {s s' : State}

theorem WellFormed.lt_of_mentions (hp : p.WellBound) (hs : s.WellFormed p) {o : ObjectId}
    (h : s.Mentions p o) : o < s.objects.size := by
  cases h with
  | owner hd => exact hs.lt_of_lt_base (hp.scope hd).owner
  | definition hd ho => exact hs.lt_of_lt_base ((hp.scope hd).defined _ _ ho)
  | methodOf hd hc => exact hs.lt_of_lt_base ((hp.scope hd).method _ hc).1
  | container h => exact (hs.evidence h).1
  | content h => exact (hs.evidence h).2
  | allocated h => exact hs.allocated h
  | cached h => exact (hs.cache h).1
  | cachedParameter h ho => exact (hs.cache h).2 _ ho
  | context h => exact (hs.contexts _ h).1
  | contextParameter h ho => exact (hs.contexts _ h).2 _ ho
  | callee h => exact (hs.calls _ _ h).1
  | argument h ho => exact (hs.calls _ _ h).2 _ ho

theorem WellFormed.advance (hp : p.WellBound) (hs : s.WellFormed p) (h : s.Advances p s') :
    s'.WellFormed p ∧ s.objects.Keeps s'.objects := by
  cases h with
  | ok op hop hrun =>
      have h := op.wellFormed_after hp hs hop
      rwa [hrun] at h
  | reentrant op hop hrun =>
      have h := op.wellFormed_after hp hs hop
      rwa [hrun] at h
  | resume hcalls options => exact ⟨hs.resume hcalls options, .refl _⟩

theorem Driven.wellFormed (hp : p.WellBound) (h : s.Driven p) : s.WellFormed p := by
  induction h with
  | start hcalls options => exact .start hp hcalls options
  | advance _ h' ih => exact (ih.advance hp h').1

/-- Nothing in the store changes over a whole run. -/
theorem WellFormed.keeps (hp : p.WellBound) (hs : s.WellFormed p)
    (h : Relation.ReflTransGen (Advances p) s s') : s.objects.Keeps s'.objects := by
  suffices h : s'.WellFormed p ∧ s.objects.Keeps s'.objects from h.2
  induction h with
  | refl => exact ⟨hs, .refl _⟩
  | tail _ h' ih =>
      obtain ⟨hs', hkeeps⟩ := ih.1.advance hp h'
      exact ⟨hs', ih.2.trans hkeeps⟩

end State

namespace Program.Made

variable {p : Program} {st : ObjectStore}

/-- The class of an instance is one of the source or a built-in one. -/
theorem cls_cases (hst : p.Made st) {o c : ObjectId} {site : NodeRef}
    (h : st.get o = .inst c site) :
    (∃ scope, st.get c = .cls scope) ∨ ∃ b, st.get c = .builtinClass b := by
  have hk := hst.kind_cls h
  unfold ObjectStore.kind at hk
  cases hget : st.get c with
  | cls scope => exact .inl ⟨scope, rfl⟩
  | builtinClass b => exact .inr ⟨b, rfl⟩
  | _ =>
      rw [hget] at hk
      cases hk

/-- An attribute is found in two steps, or it is missing. -/
theorem attributeWithin_eq (hp : p.WellBound) (hst : p.Made st) (name : Atom) {n : Nat}
    (hn : 2 ≤ n) (o : ObjectId) : p.attributeWithin st name n o = p.attribute? st o name := by
  have hsize : 15 ≤ st.size := Nat.le_trans hp.builtins.size_le hst.grown.size_le
  exact p.attributeWithin_eq (fun _ _ _ => hst.kind_cls) name hn (by omega) o

/-- A description ends before it has gone through the whole store. -/
theorem describeWithin_eq (hst : p.Made st) {n : Nat} (hn : st.size < n) (o : ObjectId) :
    p.describeWithin st n o = p.describe st o := by
  by_cases ho : o < st.size
  · exact p.describeWithin_eq (fun _ _ => hst.grown.generator) (Nat.lt_trans ho hn)
      (Nat.lt_succ_of_lt ho)
  · -- A number that was not handed out reads as unknown at once.
    have hget : st.get o = .unknown := ObjectStore.get_of_size_le (Nat.not_lt.1 ho)
    obtain ⟨n, rfl⟩ : ∃ k, n = k + 1 := ⟨n - 1, by omega⟩
    simp only [describe, describeWithin, hget]

end Program.Made

/-- The universe of objects stays well formed. A run that is only given objects of the store
is in a well-formed state after every operation, and no number that was handed out ever
changes its meaning. An operation in such a state answers with objects of the store, and
every state in which it evaluates an expression is well formed. That is to say that every
object has one number, and number zero is the unknown object; that classes come before
their instances, and known elements before their generators; and that whatever a scope
or a table of the state mentions is in the store. So neither looking up an attribute
nor describing an object ever meets its bound, and attributes are in the store again. -/
theorem universe_wellFormed (tree : Tree) (atoms : Interner) (root : NodeRef) :
    let p := Program.bind tree atoms root
    (∀ s : State, s.Driven p → s.WellFormed p ∧
      ∀ s' : State, Relation.ReflTransGen (State.Advances p) s s' →
        s.objects.Keeps s'.objects) ∧
    ∀ s : State, s.WellFormed p →
      (∀ (α : Type) (op : Operation α), op.InRange s.objects.size →
        State.After (fun s' => s'.WellFormed p ∧ s.objects.Keeps s'.objects) (op.perform p s) ∧
        (∀ (a : α) (s' : State), op.perform p s = .ok a s' →
          op.AnswersInRange s'.objects.size a) ∧
        (tree.Descending →
          letI := Classical.decPred (State.WellFormed p)
          op.watch p (State.WellFormed p) s = op.perform p s)) ∧
      s.objects.Distinct ∧
      (∀ o < s.objects.size, s.objects.intern (s.objects.get o) = (o, s.objects)) ∧
      (∀ object : Object,
        (s.objects.intern object).2.intern object = s.objects.intern object) ∧
      (0 < s.objects.size ∧ s.objects.get 0 = .unknown) ∧
      (∀ (o c : ObjectId) (site : NodeRef), s.objects.get o = .inst c site →
        c < o ∧ ((∃ scope, s.objects.get c = .cls scope) ∨
          ∃ b, s.objects.get c = .builtinClass b)) ∧
      (∀ o e : ObjectId, s.objects.get o = .generator e → e < o ∧ e.isKnown = true) ∧
      (∀ o : ObjectId, s.Mentions p o → o < s.objects.size) ∧
      ∀ o : ObjectId,
        (∀ name : Atom,
          (∀ n ≥ 2, p.attributeWithin s.objects name n o = p.attribute? s.objects o name) ∧
          ∀ a ∈ p.attribute? s.objects o name, a < s.objects.size) ∧
        ∀ n > s.objects.size, p.describeWithin s.objects n o = p.describe s.objects o := by
  intro p
  have hp : p.WellBound := (Program.wellBound_bind tree atoms root).1
  refine ⟨fun s h => ?_, fun s hs => ?_⟩
  · have hs := h.wellFormed hp
    exact ⟨hs, fun _ => hs.keeps hp⟩
  have hdistinct : s.objects.Distinct := hs.made.grown.distinct
  refine ⟨fun α op hop => ?_, hdistinct, fun o ho => hdistinct.intern_get ho,
    hdistinct.intern_intern, ?_, fun o c site h => ?_, fun o e h => ?_,
    fun o h => hs.lt_of_mentions hp h, fun o => ⟨fun name => ?_, fun n hn => ?_⟩⟩
  · refine ⟨op.wellFormed_after hp hs hop, fun a s' => op.answersInRange hp hs hop, fun hd => ?_⟩
    let _ := Classical.decPred (State.WellFormed p)
    exact op.watch_wellFormed hp hs hop hd
  · exact ⟨hs.lt_of_lt_base hp.unknown_lt, hp.get_unknown hs.made.grown.extends_base.keeps⟩
  · exact ⟨hs.made.cls_lt hp h, hs.made.cls_cases h⟩
  · exact ⟨hs.made.grown.generator h, hs.made.known h⟩
  · exact ⟨fun n hn => hs.made.attributeWithin_eq hp name hn o,
      fun a ha => hs.made.attribute?_lt hp ha⟩
  · exact hs.made.describeWithin_eq hn o

end ObjectInference
