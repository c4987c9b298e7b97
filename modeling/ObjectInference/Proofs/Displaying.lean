import ObjectInference.Proofs.Drifting
import ObjectInference.Proofs.Unpacking

/-!
Constant tuples.

An assigned value is followed along a path in the source as long as there are displays, and
what stands there is evaluated. The same value may be evaluated as a whole, and the object
narrowed along the path. For a constant, a literal or a tuple display of constants, the two
give the same object, whatever the path is and whatever has happened before.

The first way makes no object for the displays that the path goes through, and the second
reads the evidence of objects that every evaluation of a display shares, with the first
element in the place of one that is missing. They meet in what a path leads to in the
constant itself, `Tree.constantAt`. For the second way this takes an invariant of all runs:
what has been seen in the tuple of a constant display is what stands there. An evaluation
elsewhere never puts anything into such a tuple, so it is enough to follow the evaluation of
the display itself.
-/

namespace ObjectInference

/-! ### Constants -/

namespace Tree

variable {t : Tree} {r e : NodeRef} {elements : List NodeRef} {path : List Nat}

/-- A literal, or a tuple display of constants. -/
inductive Constant (t : Tree) : NodeRef → Prop where
  | literal {r : NodeRef} {l : Literal} (h : t.node? r = some (.literal l)) : Constant t r
  | tuple {r : NodeRef} {elements : List NodeRef} (h : t.node? r = some (.tuple elements))
      (he : ∀ e ∈ elements, Constant t e) : Constant t r

def constant? (t : Tree) (r : NodeRef) : Option Object :=
  match t.node? r with
  | some (.literal l) => some (.inst (BuiltinClass.ofLiteral l).object none)
  | some (.tuple _) => some (.inst BuiltinClass.tuple.object r)
  | _ => none

/-- The constant that a path leads to in a constant. The first element of a tuple stands
for those that are missing, and a text consists of texts. -/
def constantAt (t : Tree) : NodeRef → List Nat → Option NodeRef
  | r, [] => some r
  | r, position :: path =>
    match t.node? r with
    | some (.tuple elements) =>
      (elements[position]?.or elements[0]?).bind fun e => t.constantAt e path
    | some (.literal (.str _)) => t.constantAt r path
    | _ => none

def ConstantTuple (t : Tree) (r : NodeRef) (elements : List NodeRef) : Prop :=
  t.Constant r ∧ t.node? r = some (.tuple elements)

theorem sequence?_of_literal {l : Literal} (h : t.node? r = some (.literal l)) :
    t.sequence? r = none := by
  rw [sequence?, h]

theorem sequence?_of_tuple (h : t.node? r = some (.tuple elements)) :
    t.sequence? r = some elements := by
  rw [sequence?, h]

/-- Where the source is followed to, the rest of the path leads to what the whole path leads
to. -/
theorem constant_follow (hr : t.Constant r) (path : List Nat) :
    t.Constant (t.follow r path).1 ∧
      t.constantAt (t.follow r path).1 (t.follow r path).2 = t.constantAt r path := by
  induction path generalizing r with
  | nil => exact ⟨hr, rfl⟩
  | cons position path ih =>
      rw [follow]
      cases hr with
      | literal h =>
          rw [sequence?_of_literal h]
          exact ⟨.literal h, rfl⟩
      | @tuple _ elements h he =>
          rw [sequence?_of_tuple h, Option.bind_some]
          cases hposition : elements[position]? with
          | none => exact ⟨.tuple h he, rfl⟩
          | some e =>
              obtain ⟨hconstant, heq⟩ := ih (he e (List.mem_of_getElem? hposition))
              refine ⟨hconstant, heq.trans ?_⟩
              rw [constantAt.eq_2, h]
              simp only [hposition, Option.some_or, Option.bind_some]

end Tree

/-! ### What constant tuples show -/

/-- The element of a tuple display that is seen in a slot of the tuple. -/
def Slot.position : Slot → Nat
  | item position => position
  | _ => 0

namespace State

variable {p : Program} {s s' : State} {o v c : ObjectId} {r e : NodeRef}
  {elements : List NodeRef} {slot : Slot}

/-- An object is what an expression evaluates to, by the kind of the expression. -/
def Denotes (p : Program) (s : State) (r : NodeRef) (o : ObjectId) : Prop :=
  p.tree.constant? r = some (s.objects.get o)

/-- What has been seen in the tuple of a constant display is what stands there. -/
structure Faithful (p : Program) (s : State) : Prop where
  keeps : p.objects.Extends s.objects
  distinct : s.objects.Distinct
  seen {c v : ObjectId} {slot : Slot} (h : s.evidence.get? c slot = some v) :
    c < s.objects.size
  shows {c v : ObjectId} {slot : Slot} {r : NodeRef} {elements : List NodeRef}
    (hc : s.objects.get c = .inst BuiltinClass.tuple.object r)
    (hr : p.tree.ConstantTuple r elements) (h : s.evidence.get? c slot = some v) :
    ∃ e, elements[slot.position]? = some e ∧ s.Denotes p e v

structure Full (s : State) (c : ObjectId) (n : Nat) : Prop where
  items {i : Nat} (hi : i < n) : (s.evidence.get? c (.item i)).isSome
  element (hn : 0 < n) : (s.evidence.get? c .element).isSome

/-- The tuples of a constant and of all constants in it are full. -/
inductive Holds (p : Program) (s : State) : NodeRef → Prop where
  | literal {r : NodeRef} {l : Literal} (h : p.tree.node? r = some (.literal l)) : Holds p s r
  | tuple {r : NodeRef} {elements : List NodeRef} {c : ObjectId}
      (h : p.tree.node? r = some (.tuple elements))
      (hc : s.objects.get c = .inst BuiltinClass.tuple.object r)
      (hfull : s.Full c elements.length) (he : ∀ e ∈ elements, Holds p s e) : Holds p s r

structure Accrues (s s' : State) : Prop where
  keeps : s.objects.Keeps s'.objects
  evidence {c v : ObjectId} {slot : Slot} (h : s.evidence.get? c slot = some v) :
    s'.evidence.get? c slot = some v

theorem Accrues.refl (s : State) : s.Accrues s := ⟨.refl _, id⟩

theorem Accrues.trans {s₁ s₂ s₃ : State} (h : s₁.Accrues s₂) (h' : s₂.Accrues s₃) :
    s₁.Accrues s₃ :=
  ⟨h.keeps.trans h'.keeps, fun hv => h'.evidence (h.evidence hv)⟩

theorem Accrues.isSome (h : s.Accrues s') (hv : (s.evidence.get? c slot).isSome) :
    (s'.evidence.get? c slot).isSome := by
  obtain ⟨v, hv⟩ := Option.isSome_iff_exists.1 hv
  exact Option.isSome_iff_exists.2 ⟨v, h.evidence hv⟩

theorem accrues_seeInto (s : State) (c : ObjectId) (slot : Slot) (o : ObjectId) :
    s.Accrues (s.seeInto c slot o) := by
  refine ⟨.refl _, fun {c' v slot'} h => ?_⟩
  rw [seeInto, Evidence.get?_add]
  split
  · rename_i hmatch
    obtain ⟨-, rfl, rfl⟩ := hmatch
    rw [h, Option.getD_some]
  · exact h

theorem isSome_seeInto (s : State) (c : ObjectId) (slot : Slot) (ho : o.isKnown = true) :
    ((s.seeInto c slot o).evidence.get? c slot).isSome := by
  rw [seeInto, Evidence.get?_add, if_pos ⟨ho, rfl, rfl⟩]
  rfl

/-! #### Objects of constants -/

theorem Denotes.inst (h : s.Denotes p r o) : ∃ k site, s.objects.get o = .inst k site := by
  unfold Denotes Tree.constant? at h
  split at h
  · exact ⟨_, _, (Option.some.inj h).symm⟩
  · exact ⟨_, _, (Option.some.inj h).symm⟩
  · cases h

theorem Denotes.keeps (h : s.Denotes p r o) (hk : s.objects.Keeps s'.objects) :
    s'.Denotes p r o := by
  obtain ⟨k, site, hget⟩ := h.inst
  rw [Denotes, h, hget, hk.get_eq_of_known hget Object.noConfusion]

theorem Denotes.isKnown (hp : p.WellBound) (hs : s.Faithful p) (h : s.Denotes p r o) :
    o.isKnown = true := by
  obtain ⟨k, site, hget⟩ := h.inst
  refine hp.isKnown_of_get hs.keeps.keeps ?_
  rw [hget]
  exact Object.noConfusion

/-- A constant has one object. -/
theorem Denotes.unique (hs : s.Faithful p) {o' : ObjectId} (h : s.Denotes p r o)
    (h' : s.Denotes p r o') : o = o' := by
  have hget : s.objects.get o = s.objects.get o' := Option.some.inj (h.symm.trans h')
  have hlt : ∀ {o : ObjectId}, s.Denotes p r o → o < s.objects.size := by
    intro o h
    obtain ⟨k, site, hget⟩ := h.inst
    exact ObjectStore.lt_size_of_get (by rw [hget]; exact Object.noConfusion)
  exact hs.distinct o o' (hlt h) (hlt h') hget

theorem denotes_tuple (h : p.tree.node? r = some (.tuple elements)) :
    s.Denotes p r o ↔ s.objects.get o = .inst BuiltinClass.tuple.object r := by
  simp only [Denotes, Tree.constant?, h, Option.some.injEq, eq_comm]

theorem denotes_literal {l : Literal} (h : p.tree.node? r = some (.literal l)) :
    s.Denotes p r o ↔ s.objects.get o = .inst (BuiltinClass.ofLiteral l).object none := by
  simp only [Denotes, Tree.constant?, h, Option.some.injEq, eq_comm]

theorem Full.accrue {n : Nat} (h : s.Full c n) (h' : s.Accrues s') : s'.Full c n :=
  ⟨fun hi => h'.isSome (h.items hi), fun hn => h'.isSome (h.element hn)⟩

theorem Full.of_le {n k : Nat} (h : s.Full c k) (hn : n ≤ k) : s.Full c n :=
  ⟨fun hi => h.items (Nat.lt_of_lt_of_le hi hn), fun h' => h.element (Nat.lt_of_lt_of_le h' hn)⟩

theorem Holds.accrue (h : s.Holds p r) (h' : s.Accrues s') : s'.Holds p r := by
  induction h with
  | literal h => exact .literal h
  | tuple h hc hfull _ ih =>
      exact .tuple h (h'.keeps.get_eq_of_known hc Object.noConfusion) (hfull.accrue h') ih

/-! #### What keeps constant tuples faithful -/

theorem faithful_start (hp : p.WellBound) (calls : CallLog) (options : Options) :
    (State.start (.fresh p) calls options).Faithful p := by
  refine ⟨.refl _, hp.distinct, fun h => ?_, fun _ _ h => ?_⟩
  · cases h
  · cases h

theorem Faithful.of_lost (hs : s.Faithful p) (hk : s.objects.Extends s'.objects)
    (hd : s'.objects.Distinct) (he : ∀ {c v : ObjectId} {slot : Slot},
      s'.evidence.get? c slot = some v → s.evidence.get? c slot = some v) : s'.Faithful p := by
  refine ⟨hs.keeps.trans hk, hd, fun h => ?_, fun {c v slot r elements} hc hr h => ?_⟩
  · exact Nat.lt_of_lt_of_le (hs.seen (he h)) hk.keeps.size_le
  · rw [hk.keeps.get_eq (hs.seen (he h))] at hc
    obtain ⟨e, hposition, hv⟩ := hs.shows hc hr (he h)
    exact ⟨e, hposition, hv.keeps hk.keeps⟩

theorem Faithful.drift (hs : s.Faithful p) (h : s.Drifts s') : s'.Faithful p :=
  hs.of_lost h.objects (h.distinct hs.distinct) h.lost

theorem Faithful.addContainer (hs : s.Faithful p) (scope : ScopeId) (b : BuiltinClass)
    (site : NodeRef) : (s.addContainer scope b site).Faithful p :=
  hs.of_lost (s.objects.extends_intern rfl) (hs.distinct.intern _) id

/-- What goes into an empty slot of the tuple of a constant display has to stand there. -/
theorem Faithful.seeInto (hs : s.Faithful p) (hc : c < s.objects.size)
    (ho : ∀ r elements, s.objects.get c = .inst BuiltinClass.tuple.object r →
      p.tree.ConstantTuple r elements → s.evidence.get? c slot = none →
      ∃ e, elements[slot.position]? = some e ∧ s.Denotes p e o) :
    (s.seeInto c slot o).Faithful p := by
  have hcases : ∀ {c' v : ObjectId} {slot' : Slot},
      (s.seeInto c slot o).evidence.get? c' slot' = some v →
      s.evidence.get? c' slot' = some v ∨
        c = c' ∧ slot = slot' ∧ o = v ∧ s.evidence.get? c slot = none := by
    intro c' v slot' h
    rw [State.seeInto, Evidence.get?_add] at h
    split at h
    · rename_i hmatch
      obtain ⟨-, rfl, rfl⟩ := hmatch
      cases hv : s.evidence.get? c slot with
      | none =>
          rw [hv] at h
          exact .inr ⟨rfl, rfl, Option.some.inj h, rfl⟩
      | some v' =>
          rw [hv] at h
          exact .inl h
    · exact .inl h
  refine ⟨hs.keeps, hs.distinct, fun h => ?_, fun hc' hr h => ?_⟩
  · rcases hcases h with h | ⟨rfl, -⟩
    · exact hs.seen h
    · exact hc
  · rcases hcases h with h | ⟨rfl, rfl, rfl, hnone⟩
    · exact hs.shows hc' hr h
    · exact ho _ _ hc' hr hnone

/-- An element goes into the tuple of its display, at its place if that is empty. -/
theorem Faithful.seePlace (hs : s.Faithful p) (hr : p.tree.ConstantTuple r elements)
    (hc : s.objects.get c = .inst BuiltinClass.tuple.object r) (ho : s.Denotes p e o)
    (hposition : s.evidence.get? c slot = none → elements[slot.position]? = some e) :
    (s.seeInto c slot o).Faithful p := by
  have hlt : c < s.objects.size := ObjectStore.lt_size_of_get (by rw [hc]; exact Object.noConfusion)
  refine hs.seeInto hlt fun r' elements' hc' hr' hnone => ?_
  cases hc.symm.trans hc'
  cases hr.2.symm.trans hr'.2
  exact ⟨e, hposition hnone, ho⟩

/-- With the next item a tuple has one more of its elements. -/
theorem Full.seeNext {k : Nat} (h : s.Full c k) (ho : o.isKnown = true) :
    ((s.seeInto c (.item k) o).seeInto c .element o).Full c (k + 1) := by
  have hitem := accrues_seeInto s c (.item k) o
  have helement := accrues_seeInto (s.seeInto c (.item k) o) c .element o
  refine ⟨fun {i} hi => ?_, fun _ => isSome_seeInto _ c .element ho⟩
  rcases Nat.lt_succ_iff_lt_or_eq.1 hi with hi | rfl
  · exact (hitem.trans helement).isSome (h.items hi)
  · exact helement.isSome (isSome_seeInto s c (.item i) ho)

end State

/-! ### Evaluation of constants -/

def Program.NoConstantTuple (p : Program) (_ : ScopeId) (expr : NodeRef) : Prop :=
  ∀ elements, ¬ p.tree.ConstantTuple expr elements

namespace Program.WellBound

variable {p : Program} (hp : p.WellBound)

include hp

theorem kept_faithful : KeptAmong p p.NoConstantTuple (State.Faithful p) := by
  refine .of_drifts (fun hs h => hs.drift h) (fun hs _ _ b => hs.addContainer _ b _) ?_
  intro s c slot hs hslot o
  -- Nothing goes into the tuple of a constant display.
  obtain ⟨b, -, hb⟩ := hslot
  refine hs.seeInto ?_ fun r elements hc hr _ => ?_
  · refine ObjectStore.lt_size_of_get fun hc => ?_
    rcases hb with ⟨_, site, _, hget⟩ | ⟨_, hclass⟩
    · cases hc.symm.trans hget
    · obtain ⟨k, site, hget, _⟩ := ObjectStore.builtinClassOf?_eq_some.1 hclass
      cases hc.symm.trans hget
  · rcases hb with ⟨_, site, hplace, hget⟩ | ⟨hne, hclass⟩
    · obtain ⟨-, rfl⟩ := Object.inst.inj (hc.symm.trans hget)
      exact absurd hr (hplace elements)
    · rw [hp.builtinClassOf?_inst hs.keeps.keeps hc] at hclass
      exact absurd (Option.some.inj hclass).symm hne

end Program.WellBound

namespace Pairing

abbrev displaying (p : Program) : Pairing :=
  (bracketingAmong p.NoConstantTuple fun _ => True).track (State.Faithful p)

namespace displaying

variable {p : Program} {F F' : Nat → Evaluator} {eval eval' : Evaluator} {scope : ScopeId}
  {w s s' : State} {r : NodeRef} {c : ObjectId} {P : Prop}

theorem lawful (hp : p.WellBound) : (displaying p).Lawful p :=
  (bracketing.lawfulAmong ((Inherited.trivial p).among _)).trackAmong hp.kept_faithful

theorem diagonal : (displaying p).Diagonal := ⟨Iff.rfl⟩

theorem reaches (h : (displaying p).rel w s s) (hsettles : s.Settles s')
    (hs' : s'.Faithful p) : (displaying p).Reaches w s s s' s' :=
  (bracketing.reaches h.1 hsettles).track hs'

abbrev excuse (P : Prop) : Exits := ⟨fun _ _ => False, P⟩

/-- An evaluation of a constant has given its object, with all that the constant holds. -/
def Built (p : Program) (s : State) (r : NodeRef) (s' : State) (x y : Option Name) : Prop :=
  x = y ∧ ∃ o, x = some (.unbound o) ∧ s'.Denotes p r o ∧ s'.Holds p r ∧ s.Accrues s'

theorem newTuple (h : (displaying p).rel w s s) (scope : ScopeId) (r : NodeRef) :
    (displaying p).Pairs .none w s s
      (fun s' _ a b => a = b ∧ s'.objects.get a = .inst BuiltinClass.tuple.object r ∧
        s.Accrues s')
      (Infer.newContainer scope .tuple r) (Infer.newContainer scope .tuple r) := by
  have hkeeps := s.objects.keeps_intern (.inst BuiltinClass.tuple.object r)
  unfold Pairs
  rw [matching.newContainer_run]
  refine .ok (reaches h ?_ (h.2.addContainer scope .tuple r)) ⟨rfl, ?_, hkeeps, id⟩
  · obtain ⟨_, _, hrun, hsettles⟩ := Infer.settling_newContainer scope .tuple r s
    rw [matching.newContainer_run] at hrun
    cases hrun
    exact hsettles
  · exact ObjectStore.get_intern _ _

theorem observe (h : (displaying p).rel w s s) {slot : Slot} {o : ObjectId}
    (hs' : (s.seeInto c slot o).Faithful p) :
    (displaying p).Pairs .none w s s (fun s' _ _ _ => s' = s.seeInto c slot o)
      (Infer.observe c slot o) (Infer.observe c slot o) := by
  obtain ⟨_, _, hrun, hsettles⟩ := Infer.settling_observe c slot o s
  cases hrun
  exact .ok (reaches h hsettles hs') rfl

theorem elementObject (heval : (displaying p).Pairs (excuse P) w s s
      (fun s' _ => Built p s r s') (eval scope r) (eval' scope r)) :
    (displaying p).Pairs (excuse P) w s s
      (fun s' _ a b => a = b ∧ s'.Denotes p r a ∧ s'.Holds p r ∧ s.Accrues s')
      (Infer.elementObject eval scope r) (Infer.elementObject eval' scope r) := by
  refine .bind heval.attempt.of_silent fun x y s' t' hr hxy => ?_
  cases hxy with
  | error hfg => exact hfg.elim
  | ok hxy =>
      obtain ⟨rfl, o, rfl, hbuilt⟩ := hxy
      exact .pure hr.rel ⟨rfl, hbuilt⟩

/-- Filling the tuple of a constant display, from a position on. -/
theorem fillTuple (hp : p.WellBound) {elements : List NodeRef}
    (hr : p.tree.ConstantTuple r elements) (h : (displaying p).rel w s s)
    (hc : s.objects.get c = .inst BuiltinClass.tuple.object r) {k : Nat} {es : List NodeRef}
    (hes : elements.drop k = es) (hfull : s.Full c k)
    (heval : ∀ e ∈ es, ∀ s, (displaying p).rel w s s →
      (displaying p).Pairs (excuse P) w s s (fun s' _ => Built p s e s') (eval scope e)
        (eval' scope e)) :
    (displaying p).Pairs (excuse P) w s s
      (fun s' _ _ _ => s.Accrues s' ∧ s'.Full c elements.length ∧ ∀ e ∈ es, s'.Holds p e)
      (Infer.fillTuple eval scope c k es) (Infer.fillTuple eval' scope c k es) := by
  induction es generalizing s k with
  | nil =>
      refine .pure h ⟨.refl s, hfull.of_le (List.drop_eq_nil_iff.1 hes), ?_⟩
      exact fun _ he => nomatch he
  | cons e es ih =>
      have hposition : elements[k]? = some e := by
        have hhead := congrArg (·[0]?) hes
        simpa using hhead
      have hrest : elements.drop (k + 1) = es := by
        rw [← List.tail_drop, hes, List.tail_cons]
      refine .bind (elementObject (heval e List.mem_cons_self s h)) fun o o' s₁ t₁ hr₁ ho => ?_
      obtain rfl : s₁ = t₁ := hr₁.rel.1.1
      obtain ⟨rfl, hdenotes, hholds, haccrues⟩ := ho
      have hc₁ := haccrues.keeps.get_eq_of_known hc Object.noConfusion
      have hfull₁ := hfull.accrue haccrues
      have hknown := hdenotes.isKnown hp hr₁.rel.2
      have hitem : (s₁.seeInto c (.item k) o).Faithful p :=
        hr₁.rel.2.seePlace hr hc₁ hdenotes fun _ => hposition
      refine .bind (observe hr₁.rel hitem).of_none fun _ _ s₂ t₂ hr₂ hs₂ => ?_
      obtain rfl : s₂ = t₂ := hr₂.rel.1.1
      subst hs₂
      have helement : ((s₁.seeInto c (.item k) o).seeInto c .element o).Faithful p := by
        refine hr₂.rel.2.seePlace hr hc₁ hdenotes fun hnone => ?_
        -- The slot of the elements is empty only before the first of them.
        obtain rfl : k = 0 := by
          by_contra hk
          have hsome := hfull₁.element (Nat.pos_of_ne_zero hk)
          have hsome := (State.accrues_seeInto s₁ c (.item k) o).isSome hsome
          rw [hnone] at hsome
          cases hsome
        exact hposition
      refine .bind (observe hr₂.rel helement).of_none fun _ _ s₃ t₃ hr₃ hs₃ => ?_
      obtain rfl : s₃ = t₃ := hr₃.rel.1.1
      subst hs₃
      have hseen := (State.accrues_seeInto s₁ c (.item k) o).trans
        (State.accrues_seeInto _ c .element o)
      have hfull₃ := hfull₁.seeNext hknown
      refine (ih hr₃.rel hc₁ hrest hfull₃ fun e he => heval e (List.mem_cons_of_mem _ he)).mono
        fun s' t' _ _ _ hfilled => ?_
      obtain ⟨haccrues', hfull', hholds'⟩ := hfilled
      refine ⟨(haccrues.trans hseen).trans haccrues', hfull', fun e' he' => ?_⟩
      rcases List.mem_cons.1 he' with rfl | he'
      · exact hholds.accrue (hseen.trans haccrues')
      · exact hholds' e' he'

/-- Evaluators with a bound on their depth that do in faithful states what evaluation
does. -/
structure Steps (p : Program) (F : Nat → Evaluator) : Prop where
  zero (scope : ScopeId) (expr : NodeRef) : F 0 scope expr = throw .exhausted
  succ (n : Nat) (scope : ScopeId) (expr : NodeRef) {s : State} (hs : s.Faithful p) :
    F (n + 1) scope expr s = Infer.evaluateStep p (F n) scope expr s

theorem literal (hp : p.WellBound) (h : (displaying p).rel w s s) {l : Literal}
    (hn : p.tree.node? r = some (.literal l)) :
    (displaying p).Pairs .none w s s (fun s' _ => Built p s r s')
      (Infer.evaluateStep p eval scope r) (Infer.evaluateStep p eval' scope r) := by
  have hmade := ((lawful hp).builtinInstance h (c := .ofLiteral l) (by cases l <;> rfl)).and_left
    (P := fun s' o => s'.objects.get o = .inst (BuiltinClass.ofLiteral l).object none ∧
      s.Accrues s') fun o s' hrun => by
        cases hrun
        exact ⟨ObjectStore.get_intern _ _, s.objects.keeps_intern _, id⟩
  unfold Infer.evaluateStep
  simp only [hn]
  refine .bind hmade fun o o' s' t' hr ho => .pure hr.rel ?_
  obtain ⟨hoo, hget, haccrues⟩ := ho
  obtain rfl : o = o' := hoo
  exact ⟨rfl, o, rfl, (State.denotes_literal hn).2 hget, .literal hn, haccrues⟩

theorem tuple (hp : p.WellBound) {elements : List NodeRef}
    (hr : p.tree.ConstantTuple r elements) (h : (displaying p).rel w s s)
    (heval : ∀ e ∈ elements, ∀ s, (displaying p).rel w s s →
      (displaying p).Pairs (excuse P) w s s (fun s' _ => Built p s e s') (eval scope e)
        (eval' scope e)) :
    (displaying p).Pairs (excuse P) w s s (fun s' _ => Built p s r s')
      (Infer.evaluateStep p eval scope r) (Infer.evaluateStep p eval' scope r) := by
  unfold Infer.evaluateStep
  simp only [hr.2]
  refine .bind (newTuple h scope r).of_none fun c c' s₁ t₁ hr₁ hc => ?_
  obtain rfl : s₁ = t₁ := hr₁.rel.1.1
  obtain ⟨rfl, hget, haccrues⟩ := hc
  have hnone : s₁.Full c 0 := ⟨fun hi => absurd hi (Nat.not_lt_zero _), nofun⟩
  refine .bind (fillTuple hp hr hr₁.rel hget List.drop_zero hnone heval)
    fun _ _ s₂ t₂ hr₂ hfilled => .pure hr₂.rel ?_
  obtain ⟨haccrues', hfull, hholds⟩ := hfilled
  have hget' := haccrues'.keeps.get_eq_of_known hget Object.noConfusion
  exact ⟨rfl, c, rfl, (State.denotes_tuple hr.2).2 hget', .tuple hr.2 hget' hfull hholds,
    haccrues.trans haccrues'⟩

theorem Steps.evaluateWithin (p : Program) : Steps p (Infer.evaluateWithin p) :=
  ⟨fun _ _ => rfl, fun _ _ _ _ _ => rfl⟩

/-- A constant is built alike with a smaller and a larger bound, unless the smaller one is
below its height. -/
theorem constant (hp : p.WellBound) (hF : Steps p F) (hF' : Steps p F')
    (scope : ScopeId) (hr : p.tree.Constant r) {n m : Nat} (hnm : n ≤ m)
    (h : (displaying p).rel w s s) :
    (displaying p).Pairs (excuse (p.tree.Descending → n < p.tree.height r)) w s s
      (fun s' _ => Built p s r s') (F n scope r) (F' m scope r) := by
  induction hr generalizing n m s with
  | @literal r l hn =>
      cases n with
      | zero =>
          rw [hF.zero]
          exact .exhausted fun _ => p.tree.height_pos r
      | succ n =>
          obtain ⟨m, rfl⟩ : ∃ k, m = k + 1 := ⟨m - 1, by omega⟩
          unfold Pairs
          rw [hF.succ n scope r h.2, hF'.succ m scope r h.2]
          exact (literal hp h hn).of_none
  | @tuple r elements hn he ih =>
      cases n with
      | zero =>
          rw [hF.zero]
          exact .exhausted fun _ => p.tree.height_pos r
      | succ n =>
          obtain ⟨m, rfl⟩ : ∃ k, m = k + 1 := ⟨m - 1, by omega⟩
          unfold Pairs
          rw [hF.succ n scope r h.2, hF'.succ m scope r h.2]
          refine tuple hp ⟨.tuple hn he, hn⟩ h fun e hmem s hs => ?_
          refine (ih e hmem (Nat.le_of_succ_le_succ hnm) hs).imp (fun _ _ => id)
            (fun hlt hd => ?_) fun _ _ _ _ _ => id
          have hbelow := Tree.height_lt hd hn (r := e) hmem
          exact Nat.lt_of_le_of_lt (Nat.succ_le_of_lt (hlt hd)) hbelow

/-- Evaluation that steps in faithful states pairs with evaluation. -/
theorem pairsOn (hp : p.WellBound) (hF : Steps p F) (expr : NodeRef) :
    (displaying p).PairsOn (fun _ => ¬ p.tree.Descending) (p.evaluateBy F) p.evaluate expr := by
  refine (lawful hp).pairsOn_evaluateByHeight State.room id
    (fun h => bracketing.room_and_budget h.1) hF.zero
    (fun n m expr excused hnm hexcused hstep => ?_) expr
  intro scope w s t h
  obtain rfl : s = t := h.1.1
  by_cases hplace : p.NoConstantTuple scope expr
  · have hpairs := hstep scope hplace w s s h
    unfold Pairs at hpairs ⊢
    rw [hF.succ n scope expr h.2]
    exact hpairs
  · simp only [Program.NoConstantTuple, not_forall, not_not] at hplace
    obtain ⟨elements, hr, _⟩ := hplace
    refine (constant hp hF (.evaluateWithin p) scope hr (Nat.succ_le_succ hnm) h).imp
      (fun _ _ => False.elim) (hexcused w) fun s' t' x y _ hbuilt => ?_
    rw [hbuilt.1]
    exact diagonal.sameFound_iff.2 rfl

end displaying

end Pairing

/-! ### Operations -/

namespace State

variable {p : Program} {s s' : State} {r e : NodeRef} {path : List Nat} {o a b : ObjectId}

theorem Faithful.rel (hs : s.Faithful p) : (Pairing.displaying p).rel s s s :=
  ⟨⟨rfl, .refl s, trivial⟩, hs⟩

theorem Faithful.pairs (hp : p.WellBound) (hs : s.Faithful p) {F : Nat → Evaluator}
    (hF : Pairing.displaying.Steps p F) {α : Type} (op : Operation α) :
    (Pairing.displaying p).Pairs
      ((Pairing.displaying p).exits (fun _ => ¬ p.tree.Descending) s) s s s (fun _ _ => Eq)
      (op.run p (p.evaluateBy F)) (op.perform p) :=
  (Pairing.displaying.lawful hp).operation_eq Pairing.displaying.diagonal
    (Pairing.displaying.pairsOn hp hF) (fun _ => id) hs.rel op fun _ =>
      Pairing.bracketing.records.track (.of_drifts fun hs h => hs.drift h)

/-- Between operations the tuples of constants are faithful. -/
theorem Reached.faithful (hp : p.WellBound) (hs : s.Reached p) : s.Faithful p := by
  refine hs.of_after (fun calls options => faithful_start hp calls options)
    (fun s hs calls options => ?_) fun s hs {_} op => (hs.pairs hp (.evaluateWithin p) op).after
  exact hs.of_lost (.refl _) hs.distinct id

/-- What follows from faithful tuples is found wherever an expression is evaluated. -/
theorem Faithful.watch_eq (hp : p.WellBound) (hd : p.tree.Descending) (hs : s.Faithful p)
    {W : State → Prop} [DecidablePred W] (hW : ∀ s, s.Faithful p → W s) {α : Type}
    (op : Operation α) : op.watch p W s = op.perform p s := by
  have hwatching : Pairing.displaying.Steps p (Infer.evaluateWatching p W) :=
    ⟨fun _ _ => rfl, fun _ _ _ _ hs => if_pos (hW _ hs)⟩
  exact (hs.pairs hp hwatching op).eq_run (fun h => h.1.1) (fun _ => id) id
    (fun _ _ hfg => hfg.1) fun he => he hd

/-- A constant evaluates to its object. -/
theorem Faithful.evaluate (hp : p.WellBound) (hd : p.tree.Descending) (hs : s.Faithful p)
    (hr : p.tree.Constant r) (scope : ScopeId) :
    ∃ o s', p.evaluate scope r s = .ok (some (.unbound o)) s' ∧ s'.Faithful p ∧
      s'.Denotes p r o ∧ s'.Holds p r ∧ s.objects.Keeps s'.objects := by
  have hbuilt := Pairing.displaying.constant hp (.evaluateWithin p) (.evaluateWithin p)
    scope hr (Nat.le_refl (p.budget s)) hs.rel
  have hheight : p.tree.height r ≤ p.budget s :=
    Nat.le_trans (Nat.le_add_left _ _) (p.need_le_budget s r)
  unfold Pairing.Pairs at hbuilt
  change ∃ o s', Infer.evaluateWithin p (p.budget s) scope r s = _ ∧ _
  generalize Infer.evaluateWithin p (p.budget s) scope r s = x at hbuilt ⊢
  generalize hy : x = y at hbuilt
  cases hbuilt with
  | ok hreaches hbuilt =>
      obtain ⟨-, o, rfl, hdenotes, hholds, _⟩ := hbuilt
      exact ⟨o, _, rfl, hreaches.rel.2, hdenotes, hholds, hreaches.keeps⟩
  | reentrant _ hfg => exact hfg.elim
  | exhausted he => exact absurd (he hd) (Nat.not_lt.2 hheight)
  | strayed _ _ hstray => exact hstray.elim
  | strayedReentrant _ hfg _ => exact hfg.elim

/-! ### Unpacking -/

/-- An object is what a path leads to in a constant: the object of a constant in it, or
nothing known. -/
def ShowsAt (p : Program) (s : State) (r : NodeRef) (path : List Nat) (o : ObjectId) : Prop :=
  (∃ e, p.tree.constantAt r path = some e ∧ s.Denotes p e o) ∨
    p.tree.constantAt r path = none ∧ o = .unknown

theorem ShowsAt.keeps (h : s.ShowsAt p r path o) (hk : s.objects.Keeps s'.objects) :
    s'.ShowsAt p r path o := by
  rcases h with ⟨e, he, hdenotes⟩ | h
  · exact .inl ⟨e, he, hdenotes.keeps hk⟩
  · exact .inr h

theorem ShowsAt.unique (hs : s.Faithful p) (ha : s.ShowsAt p r path a)
    (hb : s.ShowsAt p r path b) : a = b := by
  rcases ha with ⟨e, he, ha⟩ | ⟨hnone, rfl⟩ <;> rcases hb with ⟨e', he', hb⟩ | ⟨hnone', rfl⟩
  · cases he.symm.trans he'
    exact ha.unique hs hb
  · cases he.symm.trans hnone'
  · cases hnone.symm.trans he'
  · rfl

/-- In whatever states, the objects are the same. -/
theorem ShowsAt.get_eq (hp : p.WellBound) (hs : s.Faithful p) (hs' : s'.Faithful p)
    (ha : s.ShowsAt p r path a) (hb : s'.ShowsAt p r path b) :
    s.objects.get a = s'.objects.get b := by
  rcases ha with ⟨e, he, ha⟩ | ⟨hnone, rfl⟩ <;> rcases hb with ⟨e', he', hb⟩ | ⟨hnone', rfl⟩
  · cases he.symm.trans he'
    exact Option.some.inj (ha.symm.trans hb)
  · cases he.symm.trans hnone'
  · cases hnone.symm.trans he'
  · rw [hp.get_unknown hs.keeps.keeps, hp.get_unknown hs'.keeps.keeps]

theorem Faithful.unpack_unknown (hp : p.WellBound) (hs : s.Faithful p) (path : List Nat) :
    s.unpack .unknown path = .unknown := by
  have hget := hp.get_unknown hs.keeps.keeps
  have hitem : ∀ position, s.itemOf .unknown position = .unknown := by
    intro position
    simp only [Memory.itemOf, Memory.elementOf, ObjectStore.builtinClassOf?,
      ObjectStore.classOf?, hget, Option.map_none, reduceCtorEq, if_false]
  induction path with
  | nil => rfl
  | cons position path ih =>
      change s.unpack (s.itemOf .unknown position) path = .unknown
      rw [hitem, ih]

/-- One position of a tuple that holds its elements: the element there, or else the first
one. -/
theorem Faithful.itemOf_tuple (hp : p.WellBound) (hs : s.Faithful p) {elements : List NodeRef}
    (hr : p.tree.ConstantTuple r elements) (hfull : s.Full o elements.length)
    (ho : s.objects.get o = .inst BuiltinClass.tuple.object r) (position : Nat) :
    (∃ e, elements[position]?.or elements[0]? = some e ∧
      s.Denotes p e (s.itemOf o position)) ∨
    elements = [] ∧ s.itemOf o position = .unknown := by
  have hclass := hp.builtinClassOf?_inst hs.keeps.keeps ho
  have hitem : s.itemOf o position = (s.evidence.get? o (.item position)).getD
      ((s.evidence.get? o .element).getD .unknown) := by
    simp only [Memory.itemOf, Memory.elementOf, hclass, ho, if_true]
  rw [hitem]
  cases hv : s.evidence.get? o (.item position) with
  | some v =>
      obtain ⟨e, he, hdenotes⟩ := hs.shows ho hr hv
      refine .inl ⟨e, ?_, hdenotes⟩
      rw [show elements[position]? = some e from he, Option.some_or]
  | none =>
      have hmissing : elements[position]? = none := by
        refine List.getElem?_eq_none (Nat.le_of_not_lt fun hlt => ?_)
        have hsome := hfull.items hlt
        rw [hv] at hsome
        cases hsome
      rw [hmissing, Option.none_or, Option.getD_none]
      cases hw : s.evidence.get? o .element with
      | some w => exact .inl (hs.shows ho hr hw)
      | none =>
          refine .inr ⟨List.eq_nil_of_length_eq_zero (Nat.eq_zero_of_not_pos fun hpos => ?_), rfl⟩
          have hsome := hfull.element hpos
          rw [hw] at hsome
          cases hsome

/-- The object of a constant is narrowed along a path to what the path leads to. -/
theorem Faithful.unpack (hp : p.WellBound) (hs : s.Faithful p) (hr : p.tree.Constant r)
    (hholds : s.Holds p r) (ho : s.Denotes p r o) (path : List Nat) :
    s.ShowsAt p r path (s.unpack o path) := by
  induction path generalizing r o with
  | nil => exact .inl ⟨r, rfl, ho⟩
  | cons position path ih =>
      change s.ShowsAt p r (position :: path) (s.unpack (s.itemOf o position) path)
      unfold ShowsAt
      rw [Tree.constantAt.eq_2]
      cases hr with
      | @literal _ l hn =>
          have hget := (denotes_literal hn).1 ho
          have hclass := hp.builtinClassOf?_inst hs.keeps.keeps hget
          simp only [hn]
          cases l with
          | str text =>
              have hitem : s.itemOf o position = o := by
                simp only [Memory.itemOf, Memory.elementOf, hclass, hget,
                  BuiltinClass.ofLiteral, Option.some.injEq, reduceCtorEq, if_false]
              rw [hitem]
              exact ih (.literal hn) hholds ho
          | _ =>
              have hitem : s.itemOf o position = .unknown := by
                simp only [Memory.itemOf, Memory.elementOf, hclass, hget,
                  BuiltinClass.ofLiteral, Option.some.injEq, reduceCtorEq, if_false]
              rw [hitem]
              exact .inr ⟨rfl, hs.unpack_unknown hp path⟩
      | @tuple _ elements hn he =>
          have hget := (denotes_tuple hn).1 ho
          have hr : p.tree.ConstantTuple r elements := ⟨.tuple hn he, hn⟩
          simp only [hn]
          cases hholds with
          | literal hn' => cases hn.symm.trans hn'
          | @tuple _ _ c hn' hc hfull hes =>
              cases hn.symm.trans hn'
              obtain rfl : o = c := ho.unique hs ((denotes_tuple hn).2 hc)
              rcases hs.itemOf_tuple hp hr hfull hget position with
                ⟨e, hposition, hdenotes⟩ | ⟨rfl, hunknown⟩
              · have hmem : e ∈ elements := by
                  rcases Option.or_eq_some_iff.1 hposition with h | ⟨-, h⟩ <;>
                    exact List.mem_of_getElem? h
                rw [hposition, Option.bind_some]
                exact ih (he e hmem) (hes e hmem) hdenotes
              · rw [hunknown]
                exact .inr ⟨rfl, hs.unpack_unknown hp path⟩

/-- What an assignment of a constant gives is what the path leads to. -/
theorem Faithful.assignedObject (hp : p.WellBound) (hd : p.tree.Descending)
    (hs : s.Faithful p) (hr : p.tree.Constant r) (scope : ScopeId) (path : List Nat) :
    ∃ a s', Infer.assignedObject p p.evaluate scope r path s = .ok (some a) s' ∧
      s'.Faithful p ∧ s'.ShowsAt p r path a ∧ s.objects.Keeps s'.objects := by
  obtain ⟨hconstant, hpath⟩ := Tree.constant_follow hr path
  obtain ⟨o, s', hrun, hs', hdenotes, hholds, hkeeps⟩ := hs.evaluate hp hd hconstant scope
  refine ⟨_, s', Infer.bind_of_ok hrun, hs', ?_, hkeeps⟩
  have hshows := hs'.unpack hp hconstant hholds hdenotes (p.tree.follow r path).2
  unfold ShowsAt at hshows
  rwa [hpath] at hshows

/-- A constant is unpacked alike in the source and as an object: an assignment gives along
a path what the object of the constant is narrowed to, which is what the path leads to in
it. From one state both give the same object, and one after the other, in either order, they
give the same number for it. -/
def UnpacksAlike (p : Program) (s : State) (scope : ScopeId) (value : NodeRef)
    (path : List Nat) : Prop :=
  ∃ a s₁ o s₂,
    Infer.assignedObject p p.evaluate scope value path s = .ok (some a) s₁ ∧
    p.evaluate scope value s = .ok (some (.unbound o)) s₂ ∧
    s₁.ShowsAt p value path a ∧
    s₁.objects.get a = s₂.objects.get (s₂.unpack o path) ∧
    (∃ o' s', p.evaluate scope value s₁ = .ok (some (.unbound o')) s' ∧
      s'.unpack o' path = a) ∧
    ∃ s', Infer.assignedObject p p.evaluate scope value path s₂ =
      .ok (some (s₂.unpack o path)) s'

theorem Faithful.unpacksAlike (hp : p.WellBound) (hd : p.tree.Descending) (hs : s.Faithful p)
    (hr : p.tree.Constant r) (scope : ScopeId) (path : List Nat) :
    s.UnpacksAlike p scope r path := by
  have hwhole : ∀ {s : State}, s.Faithful p → ∃ o s', p.evaluate scope r s =
      .ok (some (.unbound o)) s' ∧ s'.Faithful p ∧ s'.ShowsAt p r path (s'.unpack o path) ∧
      s.objects.Keeps s'.objects := by
    intro s hs
    obtain ⟨o, s', hrun, hs', hdenotes, hholds, hkeeps⟩ := hs.evaluate hp hd hr scope
    exact ⟨o, s', hrun, hs', hs'.unpack hp hr hholds hdenotes path, hkeeps⟩
  obtain ⟨a, s₁, hassigned, hs₁, ha, -⟩ := hs.assignedObject hp hd hr scope path
  obtain ⟨o, s₂, hevaluated, hs₂, ho, -⟩ := hwhole hs
  obtain ⟨o', s₃, hevaluated', hs₃, ho', hkeeps⟩ := hwhole hs₁
  obtain ⟨a', s₄, hassigned', hs₄, ha', hkeeps'⟩ := hs₂.assignedObject hp hd hr scope path
  refine ⟨a, s₁, o, s₂, hassigned, hevaluated, ha, ha.get_eq hp hs₁ hs₂ ho,
    ⟨o', s₃, hevaluated', ho'.unique hs₃ (ha.keeps hkeeps)⟩, s₄, ?_⟩
  rw [hassigned', ha'.unique hs₄ (ho.keeps hkeeps')]

end State

/-- Constants are unpacked in the source as their objects are. In every state between
operations, and in every one in which an operation evaluates an expression, an assignment
of a literal or of a tuple display of constants gives, in any scope and along any path,
what the object of the whole value is narrowed to. -/
theorem constants_unpackedAlike {tree : Tree} (hd : tree.Descending) (atoms : Interner)
    (root : NodeRef) :
    let p := Program.bind tree atoms root
    let Unpacked : State → Prop := fun s => ∀ value, tree.Constant value →
      ∀ (scope : ScopeId) (path : List Nat), s.UnpacksAlike p scope value path
    ∀ s : State, s.Reached p → Unpacked s ∧ ∀ {α : Type} (op : Operation α),
      letI := Classical.decPred Unpacked
      op.watch p Unpacked s = op.perform p s := by
  intro p Unpacked s hs
  have hp : p.WellBound := (Program.wellBound_bind tree atoms root).1
  have hfaithful : ∀ s : State, s.Faithful p → Unpacked s :=
    fun s hs value hvalue scope path => hs.unpacksAlike hp hd hvalue scope path
  refine ⟨hfaithful s (hs.faithful hp), fun {α} op => ?_⟩
  let _ := Classical.decPred Unpacked
  exact (hs.faithful hp).watch_eq hp hd hfaithful op

/-- The assignment `t = ((1, "s"), ())`. -/
def Tree.tupling : Tree :=
  ⟨#[.literal (.int 1), .literal (.str "s"), .tuple [some 0, some 1], .tuple [],
    .tuple [some 2, some 3], .name 1, .assign [some 5] (some 4), .module [some 6]]⟩

/-- A path into the text goes on in it, a position that is missing falls back on the first
element, and nothing is known of an element of the empty tuple. -/
theorem constants_unpackedAlike_tupling :
    let p := Program.bind Tree.tupling ⟨#["", "t"]⟩ (some 7)
    let s := State.start (.fresh p) {} {}
    Tree.tupling.Descending ∧ s.Reached p ∧ Tree.tupling.Constant (some 4) ∧
      Tree.tupling.constantAt (some 4) [0, 1, 5] = some (some 1) ∧
      Tree.tupling.constantAt (some 4) [7, 0] = some (some 0) ∧
      Tree.tupling.constantAt (some 4) [1, 0] = none ∧
      ∀ path ∈ [[0, 1, 5], [7, 0], [1, 0]], s.UnpacksAlike p 0 (some 4) path := by
  intro p s
  have hd : Tree.tupling.Descending := by decide
  have hs : s.Reached p := .start _ _
  have hinner : Tree.tupling.Constant (some 2) := by
    have hn : Tree.tupling.node? (some 2) = some (.tuple [some 0, some 1]) := rfl
    refine .tuple hn ?_
    simpa using ⟨.literal rfl, .literal rfl⟩
  have hvalue : Tree.tupling.Constant (some 4) := by
    have hn : Tree.tupling.node? (some 4) = some (.tuple [some 2, some 3]) := rfl
    refine .tuple hn ?_
    simpa using ⟨hinner, .tuple rfl nofun⟩
  obtain ⟨hunpacked, -⟩ := constants_unpackedAlike hd ⟨#["", "t"]⟩ (some 7) s hs
  exact ⟨hd, hs, hvalue, rfl, rfl, rfl, fun path _ => hunpacked _ hvalue 0 path⟩

end ObjectInference
