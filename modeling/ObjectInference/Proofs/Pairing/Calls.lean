import ObjectInference.Proofs.Arguments
import ObjectInference.Proofs.Pairing.Laws

/-!
Displays, arguments and calls of built-in functions.

These evaluate expressions that stand below the one at hand and leave both
guards alone in between. So all that is supposed of the two evaluators is that
they agree on what stands below, which is `Agree`.
-/

namespace ObjectInference

namespace Pairing

/-- What stands below an expression, which is no definition, is in a set. -/
def Under (p : Program) (On : ScopeId → NodeRef → Prop) (scope : ScopeId) (e : NodeRef) : Prop :=
  ∀ node, p.tree.node? e = some node → node.isDefinition = false → ∀ r ∈ node.places, On scope r

/-- Two evaluators agree on a set of expressions in scopes that has with an expression all
that stands below it. -/
structure Agree (R : Pairing) (p : Program) (excused : R.World → Prop)
    (eval eval' : Evaluator) (On : ScopeId → NodeRef → Prop) : Prop where
  below {scope : ScopeId} {e : NodeRef} (he : On scope e) : Under p On scope e
  pairs {scope : ScopeId} {e : NodeRef} (he : On scope e) : R.PairsIn excused eval eval' scope e

/-- The expressions that arguments evaluate are in a set. -/
def ArgumentsOn (p : Program) (On : ScopeId → NodeRef → Prop) : Arguments → Prop
  | .callSite call scope _ => Under p On scope call
  | .objects _ => True

variable {R : Pairing} {p : Program} {excused : R.World → Prop}
  {eval eval' : Evaluator} {On : ScopeId → NodeRef → Prop} {w : R.World} {s t : State} {E : Exits}
  {scope : ScopeId}

/-- Evaluators that agree on every expression. -/
theorem Agree.of_forall (h : ∀ e, R.PairsOn excused eval eval' e) :
    R.Agree p excused eval eval' fun _ _ => True :=
  ⟨fun _ _ _ _ _ _ => trivial, fun _ => h _ _⟩

namespace Lawful

/-! ### Attributes and callees -/

theorem attributeName (L : R.Lawful p) (h : R.rel w s t) (name : Atom) {v v' : Option Name}
    (hv : R.SameFound s t v v') :
    R.Pairs E w s t R.SameFound (Infer.attributeName p name v)
      (Infer.attributeName p name v') := by
  refine .get_bind (.pure h ?_)
  cases hv with
  | none => exact .none
  | @some n n' hn =>
      have ha := L.lookup h hn.1 name
      simp only [Option.bind_some]
      generalize p.attribute? s.objects n.object name = x,
        p.attribute? t.objects n'.object name = y at ha ⊢
      cases ha with
      | none => exact .none
      | some hab => exact .some ⟨hab, rfl⟩

theorem primaryAndResult (L : R.Lawful p) (A : R.Agree p excused eval eval' On)
    (h : R.rel w s t) {expr : NodeRef} (he : On scope expr) :
    R.Pairs (R.exits excused w) w s t
      (fun s t x y => R.SameFound s t x.1 y.1 ∧ R.SameFound s t x.2 y.2)
      (Infer.primaryAndResult p eval scope expr) (Infer.primaryAndResult p eval' scope expr) := by
  have hdirect : R.Pairs (R.exits excused w) w s t
      (fun s t x y => R.SameFound s t x.1 y.1 ∧ R.SameFound s t x.2 y.2)
      (do return (none, ← eval scope expr)) (do return (none, ← eval' scope expr)) := by
    refine .bind (A.pairs he w s t h) fun x y s' t' hr hxy => ?_
    exact .pure hr.rel ⟨.none, hxy⟩
  unfold Infer.primaryAndResult
  cases hn : p.tree.node? expr with
  | none => exact hdirect
  | some node =>
      cases node with
      | attr value name =>
          have hv : On scope value := A.below he _ hn rfl _ (by simp [Node.places])
          refine .bind (A.pairs hv w s t h) fun x y s' t' hr hxy => ?_
          refine .bind (L.attributeName hr.rel name hxy) fun x' y' s'' t'' hr' hxy' => ?_
          exact .pure hr'.rel ⟨hr'.found hxy, hxy'⟩
      | _ => exact hdirect

/-! ### Displays -/

theorem elementObject (L : R.Lawful p) (A : R.Agree p excused eval eval' On)
    (h : R.rel w s t) {expr : NodeRef} (he : On scope expr) :
    R.Pairs (R.exits excused w).silent w s t R.same (Infer.elementObject eval scope expr)
      (Infer.elementObject eval' scope expr) := by
  refine .bind (A.pairs he w s t h).attempt fun x y s' t' hr hxy => ?_
  cases hxy with
  | ok hxy => exact .pure hr.rel (L.objectOf hr.rel hxy)
  | error _ => exact .pure hr.rel (L.unknown hr.rel)

theorem fillTuple (L : R.Lawful p) (A : R.Agree p excused eval eval' On) (h : R.rel w s t)
    {o o' : ObjectId} (ho : R.same s t o o') {site : NodeRef} (hmay : R.may scope site)
    (hget : s.objects.get o = .inst BuiltinClass.tuple.object site) (position : Nat)
    {es : List NodeRef} (hes : ∀ e ∈ es, On scope e) :
    R.Ends (R.exits excused w) w s t (Infer.fillTuple eval scope o position es)
      (Infer.fillTuple eval' scope o' position es) := by
  induction es generalizing s t position with
  | nil => exact .pure h trivial
  | cons e es ih =>
      have hslot : ∀ slot : Slot, slot.isOf .tuple = true → s.objects.Receives R.may o slot :=
        fun _ hslot => ⟨_, hslot, .inl ⟨_, _, hmay, hget⟩⟩
      refine .bind (L.elementObject A h (hes e List.mem_cons_self)).of_silent
        fun x y s' t' hr hxy => ?_
      have hitem := (hslot (.item position) rfl).keeps hr.keeps
      refine .bind (L.observe hr.rel (hr.same ho) hxy hitem).of_none fun _ _ s'' t'' hr' _ => ?_
      have hr₂ := hr.trans hr'
      have helement := (hslot .element rfl).keeps hr₂.keeps
      refine .bind (L.observe hr₂.rel (hr₂.same ho) (hr'.same hxy) helement).of_none
        fun _ _ s₃ t₃ hr₃ _ => ?_
      have hr₄ := hr₂.trans hr₃
      exact ih hr₄.rel (hr₄.same ho) (hr₄.keeps.get_eq_of_known hget Object.noConfusion) _
        fun e he => hes e (List.mem_cons_of_mem _ he)

theorem fillList (L : R.Lawful p) (A : R.Agree p excused eval eval' On) (h : R.rel w s t)
    {o o' : ObjectId} (ho : R.same s t o o') {site : NodeRef} (hmay : R.may scope site)
    (hget : s.objects.get o = .inst BuiltinClass.list.object site) {es : List NodeRef}
    (hes : ∀ e ∈ es, On scope e) :
    R.Ends (R.exits excused w) w s t (Infer.fillList eval scope o es)
      (Infer.fillList eval' scope o' es) := by
  induction es generalizing s t with
  | nil => exact .pure h trivial
  | cons e es ih =>
      have hslot : s.objects.Receives R.may o .element := ⟨_, rfl, .inl ⟨_, _, hmay, hget⟩⟩
      refine .bind (L.elementObject A h (hes e List.mem_cons_self)).of_silent
        fun x y s' t' hr hxy => ?_
      refine .bind (L.observe hr.rel (hr.same ho) hxy (hslot.keeps hr.keeps)).of_none
        fun _ _ s'' t'' hr' _ => ?_
      have hr₂ := hr.trans hr'
      exact ih hr₂.rel (hr₂.same ho) (hr₂.keeps.get_eq_of_known hget Object.noConfusion)
        fun e he => hes e (List.mem_cons_of_mem _ he)

theorem fillDict (L : R.Lawful p) (A : R.Agree p excused eval eval' On) (h : R.rel w s t)
    {o o' : ObjectId} (ho : R.same s t o o') {site : NodeRef} (hmay : R.may scope site)
    (hget : s.objects.get o = .inst BuiltinClass.dict.object site)
    {entries : List (NodeRef × NodeRef)} (hes : ∀ e ∈ entries, On scope e.1 ∧ On scope e.2) :
    R.Ends (R.exits excused w) w s t (Infer.fillDict eval scope o entries)
      (Infer.fillDict eval' scope o' entries) := by
  induction entries generalizing s t with
  | nil => exact .pure h trivial
  | cons e es ih =>
      obtain ⟨hkey, hvalue⟩ := hes e List.mem_cons_self
      have hslot : ∀ slot : Slot, slot.isOf .dict = true → s.objects.Receives R.may o slot :=
        fun _ hslot => ⟨_, hslot, .inl ⟨_, _, hmay, hget⟩⟩
      refine .bind (L.elementObject A h hkey).of_silent fun k k' s' t' hr hk => ?_
      refine .bind (L.elementObject A hr.rel hvalue).of_silent fun v v' s'' t'' hr' hv => ?_
      have hr₂ := hr.trans hr'
      refine .bind (L.observe hr₂.rel (hr₂.same ho) (hr'.same hk)
        ((hslot .element rfl).keeps hr₂.keeps)).of_none fun _ _ s₃ t₃ hr₃ _ => ?_
      have hr₄ := hr₂.trans hr₃
      refine .bind (L.observe hr₄.rel (hr₄.same ho) (hr₃.same hv)
        ((hslot .value rfl).keeps hr₄.keeps)).of_none fun _ _ s₅ t₅ hr₅ _ => ?_
      have hr₆ := hr₄.trans hr₅
      exact ih hr₆.rel (hr₆.same ho) (hr₆.keeps.get_eq_of_known hget Object.noConfusion)
        fun e he => hes e (List.mem_cons_of_mem _ he)

/-! ### Arguments -/

theorem argumentObject (L : R.Lawful p) (A : R.Agree p excused eval eval' On)
    (h : R.rel w s t) {expr : NodeRef} (he : On scope expr) :
    R.Pairs (R.exits excused w) w s t R.same (Infer.argumentObject eval scope expr)
      (Infer.argumentObject eval' scope expr) :=
  .bind (A.pairs he w s t h) fun _ _ _ _ hr hxy => .pure hr.rel (L.objectOf hr.rel hxy)

theorem argumentObjects (L : R.Lawful p) (A : R.Agree p excused eval eval' On)
    (h : R.rel w s t) {es : List NodeRef} (hes : ∀ e ∈ es, On scope e) :
    R.Pairs (R.exits excused w) w s t R.SameList (es.mapM (Infer.argumentObject eval scope))
      (es.mapM (Infer.argumentObject eval' scope)) := by
  induction es generalizing s t with
  | nil => exact .pure h .nil
  | cons e es ih =>
      simp only [List.mapM_cons]
      refine .bind (L.argumentObject A h (hes e List.mem_cons_self)) fun x y s' t' hr hxy => ?_
      have hrest := ih hr.rel fun e he => hes e (List.mem_cons_of_mem _ he)
      refine .bind hrest fun xs ys s'' t'' hr' hxys => ?_
      exact .pure hr'.rel (.cons (hr'.same hxy) hxys)

theorem namedArguments (L : R.Lawful p) (A : R.Agree p excused eval eval' On)
    (h : R.rel w s t) {es : List NodeRef} (hes : ∀ e ∈ es, On scope e) :
    R.Pairs (R.exits excused w) w s t
      (fun s t => List.Forall₂ fun k k' => k.1 = k'.1 ∧ R.same s t k.2 k'.2)
      (Infer.namedArguments p eval scope es) (Infer.namedArguments p eval' scope es) := by
  induction es generalizing s t with
  | nil => exact .pure h .nil
  | cons e es ih =>
      have hes' : ∀ e ∈ es, On scope e := fun e he => hes e (List.mem_cons_of_mem _ he)
      unfold Infer.namedArguments
      cases hn : p.tree.node? e with
      | none => exact ih h hes'
      | some node =>
          cases node with
          | keyword name value =>
              have hv : On scope value :=
                A.below (hes e List.mem_cons_self) _ hn rfl _ (by simp [Node.places])
              refine .bind (L.argumentObject A h hv) fun x y s' t' hr hxy => ?_
              refine .bind (ih hr.rel hes') fun xs ys s'' t'' hr' hxys => ?_
              exact .pure hr'.rel (.cons ⟨rfl, hr'.same hxy⟩ hxys)
          | _ => exact ih h hes'

theorem resolveArguments (L : R.Lawful p) (A : R.Agree p excused eval eval' On)
    (h : R.rel w s t) {a a' : Arguments} (ha : R.SameArguments s t a a')
    (hon : ArgumentsOn p On a) :
    R.Pairs (R.exits excused w) w s t R.SameResolved (Infer.resolveArguments p eval a)
      (Infer.resolveArguments p eval' a') := by
  cases ha with
  | objects hos => exact .pure h ⟨hos, .nil⟩
  | @callSite call scope r r' hr =>
      have hreceiver : ∀ s' t', R.Reaches w s t s' t' →
          R.SameList s' t' r.toList r'.toList := by
        intro s' t' hs
        cases hr with
        | none => exact .nil
        | some hab => exact .cons (hs.same hab) .nil
      have hnone : R.Pairs (R.exits excused w) w s t R.SameResolved
          (pure { positional := r.toList }) (pure { positional := r'.toList }) :=
        .pure h ⟨hreceiver s t (.refl h), .nil⟩
      simp only [Infer.resolveArguments]
      cases hn : p.tree.node? call with
      | none => exact hnone
      | some node =>
          cases node with
          | call func args keywords =>
              have hargs : ∀ e ∈ args, On scope e := fun e he =>
                hon _ hn rfl e (by simp [Node.places, he])
              have hkeywords : ∀ e ∈ keywords, On scope e := fun e he =>
                hon _ hn rfl e (by simp [Node.places, he])
              refine .bind (L.argumentObjects A h hargs) fun xs ys s' t' hr hxys => ?_
              refine .bind (L.namedArguments A hr.rel hkeywords) fun ks ks' s'' t'' hr' hks => ?_
              refine .pure hr'.rel ⟨?_, hks⟩
              exact List.rel_append (hreceiver s'' t'' (hr.trans hr')) (hr'.list hxys)
          | _ => exact hnone

theorem bindArguments (L : R.Lawful p) (A : R.Agree p excused eval eval' On)
    (h : R.rel w s t) {f f' : ObjectId} (hf : R.same s t f f') {a a' : Arguments}
    (ha : R.SameArguments s t a a') (hon : ArgumentsOn p On a) :
    R.Pairs (R.exits excused w) w s t
      (fun s t os os' => R.same s t f f' ∧ R.SameList s t os os' ∧
        os.length = (p.parameters s.objects f).length)
      (Infer.bindArguments p eval f a) (Infer.bindArguments p eval' f' a') := by
  unfold Infer.bindArguments
  refine .bind (L.resolveArguments A h ha hon) fun x y s' t' hr hxy => ?_
  refine .get_bind (.pure hr.rel ⟨hr.same hf, ?_, length_bindObjects _ _⟩)
  rw [← L.parameters_eq hr.rel (hr.same hf)]
  exact bindObjects_related (L.unknown hr.rel) _ hxy.positional hxy.keywords

/-! ### What is called -/

theorem callTarget (L : R.Lawful p) (h : R.rel w s t) {call : NodeRef}
    (hcall : Under p On scope call)
    {primary primary' : Option Name} (hp : R.SameFound s t primary primary')
    {callee callee' : ObjectId} (hc : R.same s t callee callee') :
    R.Pairs E w s t
      (fun s t x y => Option.Rel (R.SameTarget s t) x y ∧
        ∀ target ∈ x, ArgumentsOn p On target.arguments)
      (Infer.callTarget p scope call primary callee)
      (Infer.callTarget p scope call primary' callee') := by
  have hsite : ∀ r : Option ObjectId, ArgumentsOn p On (.callSite call scope r) :=
    fun _ => hcall
  have hdirect : R.SameOption s t
      ((primary.map Name.object).filter fun o =>
        s.objects.kind o == .inst && p.isMethod s.objects callee)
      ((primary'.map Name.object).filter fun o =>
        t.objects.kind o == .inst && p.isMethod t.objects callee') := by
    cases hp with
    | none => exact .none
    | some hn =>
        simp only [Option.map_some, Option.filter_some]
        rw [← L.kind_eq h hn.1, ← L.isMethod_eq h hc]
        split
        · exact .some hn.1
        · exact .none
  unfold Infer.callTarget
  refine .get_bind ?_
  simp only [← L.kind_eq h hc]
  cases hk : s.objects.kind callee with
  | function => exact .pure h ⟨.some ⟨hc, .callSite _ _ hdirect⟩, by simpa using hsite _⟩
  | builtinFunction => exact .pure h ⟨.some ⟨hc, .callSite _ _ hdirect⟩, by simpa using hsite _⟩
  | cls =>
      have hm := L.constructor? h hc
      simp only
      generalize hx : p.constructor? s.objects callee = x, p.constructor? t.objects callee' = y
        at hm ⊢
      cases hm with
      | none => exact .pure h ⟨.none, by simp⟩
      | some hm =>
          have hb : ∀ b, s.objects.get callee = .builtinClass b → b.isContainer = false :=
            fun b hget => absurd hget (get_of_constructor? hx b)
          refine .bind (L.newInstance h hc hk hb call).of_none fun o o' s' t' hr ho => ?_
          refine .pure hr.rel ⟨.some ⟨hr.same hm, .callSite _ _ (.some ho)⟩, ?_⟩
          simpa using hsite _
  | inst =>
      have hm := L.callOperator? h hc
      simp only
      generalize p.callOperator? s.objects callee = x, p.callOperator? t.objects callee' = y
        at hm ⊢
      refine .pure h ?_
      cases hm with
      | none => exact ⟨.none, by simp⟩
      | some hm => exact ⟨.some ⟨hm, .callSite _ _ (.some hc)⟩, by simpa using hsite _⟩
  | module => exact .pure h ⟨.none, by simp⟩
  | unknown => exact .pure h ⟨.none, by simp⟩

/-! ### Built-in functions -/

theorem someBuiltinInstance (L : R.Lawful p) (h : R.rel w s t) {c : BuiltinClass}
    (hc : c.isContainer = false) :
    R.Pairs E w s t R.SameOption (do return some (← Infer.builtinInstance c))
      (do return some (← Infer.builtinInstance c)) :=
  .bind (L.builtinInstance h hc).of_none fun _ _ _ _ hr ho => .pure hr.rel (.some ho)

theorem callBuiltin (L : R.Lawful p) (h : R.rel w s t) (f : BuiltinFunction)
    {os os' : List ObjectId} (hos : R.SameList s t os os') :
    R.Pairs E w s t R.SameOption (Infer.callBuiltin f os) (Infer.callBuiltin f os') := by
  have harg : ∀ i, R.same s t ((os[i]?).getD .unknown) ((os'[i]?).getD .unknown) :=
    L.getElem?_getD h hos
  unfold Infer.callBuiltin
  refine .get_bind ?_
  simp only [← L.builtinClassOf?_eq h (harg 0)]
  split
  · exact .pure h .none
  · rename_i hreceiver
    have hslot : ∀ c : BuiltinClass, f.owner = some c → ∀ slot : Slot, slot.isOf c = true →
        s.objects.Receives R.may ((os[0]?).getD .unknown) slot := by
      refine fun c hc slot hslot => ⟨c, hslot, .inr ⟨?_, ?_⟩⟩
      · rintro rfl
        cases f <;> cases hc
      · exact ObjectStore.builtinClassOf?_receiver hreceiver hc
    cases f with
    | len => exact L.someBuiltinInstance h rfl
    | listAppend =>
        refine .bind (L.observe h (harg 0) (harg 1) (hslot .list rfl .element rfl)).of_none
          fun _ _ s' t' hr _ => ?_
        exact L.someBuiltinInstance hr.rel rfl
    | listSetItem =>
        refine .bind (L.observe h (harg 0) (harg 2) (hslot .list rfl .element rfl)).of_none
          fun _ _ s' t' hr _ => ?_
        exact L.someBuiltinInstance hr.rel rfl
    | dictSetItem =>
        refine .bind (L.observe h (harg 0) (harg 1) (hslot .dict rfl .element rfl)).of_none
          fun _ _ s' t' hr _ => ?_
        refine .bind (L.observe hr.rel (hr.same (harg 0)) (hr.same (harg 2))
          ((hslot .dict rfl .value rfl).keeps hr.keeps)).of_none fun _ _ s'' t'' hr' _ => ?_
        exact L.someBuiltinInstance hr'.rel rfl
    | listGetItem => exact .pure h (L.evidence h (harg 0) .element)
    | dictGetItem => exact .pure h (L.evidence h (harg 0) .value)

theorem callBuiltinObject (L : R.Lawful p) (h : R.rel w s t) {f f' : ObjectId}
    (hf : R.same s t f f') {os os' : List ObjectId} (hos : R.SameList s t os os') :
    R.Pairs E w s t R.SameOption (Infer.callBuiltinObject f os)
      (Infer.callBuiltinObject f' os') := by
  have hg := L.get h hf
  refine .get_bind ?_
  generalize s.objects.get f = x, t.objects.get f' = y at hg ⊢
  cases hg with
  | builtinFunction b => exact L.callBuiltin h b hos
  | _ => exact .pure h .none

end Lawful

end Pairing

end ObjectInference
