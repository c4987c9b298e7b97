import ObjectInference.Proofs.Pairing.Calls

/-!
Evaluation pairs with evaluation.

For a lawful pairing, evaluators that agree inside an expression agree on the
expression. The proof goes through evaluation function by function, each with
the pairs of the functions it calls; nothing below depends on which pairing it
is.

Behind a bracket evaluation may jump to another part of the tree. `Leads` says
where it may come out, and `Within` supposes that the evaluators agree there,
with an excuse that suffices outside as well.
-/

namespace ObjectInference

namespace Infer

def isKnownOutcome : Except ObjectId (Option Name) → Bool
  | .ok (some found) => found.object.isKnown
  | _ => false

/-- The fallback after one more outcome. -/
def heldBack : Except ObjectId (Option Name) → Except ObjectId (Option Name) →
    Except ObjectId (Option Name)
  | .ok none, outcome => outcome
  | fallback, _ => fallback

theorem firstKnown_cons (p : Program) (eval : Evaluator) (scope : ScopeId) (name : Atom)
    (fallback : Except ObjectId (Option Name)) (d : Definition) (ds : List Definition) :
    firstKnown p eval scope name fallback (d :: ds) = (do
      let outcome ← attempt (resolveDefinition p eval scope name d)
      if isKnownOutcome outcome then return outcome
      else firstKnown p eval scope name (heldBack fallback outcome) ds) := by
  conv_lhs => unfold firstKnown
  congr 1
  funext outcome
  rcases outcome with _ | _ | _ <;> rcases fallback with _ | _ | _ <;> rfl

theorem get_newContainer {scope : ScopeId} {c : BuiltinClass} {site : NodeRef} {s s' : State}
    {o : ObjectId} (h : newContainer scope c site s = .ok o s') :
    s'.objects.get o = .inst c.object site := by
  have hobjects : s'.objects = (s.objects.intern (.inst c.object site)).2 := by
    cases h
    exact (apply_ite Memory.objects _ _ _).trans (ite_self _)
  have ho : o = (s.objects.intern (.inst c.object site)).1 := by
    cases h
    rfl
  rw [hobjects, ho, ObjectStore.get_intern]

end Infer

namespace Pairing

/-- Where evaluation may go behind a bracket: to the value of a definition of a name that is
read, or to a returned value of a function that is met. -/
inductive Leads (R : Pairing) (p : Program) : ScopeId → NodeRef → Prop where
  | assigned {scope : ScopeId} {name : Atom} {value : NodeRef} {path : List Nat}
      (hread : p.ReadAt R.may (scope, name))
      (hd : .assigned value path ∈ p.definitions scope name) :
      Leads R p scope (p.tree.follow value path).1
  | iterated {scope : ScopeId} {name : Atom} {iter : NodeRef} {path : List Nat}
      (hread : p.ReadAt R.may (scope, name))
      (hd : .iterated iter path ∈ p.definitions scope name) : Leads R p scope iter
  | returned {w : R.World} {s t : State} (h : R.rel w s t) {f f' : ObjectId}
      (hf : R.same s t f f') {scope : ScopeId} (hscope : s.objects.scopeOf? f = some scope)
      {site : NodeId} (hsite : site ∈ p.returnedSites scope) : Leads R p scope (some site)

/-- What is supposed of two evaluators behind a bracket. -/
structure Within (R : Pairing) (p : Program) (excused inner : R.World → Prop)
    (eval eval' : Evaluator) : Prop where
  pairs {scope : ScopeId} {e : NodeRef} (he : R.Leads p scope e) :
    R.PairsIn inner eval eval' scope e
  excuse {w w' : R.World} (h : R.inside w w') (hw : inner w') : excused w

variable {R : Pairing} {p : Program} {excused inner : R.World → Prop}
  {eval eval' : Evaluator} {On : ScopeId → NodeRef → Prop} {w w' : R.World} {s t s' t' : State}
  {E : Exits} {scope : ScopeId} {α β γ δ : Type}

/-- Evaluators that agree on every expression. -/
theorem Within.of_forall (h : ∀ e, R.PairsOn inner eval eval' e)
    (hmono : ∀ {w w' : R.World}, R.inside w w' → inner w' → excused w) :
    R.Within p excused inner eval eval' :=
  ⟨fun _ => h _ _, hmono⟩

/-- A computation in a bracket, and what is done after the bracket is closed. -/
theorem Opens.bracket {close close' : Infer Unit} (o : R.Opens w w' s t s' t' close close')
    (hE : inner w' → E.excused) {Q : State → State → α → β → Prop}
    {Q' : State → State → γ → δ → Prop} {x : Infer α} {y : Infer β}
    (hbody : R.Pairs (R.exits inner w').silent w' s' t' Q x y) {k : α → Infer γ}
    {k' : β → Infer δ}
    (hk : ∀ a b s₁ t₁ s₂ t₂, R.Reaches w s₁ t₁ s₂ t₂ → Q s₁ t₁ a b →
      R.Pairs E w s₂ t₂ Q' (k a) (k' b)) :
    R.Outcome E w s t Q' ((do let a ← x; close; k a) s') ((do let b ← y; close'; k' b) t') := by
  refine Pairs.of_reaches o.reaches ?_
  -- From states that correspond inside, closing leads back to the outer world.
  have hclosing : ∀ a b s₁ t₁, R.rel w' s₁ t₁ → Q s₁ t₁ a b →
      R.Outcome E w s₁ t₁ Q' ((close >>= fun _ => k a) s₁) ((close' >>= fun _ => k' b) t₁) := by
    intro a b s₁ t₁ h hab
    have hclose := o.closes h
    change R.Outcome E w s₁ t₁ Q' (EStateM.bind close _ s₁) (EStateM.bind close' _ t₁)
    simp only [EStateM.bind]
    unfold Ends Pairs at hclose
    generalize close s₁ = r, close' t₁ = r' at hclose
    cases hclose with
    | reentrant _ hfg => exact hfg.elim
    | exhausted he => exact he.elim
    | ok h' _ => exact Pairs.of_reaches h' (hk _ _ _ _ _ _ h' hab)
    | strayed h' _ hs => exact Pairs.of_reaches h' ((hk _ _ _ _ _ _ h' hab).stray hs)
    | strayedReentrant _ hfg _ => exact hfg.elim
  change R.Outcome E w s' t' Q' (EStateM.bind x _ s') (EStateM.bind y _ t')
  simp only [EStateM.bind]
  unfold Pairs at hbody
  generalize x s' = r, y t' = r' at hbody
  cases hbody with
  | reentrant _ hfg => exact hfg.elim
  | exhausted he => exact .exhausted (hE he)
  | ok h hab => exact Pairs.of_reaches h (hclosing _ _ _ _ h.rel hab)
  | strayed h hab hs => exact Pairs.of_reaches h ((hclosing _ _ _ _ h.rel hab).stray hs)
  | strayedReentrant _ hfg _ => exact hfg.elim

namespace Lawful

/-! ### Returned values -/

theorem returnedAs (L : R.Lawful p) (h : R.rel w s t) (generator : Bool) {a b : ObjectId}
    (hab : R.same s t a b) (hk : a.isKnown = true) :
    R.Pairs E w s t R.same (Infer.returnedAs generator a) (Infer.returnedAs generator b) := by
  unfold Infer.returnedAs
  cases generator with
  | true => exact (L.generatorOf h hab hk).of_none
  | false => exact .pure h hab

/-- Trying returned values raises no signal: one that is met is passed over. -/
theorem scanReturned (L : R.Lawful p) (generator : Bool) {sites : List NodeId}
    (hsites : ∀ site ∈ sites, R.PairsIn inner eval eval' scope (some site)) (h : R.rel w s t) :
    R.Pairs (R.exits inner w).silent w s t R.SameOption
      (Infer.scanReturned eval scope generator sites)
      (Infer.scanReturned eval' scope generator sites) := by
  induction sites generalizing s t with
  | nil => exact .pure h .none
  | cons site sites ih =>
      have ih := fun {s t : State} => ih (s := s) (t := t) fun site hsite =>
        hsites site (List.mem_cons_of_mem _ hsite)
      refine .bind (hsites site List.mem_cons_self w s t h).attempt fun x y s' t' hr hxy => ?_
      cases hxy with
      | error _ =>
          exact .bind (L.count hr.rel .reentrantSite).of_none fun _ _ s'' t'' hr' _ => ih hr'.rel
      | ok hxy =>
          cases hxy with
          | none => exact .pure hr.rel .none
          | @some n n' hn =>
              have hk := L.isKnown_eq hr.rel hn.1
              simp only [← hk]
              split
              · rename_i hknown
                refine .bind (L.returnedAs hr.rel generator hn.1 hknown)
                  fun o o' s'' t'' hr' ho => ?_
                exact .pure hr'.rel (.some ho)
              · exact .pure hr.rel .none

theorem boundParameters (L : R.Lawful p) (A : R.Agree p excused eval eval' On)
    (h : R.rel w s t) {f f' : ObjectId} (hf : R.same s t f f') {a a' : Option Arguments}
    (ha : Option.Rel (R.SameArguments s t) a a') (hon : ∀ x ∈ a, ArgumentsOn p On x) :
    R.Pairs (R.exits excused w) w s t (R.SameParameters p f)
      (a.mapM (Infer.boundParameters p eval f)) (a'.mapM (Infer.boundParameters p eval' f')) := by
  cases ha with
  | none => exact .pure h .none
  | some ha =>
      simp only [Option.mapM_some, map_eq_pure_bind, Infer.boundParameters, bind_assoc,
        pure_bind]
      refine .bind (L.bindArguments A h hf ha (hon _ rfl)) fun os os' s' t' hr hos => ?_
      obtain ⟨hf, hos, hlength⟩ := hos
      refine .get_bind (.pure hr.rel (.some ⟨?_, length_ordinaryObjects hlength⟩))
      rw [← L.parameters_eq hr.rel hf]
      exact ordinaryObjects_related _ hos

/-- What a function returns. The arguments are bound outside the bracket. -/
theorem tryReturned (L : R.Lawful p) (A : R.Agree p excused eval eval' On)
    (D : R.Within p excused inner eval eval') (h : R.rel w s t) {f f' : ObjectId}
    (hf : R.same s t f f') {a a' : Option Arguments}
    (ha : Option.Rel (R.SameArguments s t) a a') (hon : ∀ x ∈ a, ArgumentsOn p On x) :
    R.Pairs (R.exits excused w) w s t R.SameOption (Infer.tryReturned p eval f a)
      (Infer.tryReturned p eval' f' a') := by
  have hscope := L.scopeOf?_eq h hf
  unfold Infer.tryReturned
  refine .get_bind ?_
  rw [← hscope]
  cases hs : s.objects.scopeOf? f with
  | none => exact .pure h .none
  | some scope =>
      simp only
      split
      · exact .pure h .none
      · refine .bind (L.boundParameters A h hf ha hon) fun ps ps' s' t' hr hps => ?_
        have hf := hr.same hf
        have hscope' : s'.objects.scopeOf? f = some scope := hr.keeps.scopeOf?_eq hs
        change R.Outcome _ w s' t' _ (EStateM.bind (Infer.enterFunction f) _ s')
          (EStateM.bind (Infer.enterFunction f') _ t')
        simp only [EStateM.bind]
        have hlimit : ∀ s t, R.rel w s t → R.Pairs (R.exits excused w) w s t R.SameOption
            (do
              Infer.count fun c => { c with limitBailouts := c.limitBailouts + 1 }
              return none)
            (do
              Infer.count fun c => { c with limitBailouts := c.limitBailouts + 1 }
              return none) := fun s t h =>
          .bind (L.count h .limitBailout).of_none fun _ _ _ _ hr _ => .pure hr.rel .none
        rcases L.enterFunction hr.rel hf hscope' hps with
          ⟨e, s'', t'', he, hs'', ht'', hr', hcycle⟩ |
            ⟨w', s₁, t₁, s'', t'', hs₁, ht₁, hs'', ht'', o⟩ |
            ⟨e, s'', t'', he, hcycle, hs'', hr', hastray⟩
        · -- Denied: a cycle is reported, and a limit gives nothing.
          rw [hs'', ht'']
          refine Pairs.of_reaches hr' ?_
          cases e with
          | entered => exact absurd rfl he
          | cycle => exact .reentrant (.refl hr'.rel) (hcycle rfl)
          | depthExceeded => exact hlimit _ _ hr'.rel
          | iterationExceeded => exact hlimit _ _ hr'.rel
        · -- Entered: the values are tried between opening the call and closing it.
          rw [hs₁, ht₁]
          simp only [Infer.inferInFlight_bracket]
          change R.Outcome _ w s' t' _ (EStateM.bind (Infer.openCall p f scope ps) _ s₁)
            (EStateM.bind (Infer.openCall p f' scope ps') _ t₁)
          simp only [EStateM.bind, hs'', ht'']
          have hsites : ∀ site ∈ (p.returnedSites scope).reverse,
              R.PairsIn inner eval eval' scope (some site) := fun site hsite =>
            D.pairs (.returned hr.rel hf hscope' (List.mem_reverse.1 hsite))
          refine o.bracket (D.excuse o.inside) (L.scanReturned _ hsites o.reaches.rel) ?_
          exact fun x y s₂ t₂ s₃ t₃ hr' hxy => .pure hr'.rel (hr'.option hxy)
        · -- Denied by a limit that the second run need not meet.
          rw [hs'']
          refine Pairs.of_reaches hr' ?_
          have hgone := (hlimit _ _ hr'.rel).strayed_of_ok rfl hastray
          cases e with
          | entered => exact absurd rfl he
          | cycle => exact absurd rfl hcycle
          | depthExceeded => exact hgone _
          | iterationExceeded => exact hgone _

/-! ### Calls -/

theorem constructed (L : R.Lawful p) (h : R.rel w s t) {call : NodeRef}
    (hmay : R.may scope call) (hcall : call ≠ none) {c c' : ObjectId}
    (hc : R.same s t c c') (hk : s.objects.kind c = .cls) :
    R.Pairs E w s t R.same (Infer.constructed scope call c)
      (Infer.constructed scope call c') := by
  have hg := L.get h hc
  have hi := fun hb => (L.newInstance h hc hk hb call).of_none (E := E)
  refine .get_bind ?_
  generalize s.objects.get c = x, t.objects.get c' = y at hg hi ⊢
  cases hg with
  | builtinClass b =>
      simp only
      split
      · exact (L.newContainer h hmay hcall ‹_›).of_none
      · rename_i hb
        refine hi fun b' hb' => ?_
        cases hb'
        simpa using hb
  | _ => exact hi fun _ hb => by cases hb

theorem calledObject (L : R.Lawful p) (A : R.Agree p excused eval eval' On)
    (D : R.Within p excused inner eval eval') (h : R.rel w s t) {c c' : CallTarget}
    (hc : R.SameTarget s t c c') (hon : ArgumentsOn p On c.arguments) :
    R.Pairs (R.exits excused w) w s t R.same (Infer.calledObject p eval c)
      (Infer.calledObject p eval' c') := by
  have hg := L.get h hc.function
  unfold Infer.calledObject
  refine .get_bind ?_
  generalize s.objects.get c.function = x, t.objects.get c'.function = y at hg ⊢
  cases hg with
  | function =>
      have ha : Option.Rel (R.SameArguments s t) (some c.arguments) (some c'.arguments) :=
        .some hc.arguments
      refine .bind (L.tryReturned A D h hc.function ha (by simpa using hon))
        fun x y s' t' hr hxy => ?_
      exact .pure hr.rel (L.getD hr.rel hxy)
  | builtinFunction f =>
      simp only
      split
      · exact (L.builtinInstance h rfl).of_none
      · refine .bind (L.bindArguments A h hc.function hc.arguments hon)
          fun os os' s' t' hr hos => ?_
        refine .bind (L.callBuiltin hr.rel f hos.2.1) fun x y s'' t'' hr' hxy => ?_
        exact .pure hr'.rel (L.getD hr'.rel hxy)
  | _ => exact .pure h (L.unknown h)

/-- A result that has no name. -/
theorem found_unbound {a b : ObjectId} (hab : R.same s t a b) :
    R.SameFound s t (some (.unbound a)) (some (.unbound b)) :=
  .some ⟨hab, rfl⟩

theorem evaluateCall (L : R.Lawful p) (A : R.Agree p excused eval eval' On)
    (D : R.Within p excused inner eval eval') (h : R.rel w s t) {call func : NodeRef}
    (hmay : R.may scope call) {args keywords : List NodeRef}
    (hcall : p.tree.node? call = some (.call func args keywords))
    (hon : ∀ r ∈ (Node.call func args keywords).places, On scope r) :
    R.Pairs (R.exits excused w) w s t R.SameFound (Infer.evaluateCall p eval scope call func)
      (Infer.evaluateCall p eval' scope call func) := by
  have hbelow : Under p On scope call := by
    intro node hn _
    obtain rfl := Option.some.inj (hcall.symm.trans hn)
    exact hon
  refine .bind (L.primaryAndResult A h (hon func (by simp [Node.places])))
    fun x y s' t' hr hxy => ?_
  obtain ⟨primary, callee⟩ := x
  obtain ⟨primary', callee'⟩ := y
  obtain ⟨hprimary, hcallee⟩ := hxy
  cases hcallee with
  | none => exact .pure hr.rel .none
  | @some n n' hn =>
      refine .get_bind ?_
      rw [← L.kind_eq hr.rel hn.1]
      split
      · rename_i hk
        have hsome : call ≠ none := by
          rintro rfl
          cases hcall
        refine .bind (L.constructed hr.rel hmay hsome hn.1 hk) fun o o' s'' t'' hr' ho => ?_
        exact .pure hr'.rel (found_unbound ho)
      · refine .bind (L.callTarget hr.rel hbelow hprimary hn.1) fun c c' s'' t'' hr' hc => ?_
        obtain ⟨hc, hon⟩ := hc
        cases hc with
        | none => exact .pure hr'.rel (found_unbound (L.unknown hr'.rel))
        | some hc =>
            refine .bind (L.calledObject A D hr'.rel hc (hon _ rfl))
              fun o o' s₃ t₃ hr₃ ho => ?_
            exact .pure hr₃.rel (found_unbound ho)

/-! ### Subscripts -/

theorem itemByMethod (L : R.Lawful p) (A : R.Agree p excused eval eval' On)
    (D : R.Within p excused inner eval eval') (h : R.rel w s t) {a b : ObjectId}
    (hab : R.same s t a b) {index : NodeRef} (hi : On scope index) :
    R.Pairs (R.exits excused w) w s t R.same (Infer.itemByMethod p eval scope a index)
      (Infer.itemByMethod p eval' scope b index) := by
  have hm := L.specialMethod? h hab "__getitem__"
  refine .get_bind ?_
  generalize p.specialMethod? s.objects a "__getitem__" = x,
    p.specialMethod? t.objects b "__getitem__" = y at hm ⊢
  cases hm with
  | none => exact .pure h (L.unknown h)
  | some hm =>
      refine .bind (L.argumentObject A h hi) fun i i' s' t' hr hi' => ?_
      have ha : Option.Rel (R.SameArguments s' t') (some (.objects [a, i]))
          (some (.objects [b, i'])) :=
        .some (.objects (.cons (hr.same hab) (.cons hi' .nil)))
      refine .bind (L.tryReturned A D hr.rel (hr.same hm) ha (by simp [ArgumentsOn]))
        fun x y s'' t'' hr' hxy => ?_
      exact .pure hr'.rel (L.getD hr'.rel hxy)

theorem indexedObject (L : R.Lawful p) (A : R.Agree p excused eval eval' On)
    (D : R.Within p excused inner eval eval') (h : R.rel w s t) {a b : ObjectId}
    (hab : R.same s t a b) {index : NodeRef} (hi : On scope index) :
    R.Pairs (R.exits excused w) w s t R.same (Infer.indexedObject p eval scope a index)
      (Infer.indexedObject p eval' scope b index) := by
  have he := L.elementOf h hab
  refine .get_bind ?_
  simp only [← L.builtinClassOf?_eq h hab]
  cases s.objects.builtinClassOf? a with
  | none => exact L.itemByMethod A D h hab hi
  | some c =>
      cases c with
      | tuple =>
          simp only
          split
          · split
            · exact .pure h (L.itemOf h hab _)
            · exact .pure h he
          · exact .pure h he
      | list => exact .pure h he
      | dict => exact .pure h (L.valueOf h hab)
      | str => exact .pure h hab
      | _ => exact .pure h (L.unknown h)

theorem evaluateSubscript (L : R.Lawful p) (A : R.Agree p excused eval eval' On)
    (D : R.Within p excused inner eval eval') (h : R.rel w s t) {value slice : NodeRef}
    (hv : On scope value) (hs : On scope slice) :
    R.Pairs (R.exits excused w) w s t R.SameFound
      (Infer.evaluateSubscript p eval scope value slice)
      (Infer.evaluateSubscript p eval' scope value slice) := by
  refine .bind (A.pairs hv w s t h) fun x y s' t' hr hxy => ?_
  cases hxy with
  | none => exact .pure hr.rel .none
  | @some n n' hn =>
      cases hnode : p.tree.node? slice with
      | none => exact .pure hr.rel .none
      | some node =>
          cases node with
          | index index =>
              have hi : On scope index := A.below hs _ hnode rfl _ (by simp [Node.places])
              refine .bind (L.indexedObject A D hr.rel hn.1 hi) fun o o' s'' t'' hr' ho => ?_
              exact .pure hr'.rel (found_unbound ho)
          | slice =>
              refine .get_bind (.pure hr.rel (found_unbound ?_))
              rw [← L.builtinClassOf?_eq hr.rel hn.1]
              unfold Infer.slicedObject
              split
              · exact hn.1
              · exact hn.1
              · exact hn.1
              · exact L.unknown hr.rel
          | _ => exact .pure hr.rel .none

/-! ### Names -/

theorem assignedObject (L : R.Lawful p) {value : NodeRef} {path : List Nat}
    (H : R.PairsIn inner eval eval' scope (p.tree.follow value path).1) (h : R.rel w s t) :
    R.Pairs (R.exits inner w) w s t R.SameOption (Infer.assignedObject p eval scope value path)
      (Infer.assignedObject p eval' scope value path) := by
  refine .bind (H w s t h) fun x y s' t' hr hxy => ?_
  cases hxy with
  | none => exact .pure hr.rel .none
  | some hn => exact .get_bind (.pure hr.rel (.some (L.unpack hr.rel hn.1 _)))

theorem iteratedObject (L : R.Lawful p) {iter : NodeRef}
    (H : R.PairsIn inner eval eval' scope iter) (h : R.rel w s t) (path : List Nat) :
    R.Pairs (R.exits inner w) w s t R.SameOption (Infer.iteratedObject eval scope iter path)
      (Infer.iteratedObject eval' scope iter path) := by
  refine .bind (H w s t h) fun x y s' t' hr hxy => ?_
  cases hxy with
  | none => exact .pure hr.rel .none
  | some hn =>
      refine .get_bind (.pure hr.rel (.some (L.unpack hr.rel ?_ _)))
      exact L.elementOf hr.rel hn.1

theorem parameterObject (L : R.Lawful p) (h : R.rel w s t) {name : Atom}
    (hread : p.ReadAt R.may (scope, name)) (index : Nat) :
    R.Pairs E w s t R.same (Infer.parameterObject p scope index)
      (Infer.parameterObject p scope index) := by
  unfold Infer.parameterObject
  cases hd : p.scope? scope with
  | none => exact .pure h (L.unknown h)
  | some d =>
      simp only
      cases d.params[index]? with
      | none => exact .pure h (L.unknown h)
      | some param =>
          simp only
          split
          · exact .pure h (L.unknown h)
          · refine .bind (L.currentParameters h hread hd).of_none fun os os' s' t' hr hos => ?_
            exact .pure hr.rel (L.getElem?_getD hr.rel hos _)

theorem resolveDefinition (L : R.Lawful p)
    (D : ∀ {scope e}, R.Leads p scope e → R.PairsIn inner eval eval' scope e) (h : R.rel w s t)
    {name : Atom} (hread : p.ReadAt R.may (scope, name)) {d : Definition}
    (hd : d ∈ p.definitions scope name) :
    R.Pairs (R.exits inner w) w s t R.SameFound (Infer.resolveDefinition p eval scope name d)
      (Infer.resolveDefinition p eval' scope name d) := by
  have hassigned : ∀ {s t : State} {x y : Option ObjectId}, R.SameOption s t x y →
      R.SameFound s t (x.map (⟨·, .assigned name⟩)) (y.map (⟨·, .assigned name⟩)) := by
    intro s t x y hxy
    cases hxy with
    | none => exact .none
    | some hab => exact .some ⟨hab, rfl⟩
  cases d with
  | object o => exact .pure h (.some ⟨L.defined h hread hd, rfl⟩)
  | parameter index =>
      refine .bind (L.parameterObject h hread index) fun o o' s' t' hr ho => ?_
      exact .pure hr.rel (.some ⟨ho, rfl⟩)
  | assigned value path =>
      refine .bind (L.assignedObject (D (.assigned hread hd)) h) fun x y s' t' hr hxy => ?_
      exact .pure hr.rel (hassigned hxy)
  | iterated iter path =>
      refine .bind (L.iteratedObject (D (.iterated hread hd)) h path) fun x y s' t' hr hxy => ?_
      exact .pure hr.rel (hassigned hxy)

theorem isKnownOutcome_eq (L : R.Lawful p) (h : R.rel w s t)
    {x y : Except ObjectId (Option Name)}
    (hxy : SameAttempt (R.signal w) (R.SameFound s t) x y) :
    Infer.isKnownOutcome x = Infer.isKnownOutcome y := by
  cases hxy with
  | error _ => rfl
  | ok hxy =>
      cases hxy with
      | none => rfl
      | some hn => exact L.isKnown_eq h hn.1

/-- Trying definitions raises no signal: one that is met is held back, as part of
the outcome. -/
theorem firstKnown (L : R.Lawful p)
    (D : ∀ {scope e}, R.Leads p scope e → R.PairsIn inner eval eval' scope e) (h : R.rel w s t)
    {name : Atom} (hread : p.ReadAt R.may (scope, name)) {ds : List Definition}
    (hds : ∀ d ∈ ds, d ∈ p.definitions scope name) {x y : Except ObjectId (Option Name)}
    (hxy : SameAttempt (R.signal w) (R.SameFound s t) x y) :
    R.Pairs (R.exits inner w).silent w s t
      (fun s t => SameAttempt (R.signal w) (R.SameFound s t))
      (Infer.firstKnown p eval scope name x ds) (Infer.firstKnown p eval' scope name y ds) := by
  induction ds generalizing s t x y with
  | nil => exact .pure h hxy
  | cons d ds ih =>
      have hd := (L.resolveDefinition D h hread (hds d List.mem_cons_self)).attempt
      rw [Infer.firstKnown_cons, Infer.firstKnown_cons]
      refine .bind hd fun z z' s' t' hr hz => ?_
      rw [← L.isKnownOutcome_eq hr.rel hz]
      split
      · exact .pure hr.rel hz
      · refine ih hr.rel (fun d hd => hds d (List.mem_cons_of_mem _ hd)) ?_
        cases hxy with
        | error hfg => exact .error hfg
        | ok hxy =>
            cases hxy with
            | none => exact hz
            | some hn => exact .ok (.some (hr.name hn))

theorem resolveLocal (L : R.Lawful p) (D : R.Within p excused inner eval eval')
    (h : R.rel w s t) {name : Atom} (hkey : p.ReadAt R.may (scope, name)) :
    R.Pairs (R.exits excused w) w s t R.SameFound (Infer.resolveLocal p eval scope name)
      (Infer.resolveLocal p eval' scope name) := by
  unfold Infer.resolveLocal
  split
  · exact .pure h .none
  · change R.Outcome _ w s t _ (EStateM.bind (Infer.enterName (scope, name)) _ s)
      (EStateM.bind (Infer.enterName (scope, name)) _ t)
    simp only [EStateM.bind]
    rcases L.enterName h (scope, name) hkey with
      ⟨e, s', t', he, hs', ht', hr⟩ | ⟨w', s', t', hs', ht', o, hsignal⟩
    · rw [hs', ht']
      refine Pairs.of_reaches hr ?_
      cases e with
      | entered => exact absurd rfl he
      | _ => exact .ok (.refl hr.rel) .none
    · rw [hs', ht']
      have hnone : SameAttempt (R.signal w') (R.SameFound s' t') (.ok none) (.ok none) :=
        .ok .none
      have hdefinitions : ∀ d ∈ (p.definitions scope name).reverse,
          d ∈ p.definitions scope name := fun _ hd => List.mem_reverse.1 hd
      have hbody := L.firstKnown D.pairs o.reaches.rel hkey hdefinitions hnone
      refine o.bracket (D.excuse o.inside) hbody fun x y s₁ t₁ s₂ t₂ hr hxy => ?_
      cases hxy with
      | ok hxy => exact .pure hr.rel (hr.found hxy)
      | error hfg => exact .reentrant (.refl hr.rel) (hsignal _ _ hfg)

theorem resolveName (L : R.Lawful p) (D : R.Within p excused inner eval eval')
    (h : R.rel w s t) {expr : NodeRef} {name : Atom} (hmay : R.may scope expr)
    (hexpr : p.tree.node? expr = some (.name name)) :
    R.Pairs (R.exits excused w) w s t R.SameFound (Infer.resolveName p eval scope name)
      (Infer.resolveName p eval' scope name) := by
  unfold Infer.resolveName
  cases hbinder : p.binder? scope name with
  | some binder => exact L.resolveLocal D h ⟨scope, expr, hmay, hexpr, hbinder⟩
  | none =>
      refine .pure h ?_
      cases hg : p.global? name with
      | none => exact .none
      | some o => exact .some ⟨L.global h ⟨scope, expr, hmay, hexpr, hbinder⟩ hg, rfl⟩

/-! ### Expressions -/

/-- A container made at a place is an instance of its class. -/
theorem madeContainer (L : R.Lawful p) (h : R.rel w s t) {site : NodeRef}
    (hmay : R.may scope site) (hsite : site ≠ none) {c : BuiltinClass}
    (hc : c.isContainer = true) :
    R.Pairs E w s t
      (fun s t a b => R.same s t a b ∧ s.objects.get a = .inst c.object site)
      (Infer.newContainer scope c site) (Infer.newContainer scope c site) :=
  (L.newContainer h hmay hsite hc).of_none.and_left fun _ _ hrun => Infer.get_newContainer hrun

/-- Evaluators that agree below an expression, and behind brackets on all, agree
on the expression. -/
theorem evaluateStep (L : R.Lawful p) (A : R.Agree p excused eval eval' On)
    (D : R.Within p excused inner eval eval') (scope : ScopeId) (expr : NodeRef)
    (hmay : R.may scope expr)
    (hon : Under p On scope expr) :
    R.PairsIn excused (Infer.evaluateStep p eval) (Infer.evaluateStep p eval') scope expr := by
  intro w s t h
  have hnone : R.Pairs (R.exits excused w) w s t R.SameFound (pure none) (pure none) :=
    .pure h .none
  unfold Infer.evaluateStep
  cases hn : p.tree.node? expr with
  | none => exact hnone
  | some node =>
      have hon := hon node hn
      have hexpr : expr ≠ none := by
        rintro rfl
        cases hn
      cases node with
      | name id => exact L.resolveName D h hmay hn
      | literal l =>
          refine .bind (L.builtinInstance h (by cases l <;> rfl)).of_none
            fun o o' s' t' hr ho => ?_
          exact .pure hr.rel (found_unbound ho)
      | tuple elements =>
          refine .bind (L.madeContainer h hmay hexpr rfl) fun o o' s' t' hr ho => ?_
          obtain ⟨ho, hget⟩ := ho
          refine .bind (L.fillTuple A hr.rel ho hmay hget 0 (hon rfl)) fun _ _ s'' t'' hr' _ => ?_
          exact .pure hr'.rel (found_unbound (hr'.same ho))
      | list elements =>
          refine .bind (L.madeContainer h hmay hexpr rfl) fun o o' s' t' hr ho => ?_
          obtain ⟨ho, hget⟩ := ho
          refine .bind (L.fillList A hr.rel ho hmay hget (hon rfl)) fun _ _ s'' t'' hr' _ => ?_
          exact .pure hr'.rel (found_unbound (hr'.same ho))
      | dict keys values =>
          refine .bind (L.madeContainer h hmay hexpr rfl) fun o o' s' t' hr ho => ?_
          obtain ⟨ho, hget⟩ := ho
          have hentries : ∀ e ∈ keys.zip values, On scope e.1 ∧ On scope e.2 := by
            intro e he
            exact ⟨hon rfl _ (List.mem_flatMap.2 ⟨e, he, by simp⟩),
              hon rfl _ (List.mem_flatMap.2 ⟨e, he, by simp⟩)⟩
          refine .bind (L.fillDict A hr.rel ho hmay hget hentries) fun _ _ s'' t'' hr' _ => ?_
          exact .pure hr'.rel (found_unbound (hr'.same ho))
      | call func args keywords => exact L.evaluateCall A D h hmay hn (hon rfl)
      | attr value name =>
          have hv : On scope value := hon rfl _ (by simp [Node.places])
          exact .bind (A.pairs hv w s t h) fun x y s' t' hr hxy =>
            L.attributeName hr.rel name hxy
      | subscript value slice =>
          exact L.evaluateSubscript A D h (hon rfl _ (by simp [Node.places]))
            (hon rfl _ (by simp [Node.places]))
      | index value => exact A.pairs (hon rfl _ (by simp [Node.places])) w s t h
      | keyword name value => exact A.pairs (hon rfl _ (by simp [Node.places])) w s t h
      | yield => exact .pure h (found_unbound (L.unknown h))
      | _ => exact hnone

end Lawful

end Pairing

end ObjectInference
