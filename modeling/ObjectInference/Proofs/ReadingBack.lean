import ObjectInference.Proofs.Resolving
import ObjectInference.Proofs.Scanning

/-!
Parameters read back.

A call binds one object to each parameter of a function, and the context of the inference
keeps those of the ordinary ones only. A parameter that is read counts the ordinary ones
before it and looks there. While the inference is in flight its context is found below those
of all inferences inside, since the function cannot be entered again, and what is read is
what the call has bound. `State.ReadsBack` says so of one state, and `parameters_read_back`
of every state in which an expression is evaluated meanwhile.

The guard of names is in the way of a name that is being resolved already. That never
happens to a name that is only a parameter: no expression is evaluated to resolve it. The
invariant `State.Orderly` holds this, and it is one that the brackets of just these names
break, so they are left aside.
-/

namespace ObjectInference

variable {p : Program} {scope start : ScopeId} {name : Atom} {s s' : State}

/-! ### Names of parameters only -/

/-- A scope binds a name as one of its parameters, and not otherwise. -/
def Program.OnlyParameter (p : Program) (key : ScopeId × Atom) : Prop :=
  ∃ k, p.definitions key.1 key.2 = [.parameter k]

/-- An expression in a scope is not the name of a parameter only. -/
def Program.Elsewhere (p : Program) (start : ScopeId) (expr : NodeRef) : Prop :=
  ∀ key : ScopeId × Atom, p.tree.node? expr = some (.name key.2) →
    p.binder? start key.2 = some key.1 → ¬ p.OnlyParameter key

theorem Program.not_onlyParameter_of_readAt {key : ScopeId × Atom}
    (h : p.ReadAt p.Elsewhere key) : ¬ p.OnlyParameter key := by
  obtain ⟨start, expr, helsewhere, hexpr, hbinder⟩ := h
  exact helsewhere key hexpr hbinder

namespace Infer

/-- The name of a parameter only resolves in every state, whatever the evaluator is. -/
theorem resolveLocal_onlyParameter (h : p.OnlyParameter (scope, name)) (s : State) :
    ∃ found s', (∀ eval, resolveLocal p eval scope name s = .ok found s') ∧ s.Settles s' := by
  obtain ⟨k, hdef⟩ := h
  rcases enterName_cases (scope, name) s with ⟨e, s', he, hs', hsettles⟩ | ⟨g, henter, _⟩
  · have hdenied : s.DeniesName (scope, name) := by
      refine Guard.enter_ne_entered.1 fun hentered => he ?_
      rw [enterName_run] at hs'
      cases hs'
      exact hentered
    rw [enterName_run] at hs'
    cases hs'
    exact ⟨none, _, fun eval => resolveLocal_of_denied (by simp [hdef]) hdenied, hsettles⟩
  · obtain ⟨o, s₁, hrun, hsettles⟩ :=
      settling_parameterObject p scope k { s with resolving := g }
    obtain ⟨g', hleave, _, hleft⟩ := leaveName_of_settles henter hsettles
    exact ⟨_, _, fun eval => resolveLocal_parameter eval hdef henter hrun hleave, hleft⟩

/-- So does the expression. -/
theorem evaluateStep_onlyParameter {expr : NodeRef} (h : ¬ p.Elsewhere start expr) (s : State) :
    ∃ found s', (∀ eval, evaluateStep p eval start expr s = .ok found s') ∧ s.Settles s' := by
  simp only [Program.Elsewhere, not_forall, not_not] at h
  obtain ⟨⟨scope, name⟩, hexpr, hbinder, hparameter⟩ := h
  obtain ⟨found, s', hrun, hsettles⟩ := resolveLocal_onlyParameter hparameter s
  refine ⟨found, s', fun eval => ?_, hsettles⟩
  unfold evaluateStep resolveName
  simp only [hexpr, hbinder]
  exact hrun eval

end Infer

/-! ### Watching elsewhere -/

namespace Pairing.bracketing

variable {I W : State → Prop} [DecidablePred W]

/-- What an invariant says of a state, if it is inherited elsewhere, is found wherever an
expression is evaluated: a name of a parameter only evaluates none. -/
theorem pairsOn_watching_elsewhere (hI : InheritedAmong p p.Elsewhere I) (hW : ∀ s, I s → W s)
    (expr : NodeRef) : (bracketingAmong p.Elsewhere I).PairsOn (fun _ => ¬ p.tree.Descending)
      (p.evaluateBy (Infer.evaluateWatching p W)) p.evaluate expr := by
  refine (lawfulAmong hI).pairsOn_evaluateBy State.room id room_and_budget (fun _ _ => rfl)
    (fun n m expr excused h => ?_) expr
  intro scope w s t hst
  have hs : W s := hW s (hI.settles hst.2.2 hst.2.1)
  have hwatched : Infer.evaluateWatching p W (n + 1) scope expr s =
      Infer.evaluateStep p (Infer.evaluateWatching p W n) scope expr s := if_pos hs
  by_cases hexpr : p.Elsewhere scope expr
  · have hpairs := h scope hexpr w s t hst
    unfold Pairing.Pairs at hpairs ⊢
    rw [hwatched]
    exact hpairs
  · obtain ⟨found, s', hrun, hsettles⟩ := Infer.evaluateStep_onlyParameter hexpr s
    have hreaches := reaches hst hsettles
    obtain rfl : s = t := hst.1
    change Outcome _ _ _ _ _ _ _ (Infer.evaluateStep p _ scope expr s)
    rw [hwatched, hrun, hrun]
    exact .ok hreaches (diagonal.sameFound_iff.2 rfl)

variable (hI : InheritedAmong p p.Elsewhere I) (hW : ∀ s, I s → W s) (hd : p.tree.Descending)
  (hs : I s)

include hI hW hd hs

theorem watch_elsewhere {α : Type} (op : Operation α) : op.watch p W s = op.perform p s := by
  have h := (lawfulAmong hI).operation_eq diagonal (pairsOn_watching_elsewhere hI hW)
    (fun _ => id) (show (bracketingAmong p.Elsewhere I).rel s s s from ⟨rfl, .refl s, hs⟩) op
    fun _ => records
  exact eq_of_pairs h (fun f g hfg => hfg.1) fun he => he hd

theorem scanReturned_watched (generator : Bool) (sites : List NodeId) :
    Infer.scanReturned (p.evaluateBy (Infer.evaluateWatching p W)) scope generator sites s =
      Infer.scanReturned p.evaluate scope generator sites s := by
  have h : (bracketingAmong p.Elsewhere I).Pairs _ s s s _
      (Infer.scanReturned _ scope _ sites) _ := (lawfulAmong hI).scanReturned generator
      (fun _ _ => pairsOn_watching_elsewhere hI hW _ scope) ⟨rfl, .refl s, hs⟩
  exact eq_of_pairs (h.mono fun _ _ _ _ _ => diagonal.sameOption_iff.1) (fun _ _ => False.elim)
    fun he => he hd

end Pairing.bracketing

/-! ### States in which expressions are evaluated -/

namespace State

/-- The guards and contexts are in order, the store has grown from that of the program, and no
name is being resolved that is only a parameter. -/
structure Orderly (p : Program) (s : State) : Prop where
  disciplined : s.Disciplined p
  grown : p.objects.Extends s.objects
  parameters : ∀ key ∈ s.resolving.visiting, ¬ p.OnlyParameter key

namespace Orderly

theorem settles (hs : s.Orderly p) (h : s.Settles s') : s'.Orderly p :=
  ⟨hs.disciplined.settles h, hs.grown.trans h.objects,
    fun key hkey => hs.parameters key (h.resolving.subset hkey)⟩

/-- A name of a parameter only is denied at a limit, and for no other reason. -/
theorem deniesName_iff (hs : s.Orderly p) {key : ScopeId × Atom} (h : p.OnlyParameter key) :
    s.DeniesName key ↔ s.resolving.refresh.AtLimit := by
  rw [hs.disciplined.deniesName_iff, or_iff_right]
  exact fun hmem => hs.parameters _ hmem h

end Orderly

theorem inherited_orderly (p : Program) : InheritedAmong p p.Elsewhere (State.Orderly p) where
  settles {_ _} hs h := hs.settles h
  name {s} hs {key} hkey {g} h := by
    refine ⟨hs.disciplined.enterName h, hs.grown, fun key' hkey' => ?_⟩
    obtain ⟨rfl, _, _, _⟩ := Guard.enter_eq_entered h
    rcases List.mem_cons.1 hkey' with rfl | hkey'
    · exact Program.not_onlyParameter_of_readAt hkey
    · exact hs.parameters key' ((Guard.settles_refresh _).subset hkey')
  call {s} hs {f g} h scope {parameters} hp := by
    refine ⟨(inherited_disciplined p).call hs.disciplined h scope hp, ?_, ?_⟩
    · rw [Infer.objects_opened]
      exact hs.grown
    · rw [Infer.resolving_opened]
      exact hs.parameters

theorem Reached.orderly (h : s.Reached p) : s.Orderly p := by
  obtain ⟨hdisciplined, hidle⟩ := h.disciplined_and_idle
  refine ⟨hdisciplined, h.extends, fun key hkey => ?_⟩
  rw [hidle.resolving] at hkey
  cases hkey

/-- An inference is in flight, and its function has the parameters of its context. -/
structure InContext (p : Program) (c : Context) (s : State) : Prop where
  orderly : s.Orderly p
  visiting : c.function ∈ s.inFlight.visiting
  bound : s.boundParameters? c.function = some c.parameters

/-- The contexts of other inferences come before, and are passed over. -/
theorem inherited_inContext (p : Program) (c : Context) :
    InheritedAmong p p.Elsewhere (State.InContext p c) where
  settles {s s'} hs h := by
    refine ⟨hs.orderly.settles h, ?_, ?_⟩
    · rw [h.inFlight.visiting_eq hs.orderly.disciplined.inFlight]
      exact hs.visiting
    · unfold State.boundParameters?
      rw [h.contexts]
      exact hs.bound
  name {s} hs {key} hkey {g} h :=
    ⟨(inherited_orderly p).name hs.orderly hkey h, hs.visiting, hs.bound⟩
  call {s} hs {f g} h scope {parameters} hp := by
    have horderly := (inherited_orderly p).call hs.orderly h scope hp
    obtain ⟨rfl, hf, _, _⟩ := Guard.enter_eq_entered h
    have hrefresh : s.inFlight.refresh.visiting = s.inFlight.visiting :=
      (Guard.settles_refresh _).visiting_eq hs.orderly.disciplined.inFlight
    rw [hrefresh] at hf
    refine ⟨horderly, ?_, ?_⟩
    · rw [Infer.inFlight_opened]
      change c.function ∈ f :: s.inFlight.refresh.visiting
      rw [hrefresh]
      exact List.mem_cons_of_mem _ hs.visiting
    · cases parameters with
      | none => exact hs.bound
      | some ps =>
          have hne : (f == c.function) = false :=
            beq_eq_false_iff_ne.2 fun heq => hf (heq ▸ hs.visiting)
          unfold State.boundParameters? Infer.opened
          rw [List.find?_cons_of_neg (by simp [hne])]
          exact hs.bound

/-- Entering a function for a call opens its context. -/
theorem Orderly.inContext {f : ObjectId} {parameters : List ObjectId} {g : Guard ObjectId}
    (hs : s.Orderly p) (h : s.inFlight.refresh.enter f = (.entered, g)) (scope : ScopeId)
    (hlength : parameters.length = (placeholders (p.parameters s.objects f)).length) :
    (Infer.opened p f scope (some parameters) { s with inFlight := g }).InContext p
      ⟨f, parameters⟩ := by
  have hlengths : ∀ ps ∈ some parameters,
      ps.length = (placeholders (p.parameters s.objects f)).length :=
    fun ps hps => Option.some.inj hps ▸ hlength
  have horderly := (inherited_orderly p).call hs h scope hlengths
  obtain ⟨rfl, _, _, _⟩ := Guard.enter_eq_entered h
  refine ⟨horderly, ?_, ?_⟩
  · rw [Infer.inFlight_opened]
    exact List.mem_cons_self
  · unfold State.boundParameters? Infer.opened
    rw [List.find?_cons_of_pos (by simp)]
    rfl

end State

/-! ### Reading -/

namespace State

/-- The parameters of a scope read as given objects. Where the scope is the one that binds a
name, and only as the parameter at some place, the name evaluates to the object for that
place, or to nothing at a limit of name resolution. -/
def ReadsBack (p : Program) (scope : ScopeId) (bound : List ObjectId) (s : State) : Prop :=
  ∀ (start : ScopeId) (name : Atom) (k : Nat) (o : ObjectId) (expr : NodeRef),
    p.definitions scope name = [.parameter k] → bound[k]? = some o →
    p.Sees start name start scope → p.tree.node? expr = some (.name name) →
    ∃ s', p.evaluate start expr s =
      .ok (if s.resolving.refresh.AtLimit then none else some ⟨o, .parameter name⟩) s'

end State

/-- What is read is in its slot, or unknown like what is bound to a special parameter. -/
theorem Infer.parameterObject_inContext {d : Scope} {resolved : ResolvedArguments} {k : Nat}
    {o : ObjectId} (hd : p.scope? scope = some d)
    (hbound : s.boundParameters? d.owner =
      some (ordinaryObjects d.params (bindObjects d.params resolved)))
    (hk : (bindObjects d.params resolved)[k]? = some o) :
    parameterObject p scope k s = .ok o s := by
  have hlt : k < d.params.length := by
    rw [← length_bindObjects d.params resolved]
    exact (List.getElem?_eq_some_iff.1 hk).1
  have hparam : d.params[k]? = some d.params[k] := List.getElem?_eq_getElem hlt
  cases ho : d.params[k].isSpecial with
  | true =>
      obtain rfl : o = .unknown :=
        Option.some.inj (hk.symm.trans (bindObjects_special hparam ho resolved))
      unfold parameterObject
      simp only [hd, hparam, ho, if_true]
      rfl
  | false =>
      have hcurrent : currentParameters p d.owner s =
          .ok (ordinaryObjects d.params (bindObjects d.params resolved)) s := by
        unfold currentParameters
        rw [get_bind_run, hbound]
        rfl
      rw [parameterObject_run hd hparam ho hcurrent, ordinaryObjects_slot hparam ho, hk]
      rfl

/-- The parameters of a function are those of the scope that it owns. -/
theorem Binding.Framed.exists_params {f : ObjectId} (hframed : p.binding.Framed)
    (hf : p.objects.get f = .function scope) :
    ∃ d, p.scope? scope = some d ∧ d.owner = f ∧ p.parameters p.objects f = d.params := by
  obtain ⟨d, hd, _, rfl⟩ := hframed.owned
    (show p.binding.objects.get f = Binding.ownerObject .function scope from hf)
  refine ⟨d, hd, rfl, ?_⟩
  rw [Program.parameters, hf]
  show ((p.scope? scope).map Scope.params).getD [] = _
  rw [show p.scope? scope = some d from hd]
  rfl

/-- What a call has bound is read in its context. -/
theorem State.InContext.readsBack (hp : p.WellBound) (hframed : p.binding.Framed)
    (hd : p.tree.Descending) {f : ObjectId} (hf : p.objects.get f = .function scope)
    (resolved : ResolvedArguments)
    (h : s.InContext p ⟨f, ordinaryObjects (p.parameters p.objects f)
      (bindObjects (p.parameters p.objects f) resolved)⟩) :
    s.ReadsBack p scope (bindObjects (p.parameters p.objects f) resolved) := by
  intro start name k o expr hdef hk hsees hexpr
  have honly : p.OnlyParameter (scope, name) := ⟨k, hdef⟩
  have hdenied := h.orderly.deniesName_iff honly
  rw [Infer.evaluate_of_sees hp hd hexpr hsees]
  by_cases hlimit : s.resolving.refresh.AtLimit
  · rw [if_pos hlimit]
    exact ⟨_, Infer.resolveLocal_of_denied hsees.definitions_ne_nil (hdenied.2 hlimit)⟩
  · rw [if_neg hlimit]
    cases henter : s.resolving.refresh.enter (scope, name) with
    | mk e g =>
        obtain rfl : e = .entered := by
          have hentered := mt Guard.enter_ne_entered.1 (mt hdenied.1 hlimit)
          rw [henter] at hentered
          exact not_not.1 hentered
        obtain ⟨d, hscope, rfl, hparams⟩ := hframed.exists_params hf
        rw [hparams] at h hk
        have hrun : Infer.parameterObject p scope k { s with resolving := g } =
            .ok o { s with resolving := g } := Infer.parameterObject_inContext hscope h.bound hk
        obtain ⟨g', hleave, _⟩ := Guard.leave_of_settles henter (.refl g)
        exact ⟨_, Infer.resolveLocal_parameter _ hdef henter hrun hleave⟩

/-! ### Calls -/

section Calls

variable {f : ObjectId} {arguments : Arguments} {resolved : ResolvedArguments} {s₁ : State}
  {g : Guard ObjectId}

/-- Binding the arguments of a call keeps the objects of the ordinary parameters. -/
theorem Infer.boundParameters_run (hs : p.objects.Extends s₁.objects)
    (h : resolveArguments p p.evaluate arguments s = .ok resolved s₁) :
    (some arguments).mapM (boundParameters p p.evaluate f) s =
      .ok (some (ordinaryObjects (p.parameters p.objects f)
        (bindObjects (p.parameters p.objects f) resolved))) s₁ := by
  rw [← p.parameters_of_extends hs f]
  refine bind_eq_ok.2 ⟨_, s₁, bind_eq_ok.2 ⟨_, s₁, ?_, rfl⟩, rfl⟩
  exact bind_eq_ok.2 ⟨resolved, s₁, h, rfl⟩

theorem Infer.settles_of_resolveArguments
    (h : resolveArguments p p.evaluate arguments s = .ok resolved s₁) : s.Settles s₁ := by
  have hend := (Operation.resolveArguments arguments).ended (p := p) s
  change Operation.Ended p s (resolveArguments p p.evaluate arguments s) at hend
  rw [h] at hend
  cases hend with
  | ok h => exact h

end Calls

/-- A parameter reads back what the call has bound to it. An inference of a function for
arguments that resolve binds one object to each parameter, and the unknown one to each that is
special. Wherever an expression is evaluated while the inference is in flight, in whatever
other inferences, a name for which the scope of the function is the one that binds it, and
only as a parameter, evaluates to the object bound to that. Only at a limit of name resolution
it resolves to nothing. The inference may be asked for between operations, and at any point
of one. -/
theorem parameters_read_back {tree : Tree} (hd : tree.Descending) (atoms : Interner)
    (root : NodeRef) :
    let p := Program.bind tree atoms root
    (∀ s : State, s.Reached p → s.Orderly p) ∧
    (∀ (α : Type) (op : Operation α) (s : State), s.Orderly p →
      letI := Classical.decPred (State.Orderly p)
      op.watch p (State.Orderly p) s = op.perform p s ∧ Operation.Ended p s (op.perform p s)) ∧
    (∀ s s' : State, s.Orderly p → s.Settles s' → s'.Orderly p) ∧
    ∀ (f : ObjectId) (scope : ScopeId) (arguments : Arguments) (resolved : ResolvedArguments)
      (s s₁ : State) (g : Guard ObjectId), s.Orderly p → p.objects.get f = .function scope →
      p.returnedSites scope ≠ [] →
      Infer.resolveArguments p p.evaluate arguments s = .ok resolved s₁ →
      s₁.inFlight.refresh.enter f = (.entered, g) →
      let params := p.parameters p.objects f
      let bound := bindObjects params resolved
      let parameters := some (ordinaryObjects params bound)
      letI := Classical.decPred (State.ReadsBack p scope bound)
      let scan eval := Infer.scanReturned eval scope (p.isGenerator scope)
        (p.returnedSites scope).reverse (Infer.opened p f scope parameters
          { s₁ with inFlight := g })
      bound.length = params.length ∧
      (∀ (k : Nat) (param : Param), params[k]? = some param → param.isSpecial = true →
        bound[k]? = some .unknown) ∧
      ∃ r s' g', Infer.tryReturned p p.evaluate f (some arguments) s =
          .ok r (Infer.closed parameters g' s') ∧
        scan p.evaluate = .ok r s' ∧
        scan (p.evaluateBy (Infer.evaluateWatching p (State.ReadsBack p scope bound))) =
          .ok r s' := by
  intro p
  have hp : p.WellBound := (Program.wellBound_bind tree atoms root).1
  have hframed : p.binding.Framed := Program.framed_bind tree atoms root
  have hd : p.tree.Descending := hd
  refine ⟨fun s => State.Reached.orderly, fun α op s hs => ⟨?_, op.ended s⟩,
    fun s s' hs => hs.settles,
    fun f scope arguments resolved s s₁ g hs hf hsites hresolved henter => ?_⟩
  · let _ := Classical.decPred (State.Orderly p)
    exact Pairing.bracketing.watch_elsewhere (State.inherited_orderly p) (fun _ => id) hd hs op
  intro params bound parameters scan
  let _ := Classical.decPred (State.ReadsBack p scope bound)
  have hs₁ := hs.settles (Infer.settles_of_resolveArguments hresolved)
  have hlength : bound.length = params.length := length_bindObjects _ _
  have hbound := Infer.boundParameters_run (f := f) hs₁.grown hresolved
  have hscope : s.objects.scopeOf? f = some scope := by
    rw [Program.scopeOf?_of_extends hs.grown, ObjectStore.scopeOf?, hf]
  obtain ⟨r, s', hscan, hsettles⟩ := Infer.scanReturned_total hd scope (p.isGenerator scope)
    (p.returnedSites scope).reverse (Infer.opened p f scope parameters { s₁ with inFlight := g })
  obtain ⟨g', hleave, _⟩ := Infer.closeCall_of_settles henter hsettles
  refine ⟨hlength, fun k param hk ho => bindObjects_special hk ho resolved, r, s', g',
    Infer.tryReturned_of_entered hscope hsites hbound henter hscan hleave, hscan, ?_⟩
  have hordinary : (ordinaryObjects params bound).length =
      (placeholders (p.parameters s₁.objects f)).length := by
    rw [p.parameters_of_extends hs₁.grown]
    exact length_ordinaryObjects hlength
  have hcontext := hs₁.inContext henter scope hordinary
  exact (Pairing.bracketing.scanReturned_watched (State.inherited_inContext p _)
    (fun t ht => ht.readsBack hp hframed hd hf resolved) hd hcontext _ _).trans hscan

/-- A function `f(a, *rest, b)` that returns what a function inside gives, which is `b`, and
the call `f(1, b="s")` of it. -/
def Tree.readingInside : Tree :=
  ⟨#[.name 4, .returnStatement (some 0), .functionDef 5 [] [] [some 1], .name 5,
    .call (some 3) [] [], .returnStatement (some 4),
    .functionDef 1 [⟨2, .positional, none⟩, ⟨3, .varArgs, none⟩, ⟨4, .positional, none⟩] []
      [some 2, some 5],
    .name 1, .literal (.int 1), .literal (.str "s"), .keyword 4 (some 9),
    .call (some 7) [some 8] [some 10], .exprStatement (some 11), .module [some 6, some 12]]⟩

/-- The name inside reads as the string, which is in the third slot of the call and the second
one of the context. -/
theorem parameters_read_back_readingInside :
    let p := Program.bind Tree.readingInside ⟨#["", "f", "a", "rest", "b", "g"]⟩ (some 13)
    let s := State.start (.fresh p) {} {}
    let arguments := Arguments.callSite (some 11) 0 none
    letI := Classical.decPred (State.ReadsBack p 1 [18, .unknown, 19])
    Tree.readingInside.Descending ∧ s.Orderly p ∧ p.objects.get 16 = .function 1 ∧
      p.returnedSites 1 = [4] ∧ p.definitions 1 4 = [.parameter 2] ∧ p.Sees 2 4 2 1 ∧
      ∃ resolved s₁ g s' g',
        Infer.resolveArguments p p.evaluate arguments s = .ok resolved s₁ ∧
        bindObjects (p.parameters p.objects 16) resolved = [18, .unknown, 19] ∧
        s₁.inFlight.refresh.enter 16 = (.entered, g) ∧
        Infer.tryReturned p p.evaluate 16 (some arguments) s =
          .ok (some 19) (Infer.closed (some [18, 19]) g' s') ∧
        Infer.scanReturned (p.evaluateBy (Infer.evaluateWatching p
            (State.ReadsBack p 1 [18, .unknown, 19]))) 1 false [4]
          (Infer.opened p 16 1 (some [18, 19]) { s₁ with inFlight := g }) =
            .ok (some 19) s' := by
  intro p s arguments
  have hd : Tree.readingInside.Descending := by decide
  have hs : s.Reached p := .start {} {}
  have hf : p.objects.get 16 = .function 1 := by decide +kernel
  have hsites : p.returnedSites 1 = [4] := by decide +kernel
  have hgenerator : p.isGenerator 1 = false := by decide +kernel
  have hparams : p.parameters p.objects 16 = [.ordinary 2, ⟨3, .varArgs⟩, .ordinary 4] := by
    decide +kernel
  have hsees : p.Sees 2 4 2 1 :=
    (Program.binder?_eq_some (Program.wellBound_bind _ _ _).1).1 (by decide +kernel)
  obtain ⟨horderly, _, _, hread⟩ :=
    parameters_read_back hd ⟨#["", "f", "a", "rest", "b", "g"]⟩ (some 13)
  obtain ⟨s₁, hresolved⟩ := Infer.value?_eq_some.1
    (by decide +kernel : (Infer.resolveArguments p p.evaluate arguments).value? s =
      some ⟨[18], [(4, 19)]⟩)
  have hbound : bindObjects (p.parameters p.objects 16) ⟨[18], [(4, 19)]⟩ =
      [18, .unknown, 19] := by
    rw [hparams]
    rfl
  have hordinary : ordinaryObjects (p.parameters p.objects 16) [18, .unknown, 19] =
      [18, 19] := by
    rw [hparams]
    rfl
  have henter : s₁.inFlight.refresh.enter 16 =
      (.entered, (s₁.inFlight.refresh.enter 16).2) := by
    have hentered : (match Infer.resolveArguments p p.evaluate arguments s with
        | .ok _ t => (t.inFlight.refresh.enter 16).1
        | .error _ _ => .cycle) = .entered := by decide +kernel
    rw [hresolved] at hentered
    exact Prod.ext hentered rfl
  have hne : p.returnedSites 1 ≠ [] := by
    rw [hsites]
    exact List.cons_ne_nil _ _
  obtain ⟨_, _, r, s', g', hrun, _, hwatched⟩ :=
    hread 16 1 arguments _ s s₁ _ (horderly s hs) hf hne hresolved henter
  have hanswer : (Infer.tryReturned p p.evaluate 16 (some arguments)).value? s =
      some (some 19) := by decide +kernel
  obtain ⟨_, hanswered⟩ := Infer.value?_eq_some.1 hanswer
  obtain rfl : r = some 19 := by
    rw [hrun] at hanswered
    exact (EStateM.Result.ok.inj hanswered).1
  rw [hbound, hordinary] at hrun hwatched
  rw [hsites, hgenerator] at hwatched
  exact ⟨hd, horderly s hs, hf, hsites, by decide +kernel, hsees, _, s₁, _, s', g', hresolved,
    hbound, henter, hrun, hwatched⟩

end ObjectInference
