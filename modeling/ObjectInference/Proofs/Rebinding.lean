import ObjectInference.Proofs.Coherence
import ObjectInference.Proofs.Recording
import ObjectInference.Proofs.Repetition

/-!
Inference for the latest call.

A function can be inferred in general, and its parameters are then what the records
supply, or for given objects, which are bound to them in a context. If these are the
objects that the records supply, the context makes no difference: `Pairing.rebinding`
compares a run with the run that has one more context below all others. Neither does
the cache, from which the one run reads what the other works out anew. So inference
in general and inference for the objects of the latest call differ in one thing only.
The second forgets first what has been seen in the containers of the function, and has
the result that the first would have if that had been forgotten.
-/

namespace ObjectInference

/-! ### Working out what the cache holds -/

namespace Infer

variable {p : Program} {f : ObjectId} {os : List ObjectId} {s : State}

/-- What is supplied already is worked out again without a change. -/
theorem supplyReceiver_of_supplied (hd : s.objects.Distinct) (h : p.Supplied s f os) :
    supplyReceiver p f (p.recordedParameters s f) s = .ok os s := by
  cases h with
  | recorded h =>
      cases hc : p.receiverClass? s f with
      | none => exact supplyReceiver_of_none hc
      | some c =>
          have hne := h.resolve_left (by simp [hc])
          cases hrecorded : p.recordedParameters s f with
          | nil =>
              unfold supplyReceiver
              rw [get_bind_run, hc]
              rfl
          | cons o rest =>
              refine supplyReceiver_of_isKnown ?_
              have ho : o ≠ .unknown := fun ho => hne rest (by rw [hrecorded, ho])
              simpa [ObjectId.isKnown] using ho
  | @receiver c i rest hc hrest hi hget =>
      rw [hrest, supplyReceiver_unknown hc, ← hget, hd.intern_get hi]

/-- Asking for the parameters of a function is working them out, but for the cache. -/
theorem evidenceParameters_eq (hd : s.objects.Distinct)
    (hcache : ∀ {os}, s.parameterCache.get? f = some os → p.Supplied s f os) :
    ∃ os s' cache, supplyReceiver p f (p.recordedParameters s f) s = .ok os s' ∧
      evidenceParameters p f s = .ok os { s' with parameterCache := cache } ∧
      p.Supplied s' f os ∧
      (cache = s.parameterCache ∨ cache = s.parameterCache.insert f os) := by
  unfold evidenceParameters
  rw [get_bind_run]
  cases hcached : s.parameterCache.get? f with
  | some os =>
      exact ⟨os, s, _, supplyReceiver_of_supplied hd (hcache hcached), rfl, hcache hcached,
        .inl rfl⟩
  | none =>
      obtain ⟨os, s', hrun, hsupplied, hmade⟩ := Program.supplyReceiver_recorded p s f
      refine ⟨os, s', s'.parameterCache.insert f os, hrun, ?_, hsupplied, .inr ?_⟩
      · change EStateM.bind (supplyReceiver p f (p.recordedParameters s f)) _ s = _
        rw [EStateM.bind, hrun]
        rfl
      · cases hmade <;> rfl

end Infer

/-! ### One more context -/

/-- A state with another cache, and with one more context below all others. -/
def State.above (s : State) (c : Context) (cache : Table ObjectId (List ObjectId)) : State :=
  { s with contexts := s.contexts ++ [c], parameterCache := cache }

namespace Infer

variable {α β : Type} {p : Program} {c : Context} {s s' : State}
  {cache : Table ObjectId (List ObjectId)}

/-- A computation that has to do neither with contexts nor with the cache. -/
def Detached (c : Context) (x : Infer α) : Prop :=
  ∀ s a s', x s = .ok a s' → ∀ cache, x (s.above c cache) = .ok a (s'.above c cache)

namespace Detached

theorem pure (a : α) : Detached c (Pure.pure a : Infer α) := by
  intro s b s' h cache
  cases h
  rfl

theorem bind {x : Infer α} {f : α → Infer β} (hx : Detached c x) (hf : ∀ a, Detached c (f a)) :
    Detached c (x >>= f) := by
  intro s b s' h cache
  obtain ⟨a, s₁, hs₁, h⟩ := bind_eq_ok.1 h
  exact bind_eq_ok.2 ⟨a, _, hx _ _ _ hs₁ cache, hf a _ _ _ h cache⟩

theorem get_bind {f : State → Infer α} (hsame : ∀ s cache, f (s.above c cache) = f s)
    (hf : ∀ s, Detached c (f s)) : Detached c (get >>= f) := by
  intro s a s' h cache
  have hrun := hf s s a s' h cache
  rwa [← hsame s cache] at hrun

theorem modify {f : State → State}
    (h : ∀ s cache, f (s.above c cache) = (f s).above c cache) :
    Detached c (modifyGet fun s => ((), f s) : Infer Unit) := by
  intro s _ s' hrun cache
  cases hrun
  exact congrArg (EStateM.Result.ok ()) (h s cache)

end Detached

theorem detached_intern (object : Object) : Detached c (intern object) := by
  intro s o s' h cache
  cases h
  rfl

theorem detached_newInstance (o : ObjectId) (site : NodeRef) :
    Detached c (newInstance o site) := by
  refine .get_bind (fun _ _ => rfl) fun s => ?_
  split <;> exact detached_intern _

theorem detached_newContainer (scope : ScopeId) (b : BuiltinClass) (site : NodeRef) :
    Detached c (newContainer scope b site) := by
  intro s o s' h cache
  rw [Pairing.matching.newContainer_run] at h ⊢
  cases h
  rfl

theorem detached_supplyReceiver (f : ObjectId) (os : List ObjectId) :
    Detached c (supplyReceiver p f os) := by
  refine .get_bind (fun _ _ => rfl) fun s => ?_
  split
  · split
    · exact .pure _
    · exact .bind (detached_newInstance _ _) fun _ => .pure _
  · exact .pure _

/-! #### Brackets -/

theorem detached_enterName (key : ScopeId × Atom) : Detached c (enterName key) := by
  intro s e s' h cache
  cases h
  rfl

theorem detached_enterFunction (f : ObjectId) : Detached c (enterFunction f) := by
  intro s e s' h cache
  cases h
  rfl

/-- A call is opened below the one more context. -/
theorem opened_above (p : Program) (f : ObjectId) (scope : ScopeId)
    (parameters : Option (List ObjectId)) (s : State) (c : Context)
    (cache : Table ObjectId (List ObjectId)) :
    ∃ cache', opened p f scope parameters (s.above c cache) =
        (opened p f scope parameters s).above c cache' ∧
      ∀ g os, cache'.get? g = some os → cache.get? g = some os := by
  cases parameters with
  | none => exact ⟨cache, rfl, fun _ _ => id⟩
  | some ps =>
      rw [State.opened_some, State.opened_some]
      exact ⟨_, rfl, fun _ _ => Table.of_get?_restrict⟩

theorem closed_above {parameters : Option (List ObjectId)} (g : Guard ObjectId)
    (h : parameters.isSome → s.contexts ≠ []) :
    closed parameters g (s.above c cache) = (closed parameters g s).above c cache := by
  cases parameters with
  | none => rfl
  | some ps =>
      have htail : (s.contexts ++ [c]).tail = s.contexts.tail ++ [c] :=
        List.tail_append_of_ne_nil (h rfl)
      unfold closed State.above
      dsimp only
      rw [htail]

theorem leaveName_eq {key : ScopeId × Atom} {s : State} {g : Guard (ScopeId × Atom)}
    (h : s.resolving.leave key = .ok g) : leaveName key s = .ok () { s with resolving := g } := by
  unfold leaveName
  rw [get_bind_run, h]
  rfl

theorem boundParameters?_above (s : State) (c : Context)
    (cache : Table ObjectId (List ObjectId)) (f : ObjectId) :
    (s.above c cache).boundParameters? f =
      (s.boundParameters? f).or (if c.function = f then some c.parameters else none) := by
  unfold State.boundParameters? State.above
  simp only [List.find?_append, Option.map_or, List.find?_singleton, beq_iff_eq]
  split <;> rfl

end Infer

namespace State

variable {p : Program} {c : Context} {log : CallLog} {s s' : State}

/-- The function of a context is in flight, and has no context of its own. -/
structure Hosts (p : Program) (c : Context) (s : State) : Prop where
  disciplined : s.Disciplined p
  visiting : c.function ∈ s.inFlight.visiting
  unbound : ∀ c' ∈ s.contexts, c'.function ≠ c.function

theorem inherited_hosts (p : Program) (c : Context) : Inherited p (State.Hosts p c) where
  settles {s s'} hs h := by
    refine ⟨hs.disciplined.settles h, ?_, ?_⟩
    · rw [h.inFlight.visiting_eq hs.disciplined.inFlight]
      exact hs.visiting
    · rw [h.contexts]
      exact hs.unbound
  name {s} hs {key g} h := ⟨hs.disciplined.enterName h, hs.visiting, hs.unbound⟩
  call {s} hs {f g} h scope {parameters} hp := by
    have hdisciplined := (inherited_disciplined p).call hs.disciplined h scope hp
    obtain ⟨rfl, hf, _, _⟩ := Guard.enter_eq_entered h
    have hrefresh : s.inFlight.refresh.visiting = s.inFlight.visiting :=
      (Guard.settles_refresh _).visiting_eq hs.disciplined.inFlight
    rw [hrefresh] at hf
    refine ⟨hdisciplined, ?_, ?_⟩
    · rw [Infer.inFlight_opened]
      change c.function ∈ f :: s.inFlight.refresh.visiting
      rw [hrefresh]
      exact List.mem_cons_of_mem _ hs.visiting
    · cases parameters with
      | none => exact hs.unbound
      | some ps =>
          -- What is entered is not in flight yet, so it is not the function of the context.
          rintro c' hc' hcc
          rcases List.mem_cons.1 hc' with rfl | hc'
          · exact hf ((show f = c.function from hcc) ▸ hs.visiting)
          · exact hs.unbound c' hc' hcc

/-- The records are those of a log, and they supply what a context binds. -/
structure Supplies (p : Program) (c : Context) (log : CallLog) (s : State) : Prop where
  tended : s.Tended p
  calls : s.calls = log
  supplied : p.Supplied s c.function c.parameters

theorem Supplies.move (hs : s.Supplies p c log) (h : Move p False s s') :
    s'.Supplies p c log :=
  ⟨hs.tended.move h, h.calls_eq.trans hs.calls,
    hs.supplied.mono h.extends (congrArg (·.latest c.function) h.calls_eq)⟩

theorem kept_supplies (p : Program) (c : Context) (log : CallLog) :
    Kept p (State.Supplies p c log) :=
  .of_move fun _ _ (h : Move p False _ _) hs => hs.move h

/-- A cache may stand beside a state: it holds what the records supply. -/
def Backed (p : Program) (s : State) (cache : Table ObjectId (List ObjectId)) : Prop :=
  ∀ f os, cache.get? f = some os → p.Supplied s f os

theorem Backed.mono {cache : Table ObjectId (List ObjectId)} (h : s.Backed p cache)
    (ho : s.objects.Extends s'.objects) (hc : s'.calls = s.calls) : s'.Backed p cache :=
  fun f os hf => (h f os hf).mono ho (congrArg (·.latest f) hc)

theorem Backed.insert {cache : Table ObjectId (List ObjectId)} (h : s.Backed p cache)
    {f : ObjectId} {os : List ObjectId} (hf : p.Supplied s f os) :
    s.Backed p (cache.insert f os) := by
  intro g os' hg
  rw [Table.get?_insert] at hg
  split at hg
  · rename_i hfg
    obtain rfl := Option.some.inj hg
    exact hfg ▸ hf
  · exact h g os' hg

end State

namespace Pairing

/-- A run beside the run with one more context, in the world of the state that the
innermost bracket of the first was opened in. -/
structure Rebound (p : Program) (c : Context) (log : CallLog) (w s t : State) : Prop where
  above : ∃ cache, s.Backed p cache ∧ t = s.above c cache
  settles : w.Settles s
  hosts : w.Hosts p c
  supplies : s.Supplies p c log

def rebinding (p : Program) (c : Context) (log : CallLog) : Pairing where
  World := State
  rel := Rebound p c log
  same _ _ a b := a = b
  signal w f g := f = g ∧ f ∈ w.inFlight.visiting
  inside w w' := w'.room < w.room
  may _ _ := True

namespace rebinding

variable {p : Program} {c : Context} {log : CallLog} {E : Exits} {w s t s' : State} {α : Type}

theorem diagonal : (rebinding p c log).Diagonal := ⟨Iff.rfl⟩

theorem reaches_beside {cache : Table ObjectId (List ObjectId)} (h : Rebound p c log w s t)
    (hsettles : s.Settles s') (hsupplies : s'.Supplies p c log) (hbacked : s'.Backed p cache) :
    (rebinding p c log).Reaches w s t s' (s'.above c cache) :=
  ⟨⟨⟨cache, hbacked, rfl⟩, h.settles.trans hsettles, h.hosts, hsupplies⟩, id,
    hsettles.objects.keeps, id⟩

theorem backed {cache : Table ObjectId (List ObjectId)} (hs : s.Supplies p c log)
    (hbacked : s.Backed p cache) (hsettles : s.Settles s') (hsupplies : s'.Supplies p c log) :
    s'.Backed p cache :=
  hbacked.mono hsettles.objects (hsupplies.calls.trans hs.calls.symm)

theorem reaches {cache : Table ObjectId (List ObjectId)} (h : Rebound p c log w s t)
    (hbacked : s.Backed p cache) (hsettles : s.Settles s') (hsupplies : s'.Supplies p c log) :
    (rebinding p c log).Reaches w s t s' (s'.above c cache) :=
  reaches_beside h hsettles hsupplies (backed h.supplies hbacked hsettles hsupplies)

/-- What always has a result, settles, and is detached from contexts and cache. -/
theorem pairs_of_detached (h : (rebinding p c log).rel w s t) {x : Infer α}
    (hx : Infer.Settling x) (hdetached : Infer.Detached c x)
    (hkept : ∀ a s', x s = .ok a s' → s'.Supplies p c log) {Q : State → State → α → α → Prop}
    (hQ : ∀ s t a, Q s t a a) : (rebinding p c log).Pairs E w s t Q x x := by
  obtain ⟨cache, hbacked, rfl⟩ := h.above
  obtain ⟨a, s', hs', hsettles⟩ := hx s
  unfold Pairs
  rw [hs', hdetached s a s' hs' cache]
  exact .ok (reaches h hbacked hsettles (hkept a s' hs')) (hQ _ _ a)

/-- A function has the same parameters beside one more context, if that binds what its
own function is supplied with anyway. Only the caches may differ. -/
theorem currentParameters_above {cache : Table ObjectId (List ObjectId)} {f : ObjectId}
    {os : List ObjectId} (hs : s.Supplies p c log) (hbacked : s.Backed p cache)
    (hbacked' : s'.Backed p cache) (hrun : Infer.currentParameters p f s = .ok os s') :
    ∃ cache', s'.Backed p cache' ∧
      Infer.currentParameters p f (s.above c cache) = .ok os (s'.above c cache') := by
  have hd := hs.tended.distinct
  unfold Infer.currentParameters at hrun ⊢
  rw [Infer.get_bind_run] at hrun ⊢
  rw [Infer.boundParameters?_above]
  cases hbound : s.boundParameters? f with
  | some ps =>
      rw [hbound] at hrun
      cases hrun
      exact ⟨cache, hbacked, rfl⟩
  | none =>
      rw [hbound] at hrun
      obtain ⟨os₁, s₁, cache₁, hworked, hevidence, hsupplied, _⟩ :=
        Infer.evidenceParameters_eq (f := f) hd hs.tended.cache
      obtain ⟨rfl, rfl⟩ := EStateM.Result.ok.inj (hevidence.symm.trans hrun)
      by_cases hf : c.function = f
      · subst hf
        rw [Infer.supplyReceiver_of_supplied hd hs.supplied] at hworked
        cases hworked
        exact ⟨cache, hbacked', by rw [if_pos rfl]; rfl⟩
      · have hbelow : ∀ {os}, (s.above c cache).parameterCache.get? f = some os →
            p.Supplied (s.above c cache) f os :=
          fun {os} hos => (hbacked f os hos).mono (.refl _) rfl
        obtain ⟨os₂, s₂, cache₂, hworked', hevidence', _, hcache⟩ :=
          Infer.evidenceParameters_eq (s := s.above c cache) hd hbelow
        have hover := Infer.detached_supplyReceiver (c := c) f _ s _ _ hworked cache
        obtain ⟨rfl, rfl⟩ := EStateM.Result.ok.inj (hover.symm.trans hworked')
        refine ⟨cache₂, ?_, by rw [if_neg hf]; exact hevidence'⟩
        rcases hcache with rfl | rfl
        · exact hbacked'
        · exact hbacked'.insert (hsupplied.mono (.refl _) rfl)

theorem pairs_currentParameters (h : (rebinding p c log).rel w s t) (f : ObjectId) :
    (rebinding p c log).Pairs E w s t (rebinding p c log).SameList
      (Infer.currentParameters p f) (Infer.currentParameters p f) := by
  obtain ⟨os, s', hrun, hsettles⟩ := Infer.settling_currentParameters p f s
  have hsupplies := (State.kept_supplies p c log).currentParameters f s h.supplies os s' hrun
  obtain ⟨cache, hbacked, rfl⟩ := h.above
  obtain ⟨cache', hbacked', hrun'⟩ := currentParameters_above h.supplies hbacked
    (backed h.supplies hbacked hsettles hsupplies) hrun
  unfold Pairs
  rw [hrun, hrun']
  exact .ok (reaches_beside h hsettles hsupplies hbacked') (diagonal.sameList_iff.2 rfl)

/-! #### Brackets -/

section Brackets

variable (h : (rebinding p c log).rel w s t)

include h

theorem opensName {key : ScopeId × Atom} {g : Guard (ScopeId × Atom)}
    (hg : s.resolving.refresh.enter key = (.entered, g)) :
    (rebinding p c log).Opens w { s with resolving := g } s t { s with resolving := g }
      { t with resolving := g } (Infer.leaveName key) (Infer.leaveName key) := by
  have hkept := State.kept_supplies p c log
  have hentered : Infer.enterName key s = .ok .entered { s with resolving := g } := by
    rw [Infer.enterName_run, hg]
  have hhosts := State.inherited_hosts p c
  obtain ⟨cache, hbacked, rfl⟩ := h.above
  refine ⟨?_, ⟨⟨⟨cache, ?_, rfl⟩, .refl _, ?_, ?_⟩, id, .refl _, id⟩, fun {s'' t''} h'' => ?_⟩
  · change State.room _ < State.room w
    rw [← h.settles.room_eq, State.room, State.room]
    exact Nat.add_lt_add_left (Guard.room_lt_of_enter hg) _
  · exact hbacked.mono (.refl _) rfl
  · exact hhosts.name (hhosts.settles h.hosts h.settles) hg
  · exact hkept.enterName key s h.supplies _ _ hentered
  · obtain ⟨cache', hbacked', rfl⟩ := h''.above
    obtain ⟨g₃, hleave, hs₃, hsettles⟩ := Infer.leaveName_of_settles hg h''.settles
    unfold Ends Pairs
    rw [hs₃, Infer.leaveName_eq (s := s''.above c cache') hleave]
    refine .ok ⟨⟨⟨cache', hbacked'.mono (.refl _) rfl, rfl⟩, h.settles.trans hsettles, h.hosts,
      ?_⟩, id, .refl _, id⟩ trivial
    exact hkept.leaveName key s'' h''.supplies _ _ hs₃

theorem opensCall {f : ObjectId} {g : Guard ObjectId}
    (hg : s.inFlight.refresh.enter f = (.entered, g)) (scope : ScopeId)
    {parameters : Option (List ObjectId)}
    (hlength : ∀ ps ∈ parameters,
      ps.length = (placeholders (p.parameters s.objects f)).length) :
    (rebinding p c log).Opens w (Infer.opened p f scope parameters { s with inFlight := g }) s t
      (Infer.opened p f scope parameters { s with inFlight := g })
      (Infer.opened p f scope parameters { t with inFlight := g })
      (Infer.closeCall f parameters) (Infer.closeCall f parameters) := by
  have hkept := State.kept_supplies p c log
  have hentered : Infer.enterFunction f s = .ok .entered { s with inFlight := g } := by
    rw [Infer.enterFunction_run, hg]
  have hsupplies := hkept.openCall f scope parameters _
    (hkept.enterFunction f s h.supplies _ _ hentered) _ _ (Infer.openCall_eq _)
  have hhosts := State.inherited_hosts p c
  obtain ⟨cache, hbacked, rfl⟩ := h.above
  obtain ⟨cache', heq, hsubset⟩ :=
    Infer.opened_above p f scope parameters { s with inFlight := g } c cache
  change Infer.opened p f scope parameters { s.above c cache with inFlight := g } = _ at heq
  rw [heq]
  have hkeeps : s.objects.Extends
      (Infer.opened p f scope parameters { s with inFlight := g }).objects := by
    rw [Infer.objects_opened]
    exact .refl _
  refine ⟨?_, ⟨⟨⟨cache', ?_, rfl⟩, .refl _, ?_, hsupplies⟩, id, hkeeps.keeps, id⟩,
    fun {s'' t''} h'' => ?_⟩
  · change State.room _ < State.room w
    rw [← h.settles.room_eq, State.room, State.room, Infer.inFlight_opened,
      Infer.resolving_opened]
    exact Nat.add_lt_add_right (Guard.room_lt_of_enter hg) _
  · exact fun f' os hf' => (hbacked f' os (hsubset f' os hf')).mono hkeeps
      (congrArg (·.latest f') (Infer.calls_opened _))
  · exact hhosts.call (hhosts.settles h.hosts h.settles) hg scope hlength
  · obtain ⟨cache'', hbacked'', rfl⟩ := h''.above
    obtain ⟨g₃, hleave, hs₃, hsettles⟩ := Infer.closeCall_of_settles hg h''.settles
    -- The context on top is the one that the call has opened.
    have hcontexts : parameters.isSome → s''.contexts ≠ [] := by
      rw [h''.settles.contexts]
      cases parameters with
      | none => intro h; cases h
      | some ps => exact fun _ => List.cons_ne_nil _ _
    unfold Ends Pairs
    rw [hs₃, Infer.closeCall_eq (s := s''.above c cache'') hleave, Infer.closed_above g₃ hcontexts]
    have hobjects : s''.objects.Extends (Infer.closed parameters g₃ s'').objects := by
      rw [Infer.objects_closed]
      exact .refl _
    refine .ok ⟨⟨⟨cache'', hbacked''.mono hobjects (Infer.calls_closed _), rfl⟩,
      h.settles.trans hsettles, h.hosts, ?_⟩, id, hobjects.keeps, id⟩ trivial
    exact hkept.closeCall f parameters s'' h''.supplies _ _ hs₃

end Brackets

/-- One more context that binds what the records supply respects everything that
evaluation does. -/
theorem lawful (p : Program) (c : Context) (log : CallLog) : (rebinding p c log).Lawful p where
  unknown _ := rfl
  isKnown_eq {_ _ _} _ {a b} hab := by rw [show a = b from hab]
  get {_ _ _} h {a b} hab := by
    obtain ⟨_, _, rfl⟩ := h.above
    obtain rfl : a = b := hab
    exact Object.Alike.of_eq _
  lookup {_ _ _} h {a b} hab name := by
    obtain ⟨_, _, rfl⟩ := h.above
    obtain rfl : a = b := hab
    exact diagonal.sameOption_iff.2 rfl
  evidence {_ _ _} h {a b} hab slot := by
    obtain ⟨_, _, rfl⟩ := h.above
    obtain rfl : a = b := hab
    exact diagonal.sameOption_iff.2 rfl
  defined {_ _ _} _ {_ _} _ {_} _ := rfl
  global {_ _ _} _ {_} _ {_} _ := rfl
  count {_ s _} h {change} hchange :=
    pairs_of_detached h (Infer.settling_count change) (.modify fun _ _ => rfl)
      ((State.kept_supplies p c log).count hchange s h.supplies) fun _ _ _ => trivial
  builtinInstance {_ s _} h {b} _ :=
    pairs_of_detached h (Infer.settling_builtinInstance b) (Infer.detached_intern _)
      ((State.kept_supplies p c log).builtinInstance b s h.supplies) fun _ _ _ => rfl
  newInstance {_ s _} h {o o'} ho _ _ site := by
    obtain rfl : o = o' := ho
    exact pairs_of_detached h (Infer.settling_newInstance o site)
      (Infer.detached_newInstance o site)
      ((State.kept_supplies p c log).newInstance o site s h.supplies) fun _ _ _ => rfl
  newContainer {_ s _} h {scope site} _ _ {_} _ :=
    pairs_of_detached h (Infer.settling_newContainer scope _ site)
      (Infer.detached_newContainer scope _ site)
      ((State.kept_supplies p c log).newContainer scope _ site s h.supplies) fun _ _ _ => rfl
  generatorOf {_ s _} h {e e'} he _ := by
    obtain rfl : e = e' := he
    exact pairs_of_detached h (Infer.settling_generatorOf e) (Infer.detached_intern _)
      ((State.kept_supplies p c log).generatorOf e s h.supplies) fun _ _ _ => rfl
  observe {_ _ _} h {a a' o o'} ha ho {slot} hslot := by
    obtain rfl : a = a' := ha
    obtain rfl : o = o' := ho
    exact pairs_of_detached h (Infer.settling_observe a slot o) (.modify fun _ _ => rfl)
      (fun _ _ => (State.kept_supplies p c log).observe hslot.hasSlot o h.supplies)
      fun _ _ _ => trivial
  currentParameters {_ _ _} h {_ _} _ {d} _ := pairs_currentParameters h d.owner
  enterName {w s t} h key _ := by
    have hdetached := Infer.detached_enterName (c := c) key
    rcases Infer.enterName_cases key s with ⟨e, s', he, hs', hsettles⟩ | ⟨g, hg, hs'⟩
    · obtain ⟨cache, hbacked, rfl⟩ := h.above
      have hsupplies := (State.kept_supplies p c log).enterName key s h.supplies _ _ hs'
      exact .inl ⟨e, s', _, he, hs', hdetached _ _ _ hs' cache,
        reaches h hbacked hsettles hsupplies⟩
    · have hopens := opensName h hg
      obtain ⟨cache, hbacked, rfl⟩ := h.above
      exact .inr ⟨_, _, _, hs', hdetached _ _ _ hs' cache, hopens,
        fun f f' hff => ⟨hff.1, h.settles.inFlight.subset hff.2⟩⟩
  enterFunction {w s t} h {f f'} hf {scope} _ {parameters parameters'} hp := by
    obtain rfl : f = f' := hf
    obtain rfl : parameters = parameters' := by
      cases hp with
      | none => rfl
      | some hos => rw [diagonal.sameList_iff.1 hos.1]
    have hdetached := Infer.detached_enterFunction (c := c) f
    rcases Infer.enterFunction_cases f s with
      ⟨e, s', he, hs', hsettles, hcycle⟩ | ⟨g, hg, hs'⟩
    · obtain ⟨cache, hbacked, rfl⟩ := h.above
      have hsupplies := (State.kept_supplies p c log).enterFunction f s h.supplies _ _ hs'
      exact .inl ⟨e, s', _, he, hs', hdetached _ _ _ hs' cache,
        reaches h hbacked hsettles hsupplies,
        fun he => ⟨rfl, h.settles.inFlight.subset (hcycle he)⟩⟩
    · have hlength : ∀ ps ∈ parameters,
          ps.length = (placeholders (p.parameters s.objects f)).length := by
        intro ps hps
        cases hp with
        | none => cases hps
        | some hos =>
            cases hps
            exact hos.2
      have hopens := opensCall h hg scope hlength
      obtain ⟨cache, hbacked, rfl⟩ := h.above
      exact .inr (.inl ⟨_, _, _, _, _, hs', hdetached _ _ _ hs' cache, Infer.openCall_eq _,
        Infer.openCall_eq _, hopens⟩)

theorem pairsOn_evaluate (p : Program) (c : Context) (log : CallLog) (expr : NodeRef) :
    (rebinding p c log).PairsOn (fun _ => ¬ p.tree.Descending) p.evaluate p.evaluate expr := by
  refine (lawful p c log).pairsOn_evaluateBy State.room id (fun {w s t} h => ⟨?_, ?_⟩)
    (fun _ _ => rfl) (fun _ _ _ _ h scope => h scope trivial) expr
  · exact h.settles.room_eq
  · obtain ⟨_, _, rfl⟩ := h.above
    rfl

/-- Trying returned values has the same result in both runs. -/
theorem scanReturned (hd : p.tree.Descending) (h : Rebound p c log w s t) (scope : ScopeId)
    (generator : Bool) (sites : List NodeId) :
    ∃ r s' t', Infer.scanReturned p.evaluate scope generator sites s = .ok r s' ∧
      Infer.scanReturned p.evaluate scope generator sites t = .ok r t' ∧
      Rebound p c log w s' t' := by
  have hscan : (rebinding p c log).Pairs _ w s t _ (Infer.scanReturned p.evaluate scope generator
      sites) _ :=
    (lawful p c log).scanReturned generator (fun _ _ => pairsOn_evaluate p c log _ scope) h
  unfold Pairs at hscan
  generalize Infer.scanReturned p.evaluate scope generator sites s = x,
    Infer.scanReturned p.evaluate scope generator sites t = y at hscan ⊢
  cases hscan with
  | @ok r r' s' t' hr hab =>
      obtain rfl := diagonal.sameOption_iff.1 hab
      exact ⟨r, s', t', rfl, rfl, hr.rel⟩
  | reentrant _ hfg => exact hfg.elim
  | exhausted hnot => exact absurd hd hnot
  | strayed _ _ hs => exact hs.elim
  | strayedReentrant _ _ hs => exact hs.elim

end rebinding

end Pairing

/-! ### Inference for what the records supply -/

/-- In the containers made in some scopes nothing has been seen. -/
def State.NothingSeen (s : State) (scopes : List ScopeId) : Prop :=
  ∀ scope ∈ scopes, ∀ a ∈ s.allocated scope, ∀ slot, s.evidence.get? a slot = none

namespace State

variable {p : Program} {s : State} {scopes : List ScopeId} {f : ObjectId}

theorem nothingSeen_without (p : Program) (s : State) (scopes : List ScopeId) :
    (s.without p scopes).NothingSeen scopes := by
  intro scope hscope a ha slot
  refine (Memory.get?_without p s.toMemory scopes a slot).trans (if_neg fun h => ?_)
  exact h scope hscope ha

theorem NothingSeen.evidence_without (h : s.NothingSeen scopes) :
    (s.without p scopes).evidence = s.evidence := by
  have hslots : s.evidence.slots.restrict
      (fun k => decide (∀ scope ∈ scopes, k.1 ∉ s.allocated scope)) = s.evidence.slots := by
    refine Table.restrict_eq_self fun k hk => decide_eq_true fun scope hscope ha => ?_
    obtain ⟨v, hv⟩ := Table.exists_get?_of_mem_keys hk
    have hnone := h scope hscope k.1 ha k.2
    rw [Evidence.get?, hv] at hnone
    cases hnone
  exact congrArg Evidence.mk hslots

end State

namespace Infer

variable {p : Program} {eval : Evaluator} {f : ObjectId} {scope : ScopeId}
  {ps os : List ObjectId} {s s' : State}

/-- An inference in flight, from the point where its call is open. -/
theorem inferInFlight_run (parameters : Option (List ObjectId)) {r : Option ObjectId}
    {g : Guard ObjectId}
    (hscan : scanReturned eval scope (p.isGenerator scope) (p.returnedSites scope).reverse
      (opened p f scope parameters s) = .ok r s') (hleave : s'.inFlight.leave f = .ok g) :
    (do
      let result ← inferInFlight p eval f scope parameters
      leaveFunction f
      return result) s = .ok r (closed parameters g s') := by
  rw [inferInFlight_bracket]
  exact bind_eq_ok.2 ⟨(), _, openCall_eq s, bind_eq_ok.2 ⟨r, s', hscan,
    bind_eq_ok.2 ⟨(), _, closeCall_eq hleave, rfl⟩⟩⟩

/-- An inference in general. -/
theorem tryReturned_none (hf : s.objects.scopeOf? f = some scope)
    (hsites : (p.returnedSites scope).isEmpty = false) :
    tryReturned p eval f none s =
      (match (s.inFlight.refresh.enter f).1 with
        | .entered => do
          let result ← inferInFlight p eval f scope none
          leaveFunction f
          return result
        | .cycle => throw (.reentrant f)
        | _ => do
          count fun c => { c with limitBailouts := c.limitBailouts + 1 }
          return none : Infer (Option ObjectId))
        { s with inFlight := (s.inFlight.refresh.enter f).2 } := by
  unfold tryReturned
  rw [get_bind_run, hf]
  simp only [hsites, Bool.false_eq_true, if_false]
  rfl

/-- Where nothing has been seen in the containers of a function, a call of it opens no
more than a context. -/
theorem opened_eq_above (f : ObjectId) (ps : List ObjectId) (h : s.NothingSeen (p.subtree scope))
    (hcontexts : s.contexts = []) :
    opened p f scope (some ps) s =
      s.above ⟨f, ps⟩ (s.without p (p.subtree scope)).parameterCache := by
  rw [State.opened_some]
  unfold State.above
  rw [hcontexts, ← h.evidence_without (p := p)]
  rfl

section Latest

variable (hd : p.tree.Descending) (hs : s.Tended p) (hdisciplined : s.Disciplined p)
  (hcontexts : s.contexts = []) (hsupplied : p.Supplied s f ps)
  (hnothing : s.NothingSeen (p.subtree scope))

include hd hs hdisciplined hcontexts hsupplied hnothing

/-- An inference in flight has the same result in general and for what is supplied. -/
theorem inferInFlight_supplied {g : Guard ObjectId}
    (hg : s.inFlight.refresh.enter f = (.entered, g)) :
    SameOutcome
      ((do
        let result ← inferInFlight p p.evaluate f scope none
        leaveFunction f
        return result) { s with inFlight := g })
      ((do
        let result ← inferInFlight p p.evaluate f scope (some ps)
        leaveFunction f
        return result) { s with inFlight := g }) := by
  obtain ⟨hentered, hvisiting, hunbound⟩ := hdisciplined.enterFunction hg
  have hsupplies : State.Supplies p ⟨f, ps⟩ s.calls { s with inFlight := g } :=
    ⟨hs.lose rfl rfl id, rfl, hsupplied.mono (.refl _) rfl⟩
  have hbacked : State.Backed p { s with inFlight := g }
      (s.without p (p.subtree scope)).parameterCache :=
    fun h os hos => (hs.cache (Table.of_get?_restrict hos)).mono (.refl _) rfl
  have hopened := opened_eq_above (s := { s with inFlight := g }) f ps hnothing hcontexts
  obtain ⟨r, s', t', hrun, hrun', h⟩ := Pairing.rebinding.scanReturned hd
    ⟨⟨_, hbacked, hopened⟩, .refl _, ⟨hentered, hvisiting, hunbound⟩, hsupplies⟩ scope
    (p.isGenerator scope) (p.returnedSites scope).reverse
  obtain ⟨g₃, hleave, _⟩ := Guard.leave_of_settles hg h.settles.inFlight
  obtain ⟨cache, -, rfl⟩ := h.above
  rw [inferInFlight_run none hrun hleave, inferInFlight_run (some ps) hrun' hleave]
  exact .ok rfl

theorem tryReturned_supplied (hf : s.objects.scopeOf? f = some scope)
    (hps : ordinaryObjects (p.parameters s.objects f)
      (bindObjects (p.parameters s.objects f) { positional := os }) = ps) :
    SameOutcome (tryReturned p p.evaluate f none s)
      (tryReturned p p.evaluate f (some (.objects os)) s) := by
  cases hsites : (p.returnedSites scope).isEmpty with
  | true =>
      rw [tryReturned_of_isEmpty hf hsites, tryReturned_of_isEmpty hf hsites]
      exact .refl _
  | false =>
      rw [tryReturned_none hf hsites, tryReturned_objects hf hsites rfl, hps]
      cases hg : s.inFlight.refresh.enter f with
      | mk e g =>
          cases e with
          | entered =>
              exact inferInFlight_supplied hd hs hdisciplined hcontexts hsupplied hnothing hg
          | cycle => exact .error rfl
          | depthExceeded => exact .ok rfl
          | iterationExceeded => exact .ok rfl

end Latest

end Infer

/-! ### The latest call -/

/-- A function has ordinary parameters only, and its latest call was with these objects,
all of them known. A function without parameters need not have been called. -/
structure State.LastCalledWith (p : Program) (s : State) (f : ObjectId) (os : List ObjectId) :
    Prop where
  ordinary : ∀ param ∈ p.parameters s.objects f, param.isSpecial = false
  objects : (s.calls.latest f = some os ∧ ∀ o ∈ os, o.isKnown = true) ∨
    (p.parameters s.objects f = [] ∧ os = [])

namespace State.LastCalledWith

variable {p : Program} {s : State} {f : ObjectId} {os : List ObjectId}
  (h : s.LastCalledWith p f os)

include h

theorem length_eq (ho : p.objects.Extends s.objects) (hfits : s.calls.Fits p) :
    os.length = (p.parameters s.objects f).length := by
  rcases h.objects with ⟨hlatest, -⟩ | ⟨hparams, rfl⟩
  · rw [p.parameters_of_extends ho]
    exact hfits f os hlatest
  · rw [hparams]
    rfl

/-- What the call was with is what is bound to the parameters by a call with it. -/
theorem bound (ho : p.objects.Extends s.objects) (hfits : s.calls.Fits p) :
    ordinaryObjects (p.parameters s.objects f)
      (bindObjects (p.parameters s.objects f) { positional := os }) = os := by
  have hlength := h.length_eq ho hfits
  rw [bindObjects_positional h.ordinary hlength, ordinaryObjects_of_ordinary h.ordinary hlength]

/-- It is what the records supply, too. -/
theorem supplied (ho : p.objects.Extends s.objects) (hfits : s.calls.Fits p) :
    p.Supplied s f os := by
  have hlength := h.length_eq ho hfits
  rcases h.objects with ⟨hlatest, hknown⟩ | ⟨hparams, rfl⟩
  · have hrecorded : p.recordedParameters s f = os := by
      unfold Program.recordedParameters
      rw [hlatest]
      show overlay _ (ordinaryObjects _ os) = os
      rw [ordinaryObjects_of_ordinary h.ordinary hlength]
      refine overlay_unknowns (fun u hu => ?_) ?_
      · obtain ⟨_, _, rfl⟩ := List.mem_map.1 hu
        rfl
      · rw [← length_ordinaryObjects hlength, ordinaryObjects_of_ordinary h.ordinary hlength]
    have hsupplied := Program.Supplied.recorded (p := p) (s := s) (f := f)
      (.inr fun rest hrest => ?_)
    · rwa [hrecorded] at hsupplied
    · rw [hrecorded] at hrest
      have hfirst := hknown .unknown (by rw [hrest]; exact List.mem_cons_self)
      cases hfirst
  · have hrecorded : p.recordedParameters s f = [] :=
      List.eq_nil_of_length_eq_zero (by
        rw [Program.length_recordedParameters, hparams]
        rfl)
    have hclass : p.receiverClass? s f = none := by
      unfold Program.receiverClass?
      rw [hparams]
    have hsupplied := Program.Supplied.recorded (p := p) (s := s) (f := f) (.inl hclass)
    rwa [hrecorded] at hsupplied

section Returned

variable {scope : ScopeId} (hd : p.tree.Descending) (hs : s.Tended p)
  (hdisciplined : s.Disciplined p) (hidle : s.Idle) (hfits : s.calls.Fits p)
  (hf : s.objects.scopeOf? f = some scope)

include h hd hs hdisciplined hidle hfits hf

/-- Inference for the call is inference in general where nothing has been seen. -/
theorem returned_of_nothingSeen (hnothing : s.NothingSeen (p.subtree scope)) :
    SameOutcome (Infer.returned p p.evaluate f none s)
      (Infer.returned p p.evaluate f (some (.objects os)) s) := by
  apply Infer.returned_of_tryReturned
  exact Infer.tryReturned_supplied hd hs hdisciplined hidle.contexts
    (h.supplied hs.objects hfits) hnothing hf (h.bound hs.objects hfits)

/-- Where the scopes of the function have been forgotten, nothing is left in its
containers. -/
theorem returned_without :
    SameOutcome (Infer.returned p p.evaluate f (some (.objects os)) s)
      (Infer.returned p p.evaluate f none (s.without p (p.subtree scope))) := by
  have hthere : (s.without p (p.subtree scope)).LastCalledWith p f os := ⟨h.ordinary, h.objects⟩
  have htended : (s.without p (p.subtree scope)).Tended p :=
    hs.lose rfl rfl fun {_ _} => Table.of_get?_restrict
  have hdisciplined' : (s.without p (p.subtree scope)).Disciplined p :=
    ⟨hdisciplined.inFlight, hdisciplined.resolving, hdisciplined.visiting, hdisciplined.nodup,
      hdisciplined.parameters⟩
  exact (Infer.returned_without hf).trans (hthere.returned_of_nothingSeen hd htended hdisciplined'
    ⟨hidle.inFlight, hidle.resolving, hidle.contexts⟩ hfits hf (s.nothingSeen_without p _)).symm

end Returned

end State.LastCalledWith

/-- A session that has forgotten what a scope, and the scopes nested in it, have led to. -/
def Session.forget (s : Session) (scope : ScopeId) : Session :=
  { s with state := { s.state with toMemory := s.state.toMemory.forgetTree s.program scope } }

theorem Session.forget_eq (s : Session) (scope : ScopeId) :
    s.forget scope =
      { s with state := s.state.without s.program (s.program.subtree scope) } := by
  unfold forget
  rw [Memory.forgetTree_eq]
  rfl

/-- Inference for the objects of the latest call of a function has the answer that
inference in general has once the scopes of the function have been forgotten. If nothing
has been seen in the containers made in them, it has the answer that inference in
general has as it is. -/
theorem answers_for_latest_call {tree : Tree} (hd : tree.Descending) (atoms : Interner)
    (root : NodeRef) {s : Session} (hprogram : s.program = .bind tree atoms root)
    (hs : s.state.Led s.program) {f : ObjectId} {scope : ScopeId}
    (hf : s.program.objects.get f = .function scope) {os : List ObjectId}
    (hos : s.state.LastCalledWith s.program f os) :
    ∃ a u v, s.ask (.returned f (some os)) = (.ok a, u) ∧
      (s.forget scope).ask (.returned f none) = (.ok a, v) ∧ v.state.objects = u.state.objects ∧
      (s.state.NothingSeen (s.program.subtree scope) →
        ∃ w, s.ask (.returned f none) = (.ok a, w) ∧ w.state.objects = u.state.objects) := by
  have hp : s.program.WellBound := hprogram ▸ (Program.wellBound_bind tree atoms root).1
  have hds : s.program.tree.Descending := by
    rw [hprogram]
    exact hd
  have htended := hs.reached.tended hp
  obtain ⟨hdisciplined, hidle⟩ := hs.reached.disciplined_and_idle
  have hfits := hs.fits hp
  have hscope : s.state.objects.scopeOf? f = some scope := by
    rw [Program.scopeOf?_of_extends htended.objects, ObjectStore.scopeOf?, hf]
  obtain ⟨o, u, hrun, -⟩ := hs.reached.perform_ok hds (.returned f (some (.objects os)))
  change Infer.returned s.program s.program.evaluate f (some (.objects os)) s.state = _ at hrun
  have hforgotten := hos.returned_without hds htended hdisciplined hidle hfits hscope
  rw [hrun] at hforgotten
  obtain ⟨v, hv, hvobjects⟩ := hforgotten.of_ok
  refine ⟨_, _, { s.forget scope with state := v }, Session.ask_returned hrun, ?_, hvobjects,
    fun hnothing => ?_⟩
  · rw [Session.forget_eq]
    exact Session.ask_returned hv
  · have hsame := (hos.returned_of_nothingSeen hds htended hdisciplined hidle hfits hscope
      hnothing).symm
    rw [hrun] at hsame
    obtain ⟨w, hw, hwobjects⟩ := hsame.of_ok
    exact ⟨_, Session.ask_returned hw, hwobjects⟩

/-- A function that puts its argument into a list and returns what is in it, and a call
of it. -/
def Tree.keeping : Tree :=
  ⟨#[.name 1, .list [some 0], .name 2, .assign [some 2] (some 1), .name 2, .literal (.int 0),
    .index (some 5), .subscript (some 4) (some 6), .returnStatement (some 7),
    .functionDef 3 [⟨1, .positional, none⟩] [] [some 3, some 8],
    .name 3, .literal (.int 1), .call (some 10) [some 11] [], .exprStatement (some 12),
    .module [some 9, some 13]]⟩

/-- The analysis has not come to the list, so both answers are those for the call. -/
theorem answers_for_latest_call_keeping :
    let p := Program.bind Tree.keeping ⟨#["", "a", "x", "f"]⟩ (some 14)
    let s := (Session.start p (.fresh p) {}).analyze.2
    let integer : ObjectId := 17
    Tree.keeping.Descending ∧ s.state.Led p ∧ p.objects.get 16 = .function 1 ∧
      s.state.LastCalledWith p 16 [integer] ∧ s.state.NothingSeen (p.subtree 1) ∧
      ∃ u w, s.ask (.returned 16 (some [integer])) = (.ok (.returned (some integer)), u) ∧
        s.ask (.returned 16 none) = (.ok (.returned (some integer)), w) := by
  intro p s integer
  have hd : Tree.keeping.Descending := by decide
  have hs : s.program = p ∧ s.state.Led p := Session.led_analyze_start hd {}
  have hf : p.objects.get 16 = .function 1 := by decide +kernel
  have hos : s.state.LastCalledWith p 16 [integer] := by
    refine ⟨by decide +kernel, .inl ⟨by decide +kernel, by decide +kernel⟩⟩
  have hnothing : s.state.NothingSeen (p.subtree 1) := by
    intro scope _ a _ slot
    have hempty : s.state.evidence = {} := by decide +kernel
    rw [hempty]
    rfl
  obtain ⟨a, u, v, hu, -, -, hsame⟩ := answers_for_latest_call hd ⟨#["", "a", "x", "f"]⟩ (some 14)
    hs.1 (hs.1 ▸ hs.2) (hs.1 ▸ hf) (hs.1 ▸ hos)
  obtain ⟨w, hw, -⟩ := hsame (hs.1 ▸ hnothing)
  have ha : a = .returned (some integer) := by
    have hanswer : (s.ask (.returned 16 (some [integer]))).1.toOption =
        some (.returned (some integer)) := by decide +kernel
    rw [hu] at hanswer
    exact Option.some.inj hanswer
  rw [ha] at hu hw
  exact ⟨hd, hs.2, hf, hos, hnothing, u, w, hu, hw⟩

/-- A function that makes a list, appends a number to it, and returns what is in it. -/
def Tree.appending : Tree :=
  ⟨#[.list [], .name 1, .assign [some 1] (some 0), .name 1, .attr (some 3) 2, .literal (.int 1),
    .call (some 4) [some 5] [], .exprStatement (some 6), .name 1, .literal (.int 0),
    .index (some 9), .subscript (some 8) (some 10), .returnStatement (some 11),
    .functionDef 3 [] [] [some 2, some 7, some 12], .module [some 13]]⟩

/-- The analysis has seen a number go into the list. Inference in general finds it there;
inference for a call forgets it first. -/
theorem answers_differ_appending :
    let p := Program.bind Tree.appending ⟨#["", "x", "append", "f"]⟩ (some 14)
    let s := (Session.start p (.fresh p) {}).analyze.2
    let integer : ObjectId := 18
    Tree.appending.Descending ∧ s.state.Led p ∧ p.objects.get 16 = .function 1 ∧
      s.state.LastCalledWith p 16 [] ∧ s.state.objects.get integer = .inst 1 none ∧
      ∃ u v, s.ask (.returned 16 none) = (.ok (.returned (some integer)), u) ∧
        s.ask (.returned 16 (some [])) = (.ok (.returned none), v) := by
  intro p s integer
  have hd : Tree.appending.Descending := by decide
  refine ⟨hd, (Session.led_analyze_start hd {}).2, by decide +kernel,
    ⟨by decide +kernel, .inr ⟨by decide +kernel, rfl⟩⟩, by decide +kernel, _, _,
    Session.ask_of_toOption (by decide +kernel), Session.ask_of_toOption (by decide +kernel)⟩

end ObjectInference
