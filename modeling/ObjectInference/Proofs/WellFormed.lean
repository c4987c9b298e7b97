import ObjectInference.Proofs.Matching.Runs

/-!
Well-formed states.

Objects refer to each other by number, and so do the tables of a state. A store is
well made when a reference inside an object leads to an earlier object of the right
kind, and a state is well formed when, besides, its tables mention no object that is
not in the store. Everything that evaluation does with objects of the store leaves a
well-formed state, and what it makes or reads is in the store again; `Infer.Yields`
says so of a computation.
-/

namespace ObjectInference

/-! ### Stores -/

/-- A store that inference has grown from that of a program, without a generator of
nothing. -/
structure Program.Made (p : Program) (st : ObjectStore) : Prop where
  grown : p.objects.Grown st
  known {o e : ObjectId} (h : st.get o = .generator e) : e.isKnown = true

namespace Program.Made

variable {p : Program} {st : ObjectStore}

theorem refl (hp : p.WellBound) : p.Made p.objects :=
  ⟨.refl hp.distinct hp.made, fun {o e} h => absurd (by rw [ObjectStore.kind, h]; rfl) (hp.made o)⟩

theorem intern (hst : p.Made st) {object : Object} (hobject : object.kind = .inst)
    (hinst : ∀ c site, object = .inst c site → c < p.objects.size ∧ p.objects.kind c = .cls)
    (hgenerator : ∀ e, object = .generator e → e < st.size ∧ e.isKnown = true) :
    p.Made (st.intern object).2 := by
  refine ⟨hst.grown.intern hobject hinst fun e he => (hgenerator e he).1, fun {o e} h => ?_⟩
  rcases st.get_intern_cases object o with ho | ho
  · exact hst.known (ho.symm.trans h)
  · exact (hgenerator e (ho.symm.trans h)).2

/-- The class of an instance comes before it. -/
theorem cls_lt (hp : p.WellBound) (hst : p.Made st) {o c : ObjectId} {site : NodeRef}
    (h : st.get o = .inst c site) : c < o := by
  refine Nat.lt_of_lt_of_le (hst.grown.inst h).1 (Nat.not_lt.1 fun ho => hp.made o ?_)
  rw [ObjectStore.kind, ← hst.grown.get_base ho, h]
  rfl

theorem kind_cls (hst : p.Made st) {o c : ObjectId} {site : NodeRef}
    (h : st.get o = .inst c site) : st.kind c = .cls := by
  obtain ⟨hlt, hk⟩ := hst.grown.inst h
  rwa [ObjectStore.kind, hst.grown.get_base hlt]

theorem attribute?_lt (hp : p.WellBound) (hst : p.Made st) {o a : ObjectId} {name : Atom}
    (h : p.attribute? st o name = some a) : a < st.size := by
  refine Nat.lt_of_lt_of_le ?_ hst.grown.size_le
  rw [hp.attribute?_eq hst.grown] at h
  split at h
  · exact hp.ownAttribute?_lt h
  · exact hp.ownAttribute?_lt h

end Program.Made

/-! ### States -/

def CallLog.Within (l : CallLog) (n : Nat) : Prop :=
  ∀ f, ∀ record ∈ l.calls f, f < n ∧ ∀ o ∈ record, o < n

/-- The store is well made, and the tables mention no object that is not in it. -/
structure State.WellFormed (p : Program) (s : State) : Prop where
  made : p.Made s.objects
  evidence {c v : ObjectId} {slot : Slot} (h : s.evidence.get? c slot = some v) :
    c < s.objects.size ∧ v < s.objects.size
  allocated {scope : ScopeId} {c : ObjectId} (h : c ∈ s.allocated scope) : c < s.objects.size
  cache {f : ObjectId} {os : List ObjectId} (h : s.parameterCache.get? f = some os) :
    f < s.objects.size ∧ ∀ o ∈ os, o < s.objects.size
  contexts : ∀ c ∈ s.contexts,
    c.function < s.objects.size ∧ ∀ o ∈ c.parameters, o < s.objects.size
  calls : s.calls.Within s.objects.size

namespace State.WellFormed

variable {p : Program} {s : State} {f : ObjectId} {os : List ObjectId}

theorem lt_of_lt_base (hs : s.WellFormed p) {o : ObjectId} (h : o < p.objects.size) :
    o < s.objects.size :=
  Nat.lt_of_lt_of_le h hs.made.grown.size_le

theorem start (hp : p.WellBound) {calls : CallLog} (hcalls : calls.Within p.objects.size)
    (options : Options) : (State.start (.fresh p) calls options).WellFormed p := by
  refine ⟨.refl hp, fun h => ?_, fun h => ?_, fun h => ?_, fun _ h => ?_, hcalls⟩
  all_goals cases h

theorem resume (hs : s.WellFormed p) {calls : CallLog} (hcalls : calls.Within s.objects.size)
    (options : Options) : (State.start s.toMemory.clearParameters calls options).WellFormed p := by
  refine ⟨hs.made, hs.evidence, hs.allocated, fun h => ?_, fun _ h => ?_, hcalls⟩
  all_goals cases h

/-! #### Steps -/

/-- A larger store has what the smaller one has. -/
theorem grow (hs : s.WellFormed p) {st : ObjectStore} (hst : p.Made st)
    (hle : s.objects.size ≤ st.size) : WellFormed p { s with objects := st } := by
  have hlist : ∀ {os : List ObjectId}, (∀ o ∈ os, o < s.objects.size) → ∀ o ∈ os, o < st.size :=
    fun h o ho => Nat.lt_of_lt_of_le (h o ho) hle
  refine ⟨hst, fun h => ?_, fun h => ?_, fun h => ?_, fun c hc => ?_, fun f record hr => ?_⟩
  · obtain ⟨hc, hv⟩ := hs.evidence h
    exact ⟨Nat.lt_of_lt_of_le hc hle, Nat.lt_of_lt_of_le hv hle⟩
  · exact Nat.lt_of_lt_of_le (hs.allocated h) hle
  · obtain ⟨hf, hos⟩ := hs.cache h
    exact ⟨Nat.lt_of_lt_of_le hf hle, hlist hos⟩
  · obtain ⟨hf, hos⟩ := hs.contexts c hc
    exact ⟨Nat.lt_of_lt_of_le hf hle, hlist hos⟩
  · obtain ⟨hf, hos⟩ := hs.calls f record hr
    exact ⟨Nat.lt_of_lt_of_le hf hle, hlist hos⟩

theorem intern (hs : s.WellFormed p) {object : Object} (hobject : object.kind = .inst)
    (hinst : ∀ c site, object = .inst c site → c < p.objects.size ∧ p.objects.kind c = .cls)
    (hgenerator : ∀ e, object = .generator e → e < s.objects.size ∧ e.isKnown = true) :
    WellFormed p { s with objects := (s.objects.intern object).2 } :=
  hs.grow (hs.made.intern hobject hinst hgenerator) (s.objects.keeps_intern object).size_le

theorem noteAllocation (hs : s.WellFormed p) (scope : ScopeId) {c : ObjectId}
    (hc : c < s.objects.size) : (s.noteAllocation scope c).WellFormed p := by
  refine ⟨hs.made, hs.evidence, fun {scope' a} h => ?_, hs.cache, hs.contexts, hs.calls⟩
  rcases (mem_noteAllocation s scope scope' c a).1 h with h | ⟨_, rfl⟩
  · exact hs.allocated h
  · exact hc

theorem seeInto (hs : s.WellFormed p) {c o : ObjectId} (hc : c < s.objects.size)
    (ho : o < s.objects.size) (slot : Slot) : (s.seeInto c slot o).WellFormed p := by
  refine ⟨hs.made, fun {a v slot'} h => ?_, hs.allocated, hs.cache, hs.contexts, hs.calls⟩
  rw [State.seeInto, Evidence.get?_add] at h
  split at h
  · rename_i hmatch
    obtain ⟨-, rfl, rfl⟩ := hmatch
    obtain rfl := Option.some.inj h
    refine ⟨hc, ?_⟩
    cases hv : s.evidence.get? c slot with
    | none => exact ho
    | some v => exact (hs.evidence hv).2
  · exact hs.evidence h

/-- The cache has gained nothing but one entry. -/
theorem supply (hs : s.WellFormed p) (hf : f < s.objects.size)
    (hos : ∀ o ∈ os, o < s.objects.size) :
    WellFormed p { s with parameterCache := s.parameterCache.insert f os } := by
  refine ⟨hs.made, hs.evidence, hs.allocated, fun {g os'} h => ?_, hs.contexts, hs.calls⟩
  change (s.parameterCache.insert f os).get? g = some os' at h
  rw [Table.get?_insert] at h
  split at h
  · rename_i hfg
    subst hfg
    obtain rfl := Option.some.inj h
    exact ⟨hf, hos⟩
  · exact hs.cache h

theorem record (hs : s.WellFormed p) (hf : f < s.objects.size)
    (hos : ∀ o ∈ os, o < s.objects.size) :
    WellFormed p { s.recordCall f os with parameterCache := s.parameterCache.erase f } := by
  refine ⟨hs.made, hs.evidence, hs.allocated, fun {g os'} h => ?_, hs.contexts, fun g r hr => ?_⟩
  · change (s.parameterCache.erase f).get? g = some os' at h
    rw [Table.get?_erase] at h
    split at h
    · cases h
    · exact hs.cache h
  · change r ∈ (s.calls.record f os).calls g at hr
    rw [CallLog.calls_record] at hr
    split at hr
    · rename_i hfg
      subst hfg
      rcases List.mem_append.1 hr with hr | hr
      · exact hs.calls f r hr
      · obtain rfl := List.mem_singleton.1 hr
        exact ⟨hf, hos⟩
    · exact hs.calls g r hr

theorem withInFlight (hs : s.WellFormed p) (g : Guard ObjectId) :
    WellFormed p { s with inFlight := g } :=
  ⟨hs.made, hs.evidence, hs.allocated, hs.cache, hs.contexts, hs.calls⟩

theorem withResolving (hs : s.WellFormed p) (g : Guard (ScopeId × Atom)) :
    WellFormed p { s with resolving := g } :=
  ⟨hs.made, hs.evidence, hs.allocated, hs.cache, hs.contexts, hs.calls⟩

theorem opened (hs : s.WellFormed p) (hf : f < s.objects.size) (scope : ScopeId)
    {parameters : Option (List ObjectId)} (hos : ∀ os ∈ parameters, ∀ o ∈ os, o < s.objects.size) :
    (Infer.opened p f scope parameters s).WellFormed p := by
  cases parameters with
  | none => exact hs
  | some parameters =>
      rw [State.opened_some]
      refine ⟨hs.made, fun {c v slot} h => ?_, hs.allocated, fun {g os} h => ?_, fun c hc => ?_,
        hs.calls⟩
      · change (s.toMemory.without p _).evidence.get? c slot = some v at h
        rw [Memory.get?_without] at h
        split at h
        · exact hs.evidence h
        · cases h
      · change (s.toMemory.without p _).parameterCache.get? g = some os at h
        rw [Memory.without, Table.get?_restrict] at h
        split at h
        · exact hs.cache h
        · cases h
      · rcases List.mem_cons.1 hc with rfl | hc
        · exact ⟨hf, hos parameters rfl⟩
        · exact hs.contexts c hc

theorem popContext (hs : s.WellFormed p) : WellFormed p { s with contexts := s.contexts.tail } :=
  ⟨hs.made, hs.evidence, hs.allocated, hs.cache,
    fun c hc => hs.contexts c (List.mem_of_mem_tail hc), hs.calls⟩

/-! #### Reading -/

theorem recordedParameters_lt (hp : p.WellBound) (hs : s.WellFormed p) (f : ObjectId) :
    ∀ o ∈ p.recordedParameters s f, o < s.objects.size := by
  have hu : ObjectId.unknown < s.objects.size := hs.lt_of_lt_base hp.unknown_lt
  -- A list below the bound is a list related to itself, so the lemmas on related lists apply.
  have hopen := Program.placeholders_related (r := fun a b => a = b ∧ a < s.objects.size)
    ⟨rfl, hu⟩ (p.parameters s.objects f)
  have hlist : ∀ {os : List ObjectId}, (∀ o ∈ os, o < s.objects.size) →
      List.Forall₂ (fun a b => a = b ∧ a < s.objects.size) os os :=
    fun h => List.forall₂_same.2 fun o ho => ⟨rfl, h o ho⟩
  suffices h : List.Forall₂ (fun a b => a = b ∧ a < s.objects.size) (p.recordedParameters s f)
      (p.recordedParameters s f) from fun o ho => (List.forall₂_same.1 h o ho).2
  unfold Program.recordedParameters
  cases hlatest : s.calls.latest f with
  | none => exact hopen
  | some record =>
      have hrecord := (hs.calls f record (List.mem_of_getLast? hlatest)).2
      refine Program.overlay_related (fun h => by rw [h.1]) hopen ?_
      exact ordinaryObjects_related _ (hlist hrecord)

theorem supplied_lt (hp : p.WellBound) (hs : s.WellFormed p) (h : p.Supplied s f os) :
    ∀ o ∈ os, o < s.objects.size := by
  have hrecorded := hs.recordedParameters_lt hp f
  cases h with
  | recorded => exact hrecorded
  | @receiver _ _ rest _ hrest hi _ =>
      rw [hrest] at hrecorded
      intro o ho
      rcases List.mem_cons.1 ho with rfl | ho
      · exact hi
      · exact hrecorded o (List.mem_cons_of_mem _ ho)

end State.WellFormed

/-! ### Computations -/

/-- A result of the computation comes with a well-formed state, and is as `Q` says. -/
def Infer.Yields (p : Program) (s : State) {α : Type} (Q : State → α → Prop) (x : Infer α) :
    Prop :=
  ∀ a s', x s = .ok a s' → s'.WellFormed p ∧ Q s' a

abbrev State.Has (s : State) (o : ObjectId) : Prop := o < s.objects.size

namespace Infer.Yields

variable {p : Program} {s s' : State} {α β : Type} {Q : State → α → Prop}

theorem of_run {x : Infer α} {a : α} (hrun : x s = .ok a s') (hs : s'.WellFormed p)
    (ha : Q s' a) : Yields p s Q x := by
  intro b s'' hrun'
  obtain ⟨rfl, rfl⟩ := EStateM.Result.ok.inj (hrun.symm.trans hrun')
  exact ⟨hs, ha⟩

theorem bind {Q' : State → β → Prop} {x : Infer α} {f : α → Infer β} (hx : Yields p s Q x)
    (hf : ∀ a s', s'.WellFormed p → Q s' a → Yields p s' Q' (f a)) : Yields p s Q' (x >>= f) := by
  intro b s'' hrun
  obtain ⟨a, s', hs', hrun⟩ := bind_eq_ok.1 hrun
  obtain ⟨hwf, ha⟩ := hx a s' hs'
  exact hf a s' hwf ha b s'' hrun

theorem get_bind {f : State → Infer α} (h : Yields p s Q (f s)) :
    Yields p s Q (MonadState.get >>= f) := h

variable (hs : s.WellFormed p)

include hs

theorem count (change : Stats → Stats) : Yields p s (fun _ _ => True) (Infer.count change) :=
  .of_run rfl ⟨hs.made, hs.evidence, hs.allocated, hs.cache, hs.contexts, hs.calls⟩ trivial

/-! #### Making objects -/

theorem intern {object : Object} (hobject : object.kind = .inst)
    (hinst : ∀ c site, object = .inst c site → c < p.objects.size ∧ p.objects.kind c = .cls)
    (hgenerator : ∀ e, object = .generator e → e < s.objects.size ∧ e.isKnown = true) :
    Yields p s State.Has (Infer.intern object) :=
  .of_run rfl (hs.intern hobject hinst hgenerator) (s.objects.intern_lt object)

/-- An instance of a class that binding made. -/
theorem internInstance {c : ObjectId} (hc : c < p.objects.size) (hk : p.objects.kind c = .cls)
    (site : NodeRef) : Yields p s State.Has (Infer.intern (.inst c site)) :=
  intern hs rfl (Pairing.matching.class_of_inst hc hk) fun _ h => by cases h

theorem newInstance {c : ObjectId} (hc : c < s.objects.size) (hk : s.objects.kind c = .cls)
    (site : NodeRef) : Yields p s State.Has (Infer.newInstance c site) := by
  have hlt : c < p.objects.size := hs.made.grown.lt_base hc (by simp [hk])
  have hcls : p.objects.kind c = .cls := by
    rwa [ObjectStore.kind, ← hs.made.grown.get_base hlt]
  refine get_bind ?_
  cases s.objects.get c with
  | builtinClass _ => exact internInstance hs hlt hcls _
  | _ => exact internInstance hs hlt hcls site

theorem newContainer (hp : p.WellBound) (scope : ScopeId) (c : BuiltinClass) (site : NodeRef) :
    Yields p s State.Has (Infer.newContainer scope c site) := by
  have hclass : ∀ c' site', Object.inst c.object site = .inst c' site' →
      c' < p.objects.size ∧ p.objects.kind c' = .cls :=
    Pairing.matching.class_of_inst (hp.builtinClass_lt c) (hp.kind_builtinClass c)
  have hmade := hs.intern rfl hclass fun e h => by cases h
  have hlt := s.objects.intern_lt (.inst c.object site)
  exact .of_run (Pairing.matching.newContainer_run s scope c site) (hmade.noteAllocation scope hlt)
    hlt

theorem generatorOf {e : ObjectId} (he : e < s.objects.size) (hk : e.isKnown = true) :
    Yields p s State.Has (Infer.generatorOf e) := by
  refine intern hs rfl (fun _ _ h => by cases h) fun e' h => ?_
  obtain rfl := Object.generator.inj h
  exact ⟨he, hk⟩

theorem observe {c o : ObjectId} (hc : c < s.objects.size) (ho : o < s.objects.size) (slot : Slot) :
    Yields p s (fun _ _ => True) (Infer.observe c slot o) :=
  .of_run rfl (hs.seeInto hc ho slot) trivial

/-! #### Parameters and calls -/

theorem evidenceParameters (hp : p.WellBound) {f : ObjectId} (hf : f < s.objects.size) :
    Yields p s (fun s' os => ∀ o ∈ os, s'.Has o) (Infer.evidenceParameters p f) := by
  rcases p.evidenceParameters_cases s f with
    ⟨os, hcache, hrun⟩ | ⟨os, s', _, hsupplied, hmade, hrun⟩
  · exact .of_run hrun hs (hs.cache hcache).2
  · have h : s'.WellFormed p ∧ f < s'.objects.size := by
      cases hmade with
      | none => exact ⟨hs, hf⟩
      | @made c hc =>
          obtain ⟨hlt, hk⟩ := Program.receiverClass?_wellBound hp hc
          refine ⟨hs.intern rfl (Pairing.matching.class_of_inst hlt hk) (fun _ h => ?_),
            Nat.lt_of_lt_of_le hf (s.objects.keeps_intern _).size_le⟩
          cases h
    have hos := h.1.supplied_lt hp hsupplied
    exact .of_run hrun (h.1.supply h.2 hos) hos

theorem currentParameters (hp : p.WellBound) {f : ObjectId} (hf : f < s.objects.size) :
    Yields p s (fun s' os => ∀ o ∈ os, s'.Has o) (Infer.currentParameters p f) := by
  refine get_bind ?_
  cases hbound : s.boundParameters? f with
  | none => exact evidenceParameters hs hp hf
  | some os =>
      obtain ⟨c, hc, rfl⟩ := Option.map_eq_some_iff.1 hbound
      exact .of_run rfl hs (hs.contexts c (List.mem_of_find?_eq_some hc)).2

theorem recordCall {f : ObjectId} {os : List ObjectId} (hf : f < s.objects.size)
    (hos : ∀ o ∈ os, o < s.objects.size) :
    Yields p s (fun _ _ => True) (Infer.recordCall f os) := by
  have h := hs.record hf hos
  exact .of_run rfl ⟨h.made, h.evidence, h.allocated, h.cache, h.contexts, h.calls⟩ trivial

/-! #### Brackets -/

theorem enterName (key : ScopeId × Atom) :
    Yields p s (fun _ _ => True) (Infer.enterName key) :=
  .of_run (enterName_run key s) (hs.withResolving _) trivial

theorem leaveName (key : ScopeId × Atom) :
    Yields p s (fun _ _ => True) (Infer.leaveName key) := by
  intro a s' hrun
  obtain ⟨g, rfl⟩ := leaveName_eq_ok hrun
  exact ⟨hs.withResolving g, trivial⟩

theorem enterFunction (f : ObjectId) :
    Yields p s (fun s' _ => s'.objects = s.objects) (Infer.enterFunction f) :=
  .of_run (enterFunction_run f s) (hs.withInFlight _) rfl

theorem openCall {f : ObjectId} (hf : f < s.objects.size) (scope : ScopeId)
    {parameters : Option (List ObjectId)} (hos : ∀ os ∈ parameters, ∀ o ∈ os, o < s.objects.size) :
    Yields p s (fun _ _ => True) (Infer.openCall p f scope parameters) :=
  .of_run (openCall_eq s) (hs.opened hf scope hos) trivial

theorem leaveFunction (f : ObjectId) : Yields p s (fun _ _ => True) (Infer.leaveFunction f) := by
  intro a s' hrun
  obtain ⟨g, rfl⟩ := leaveFunction_eq_ok hrun
  exact ⟨hs.withInFlight g, trivial⟩

theorem closeCall (f : ObjectId) (parameters : Option (List ObjectId)) :
    Yields p s (fun _ _ => True) (Infer.closeCall f parameters) := by
  cases parameters with
  | none => exact leaveFunction hs f
  | some _ =>
      exact bind (Q := fun _ _ => True) (.of_run rfl hs.popContext trivial)
        fun _ _ hs _ => leaveFunction hs f

end Infer.Yields

end ObjectInference
