import ObjectInference.Proofs.Matching.State

/-!
The cache of parameter objects.

Working out the parameters of a function from what has been recorded gives the
same whether the cache is asked or not, up to the number of the receiver that
may have to be made for it. So in two matching states with sound caches, be
there entries or not, the parameters of a function correspond.
-/

namespace ObjectInference

open ObjectStore

/-- An object that is no built-in container. -/
def Object.Plain (object : Object) : Prop :=
  ∀ (c : BuiltinClass) (site : NodeRef), c.isContainer = true → object ≠ .inst c.object site

/-- An instance of a class that is no built-in container class. -/
theorem Program.WellBound.plain_inst {p : Program} (hp : p.WellBound) {c : ObjectId}
    (hc : ∀ b, p.objects.get c = .builtinClass b → b.isContainer = false) (site : NodeRef) :
    (Object.inst c site).Plain := by
  rintro b _ hb ⟨⟩
  exact Bool.noConfusion ((hc b (hp.get_builtinClass b)).symm.trans hb)

namespace State

variable {p : Program} {s t : State}

/-! ### Interning -/

theorem quiet_intern (s : State) {object : Object} (h : object.kind = .inst)
    (hplain : object.Plain) : s.Quiet { s with objects := (s.objects.intern object).2 } := by
  refine ⟨extends_intern s.objects h, fun o => ?_, rfl, rfl, rfl, rfl, rfl, rfl⟩
  rcases s.objects.get_intern_cases object o with ho | ho
  · exact .inl ho
  · exact .inr fun site ⟨c, hc, hget⟩ => hplain c site hc (ho.symm.trans hget)

/-- Evaluation does not notice what is in the cache. -/
theorem quiet_cache (s : State) (f : ObjectId) (os : List ObjectId) :
    s.Quiet { s with parameterCache := s.parameterCache.insert f os } :=
  ⟨.refl _, fun _ => .inl rfl, rfl, rfl, rfl, rfl, rfl, rfl⟩

theorem Sound.intern (h : s.Sound p) {object : Object} (hobject : object.kind = .inst)
    (hinst : ∀ c site, object = .inst c site → c < p.objects.size ∧ p.objects.kind c = .cls)
    (hgenerator : ∀ e, object = .generator e → e < s.objects.size) :
    Sound p { s with objects := (s.objects.intern object).2 } :=
  h.grow (h.grown.intern hobject hinst hgenerator) (extends_intern s.objects hobject) rfl
    fun hf => .inl ⟨hf, rfl⟩

end State

namespace Infer

variable {p : Program} {f o : ObjectId} {os : List ObjectId} {s : State}

/-- An instance without a place is the same whatever its class is. -/
theorem newInstance_none (c : ObjectId) (s : State) :
    newInstance c none s = intern (.inst c none) s := by
  unfold newInstance
  rw [get_bind_run]
  cases s.objects.get c with
  | builtinClass b => simp only [ite_self]
  | _ => rfl

theorem supplyReceiver_of_none (h : p.receiverClass? s f = none) :
    supplyReceiver p f os s = .ok os s := by
  unfold supplyReceiver
  rw [get_bind_run, h]
  rfl

theorem supplyReceiver_of_isKnown (h : o.isKnown = true) :
    supplyReceiver p f (o :: os) s = .ok (o :: os) s := by
  unfold supplyReceiver
  rw [get_bind_run]
  cases p.receiverClass? s f with
  | none => rfl
  | some c =>
      simp only [if_pos h]
      rfl

theorem supplyReceiver_unknown {c : ObjectId} (h : p.receiverClass? s f = some c) :
    supplyReceiver p f (.unknown :: os) s = .ok ((s.objects.intern (.inst c none)).1 :: os)
      { s with objects := (s.objects.intern (.inst c none)).2 } := by
  unfold supplyReceiver
  rw [get_bind_run, h]
  change EStateM.bind (newInstance c none) (fun i => pure (i :: os)) s = _
  rw [EStateM.bind, newInstance_none]
  rfl

end Infer

/-- Corresponding objects are known alike. -/
theorem OneToOne.isKnown_eq {r : ObjectId → ObjectId → Prop} (hr : OneToOne r)
    (hu : r .unknown .unknown) {a b : ObjectId} (hab : r a b) : a.isKnown = b.isKnown := by
  unfold ObjectId.isKnown
  rw [Bool.eq_iff_iff, bne_iff_ne, bne_iff_ne]
  exact not_congr (hr.eq_iff hab hu)

namespace Program

variable {p : Program} {s t : State} {f : ObjectId}

theorem get_receiverClass? (hp : p.WellBound) {c : ObjectId}
    (h : p.receiverClass? s f = some c) :
    c < p.objects.size ∧ ∃ inner, p.objects.get c = .cls inner := by
  unfold receiverClass? at h
  split at h
  · split at h
    · cases h
    · obtain ⟨d, hd, hc⟩ := Option.bind_eq_some_iff.1 h
      obtain ⟨scope, _, hd⟩ := Option.bind_eq_some_iff.1 hd
      exact (hp.scopes hd).method c hc
  · cases h

theorem receiverClass?_wellBound (hp : p.WellBound) {c : ObjectId}
    (h : p.receiverClass? s f = some c) : c < p.objects.size ∧ p.objects.kind c = .cls := by
  obtain ⟨hlt, inner, hget⟩ := get_receiverClass? hp h
  exact ⟨hlt, by rw [ObjectStore.kind, hget]; rfl⟩

/-- At most the shared instance of the receiver's class is made. -/
inductive ReceiverMade (p : Program) (f : ObjectId) (s : State) : State → Prop where
  | none : ReceiverMade p f s s
  | made {c : ObjectId} (hc : p.receiverClass? s f = some c) :
      ReceiverMade p f s { s with objects := (s.objects.intern (.inst c none)).2 }

/-- What is worked out from the records alone. -/
theorem supplyReceiver_recorded (p : Program) (s : State) (f : ObjectId) :
    ∃ os s', Infer.supplyReceiver p f (p.recordedParameters s f) s = .ok os s' ∧
      p.Supplied s' f os ∧ p.ReceiverMade f s s' := by
  have hunchanged : (p.receiverClass? s f = none ∨
      ∀ rest, p.recordedParameters s f ≠ .unknown :: rest) →
      Infer.supplyReceiver p f (p.recordedParameters s f) s = .ok (p.recordedParameters s f) s →
      ∃ os s', Infer.supplyReceiver p f (p.recordedParameters s f) s = .ok os s' ∧
        p.Supplied s' f os ∧ p.ReceiverMade f s s' :=
    fun h hrun => ⟨_, s, hrun, .recorded h, .none⟩
  cases hc : p.receiverClass? s f with
  | none => exact hunchanged (.inl hc) (Infer.supplyReceiver_of_none hc)
  | some c =>
      cases hrecorded : p.recordedParameters s f with
      | nil =>
          rw [hrecorded] at hunchanged
          refine hunchanged (.inr (by simp)) ?_
          unfold Infer.supplyReceiver
          rw [Infer.get_bind_run, hc]
          rfl
      | cons o rest =>
          rw [hrecorded] at hunchanged
          by_cases ho : o.isKnown
          · refine hunchanged (.inr fun rest' heq => ?_) (Infer.supplyReceiver_of_isKnown ho)
            rw [(List.cons.inj heq).1] at ho
            cases ho
          · obtain rfl : o = .unknown := by simpa [ObjectId.isKnown] using ho
            let s' : State := { s with objects := (s.objects.intern (.inst c none)).2 }
            have hobjects : s.objects.Extends s'.objects := extends_intern _ rfl
            exact ⟨_, s', Infer.supplyReceiver_unknown hc,
              .receiver ((receiverClass?_eq hobjects).trans hc)
                ((recordedParameters_eq hobjects rfl).trans hrecorded)
                (s.objects.intern_lt _) (s.objects.get_intern _), .made hc⟩

/-- What the cache gives, or is filled with. -/
theorem evidenceParameters_cases (p : Program) (s : State) (f : ObjectId) :
    (∃ os, s.parameterCache.get? f = some os ∧ Infer.evidenceParameters p f s = .ok os s) ∨
    ∃ os s', s.parameterCache.get? f = none ∧ p.Supplied s' f os ∧ p.ReceiverMade f s s' ∧
      Infer.evidenceParameters p f s =
        .ok os { s' with parameterCache := s'.parameterCache.insert f os } := by
  unfold Infer.evidenceParameters
  rw [Infer.get_bind_run]
  cases hcache : s.parameterCache.get? f with
  | some os => exact .inl ⟨os, rfl, rfl⟩
  | none =>
      obtain ⟨os, s', hrun, hsupplied, hmade⟩ := supplyReceiver_recorded p s f
      refine .inr ⟨os, s', rfl, hsupplied, hmade, ?_⟩
      change EStateM.bind (Infer.supplyReceiver p f (p.recordedParameters s f)) _ s = _
      rw [EStateM.bind, hrun]
      rfl

theorem ReceiverMade.quiet (hp : p.WellBound) {s' : State} (h : p.ReceiverMade f s s') :
    s.Quiet s' := by
  cases h with
  | none => exact .refl s
  | made hc =>
      obtain ⟨_, inner, hget⟩ := get_receiverClass? hp hc
      refine s.quiet_intern rfl (hp.plain_inst (fun b hb => ?_) _)
      cases hget.symm.trans hb

theorem ReceiverMade.sound (hp : p.WellBound) (hs : s.Sound p) {s' : State}
    (h : p.ReceiverMade f s s') : s'.Sound p := by
  cases h with
  | none => exact hs
  | @made c hc =>
      refine hs.intern rfl (fun c' site h => ?_) (fun e h => by cases h)
      obtain ⟨rfl, rfl⟩ := Object.inst.inj h
      exact receiverClass?_wellBound hp hc

/-- An entry is one that was there, or it is supplied. -/
theorem Supplied.of_insert {os : List ObjectId} (h : p.Supplied s f os) {g : ObjectId}
    {os' : List ObjectId} (hg : (s.parameterCache.insert f os).get? g = some os') :
    s.parameterCache.get? g = some os' ∨ p.Supplied s g os' := by
  rw [Table.get?_insert] at hg
  split at hg
  · rename_i hfg
    obtain rfl := Option.some.inj hg
    exact .inr (hfg ▸ h)
  · exact .inl hg

theorem evidenceParameters_run (hp : p.WellBound) (hs : s.Sound p) (f : ObjectId) :
    ∃ os s', Infer.evidenceParameters p f s = .ok os s' ∧ s.Quiet s' ∧ s'.Sound p ∧
      p.Supplied s' f os := by
  rcases evidenceParameters_cases p s f with
    ⟨os, hcache, hrun⟩ | ⟨os, s₁, hcache, hsupplied, hmade, hrun⟩
  · exact ⟨os, s, hrun, .refl s, hs, hs.cache hcache⟩
  · have hsound := hmade.sound hp hs
    refine ⟨os, _, hrun, (hmade.quiet hp).trans (s₁.quiet_cache f os), ?_,
      hsupplied.mono (.refl _) rfl⟩
    exact hsound.grow hsound.grown (.refl _) rfl fun hg =>
      (hsupplied.of_insert hg).imp (⟨·, rfl⟩) (·.mono (.refl _) rfl)

/-! ### Corresponding parameters -/

theorem overlay_related {r : ObjectId → ObjectId → Prop}
    (hknown : ∀ {a b : ObjectId}, r a b → a.isKnown = b.isKnown) {os os' rs rs' : List ObjectId}
    (ho : List.Forall₂ r os os') (hr : List.Forall₂ r rs rs') :
    List.Forall₂ r (overlay os rs) (overlay os' rs') := by
  induction ho generalizing rs rs' with
  | nil => exact .nil
  | cons ha has ih =>
      cases hr with
      | nil => exact .cons ha has
      | cons hb hbs =>
          unfold overlay
          rw [hknown hb]
          refine .cons ?_ (ih hbs)
          split
          · exact hb
          · exact ha

theorem placeholders_related {r : ObjectId → ObjectId → Prop} (hu : r .unknown .unknown)
    (params : List Param) : List.Forall₂ r (placeholders params) (placeholders params) := by
  unfold placeholders
  induction params.filter fun p => !p.isSpecial with
  | nil => exact .nil
  | cons _ _ ih => exact .cons hu ih

/-- An unknown receiver is supplied. -/
theorem Supplied.eq_cons {os rest : List ObjectId} (h : p.Supplied s f os) {c : ObjectId}
    (hc : p.receiverClass? s f = some c) (hrest : p.recordedParameters s f = .unknown :: rest) :
    ∃ i, os = i :: rest ∧ i < s.objects.size ∧ s.objects.get i = .inst c none := by
  cases h with
  | recorded h =>
      rcases h with h | h
      · rw [h] at hc
        cases hc
      · exact absurd hrest (h rest)
  | receiver hc' hrest' hi hget =>
      obtain rfl := Option.some.inj (hc'.symm.trans hc)
      obtain ⟨_, rfl⟩ := List.cons.inj (hrest'.symm.trans hrest)
      exact ⟨_, rfl, hi, hget⟩

/-- Nothing else is. -/
theorem Supplied.eq_recorded {os : List ObjectId} (h : p.Supplied s f os)
    (hnot : p.receiverClass? s f = none ∨ ∀ rest, p.recordedParameters s f ≠ .unknown :: rest) :
    os = p.recordedParameters s f := by
  cases h with
  | recorded => rfl
  | receiver hc hrest =>
      rcases hnot with h | h
      · rw [h] at hc
        cases hc
      · exact absurd hrest (h _)

section Related

variable {e : Places} (hm : s.Matches e t) (hp : p.WellBound) (hs : s.Sound p) (ht : t.Sound p)
  (hf : f < p.objects.size)

include hp hs ht hf

omit hp in
theorem receiverClass?_of_lt : p.receiverClass? t f = p.receiverClass? s f := by
  have hget : t.objects.get f = s.objects.get f := by
    rw [hs.grown.get_base hf, ht.grown.get_base hf]
  simp only [receiverClass?, Program.parameters, scopeOf?, hget]

include hm

theorem recordedParameters_related : List.Forall₂ (s.SameShape t) (p.recordedParameters s f)
    (p.recordedParameters t f) := by
  have hbase : ∀ {o : ObjectId}, o < p.objects.size → s.SameShape t o o :=
    fun ho => hs.grown.sameShape_base ht.grown hp.made ho
  have hu : s.SameShape t .unknown .unknown :=
    hbase (Nat.lt_of_lt_of_le (by decide) hp.builtins.size_le)
  have hparameters : p.parameters t.objects f = p.parameters s.objects f := by
    rw [Program.parameters, Program.parameters, hs.grown.get_base hf, ht.grown.get_base hf]
  have hlatest := hm.forth.latest_rel hm.back hs ht (hbase hf)
  have hopen := placeholders_related hu (p.parameters s.objects f)
  unfold recordedParameters
  rw [hparameters]
  generalize s.calls.latest f = x, t.calls.latest f = y at hlatest
  cases hlatest with
  | none => exact hopen
  | some hrecord =>
      exact overlay_related ((State.oneToOne hs ht).isKnown_eq hu) hopen
        (ordinaryObjects_related _ hrecord)

/-- In matching states the same is supplied to a function that binding made. -/
theorem Supplied.related {os os' : List ObjectId} (h : p.Supplied s f os)
    (h' : p.Supplied t f os') : List.Forall₂ (s.SameShape t) os os' := by
  have hbase : ∀ {o : ObjectId}, o < p.objects.size → s.SameShape t o o :=
    fun ho => hs.grown.sameShape_base ht.grown hp.made ho
  have hu : s.SameShape t .unknown .unknown :=
    hbase (Nat.lt_of_lt_of_le (by decide) hp.builtins.size_le)
  have hclass := receiverClass?_of_lt hs ht hf
  have hrecorded := recordedParameters_related hm hp hs ht hf
  by_cases hreceiver : ∃ c rest, p.receiverClass? s f = some c ∧
      p.recordedParameters s f = .unknown :: rest
  · obtain ⟨c, rest, hc, hrest⟩ := hreceiver
    rw [hrest] at hrecorded
    cases hrest' : p.recordedParameters t f with
    | nil =>
        rw [hrest'] at hrecorded
        cases hrecorded
    | cons b rest' =>
        rw [hrest'] at hrecorded
        obtain ⟨hb, hrests⟩ := List.forall₂_cons.1 hrecorded
        obtain rfl := (State.oneToOne hs ht).right hu hb
        obtain ⟨i, rfl, hi, hget⟩ := h.eq_cons hc hrest
        obtain ⟨j, rfl, hj, hget'⟩ := h'.eq_cons (hclass.trans hc) hrest'
        exact .cons (.inst hi hj hget hget' (hbase (receiverClass?_wellBound hp hc).1)) hrests
  · have hnot : p.receiverClass? s f = none ∨
        ∀ rest, p.recordedParameters s f ≠ .unknown :: rest := by
      cases hc : p.receiverClass? s f with
      | none => exact .inl rfl
      | some c => exact .inr fun rest hrest => hreceiver ⟨c, rest, hc, hrest⟩
    have hnot' : p.receiverClass? t f = none ∨
        ∀ rest, p.recordedParameters t f ≠ .unknown :: rest := by
      rcases hnot with h | h
      · exact .inl (hclass.trans h)
      · refine .inr fun rest' hrest' => ?_
        -- What stands for the unknown object is the unknown object.
        rw [hrest'] at hrecorded
        generalize hrec : p.recordedParameters s f = rec at hrecorded
        cases hrecorded with
        | @cons a _ rest _ ha _ =>
            obtain rfl := (State.oneToOne hs ht).left hu ha
            exact h rest hrec
    rw [h.eq_recorded hnot, h'.eq_recorded hnot']
    exact hrecorded

end Related

end Program

end ObjectInference
