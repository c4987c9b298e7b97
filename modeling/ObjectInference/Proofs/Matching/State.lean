import ObjectInference.Inference.Parameter
import ObjectInference.Proofs.Arguments
import ObjectInference.Proofs.Matching.Guards
import ObjectInference.Proofs.Matching.Shape
import ObjectInference.Proofs.Settling

/-!
States that no evaluation can tell apart.

Evaluation reads four things of a state: what has been seen in containers, the
latest recorded calls, the contexts and the guards. Two states match when these
correspond, object by object of the same shape. Where a container was made
matters too, since it decides when its evidence is forgotten. The cache of
parameter objects need not correspond. It is sound when every entry is what
would be worked out anew, and then it makes no difference which entries there
are.
-/

namespace ObjectInference

open ObjectStore

abbrev State.SameShape (s t : State) : ObjectId → ObjectId → Prop :=
  ObjectStore.SameShape s.objects t.objects

/-- Places where one of two states may know of containers that the other does not
know at all. -/
structure Places where
  /-- A container that was made at the place is noted in a scope. -/
  noted : ScopeId → NodeRef → Prop
  /-- Something has been seen in a container that was made at the place. -/
  seen : NodeRef → Prop

def Places.none : Places := ⟨fun _ _ => False, fun _ => False⟩

/-- A container may be made at a place in a scope if nothing is there that the
scope would not bring about. -/
structure Places.Allow (e : Places) (scope : ScopeId) (site : NodeRef) : Prop where
  noted {scope' : ScopeId} (h : e.noted scope' site) : scope' = scope
  seen : ¬ e.seen site

/-- A container that was made at a place and that another state does not know. -/
abbrev State.OnlyIn (s t : State) : ObjectId → NodeRef → Prop :=
  s.objects.OnlyIn t.objects

/-- What has been seen, made and recorded in one state has been so in another,
of the counterparts. The first may know of extra containers. -/
structure State.Carries (extra : Places) (s t : State) : Prop where
  evidence {a v : ObjectId} {slot : Slot} (h : s.evidence.get? a slot = some v) :
    (∃ b w, s.SameShape t a b ∧ t.evidence.get? b slot = some w ∧ s.SameShape t v w) ∨
    ∃ site, s.OnlyIn t a site ∧ extra.seen site
  allocated {scope : ScopeId} {a : ObjectId} (h : a ∈ s.allocated scope) :
    (∃ b, s.SameShape t a b ∧ b ∈ t.allocated scope) ∨
    ∃ site, s.OnlyIn t a site ∧ extra.noted scope site
  latest {f : ObjectId} {record : CallRecord} (h : s.calls.latest f = some record) :
    ∃ g record', s.SameShape t f g ∧ t.calls.latest g = some record' ∧
      List.Forall₂ (s.SameShape t) record record'

/-- Two contexts of corresponding functions, with corresponding parameters. -/
def State.SameContext (s t : State) (c c' : Context) : Prop :=
  s.SameShape t c.function c'.function ∧ List.Forall₂ (s.SameShape t) c.parameters c'.parameters

/-- Everything that evaluation reads corresponds, but for extra containers that
only the second state knows. -/
structure State.Matches (extra : Places) (s t : State) : Prop where
  forth : s.Carries .none t
  back : t.Carries extra s
  contexts : List.Forall₂ (s.SameContext t) s.contexts t.contexts
  inFlight : s.inFlight.refresh.Alike (s.SameShape t) t.inFlight.refresh
  resolving : s.resolving.refresh.Alike Eq t.resolving.refresh

/-! ### Parameters -/

/-- The objects that are worked out for the parameters of a function from what
has been recorded. -/
inductive Program.Supplied (p : Program) (s : State) (f : ObjectId) : List ObjectId → Prop where
  | recorded (h : p.receiverClass? s f = none ∨
      ∀ rest, p.recordedParameters s f ≠ .unknown :: rest) :
      Supplied p s f (p.recordedParameters s f)
  | receiver {c i : ObjectId} {rest : List ObjectId} (hc : p.receiverClass? s f = some c)
      (hrest : p.recordedParameters s f = .unknown :: rest) (hi : i < s.objects.size)
      (hget : s.objects.get i = .inst c none) : Supplied p s f (i :: rest)

/-- The store of a state has grown from that of the program, its cache is as good
as none, and nothing but containers is noted as made in a scope. -/
structure State.Sound (p : Program) (s : State) : Prop where
  grown : p.objects.Grown s.objects
  noted {scope : ScopeId} {a : ObjectId} (h : a ∈ s.allocated scope) :
    ∃ site, s.objects.ContainerAt a site
  cache {f : ObjectId} {os : List ObjectId} (h : s.parameterCache.get? f = some os) :
    p.Supplied s f os

namespace Program

variable {p : Program} {s s' : State} {f : ObjectId} {os : List ObjectId}

theorem scopeOf?_of_extends {st st' : ObjectStore} (h : st.Extends st') (o : ObjectId) :
    st'.scopeOf? o = st.scopeOf? o := by
  unfold ObjectStore.scopeOf?
  rcases h.get_eq_or o with ho | ⟨ho, ho'⟩
  · rw [ho]
  · rw [ho]
    cases hg : st'.get o <;> rw [hg] at ho' <;> first | rfl | cases ho'

theorem recordedParameters_eq (ho : s.objects.Extends s'.objects)
    (hc : s'.calls.latest f = s.calls.latest f) :
    p.recordedParameters s' f = p.recordedParameters s f := by
  simp only [recordedParameters, hc, p.parameters_of_extends ho]

theorem receiverClass?_eq (ho : s.objects.Extends s'.objects) :
    p.receiverClass? s' f = p.receiverClass? s f := by
  simp only [receiverClass?, p.parameters_of_extends ho, scopeOf?_of_extends ho]

theorem Supplied.mono (h : p.Supplied s f os) (ho : s.objects.Extends s'.objects)
    (hc : s'.calls.latest f = s.calls.latest f) : p.Supplied s' f os := by
  have hrecorded := recordedParameters_eq (p := p) ho hc
  have hreceiver := receiverClass?_eq (p := p) (f := f) ho
  cases h with
  | recorded h =>
      rw [← hrecorded]
      refine .recorded ?_
      rwa [hrecorded, hreceiver]
  | receiver hc hrest hi hget =>
      refine .receiver (hreceiver.trans hc) (hrecorded.trans hrest)
        (Nat.lt_of_lt_of_le hi ho.keeps.size_le) ?_
      rw [ho.keeps.get_eq hi, hget]

end Program

namespace State

variable {p : Program} {s t s' t' : State}

theorem Sound.grow (h : s.Sound p) (hg : p.objects.Grown s'.objects)
    (ho : s.objects.Extends s'.objects) (ha : s'.allocations = s.allocations)
    (hc : ∀ {f os}, s'.parameterCache.get? f = some os →
      s.parameterCache.get? f = some os ∧ s'.calls.latest f = s.calls.latest f ∨
      p.Supplied s' f os) : s'.Sound p := by
  refine ⟨hg, fun {scope a} hm => ?_, fun {f os} hf => ?_⟩
  · unfold Memory.allocated at hm
    rw [ha] at hm
    obtain ⟨site, hsite⟩ := h.noted hm
    exact ⟨site, hsite.keeps ho.keeps⟩
  · rcases hc hf with ⟨hf, hl⟩ | hf
    · exact (h.cache hf).mono ho hl
    · exact hf

/-! ### Counterparts -/

theorem oneToOne (hs : s.Sound p) (ht : t.Sound p) : OneToOne (s.SameShape t) :=
  ⟨fun h h' => h.unique ht.grown.distinct h', fun h h' => h.unique_left hs.grown.distinct h'⟩

theorem SameShape.symm {a b : ObjectId} (h : s.SameShape t a b) : t.SameShape s b a :=
  ObjectStore.SameShape.symm h

/-- A container that only one state knows is not the counterpart of any. -/
theorem OnlyIn.not_sameShape (hp : p.WellBound) (hs : s.Sound p) (ht : t.Sound p)
    {a b : ObjectId} {site : NodeRef} (h : s.OnlyIn t a site) : ¬ s.SameShape t a b :=
  fun hab => h.missing b (hs.grown.get_eq_of_container ht.grown hp.made hab h.container)

section Carries

variable {e e' : Places} (hp : p.WellBound) (h : s.Carries e t) (h' : t.Carries e' s)
  (hs : s.Sound p) (ht : t.Sound p) {a b : ObjectId} (hab : s.SameShape t a b)

include hp h hs ht hab

theorem Carries.evidence_of_sameShape {slot : Slot} {v : ObjectId}
    (hv : s.evidence.get? a slot = some v) :
    ∃ w, t.evidence.get? b slot = some w ∧ s.SameShape t v w := by
  rcases h.evidence hv with ⟨b', w, hab', hw, hvw⟩ | ⟨site, honly, _⟩
  · rw [(oneToOne hs ht).right hab hab']
    exact ⟨w, hw, hvw⟩
  · exact absurd hab (honly.not_sameShape hp hs ht)

theorem Carries.allocated_of_sameShape {scope : ScopeId} (ha : a ∈ s.allocated scope) :
    b ∈ t.allocated scope := by
  rcases h.allocated ha with ⟨b', hab', hb⟩ | ⟨site, honly, _⟩
  · rwa [(oneToOne hs ht).right hab hab']
  · exact absurd hab (honly.not_sameShape hp hs ht)

include h'

theorem Carries.evidence_rel (slot : Slot) :
    Option.Rel (s.SameShape t) (s.evidence.get? a slot) (t.evidence.get? b slot) := by
  cases hv : s.evidence.get? a slot with
  | some v =>
      obtain ⟨w, hw, hvw⟩ := h.evidence_of_sameShape hp hs ht hab hv
      rw [hw]
      exact .some hvw
  | none =>
      cases hw : t.evidence.get? b slot with
      | none => exact .none
      | some w =>
          obtain ⟨v, hv', _⟩ := h'.evidence_of_sameShape hp ht hs hab.symm hw
          rw [hv] at hv'
          cases hv'

omit hp in
theorem Carries.latest_rel :
    Option.Rel (List.Forall₂ (s.SameShape t)) (s.calls.latest a) (t.calls.latest b) := by
  have hr := oneToOne hs ht
  cases hv : s.calls.latest a with
  | some record =>
      obtain ⟨b', record', hab', hw, hrecord⟩ := h.latest hv
      rw [hr.right hab hab', hw]
      exact .some hrecord
  | none =>
      cases hw : t.calls.latest b with
      | none => exact .none
      | some record' =>
          obtain ⟨a', record, hba, hv', _⟩ := h'.latest hw
          rw [hr.left hab hba.symm, hv'] at hv
          cases hv

end Carries

/-! ### Growth of both stores -/

/-- A store has grown by no container. -/
def GrowsPlain (s s' : State) : Prop :=
  ∀ o, s'.objects.get o = s.objects.get o ∨ ∀ site, ¬ s'.objects.ContainerAt o site

theorem OnlyIn.mono {a : ObjectId} {site : NodeRef} (h : s.OnlyIn t a site)
    (hs : s.objects.Keeps s'.objects) (hplain : t.GrowsPlain t') : s'.OnlyIn t' a site := by
  refine ⟨h.container.keeps hs, fun b hb => ?_⟩
  rw [hs.get_eq h.container.lt] at hb
  rcases hplain b with hb' | hb'
  · exact h.missing b (hb'.symm.trans hb)
  · obtain ⟨c, hc, hget⟩ := h.container
    exact hb' site ⟨c, hc, hb.trans hget⟩

theorem Carries.mono {e : Places} (h : s.Carries e t) (hs : s.objects.Keeps s'.objects)
    (ht : t.objects.Keeps t'.objects) (hplain : t.GrowsPlain t') (hes : s'.evidence = s.evidence)
    (het : t'.evidence = t.evidence) (has : s'.allocations = s.allocations)
    (hat : t'.allocations = t.allocations) (hcs : s'.calls = s.calls) (hct : t'.calls = t.calls) :
    s'.Carries e t' := by
  have hshape : ∀ {a b : ObjectId}, s.SameShape t a b → s'.SameShape t' a b :=
    fun h => h.mono hs ht
  refine ⟨fun {a v slot} hv => ?_, fun {scope a} ha => ?_, fun {f record} hf => ?_⟩
  · rw [hes] at hv
    rcases h.evidence hv with ⟨b, w, hab, hw, hvw⟩ | ⟨site, honly, hseen⟩
    · exact .inl ⟨b, w, hshape hab, het ▸ hw, hshape hvw⟩
    · exact .inr ⟨site, honly.mono hs hplain, hseen⟩
  · unfold Memory.allocated at ha ⊢
    rw [has] at ha
    rw [hat]
    rcases h.allocated ha with ⟨b, hab, hb⟩ | ⟨site, honly, hnoted⟩
    · exact .inl ⟨b, hshape hab, hb⟩
    · exact .inr ⟨site, honly.mono hs hplain, hnoted⟩
  · rw [hcs] at hf
    obtain ⟨g, record', hfg, hg, hrecord⟩ := h.latest hf
    exact ⟨g, record', hshape hfg, hct ▸ hg, hrecord.imp fun _ _ => hshape⟩

/-- Nothing that evaluation reads has changed, but there may be more objects,
none of them a container. -/
structure Quiet (s s' : State) : Prop where
  objects : s.objects.Extends s'.objects
  plain : s.GrowsPlain s'
  evidence : s'.evidence = s.evidence
  allocations : s'.allocations = s.allocations
  calls : s'.calls = s.calls
  contexts : s'.contexts = s.contexts
  inFlight : s'.inFlight = s.inFlight
  resolving : s'.resolving = s.resolving

theorem Quiet.refl (s : State) : s.Quiet s :=
  ⟨.refl _, fun _ => .inl rfl, rfl, rfl, rfl, rfl, rfl, rfl⟩

theorem Quiet.trans {s₁ s₂ s₃ : State} (h : s₁.Quiet s₂) (h' : s₂.Quiet s₃) : s₁.Quiet s₃ := by
  refine ⟨h.objects.trans h'.objects, fun o => ?_, h'.evidence.trans h.evidence,
    h'.allocations.trans h.allocations, h'.calls.trans h.calls, h'.contexts.trans h.contexts,
    h'.inFlight.trans h.inFlight, h'.resolving.trans h.resolving⟩
  rcases h'.plain o with ho | ho
  · rcases h.plain o with ho' | ho'
    · exact .inl (ho.trans ho')
    · refine .inr fun site ⟨c, hc, hget⟩ => ho' site ⟨c, hc, ?_⟩
      rw [← ho, hget]
  · exact .inr ho

theorem Quiet.settles (h : s.Quiet s') : s.Settles s' := by
  refine ⟨?_, ?_, h.contexts, h.objects, fun scope => ?_⟩
  · rw [h.inFlight]
    exact .refl _
  · rw [h.resolving]
    exact .refl _
  · unfold Memory.allocated
    rw [h.allocations]
    exact List.Subset.refl _

theorem SameContext.mono (hs : s.objects.Keeps s'.objects) (ht : t.objects.Keeps t'.objects)
    {c c' : Context} (h : s.SameContext t c c') : s'.SameContext t' c c' :=
  ⟨h.1.mono hs ht, h.2.imp fun _ _ hab => hab.mono hs ht⟩

theorem Matches.quiet {e : Places} (h : s.Matches e t) (hs : s.Quiet s')
    (ht : t.Quiet t') : s'.Matches e t' where
  forth := h.forth.mono hs.objects.keeps ht.objects.keeps ht.plain hs.evidence ht.evidence
    hs.allocations ht.allocations hs.calls ht.calls
  back := h.back.mono ht.objects.keeps hs.objects.keeps hs.plain ht.evidence hs.evidence
    ht.allocations hs.allocations ht.calls hs.calls
  contexts := by
    rw [hs.contexts, ht.contexts]
    exact h.contexts.imp fun _ _ => SameContext.mono hs.objects.keeps ht.objects.keeps
  inFlight := by
    rw [hs.inFlight, ht.inFlight]
    exact h.inFlight.imp fun _ _ hab => hab.mono hs.objects.keeps ht.objects.keeps
  resolving := by
    rw [hs.resolving, ht.resolving]
    exact h.resolving

end State

end ObjectInference
