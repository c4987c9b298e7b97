import ObjectInference.Proofs.Matching.State

/-!
What keeps states matching.

Evaluation writes in a few ways only: it makes a container and notes where, sees
an object go into one, records a call, forgets scopes, opens and closes
contexts, and counts in the guards. Each of them, carried out on matching states
with corresponding objects, gives matching states.
-/

namespace ObjectInference

namespace State

variable {p : Program} {s t : State} {a b : ObjectId}

def noteAllocation (s : State) (scope : ScopeId) (container : ObjectId) : State :=
  { s with
    allocations :=
      if container ∈ s.allocated scope then s.allocations
      else s.allocations.insert scope (s.allocated scope ++ [container]) }

theorem mem_noteAllocation (s : State) (scope scope' : ScopeId) (a c : ObjectId) :
    c ∈ (s.noteAllocation scope a).allocated scope' ↔
      c ∈ s.allocated scope' ∨ scope = scope' ∧ a = c := by
  unfold noteAllocation
  by_cases ha : a ∈ s.allocated scope
  · simp only [if_pos ha]
    refine ⟨.inl, ?_⟩
    rintro (h | ⟨rfl, rfl⟩)
    · exact h
    · exact ha
  · simp only [if_neg ha]
    by_cases hs : scope = scope'
    · subst hs
      simp [Memory.allocated, eq_comm]
    · simp [Memory.allocated, hs]

def seeInto (s : State) (container : ObjectId) (slot : Slot) (o : ObjectId) : State :=
  { s with evidence := s.evidence.add container slot o }

def recordCall (s : State) (f : ObjectId) (record : CallRecord) : State :=
  { s with calls := s.calls.record f record }

/-- Forget what some scopes have led to. -/
def without (s : State) (p : Program) (scopes : List ScopeId) : State :=
  { s with toMemory := s.toMemory.without p scopes }

theorem latest_record (l : CallLog) (f g : ObjectId) (record : CallRecord) :
    (l.record f record).latest g = if f = g then some record else l.latest g := by
  unfold CallLog.latest
  rw [CallLog.calls_record]
  split
  · simp
  · rfl

/-- Make a built-in container at a place, in a scope. -/
def addContainer (s : State) (scope : ScopeId) (c : BuiltinClass) (site : NodeRef) : State :=
  noteAllocation { s with objects := (s.objects.intern (.inst c.object site)).2 } scope
    (s.objects.intern (.inst c.object site)).1

/-- A container that only the first state knew at the place gets its counterpart
when one is made there in both. -/
theorem OnlyIn.addContainer {o : ObjectId} {site site' : NodeRef} (h : s.OnlyIn t o site')
    {c : BuiltinClass} (hd : (s.objects.intern (.inst c.object site)).2.Distinct)
    (scope : ScopeId) :
    (s.addContainer scope c site).OnlyIn (t.addContainer scope c site) o site' ∨
      site' = site ∧ o = (s.objects.intern (.inst c.object site)).1 := by
  have hs := s.objects.keeps_intern (.inst c.object site)
  have hget : (s.addContainer scope c site).objects.get o = s.objects.get o :=
    hs.get_eq h.container.lt
  by_cases hnone : ∀ b, (t.addContainer scope c site).objects.get b ≠
      (s.addContainer scope c site).objects.get o
  · exact .inl ⟨h.container.keeps hs, hnone⟩
  · obtain ⟨b, hb⟩ := not_forall_not.1 hnone
    have hnew : s.objects.get o = .inst c.object site := by
      rcases t.objects.get_intern_cases (.inst c.object site) b with hb' | hb'
      · exact absurd (hb'.symm.trans (hb.trans hget)) (h.missing b)
      · exact (hb'.symm.trans (hb.trans hget)).symm
    obtain ⟨c', _, hgeto⟩ := id h.container
    refine .inr ⟨(Object.inst.inj (hgeto.symm.trans hnew)).2, ?_⟩
    refine hd _ _ (Nat.lt_of_lt_of_le h.container.lt hs.size_le) (s.objects.intern_lt _) ?_
    rw [s.objects.get_intern]
    exact hget.trans hnew

namespace Carries

variable {e e' : Places} (h : s.Carries e t)

include h

theorem addContainer {scope : ScopeId} {site : NodeRef} (hmay : e.Allow scope site)
    (c : BuiltinClass) (hd : (s.objects.intern (.inst c.object site)).2.Distinct)
    (hab : ObjectStore.SameShape (s.objects.intern (.inst c.object site)).2
      (t.objects.intern (.inst c.object site)).2 (s.objects.intern (.inst c.object site)).1
      (t.objects.intern (.inst c.object site)).1) :
    (s.addContainer scope c site).Carries e (t.addContainer scope c site) := by
  have hshape : ∀ {a b : ObjectId}, s.SameShape t a b →
      (s.addContainer scope c site).SameShape (t.addContainer scope c site) a b :=
    fun h => h.mono (s.objects.keeps_intern _) (t.objects.keeps_intern _)
  have hmade := mem_noteAllocation { t with objects := (t.objects.intern (.inst c.object site)).2 }
    scope
  refine ⟨fun {a v slot} hv => ?_, fun {S o} ho => ?_, fun {f record} hf => ?_⟩
  · rcases h.evidence hv with ⟨b, w, hab, hw, hvw⟩ | ⟨site', honly, hseen⟩
    · exact .inl ⟨b, w, hshape hab, hw, hshape hvw⟩
    · -- Nothing may have been seen in an extra container that gets a counterpart now.
      rcases honly.addContainer hd scope with honly | ⟨rfl, _⟩
      · exact .inr ⟨site', honly, hseen⟩
      · exact absurd hseen hmay.seen
  · rcases (mem_noteAllocation _ scope S _ o).1 ho with ho | ⟨rfl, rfl⟩
    · rcases h.allocated ho with ⟨b, hob, hb⟩ | ⟨site', honly, hnoted⟩
      · exact .inl ⟨b, hshape hob, (hmade S _ b).2 (.inl hb)⟩
      · -- It is noted for the scope that the second state notes it for.
        rcases honly.addContainer hd scope with honly | ⟨rfl, rfl⟩
        · exact .inr ⟨site', honly, hnoted⟩
        · obtain rfl := hmay.noted hnoted
          exact .inl ⟨_, hab, (hmade S _ _).2 (.inr ⟨rfl, rfl⟩)⟩
    · exact .inl ⟨_, hab, (hmade scope _ _).2 (.inr ⟨rfl, rfl⟩)⟩
  · obtain ⟨g, record', hfg, hg, hrecord⟩ := h.latest hf
    exact ⟨g, record', hshape hfg, hg, hrecord.imp fun _ _ => hshape⟩

variable (hp : p.WellBound) (h' : t.Carries e' s) (hs : s.Sound p) (ht : t.Sound p)

include hp h' hs ht

theorem seeInto (hab : s.SameShape t a b) {o o' : ObjectId} (ho : s.SameShape t o o')
    (hk : o'.isKnown = o.isKnown) (slot : Slot) :
    (s.seeInto a slot o).Carries e (t.seeInto b slot o') := by
  have hrel := h.evidence_rel hp h' hs ht hab slot
  refine ⟨fun {c v slot'} hv => ?_, h.allocated, h.latest⟩
  simp only [State.seeInto, Evidence.get?_add] at hv ⊢
  split at hv
  · rename_i hcond
    obtain ⟨hknown, rfl, rfl⟩ := hcond
    refine .inl ⟨b, (t.evidence.get? b slot).getD o', hab,
      if_pos ⟨hk.trans hknown, rfl, rfl⟩, ?_⟩
    obtain rfl := Option.some.inj hv
    generalize s.evidence.get? a slot = x, t.evidence.get? b slot = y at hrel
    cases hrel with
    | none => exact ho
    | some hvw => exact hvw
  · rename_i hcond
    rcases h.evidence hv with ⟨d, w, hcd, hw, hvw⟩ | honly
    · refine .inl ⟨d, w, hcd, ?_, hvw⟩
      rw [if_neg, hw]
      rintro ⟨hknown, rfl, hslot⟩
      exact hcond ⟨hk ▸ hknown, ((oneToOne hs ht).left hcd hab).symm, hslot⟩
    · exact .inr honly

theorem without (scopes : List ScopeId) : (s.without p scopes).Carries e (t.without p scopes) := by
  refine ⟨fun {c v slot} hv => ?_, h.allocated, h.latest⟩
  have hget := Memory.get?_without p s.toMemory scopes c slot
  rw [show (s.toMemory.without p scopes).evidence.get? c slot = some v from hv] at hget
  split at hget
  · rename_i hkept
    rcases h.evidence hget.symm with ⟨d, w, hcd, hw, hvw⟩ | honly
    · refine .inl ⟨d, w, hcd, ?_, hvw⟩
      refine (Memory.get?_without p t.toMemory scopes d slot).trans ((if_pos ?_).trans hw)
      exact fun scope hscope hd =>
        hkept scope hscope (h'.allocated_of_sameShape hp ht hs hcd.symm hd)
    · exact .inr honly
  · cases hget

omit hp h' in
theorem recordCall {f f' : ObjectId} (hf : s.SameShape t f f')
    {r r' : CallRecord} (hrecord : List.Forall₂ (s.SameShape t) r r') :
    (s.recordCall f r).Carries e (t.recordCall f' r') := by
  refine ⟨h.evidence, h.allocated, fun {g record} hg => ?_⟩
  rw [State.recordCall, latest_record] at hg
  split at hg
  · rename_i hfg
    subst hfg
    obtain rfl := Option.some.inj hg
    exact ⟨f', r', hf, by rw [State.recordCall, latest_record, if_pos rfl], hrecord⟩
  · rename_i hfg
    obtain ⟨g', record', hgg, hg', hrecords⟩ := h.latest hg
    refine ⟨g', record', hgg, ?_, hrecords⟩
    rw [State.recordCall, latest_record, if_neg, hg']
    rintro rfl
    exact hfg ((oneToOne hs ht).left hf hgg)

end Carries

theorem Sound.addContainer (hs : s.Sound p) {scope : ScopeId} {c : BuiltinClass} {site : NodeRef}
    (hg : p.objects.Grown (s.objects.intern (.inst c.object site)).2)
    (hc : c.isContainer = true) : (s.addContainer scope c site).Sound p := by
  refine ⟨hg, fun {S o} ho => ?_, fun {f os} hf => ?_⟩
  · rcases (mem_noteAllocation _ scope S _ o).1 ho with ho | ⟨_, rfl⟩
    · obtain ⟨site', hat⟩ := hs.noted ho
      exact ⟨site', hat.keeps (s.objects.keeps_intern _)⟩
    · exact ⟨site, c, hc, s.objects.get_intern _⟩
  · exact (hs.cache hf).mono (ObjectStore.extends_intern s.objects rfl) rfl

theorem Matches.addContainer {e : Places} (h : s.Matches e t) {scope : ScopeId} {site : NodeRef}
    (hmay : e.Allow scope site) (c : BuiltinClass)
    (hd : (s.objects.intern (.inst c.object site)).2.Distinct)
    (hd' : (t.objects.intern (.inst c.object site)).2.Distinct)
    (hab : ObjectStore.SameShape (s.objects.intern (.inst c.object site)).2
      (t.objects.intern (.inst c.object site)).2 (s.objects.intern (.inst c.object site)).1
      (t.objects.intern (.inst c.object site)).1) :
    (s.addContainer scope c site).Matches e (t.addContainer scope c site) where
  forth := h.forth.addContainer ⟨False.elim, False.elim⟩ c hd hab
  back := h.back.addContainer hmay c hd' hab.symm
  contexts := h.contexts.imp fun _ _ =>
    SameContext.mono (s.objects.keeps_intern _) (t.objects.keeps_intern _)
  inFlight := h.inFlight.imp fun _ _ hab =>
    hab.mono (s.objects.keeps_intern _) (t.objects.keeps_intern _)
  resolving := h.resolving

end State

end ObjectInference
