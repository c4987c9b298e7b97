import ObjectInference.Proofs.Moves

/-!
What matters to containers.

Of all that evaluation does, two things matter to what containers hold: a container is made
at a place, and an object is seen to go into one. Whatever else happens to a state, its
containers stay what they are, and no evidence comes to be; `State.Drifts` says so. So a
property of states that concerns containers alone is kept by an evaluation if it is kept by
drifting, by a container made where evaluation may make one, and by an object seen there.
-/

namespace ObjectInference

/-- A state has come to another one without a container made or an object seen in one:
there may be more objects, and less evidence. -/
structure State.Drifts (s s' : State) : Prop where
  objects : s.objects.Extends s'.objects
  distinct (h : s.objects.Distinct) : s'.objects.Distinct
  allocations : s'.allocations = s.allocations
  lost {c v : ObjectId} {slot : Slot} (h : s'.evidence.get? c slot = some v) :
    s.evidence.get? c slot = some v
  made {o c : ObjectId} {site : NodeRef} (h : s'.objects.get o = .inst c site)
    (hsite : site ≠ none) :
    s.objects.get o = .inst c site ∨
      ∀ b, s.objects.get c = .builtinClass b → b.isContainer = false

namespace State.Drifts

variable {s s' : State}

theorem of_memory (ho : s'.objects = s.objects) (he : s'.evidence = s.evidence)
    (ha : s'.allocations = s.allocations) : s.Drifts s' := by
  refine ⟨?_, fun h => ?_, ha, fun h => ?_, fun h _ => ?_⟩
  · rw [ho]
    exact .refl _
  · rwa [ho]
  · rwa [he] at h
  · rw [ho] at h
    exact .inl h

theorem refl (s : State) : s.Drifts s :=
  of_memory rfl rfl rfl

theorem trans {s₁ s₂ s₃ : State} (h : s₁.Drifts s₂) (h' : s₂.Drifts s₃) : s₁.Drifts s₃ := by
  refine ⟨h.objects.trans h'.objects, fun hd => h'.distinct (h.distinct hd),
    h'.allocations.trans h.allocations, fun hv => h.lost (h'.lost hv), fun ho hsite => ?_⟩
  rcases h'.made ho hsite with ho | hplain
  · exact h.made ho hsite
  · exact .inr fun b hb =>
      hplain b (h.objects.keeps.get_eq_of_known hb Object.noConfusion)

theorem intern (s : State) {object : Object} (hk : object.kind = .inst)
    (hplain : ∀ c site, object = .inst c site → site ≠ none →
      ∀ b, s.objects.get c = .builtinClass b → b.isContainer = false) :
    s.Drifts { s with objects := (s.objects.intern object).2 } := by
  refine ⟨s.objects.extends_intern hk, fun hd => hd.intern object, rfl, id,
    fun {o c site} h hsite => ?_⟩
  rcases s.objects.get_intern_cases object o with ho | ho
  · exact .inl (ho.symm.trans h)
  · exact .inr (hplain c site (ho.symm.trans h) hsite)

theorem without (p : Program) (s : State) (scopes : List ScopeId) :
    s.Drifts (s.without p scopes) := by
  refine ⟨.refl _, id, rfl, fun h => ?_, fun h _ => .inl h⟩
  change (s.toMemory.without p scopes).evidence.get? _ _ = _ at h
  rw [Memory.get?_without] at h
  split at h
  · exact h
  · cases h

end State.Drifts

namespace Infer

variable {p : Program} {α β : Type}

def Drifting (x : Infer α) : Prop :=
  ∀ s a s', x s = .ok a s' → s.Drifts s'

namespace Drifting

theorem bind {x : Infer α} {f : α → Infer β} (hx : Drifting x) (hf : ∀ a, Drifting (f a)) :
    Drifting (x >>= f) := by
  intro s b s' h
  obtain ⟨a, s₁, hs₁, h⟩ := bind_eq_ok.1 h
  exact (hx s a s₁ hs₁).trans (hf a s₁ b s' h)

theorem modify {f : State → State} (h : ∀ s : State, s.Drifts (f s)) :
    Drifting (modifyGet fun s => ((), f s) : Infer Unit) := by
  intro s _ s' hrun
  cases hrun
  exact h s

end Drifting

theorem drifting_count (change : Stats → Stats) : Drifting (count change) :=
  .modify fun _ => .of_memory rfl rfl rfl

theorem drifting_intern {object : Object} (hk : object.kind = .inst)
    (hsite : ∀ c site, object = .inst c site → site = none) : Drifting (intern object) := by
  intro s o s' hrun
  cases hrun
  exact .intern s hk fun c site h hne => absurd (hsite c site h) hne

theorem drifts_newInstance {s s' : State} {c o : ObjectId} {site : NodeRef}
    (hb : ∀ b, s.objects.get c = .builtinClass b → b.isContainer = false)
    (hrun : newInstance c site s = .ok o s') : s.Drifts s' := by
  have hmade : ∀ site', intern (.inst c site') s = .ok o s' → s.Drifts s' := by
    intro site' hrun
    cases hrun
    refine .intern s rfl fun c' _ h _ b hget => ?_
    cases h
    exact hb b hget
  unfold newInstance at hrun
  rw [get_bind_run] at hrun
  cases hget : s.objects.get c with
  | builtinClass b =>
      rw [hget] at hrun
      exact hmade _ hrun
  | _ =>
      rw [hget] at hrun
      exact hmade _ hrun

theorem drifting_currentParameters (f : ObjectId) : Drifting (currentParameters p f) := by
  intro s os s' hrun
  unfold currentParameters at hrun
  rw [get_bind_run] at hrun
  cases hbound : s.boundParameters? f with
  | some parameters =>
      rw [hbound] at hrun
      cases hrun
      exact .refl s
  | none =>
      rw [hbound] at hrun
      change evidenceParameters p f s = .ok os s' at hrun
      rcases Program.evidenceParameters_cases p s f with
        ⟨os, _, hcached⟩ | ⟨os, s₁, _, _, hmade, hworked⟩
      · rw [hcached] at hrun
        cases hrun
        exact .refl s
      · rw [hworked] at hrun
        cases hrun
        cases hmade with
        | none => exact .of_memory rfl rfl rfl
        | made _ =>
            refine (State.Drifts.intern s rfl fun c site h hne => ?_).trans
              (.of_memory rfl rfl rfl)
            cases h
            exact absurd rfl hne

theorem drifting_leaveFunction (f : ObjectId) : Drifting (leaveFunction f) := by
  intro s _ s' hrun
  obtain ⟨g, rfl⟩ := leaveFunction_eq_ok hrun
  exact .of_memory rfl rfl rfl

theorem drifting_openCall (f : ObjectId) (scope : ScopeId)
    (parameters : Option (List ObjectId)) : Drifting (openCall p f scope parameters) := by
  intro s _ s' hrun
  rw [openCall_eq] at hrun
  cases hrun
  cases parameters with
  | none => exact .refl s
  | some parameters =>
      have hforget := State.Drifts.without p s (p.subtree scope)
      rw [State.without, ← Memory.forgetTree_eq] at hforget
      exact hforget.trans (.of_memory rfl rfl rfl)

theorem drifting_closeCall (f : ObjectId) (parameters : Option (List ObjectId)) :
    Drifting (closeCall f parameters) := by
  cases parameters with
  | none => exact drifting_leaveFunction f
  | some _ =>
      exact .bind (.modify fun _ => .of_memory rfl rfl rfl) fun _ => drifting_leaveFunction f

end Infer

section Kept

variable {p : Program} {places : ScopeId → NodeRef → Prop} {J : State → Prop}
  (hdrift : ∀ {s s' : State}, J s → s.Drifts s' → J s')

include hdrift

theorem Infer.Drifting.keeps {α : Type} {x : Infer α} (hx : Infer.Drifting x) :
    Infer.Keeps J x :=
  fun s hs a s' hrun => hdrift hs (hx s a s' hrun)

/-- What evaluation keeps of containers. -/
theorem KeptAmong.of_drifts
    (hcontainer : ∀ {s : State} {scope : ScopeId} {site : NodeRef}, J s → places scope site →
      site ≠ none → ∀ c : BuiltinClass, J (s.addContainer scope c site))
    (hsee : ∀ {s : State} {c : ObjectId} {slot : Slot}, J s → s.objects.Receives places c slot →
      ∀ o, J (s.seeInto c slot o)) : KeptAmong p places J where
  count {change} _ := (Infer.drifting_count change).keeps hdrift
  builtinInstance {_} _ := (Infer.drifting_intern rfl (by rintro _ _ ⟨⟩; rfl)).keeps hdrift
  newInstance {_ _} _ hb _ hs {_ _} hrun := hdrift hs (Infer.drifts_newInstance hb hrun)
  newContainer {scope site} hmay hsite c := by
    intro s hs o s' hrun
    rw [Pairing.matching.newContainer_run] at hrun
    cases hrun
    exact hcontainer hs hmay hsite c
  generatorOf _ := (Infer.drifting_intern rfl (by rintro _ _ ⟨⟩)).keeps hdrift
  observe {_ _ _} hslot o hs {_} hrun := by
    cases hrun
    exact hsee hs hslot o
  currentParameters f := (Infer.drifting_currentParameters f).keeps hdrift
  enterName key := by
    intro s hs e s' hrun
    cases hrun
    exact hdrift hs (.of_memory rfl rfl rfl)
  leaveName key := by
    intro s hs _ s' hrun
    obtain ⟨g, rfl⟩ := Infer.leaveName_eq_ok hrun
    exact hdrift hs (.of_memory rfl rfl rfl)
  enterFunction f := by
    intro s hs e s' hrun
    cases hrun
    exact hdrift hs (.of_memory rfl rfl rfl)
  openCall f scope parameters := (Infer.drifting_openCall f scope parameters).keeps hdrift
  closeCall f parameters := (Infer.drifting_closeCall f parameters).keeps hdrift

/-- An analysis enters calls in the log and counts, which matters to no container. -/
theorem KeptByRecords.of_drifts : KeptByRecords p J where
  record {_ _ _} _ hs {_} hrun := by
    cases hrun
    exact hdrift hs (.of_memory rfl rfl rfl)
  count change := (Infer.drifting_count change).keeps hdrift

end Kept

end ObjectInference
