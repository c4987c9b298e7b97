import ObjectInference.Proofs.Pairing.Counting
import ObjectInference.Proofs.Queries

/-!
Runs over a memory that has been used.

A run over a used memory retraces a run over a fresh one when the states of the two
match, but for containers that only the second one knows, and have counted alike. What
is in the memory makes no difference to that: neither the numbers that objects have in
it, nor what was worked out for parameters. Only the containers do, and only if the
first run comes to the place of one that the second run knows before the first one
does. It must not do so if something has been seen in the container, or if the container
is noted for another scope. `State.clearAt` tests the places.

What has been seen in the containers of a function is forgotten when an inference of it
for given objects begins, so for such an inference the test is made of the views.
-/

namespace ObjectInference

open ObjectStore

/-! ### Descriptions -/

namespace Program

variable {p : Program} {st st' : ObjectStore} {a b : ObjectId}

theorem describe_generator (g : p.objects.Grown st) {o e : ObjectId}
    (h : st.get o = .generator e) : p.describe st o = "generator of " ++ p.describe st e := by
  have ho : o < st.size := lt_size_of_get (by simp [h])
  have he : e < o := g.generator h
  have hrest : p.describeWithin st st.size e = p.describe st e :=
    p.describeWithin_eq (fun _ _ => g.generator) (Nat.lt_trans he ho)
      (Nat.lt_succ_of_lt (Nat.lt_trans he ho))
  rw [← hrest]
  simp only [describe, describeWithin, h]

/-- Objects of the same shape have the same description. -/
theorem describe_eq_of_sameShape (g : p.objects.Grown st) (g' : p.objects.Grown st')
    (h : SameShape st st' a b) : p.describe st a = p.describe st' b := by
  induction h with
  | @leaf a b _ _ hk hget =>
      simp only [describe, describeWithin, ← hget]
      cases ha : st.get a with
      | inst => simp [kind, ha, Object.kind] at hk
      | generator => simp [kind, ha, Object.kind] at hk
      | _ => rfl
  | @inst a b c c' site _ _ hga hgb hc _ =>
      obtain ⟨hlt, hkind⟩ := g.inst hga
      have hnot : st.kind c ≠ .inst := by
        rw [kind, g.get_base hlt]
        exact fun h => ObjectKind.noConfusion (hkind.symm.trans h)
      obtain rfl := g.eq_of_sameShape g' hc hnot
      simp only [describe, describeWithin, hga, hgb, g.get_base hlt, g'.get_base hlt]
  | generator _ _ hga hgb _ ih => rw [describe_generator g hga, describe_generator g' hgb, ih]

end Program

namespace State

variable {p : Program} {s t s' t' : State} {f : ObjectId} {extra : Places}

/-! ### Containers that only one of two states knows -/

/-- The places of the containers that only the second of two states knows. -/
def beyond (s t : State) : Places where
  noted scope site := ∃ c ∈ t.allocated scope, t.OnlyIn s c site
  seen site := ∃ c ∈ t.evidence.containers, t.OnlyIn s c site

/-- A place is clear for a scope if of the containers there, the ones that hold something
are known to the first state, and so are the ones that are noted for another scope. -/
def clearAt (s t : State) (scope : ScopeId) (site : NodeRef) : Bool :=
  decide (site ≠ none →
    (∀ c ∈ t.evidence.containers,
      t.objects.siteOf c = site → t.objects.get c ∈ s.objects.objects) ∧
    ∀ scope' ∈ t.allocations.keys, ∀ c ∈ t.allocated scope',
      t.objects.siteOf c = site → scope' = scope ∨ t.objects.get c ∈ s.objects.objects)

theorem OnlyIn.not_mem {c : ObjectId} {site : NodeRef} (h : t.OnlyIn s c site) :
    t.objects.get c ∉ s.objects.objects := by
  intro hmem
  obtain ⟨o, ho⟩ := Array.mem_iff_getElem?.1 hmem
  exact h.missing o (by simp [ObjectStore.get, ho])

theorem allow_of_clearAt {scope : ScopeId} {site : NodeRef} (h : s.clearAt t scope site = true)
    (hsite : site ≠ none) : (s.beyond t).Allow scope site := by
  obtain ⟨hseen, hnoted⟩ := of_decide_eq_true h hsite
  constructor
  · rintro scope' ⟨c, hc, honly⟩
    refine (hnoted scope' (mem_keys_allocations hc) c hc ?_).resolve_right honly.not_mem
    exact honly.container.siteOf_eq
  · rintro ⟨c, hc, honly⟩
    exact honly.not_mem (hseen c hc honly.container.siteOf_eq)

/-- Extra containers are at the places where they are. -/
theorem Matches.tighten (h : s.Matches extra t) : s.Matches (s.beyond t) t := by
  refine ⟨h.forth, ⟨fun {a v slot} hv => ?_, fun {scope a} ha => ?_, h.back.latest⟩, h.contexts,
    h.inFlight, h.resolving⟩
  · rcases h.back.evidence hv with hcounterpart | ⟨site, honly, _⟩
    · exact .inl hcounterpart
    · exact .inr ⟨site, honly, a, Evidence.mem_containers hv, honly⟩
  · rcases h.back.allocated ha with hcounterpart | ⟨site, honly, _⟩
    · exact .inl hcounterpart
    · exact .inr ⟨site, honly, a, ha, honly⟩

/-- What was made at a place and has a counterpart is known to the other state. -/
theorem mem_objects_of_sameShape (hp : p.WellBound) (hs : s.Sound p) (ht : t.Sound p)
    {c b : ObjectId} (hcb : t.SameShape s c b) (hc : t.objects.siteOf c ≠ none) :
    t.objects.get c ∈ s.objects.objects := by
  have hget : s.objects.get b = t.objects.get c := by
    unfold siteOf at hc
    split at hc
    · next hinst => exact ht.grown.get_eq_of_inst hs.grown hp.made hcb hinst
    · exact absurd rfl hc
  rw [← hget, ObjectStore.get, Array.getElem?_eq_getElem hcb.lt_right]
  exact Array.getElem_mem hcb.lt_right

theorem beyond_eq_none (hseen : t.evidence.containers = [])
    (hnoted : ∀ scope, t.allocated scope = []) : s.beyond t = .none := by
  simp [beyond, Places.none, hseen, hnoted]

namespace Matches

/-! If two states match without extra places, what the second one knows the first one
knows too. -/

theorem counterpart_of_seen (h : s.Matches .none t) {c : ObjectId}
    (hc : c ∈ t.evidence.containers) : ∃ b, t.SameShape s c b := by
  obtain ⟨slot, v, hv⟩ := Evidence.exists_of_mem_containers hc
  rcases h.back.evidence hv with ⟨b, _, hcb, _⟩ | ⟨_, _, hseen⟩
  · exact ⟨b, hcb⟩
  · exact hseen.elim

theorem counterpart_of_noted (h : s.Matches .none t) {scope : ScopeId} {c : ObjectId}
    (hc : c ∈ t.allocated scope) : ∃ b, t.SameShape s c b := by
  rcases h.back.allocated hc with ⟨b, hcb, _⟩ | ⟨_, _, hnoted⟩
  · exact ⟨b, hcb⟩
  · exact hnoted.elim

theorem clearAt (hp : p.WellBound) (h : s.Matches .none t) (hs : s.Sound p) (ht : t.Sound p)
    (scope : ScopeId) (site : NodeRef) : s.clearAt t scope site = true := by
  refine decide_eq_true fun hsite => ⟨fun c hc hat => ?_, fun scope' _ c hc hat => .inr ?_⟩
  · obtain ⟨b, hcb⟩ := h.counterpart_of_seen hc
    exact mem_objects_of_sameShape hp hs ht hcb (hat ▸ hsite)
  · obtain ⟨b, hcb⟩ := h.counterpart_of_noted hc
    exact mem_objects_of_sameShape hp hs ht hcb (hat ▸ hsite)

theorem beyond_eq_none (hp : p.WellBound) (h : s.Matches .none t) (hs : s.Sound p)
    (ht : t.Sound p) : s.beyond t = .none := by
  refine congrArg₂ Places.mk (funext₂ fun scope site => eq_false ?_)
    (funext fun site => eq_false ?_)
  · rintro ⟨c, hc, honly⟩
    obtain ⟨b, hcb⟩ := h.counterpart_of_noted hc
    exact honly.not_sameShape hp ht hs hcb
  · rintro ⟨c, hc, honly⟩
    obtain ⟨b, hcb⟩ := h.counterpart_of_seen hc
    exact honly.not_sameShape hp ht hs hcb

end Matches

/-! ### Retracing -/

/-- A second run has come to a state that differs from that of a first one by containers
that only the second one knows, with the same counts. -/
structure RetracedBy (p : Program) (s t : State) : Prop where
  soundLeft : s.Sound p
  soundRight : t.Sound p
  agree : s.Matches (s.beyond t) t
  counts : s.CountsAlike p.objects.size t

/-- The second run goes on retracing the first one, and knows nothing more than that one
if it knew nothing more before. -/
structure GoesOn (p : Program) (s t s' t' : State) : Prop where
  retraced : s'.RetracedBy p t'
  agree : s.Matches .none t → s'.Matches .none t'

end State

namespace Pairing

/-- Two runs of which the second one retraces the first, as long as that keeps away from
the places of containers that only the second one knew at the start. -/
abbrev retracing (p : Program) (w : State × State) : Pairing :=
  (matching p False (w.1.beyond w.2)).counting p.objects.size

namespace retracing

variable {p : Program} {w : State × State} {s t : State}

theorem exactBelow (hp : p.WellBound) (extra : Places) :
    (matching p False extra).ExactBelow p.objects.size where
  straight _ := id
  same {_ _ _} h {_ _} hf _ hg := h.oneToOne.eq_iff hf (h.sameShape hp hg)

theorem lawful (hp : p.WellBound) (w : State × State) : (retracing p w).Lawful p :=
  (matching.lawful hp False _).counting (exactBelow hp _)

theorem records (hp : p.WellBound) (w : State × State) : (retracing p w).Records p :=
  matching.records.counting (exactBelow hp _)

/-- The first run keeps to the places that are clear. -/
theorem pairsOn_avoiding (hp : p.WellBound) (w : State × State) (expr : NodeRef) :
    (retracing p w).PairsOn (fun _ => True) (p.avoiding (w.1.clearAt w.2)) p.evaluate expr :=
  (lawful hp w).pairsOn_avoiding (fun h hsite => State.allow_of_clearAt h hsite)
    (fun {_ _ _} h => (matching.budget_eq h.1).symm) expr

end retracing

end Pairing

namespace State.RetracedBy

variable {p : Program} {s t s' t' : State} {f : ObjectId} {α β : Type} {E : Exits}
  {Q : State → State → α → β → Prop} {x : Infer α} {y : Infer β}

theorem rel (h : s.RetracedBy p t) : (Pairing.retracing p (s, t)).rel (s, t) s t :=
  ⟨⟨.refl s, .refl t, False.elim, h.soundLeft, h.soundRight, h.agree⟩, h.counts⟩

theorem goesOn (hp : p.WellBound) (h : s.RetracedBy p t) {w : State × State}
    (h' : (Pairing.retracing p (s, t)).rel w s' t') : s.GoesOn p t s' t' := by
  refine ⟨⟨h'.1.soundLeft, h'.1.soundRight, h'.1.agree.tighten, h'.2⟩, fun hnone => ?_⟩
  rw [← hnone.beyond_eq_none hp h.soundLeft h.soundRight]
  exact h'.1.agree

/-- A paired run that is not given up has a result, and so has the one beside it. -/
theorem of_pairs (hp : p.WellBound) (hst : s.RetracedBy p t)
    (h : (Pairing.retracing p (s, t)).Pairs E.silent (s, t) s t Q x y)
    (hx : x.completes s = true) :
    ∃ a b s' t', x s = .ok a s' ∧ y t = .ok b t' ∧ Q s' t' a b ∧ s.GoesOn p t s' t' := by
  unfold Infer.completes at hx
  unfold Pairing.Pairs at h
  generalize x s = r, y t = r' at h hx
  cases h with
  | ok hr hab => exact ⟨_, _, _, _, rfl, rfl, hab, hst.goesOn hp hr.rel⟩
  | reentrant _ hfg => exact hfg.elim
  | exhausted _ => cases hx
  | strayed _ _ hs => exact hs.elim
  | strayedReentrant _ hfg _ => exact hfg.elim

theorem sameShape (hp : p.WellBound) (h : s.RetracedBy p t) (hf : f < p.objects.size) :
    s.SameShape t f f :=
  hp.sameShape h.soundLeft h.soundRight hf

theorem describe_eq (h : s.RetracedBy p t) {a b : ObjectId} (hab : s.SameShape t a b) :
    p.describe s.objects a = p.describe t.objects b :=
  p.describe_eq_of_sameShape h.soundLeft.grown h.soundRight.grown hab

theorem get_eq (h : s.RetracedBy p t) (hf : f < p.objects.size) :
    t.objects.get f = s.objects.get f := by
  rw [h.soundLeft.grown.get_base hf, h.soundRight.grown.get_base hf]

theorem scopeOf?_eq (h : s.RetracedBy p t) (hf : f < p.objects.size) :
    t.objects.scopeOf? f = s.objects.scopeOf? f := by
  simp only [scopeOf?, h.get_eq hf]

/-! ### Inference for given objects -/

/-- What a state does not forget for an inference matches what another does not. -/
theorem matches_view (hp : p.WellBound) (h : s.RetracedBy p t) (hf : f < p.objects.size)
    (hst : s.Matches extra t) {os os' : Option (List ObjectId)} (hos : os.isSome = os'.isSome) :
    (s.view p f os).Matches extra (t.view p f os') := by
  have hscope := h.scopeOf?_eq hf
  unfold State.view
  cases os <;> cases os' <;> simp only [Option.isSome_none, Option.isSome_some,
    Bool.false_eq_true, Bool.true_eq_false] at hos
  · exact hst
  · rw [hscope]
    cases s.objects.scopeOf? f with
    | none => exact hst
    | some scope => exact hst.without hp h.soundLeft h.soundRight _

theorem view (hp : p.WellBound) (h : s.RetracedBy p t) (hf : f < p.objects.size)
    {os os' : Option (List ObjectId)} (hos : os.isSome = os'.isSome) :
    (s.view p f os).RetracedBy p (t.view p f os') := by
  have hagree := h.matches_view hp hf h.agree hos
  refine ⟨h.soundLeft.view f os, h.soundRight.view f os', hagree.tighten, ?_⟩
  obtain ⟨_, _, hs⟩ := s.view_eq p f os
  obtain ⟨_, _, ht⟩ := t.view_eq p f os'
  rw [hs, ht]
  exact ⟨h.counts.stats, h.counts.calls⟩

end State.RetracedBy

/-- An inference of a function for given objects would come to try its values. -/
def State.Admits (p : Program) (f : ObjectId) (s : State) : Prop :=
  ∃ scope, s.objects.scopeOf? f = some scope ∧ (p.returnedSites scope).isEmpty = false ∧
    (s.inFlight.refresh.enter f).1 = .entered

namespace Infer

variable {p : Program} {f : ObjectId} {s t : State}

theorem returned_congr {eval eval' : Evaluator} {a a' : Option Arguments}
    (h : tryReturned p eval f a s = tryReturned p eval' f a' t) :
    returned p eval f a s = returned p eval' f a' t := by
  unfold returned
  change EStateM.bind (attempt _) _ s = EStateM.bind (attempt _) _ t
  simp only [EStateM.bind, attempt, h]

/-- An inference that is admitted does from the view what it does from the state. -/
theorem returned_of_admits (h : s.Admits p f) (eval : Evaluator) (os : List ObjectId) :
    returned p eval f (some (.objects os)) s =
      returned p eval f (some (.objects os)) (s.view p f (some os)) := by
  obtain ⟨scope, hf, hsites, hentry⟩ := h
  have hview : s.view p f (some os) = s.without p (p.subtree scope) := by
    simp only [State.view, hf]
  apply returned_congr
  rw [hview, tryReturned_objects hf hsites rfl,
    tryReturned_objects (s := s.without p (p.subtree scope)) hf hsites rfl]
  change afterEntry p eval f scope _ (s.inFlight.refresh.enter f).1 _ =
    afterEntry p eval f scope _ (s.inFlight.refresh.enter f).1 _
  rw [hentry]
  exact (inferInFlight_without _ _).symm

/-- An inference that is not admitted evaluates nothing. -/
theorem returned_of_not_admits (h : ¬ s.Admits p f) (eval eval' : Evaluator)
    (os : List ObjectId) :
    returned p eval f (some (.objects os)) s = returned p eval' f (some (.objects os)) s := by
  apply returned_congr
  cases hf : s.objects.scopeOf? f with
  | none =>
      unfold tryReturned
      rw [get_bind_run, get_bind_run, hf]
  | some scope =>
      cases hsites : (p.returnedSites scope).isEmpty with
      | true => rw [tryReturned_of_isEmpty hf hsites, tryReturned_of_isEmpty hf hsites]
      | false =>
          have hentry : (s.inFlight.refresh.enter f).1 ≠ .entered :=
            fun hentry => h ⟨scope, hf, hsites, hentry⟩
          rw [tryReturned_objects hf hsites rfl, tryReturned_objects hf hsites rfl]
          cases he : (s.inFlight.refresh.enter f).1 with
          | entered => exact absurd he hentry
          | _ => rfl

end Infer

namespace State.RetracedBy

variable {p : Program} {s t : State} {f : ObjectId}

theorem admits_iff (hp : p.WellBound) (h : s.RetracedBy p t) (hf : f < p.objects.size) :
    t.Admits p f ↔ s.Admits p f := by
  have hentry := (h.agree.inFlight.enter (State.oneToOne h.soundLeft h.soundRight)
    (h.sameShape hp hf)).1
  unfold State.Admits
  rw [h.scopeOf?_eq hf, hentry]

/-- Inference of a function with an evaluator that pairs with the one of the program. -/
theorem returned_by (hp : p.WellBound) (h : s.RetracedBy p t) (hf : f < p.objects.size)
    {os os' : Option (List ObjectId)} (hos : Option.Rel (List.Forall₂ (s.SameShape t)) os os')
    {eval : Evaluator} (H : ∀ e, (Pairing.retracing p (s, t)).PairsOn (fun _ => True) eval
      p.evaluate e)
    (hx : (Infer.returned p eval f (os.map .objects)).completes s = true) :
    ∃ a b s' t', Infer.returned p eval f (os.map .objects) s = .ok a s' ∧
      Infer.returned p p.evaluate f (os'.map .objects) t = .ok b t' ∧
      Option.Rel (s'.SameShape t') a b ∧ s.GoesOn p t s' t' := by
  have ha : Option.Rel ((Pairing.retracing p (s, t)).SameArguments s t) (os.map .objects)
      (os'.map .objects) := by
    cases hos with
    | none => exact .none
    | some hos => exact .some (.objects hos)
  exact of_pairs hp h ((Pairing.retracing.lawful hp (s, t)).returned (.of_forall H)
    (.of_forall H fun _ => id) h.rel (h.sameShape hp hf) ha fun _ _ =>
      Pairing.argumentsOn_true _) hx

/-- Inference of a function, in general or for given objects, is retraced if it keeps to
the places that are clear in the views of it. -/
theorem returned (hp : p.WellBound) (h : s.RetracedBy p t) (hf : f < p.objects.size)
    {os os' : Option (List ObjectId)} (hos : Option.Rel (List.Forall₂ (s.SameShape t)) os os')
    (hx : (Infer.returned p (p.avoiding ((s.view p f os).clearAt (t.view p f os'))) f
      (os.map .objects)).completes s = true) :
    ∃ a b s' t', Infer.returned p p.evaluate f (os.map .objects) s = .ok a s' ∧
      Infer.returned p p.evaluate f (os'.map .objects) t = .ok b t' ∧
      Option.Rel (s'.SameShape t') a b ∧ s.GoesOn p t s' t' := by
  rw [← State.returned_avoiding _ hx]
  cases hos with
  | none => exact h.returned_by hp hf .none (Pairing.retracing.pairsOn_avoiding hp (s, t)) hx
  | @some os os' hos =>
      have hview : (s.view p f (some os)).RetracedBy p (t.view p f (some os')) := h.view hp hf rfl
      generalize hok : (s.view p f (some os)).clearAt (t.view p f (some os')) = ok at hx ⊢
      by_cases hadmits : s.Admits p f
      · -- What the two runs do from the views, they do from the states.
        have hrun := Infer.returned_of_admits hadmits (p.avoiding ok) os
        have hrun' := Infer.returned_of_admits ((h.admits_iff hp hf).2 hadmits) p.evaluate os'
        have hos : List.Forall₂ ((s.view p f (some os)).SameShape (t.view p f (some os'))) os os' :=
          by simpa only [State.SameShape, objects_view] using hos
        simp only [Option.map_some, Infer.completes] at hx ⊢
        rw [hrun] at hx ⊢
        rw [hrun']
        subst hok
        obtain ⟨a, b, s', t', hs', ht', hab, hgoes⟩ := hview.returned_by hp hf (.some hos)
          (Pairing.retracing.pairsOn_avoiding hp _) hx
        exact ⟨a, b, s', t', hs', ht', hab, hgoes.retraced,
          fun hst => hgoes.agree (h.matches_view hp hf hst rfl)⟩
      · -- Nothing is evaluated, so any evaluator will do for the first run.
        have hany := Infer.returned_of_not_admits hadmits (p.avoiding ok)
          (fun _ _ => throw .exhausted) os
        simp only [Option.map_some, Infer.completes] at hx ⊢
        rw [hany] at hx ⊢
        exact h.returned_by hp hf (.some hos) (fun _ _ _ _ _ _ => .exhausted trivial) hx

end State.RetracedBy

end ObjectInference
