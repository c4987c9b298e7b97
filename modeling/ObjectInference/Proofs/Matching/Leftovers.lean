import ObjectInference.Proofs.Matching.Views

/-!
What a run leaves to the next.

A run may find what an earlier one has left: objects, which make no difference,
notes of containers, and evidence. Containers that were made for the first time
by the earlier run are harmless as long as nothing has been seen in them, or the
later run does not come to their places, and as long as they are not noted for a
scope that the later run would not note them for. Of all other containers the
later run has to see what it would have seen before. `State.Spares` asks for
this much of the two states, and `State.mayMake` is the test that the expressions
the later run evaluates have to pass. Then the two states match.
-/

namespace ObjectInference

open ObjectStore

/-- The containers that something has been seen in. -/
def Evidence.containers (e : Evidence) : List ObjectId :=
  e.slots.keys.map Prod.fst

theorem Evidence.mem_containers {e : Evidence} {c v : ObjectId} {slot : Slot}
    (h : e.get? c slot = some v) : c ∈ e.containers :=
  List.mem_map.2 ⟨(c, slot), Table.mem_keys h, rfl⟩

theorem Evidence.exists_of_mem_containers {e : Evidence} {c : ObjectId} (h : c ∈ e.containers) :
    ∃ slot v, e.get? c slot = some v := by
  obtain ⟨⟨_, slot⟩, hkey, rfl⟩ := List.mem_map.1 h
  exact ⟨slot, Table.exists_get?_of_mem_keys hkey⟩

def ObjectStore.siteOf (st : ObjectStore) (o : ObjectId) : NodeRef :=
  match st.get o with
  | .inst _ site => site
  | _ => none

theorem ObjectStore.ContainerAt.siteOf_eq {st : ObjectStore} {o : ObjectId} {site : NodeRef}
    (h : st.ContainerAt o site) : st.siteOf o = site := by
  obtain ⟨c, _, hget⟩ := h
  rw [siteOf, hget]

namespace State

variable {p : Program} {f : ObjectId} {os : Option (List ObjectId)} {s t : State}

/-- The containers that a later state notes, each with a scope for which an earlier
state does not. -/
def notedSince (s t : State) : List (ScopeId × ObjectId) :=
  t.allocations.keys.flatMap fun scope =>
    ((t.allocated scope).filter fun c => decide (c ∉ s.allocated scope)).map fun c => (scope, c)

theorem mem_keys_allocations {scope : ScopeId} {c : ObjectId} (h : c ∈ s.allocated scope) :
    scope ∈ s.allocations.keys := by
  unfold Memory.allocated at h
  cases hget : s.allocations.get? scope with
  | none => simp [hget] at h
  | some _ => exact Table.mem_keys hget

theorem mem_notedSince {scope : ScopeId} {c : ObjectId} :
    (scope, c) ∈ s.notedSince t ↔ c ∈ t.allocated scope ∧ c ∉ s.allocated scope := by
  simp only [notedSince, List.mem_flatMap, List.mem_map, List.mem_filter, decide_eq_true_eq,
    Prod.mk.injEq]
  constructor
  · rintro ⟨_, _, _, h, rfl, rfl⟩
    exact h
  · rintro ⟨h, h'⟩
    exact ⟨scope, mem_keys_allocations h, c, ⟨h, h'⟩, rfl, rfl⟩

/-- What a later state has to leave alone for an inference of a function to find what
it would have found in an earlier one. -/
structure Spares (p : Program) (f : ObjectId) (os : Option (List ObjectId)) (s t : State) :
    Prop where
  /-- The inference sees the same in the containers that it might know. -/
  evidence {c : ObjectId} (slot : Slot) (h : ∀ scope, (scope, c) ∉ s.notedSince t) :
    (t.view p f os).evidence.get? c slot = (s.view p f os).evidence.get? c slot
  /-- Containers that were there are noted as they were. -/
  fresh : ∀ n ∈ s.notedSince t, s.objects.size ≤ n.2

/-- In a scope a container may be made at a place, if the containers noted since
belong elsewhere, or to the scope with nothing in them. -/
def mayMake (p : Program) (f : ObjectId) (os : Option (List ObjectId)) (s t : State)
    (scope : ScopeId) (site : NodeRef) : Bool :=
  decide (∀ n ∈ s.notedSince t, t.objects.siteOf n.2 = site →
    n.1 = scope ∧ n.2 ∉ (t.view p f os).evidence.containers)

def leftPlaces (p : Program) (f : ObjectId) (os : Option (List ObjectId)) (s t : State) :
    Places where
  noted scope site := ∃ c, (scope, c) ∈ s.notedSince t ∧ t.objects.siteOf c = site
  seen site := ∃ n ∈ s.notedSince t,
    t.objects.siteOf n.2 = site ∧ n.2 ∈ (t.view p f os).evidence.containers

theorem allow_of_mayMake {scope : ScopeId} {site : NodeRef}
    (h : mayMake p f os s t scope site = true) : (leftPlaces p f os s t).Allow scope site := by
  have h := of_decide_eq_true h
  refine ⟨fun {scope'} hnoted => ?_, fun ⟨n, hn, hsite, hseen⟩ => (h n hn hsite).2 hseen⟩
  obtain ⟨c, hc, hsite⟩ := hnoted
  exact (h (scope', c) hc hsite).1

/-! ### Matching views -/

section Settled

variable (hp : p.WellBound) (hs : s.Sound p) (ht : t.Sound p) (hst : s.Settles t)

include hp hs hst

theorem sameShape_of_settles {a : ObjectId} (ha : a < s.objects.size) : s.SameShape t a a :=
  (hs.grown.sameShape_refl hp.made a ha).mono (.refl _) hst.objects.keeps

omit hp hs in
include ht in
/-- A container that is new is only in the later state. -/
theorem onlyIn_of_size_le {a : ObjectId} {site : NodeRef} (ha : s.objects.size ≤ a)
    (h : t.objects.ContainerAt a site) : t.OnlyIn s a site := by
  refine ⟨h, fun b hb => ?_⟩
  have hkeeps := hst.objects.keeps
  rcases Nat.lt_or_ge b s.objects.size with hlt | hle
  · have hget : t.objects.get b = t.objects.get a := (hkeeps.get_eq hlt).trans hb
    have heq := ht.grown.distinct b a (Nat.lt_of_lt_of_le hlt hkeeps.size_le) h.lt hget
    exact absurd hlt (Nat.not_lt.2 (heq ▸ ha))
  · obtain ⟨c, _, hget⟩ := h
    rw [get_of_size_le hle, hget] at hb
    cases hb

include ht

theorem Spares.matches_view (h : s.Spares p f os t) (hm : s.Matches .none s)
    (hcontexts : s.contexts = []) (hdepth : s.inFlight.depth = 0 ∧ s.resolving.depth = 0)
    (hcalls : t.calls = s.calls) :
    (s.view p f os).Matches (leftPlaces p f os s t) (t.view p f os) := by
  have hrefl : ∀ {a : ObjectId}, a < s.objects.size → s.SameShape t a a :=
    fun ha => sameShape_of_settles hp hs hst ha
  have honly : ∀ {scope : ScopeId} {a : ObjectId}, (scope, a) ∈ s.notedSince t →
      t.OnlyIn s a (t.objects.siteOf a) := by
    intro scope a ha
    obtain ⟨site, hat⟩ := ht.noted (mem_notedSince.1 ha).1
    rw [hat.siteOf_eq]
    exact onlyIn_of_size_le ht hst (h.fresh _ ha) hat
  have hevidence := fun {c : ObjectId} slot => h.evidence (c := c) slot
  have hlt : ∀ {a v : ObjectId} {slot : Slot}, (s.view p f os).evidence.get? a slot = some v →
      a < (s.view p f os).objects.size ∧ v < (s.view p f os).objects.size :=
    (hm.view_self hp hs f os).evidence_lt
  unfold leftPlaces
  obtain ⟨_, e, hu⟩ := s.view_eq p f os
  obtain ⟨_, e', hv⟩ := t.view_eq p f os
  rw [hu] at hevidence hlt ⊢
  rw [hv] at hevidence ⊢
  refine ⟨⟨fun {a v slot} hget => ?_, fun {scope a} ha => ?_, fun {g record} hg => ?_⟩,
    ⟨fun {a v slot} hget => ?_, fun {scope a} ha => ?_, fun {g record} hg => ?_⟩, ?_, ?_, ?_⟩
  · -- What the earlier state knows, the later one knows by the same number.
    obtain ⟨ha, hv⟩ := hlt hget
    refine .inl ⟨a, v, hrefl ha, ?_, hrefl hv⟩
    exact (hevidence slot fun scope hn => Nat.not_lt.2 (h.fresh _ hn) ha).trans hget
  · obtain ⟨site, hat⟩ := hs.noted ha
    exact .inl ⟨a, hrefl hat.lt, hst.allocated scope ha⟩
  · obtain ⟨hlt, hrecord⟩ := hm.calls_inRange g record hg
    refine ⟨g, record, hrefl hlt, (congrArg (·.latest g) hcalls).trans hg, ?_⟩
    exact List.forall₂_same.2 fun o ho => hrefl (hrecord o ho)
  · -- The other way round, what has been noted since is at one of the places.
    by_cases hn : ∃ scope, (scope, a) ∈ s.notedSince t
    · obtain ⟨scope, hn⟩ := hn
      exact .inr ⟨_, honly hn, (scope, a), hn, rfl, Evidence.mem_containers hget⟩
    · have hsame := (hevidence slot (not_exists.1 hn)).symm.trans hget
      obtain ⟨ha, hv⟩ := hlt hsame
      exact .inl ⟨a, v, (hrefl ha).symm, hsame, (hrefl hv).symm⟩
  · by_cases hmem : a ∈ s.allocated scope
    · obtain ⟨site, hat⟩ := hs.noted hmem
      exact .inl ⟨a, (hrefl hat.lt).symm, hmem⟩
    · have hn := mem_notedSince.2 ⟨ha, hmem⟩
      exact .inr ⟨_, honly hn, a, hn, rfl⟩
  · have hg : s.calls.latest g = some record := (congrArg (·.latest g) hcalls).symm.trans hg
    obtain ⟨hlt, hrecord⟩ := hm.calls_inRange g record hg
    refine ⟨g, record, (hrefl hlt).symm, hg, ?_⟩
    exact List.forall₂_same.2 fun o ho => (hrefl (hrecord o ho)).symm
  · have hcontexts' := hst.contexts.trans hcontexts
    simp only [hcontexts, hcontexts']
    exact .nil
  · exact .of_inactive hst.inFlight hdepth.1
  · exact .of_inactive hst.resolving hdepth.2

end Settled

end State

end ObjectInference
