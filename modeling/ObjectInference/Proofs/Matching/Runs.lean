import ObjectInference.Proofs.Discipline
import ObjectInference.Proofs.Matching.Brackets

/-!
States of sessions.

A state is served when sessions have led to it that were only asked about
objects in the store. Such a state is sound, and it matches itself: every object
that it mentions anywhere is in the store. Whatever runs from two matching
served states ends alike.
-/

namespace ObjectInference

open ObjectStore

def CallLog.InRange (l : CallLog) (n : Nat) : Prop :=
  ∀ f record, l.latest f = some record → f < n ∧ ∀ o ∈ record, o < n

/-- The states of the sessions over a program, which may be one after the other
over one memory and may take over calls recorded by any of them. -/
inductive State.Served (p : Program) : State → Prop where
  | start (options : Options) : Served p (.start (.fresh p) {} options)
  | resume {s : State} (h : Served p s) {calls : CallLog} (hc : calls.InRange s.objects.size)
      (options : Options) : Served p (.start s.toMemory.clearParameters calls options)
  | ok {s s' : State} (h : Served p s) {α : Type} (op : Operation α)
      (hop : op.InRange s.objects.size) {a : α} (hrun : op.perform p s = .ok a s') : Served p s'

theorem State.Served.reached {p : Program} {s : State} (h : s.Served p) : s.Reached p := by
  induction h with
  | start options => exact .start {} options
  | resume _ _ options ih => exact .resume ih _ options
  | ok _ op _ hrun ih => exact .ok ih op hrun

namespace Pairing

namespace matching

variable {p : Program} {fixed : Prop} {extra : Places} {w : State × State} {s t : State}

/-- The budget is the same on both sides. -/
theorem budget_eq (h : InMatch p fixed extra w s t) : p.budget t = p.budget s := by
  unfold Program.budget
  rw [h.agree.inFlight.room_eq, h.agree.resolving.room_eq]

theorem pairsOn_evaluate (hp : p.WellBound) (fixed : Prop) (expr : NodeRef) :
    (matching p fixed .none).PairsOn (fun _ => ¬ p.tree.Descending) p.evaluate p.evaluate
      expr :=
  (lawful hp fixed .none).pairsOn_evaluateBy (fun w => w.1.room) id
    (fun h => ⟨h.left.room_eq, (budget_eq h).symm⟩) (fun _ _ => rfl)
    (fun _ _ _ _ h scope => h scope fun _ => ⟨False.elim, False.elim⟩) expr

section Related

variable (hp : p.WellBound) {P : Prop} {eval eval' : Evaluator}
  (H : ∀ e, (matching p fixed extra).PairsOn (fun _ => P) eval eval' e)
  (h : InMatch p fixed extra w s t)

include hp H h

/-- Inference of corresponding functions for corresponding arguments. -/
theorem returned {f f' : ObjectId} (hf : s.SameShape t f f') {a a' : Option Arguments}
    (ha : Option.Rel ((matching p fixed extra).SameArguments s t) a a') :
    (matching p fixed extra).Pairs
      (Exits.silent ((matching p fixed extra).exits (fun _ => P) w)) w s t
      (matching p fixed extra).SameOption (Infer.returned p eval f a)
      (Infer.returned p eval' f' a') :=
  (lawful hp fixed extra).returned (.of_forall H) (.of_forall H fun _ => id) h hf ha fun _ _ =>
    argumentsOn_true _

end Related

/-- An operation about objects in the store pairs with itself. -/
theorem ends_operation (hp : p.WellBound) (h : InMatch p False .none w s s) {α : Type}
    (op : Operation α) (hop : op.InRange s.objects.size) :
    (matching p False .none).Ends
      ((matching p False .none).exits (fun _ => ¬ p.tree.Descending) w) w s s
      (op.perform p) (op.perform p) :=
  ((lawful hp False .none).operation (pairsOn_evaluate hp False) (fun _ => id) h op
    (given_of_inRange (h.soundLeft.grown.sameShape_refl hp.made) hop) fun _ => records).mono
    fun _ _ _ _ _ _ => trivial

end matching

end Pairing

/-! ### Served states -/

namespace State

variable {p : Program}

theorem alike_start {κ : Type} {r : κ → κ → Prop} (profile : Profile) :
    (Guard.ofProfile profile : Guard κ).refresh.Alike r (Guard.ofProfile profile).refresh :=
  ⟨.nil, rfl, rfl, rfl, rfl, rfl⟩

/-- The state at the start of a session matches itself if the memory and the
calls are about objects in the store. -/
theorem matches_start {m : Memory} {calls : CallLog} (options : Options)
    (hrefl : ∀ o < m.objects.size, ObjectStore.SameShape m.objects m.objects o o)
    (hevidence : ∀ {a slot v}, m.evidence.get? a slot = some v →
      a < m.objects.size ∧ v < m.objects.size)
    (hallocated : ∀ {scope a}, a ∈ m.allocated scope → a < m.objects.size)
    (hcalls : calls.InRange m.objects.size) :
    (State.start m calls options).Matches .none (State.start m calls options) := by
  have hcarries : (State.start m calls options).Carries .none (State.start m calls options) := by
    refine ⟨fun {a v slot} hv => ?_, fun {scope a} ha => ?_, fun {f record} hf => ?_⟩
    · obtain ⟨ha, hv'⟩ := hevidence hv
      exact .inl ⟨a, v, hrefl a ha, hv, hrefl v hv'⟩
    · exact .inl ⟨a, hrefl a (hallocated ha), ha⟩
    · obtain ⟨hf', hrecord⟩ := hcalls f record hf
      exact ⟨f, record, hrefl f hf', hf, List.forall₂_same.2 fun o ho => hrefl o (hrecord o ho)⟩
  refine ⟨hcarries, hcarries, .nil, alike_start _, ?_⟩
  exact ⟨List.forall₂_same.2 fun _ _ => rfl, rfl, rfl, rfl, rfl, rfl⟩

/-- Whatever a state that matches itself has seen is in the store. -/
theorem Matches.evidence_lt {s : State} (h : s.Matches .none s) {a v : ObjectId} {slot : Slot}
    (hv : s.evidence.get? a slot = some v) : a < s.objects.size ∧ v < s.objects.size := by
  rcases h.forth.evidence hv with ⟨b, w, hab, _, hvw⟩ | ⟨_, _, hseen⟩
  · exact ⟨hab.lt_left, hvw.lt_left⟩
  · exact hseen.elim

theorem Matches.calls_inRange {s : State} (h : s.Matches .none s) :
    s.calls.InRange s.objects.size := by
  intro f record hf
  obtain ⟨g, record', hfg, _, hrecord⟩ := h.forth.latest hf
  have hand := hrecord.imp fun _ _ hab => And.intro hab.lt_left hab
  exact ⟨hfg.lt_left, ((List.forall₂_and_left _ _).1 hand).1⟩

/-- A sound state that matches itself. Everything that it mentions is in the store. -/
structure Consistent (p : Program) (s : State) : Prop where
  sound : s.Sound p
  agree : s.Matches .none s

theorem consistent_start (hp : p.WellBound) (options : Options) :
    (State.start (.fresh p) {} options).Consistent p := by
  have hg : p.objects.Grown p.objects := .refl hp.distinct hp.made
  refine ⟨⟨hg, fun {scope a} ha => ?_, fun {f os} hf => ?_⟩, matches_start options
    (hg.sameShape_refl hp.made) (fun hv => ?_) (fun ha => ?_) fun f record hf => ?_⟩
  · cases ha
  · cases hf
  · cases hv
  · cases ha
  · cases hf

namespace Consistent

variable {s s' : State}

theorem resume (hp : p.WellBound) (h : s.Consistent p) {calls : CallLog}
    (hc : calls.InRange s.objects.size) (options : Options) :
    (State.start s.toMemory.clearParameters calls options).Consistent p := by
  refine ⟨⟨h.sound.grown, h.sound.noted, fun {f os} hf => ?_⟩, matches_start options
    (h.sound.grown.sameShape_refl hp.made) h.agree.evidence_lt (fun {scope a} ha => ?_) hc⟩
  · cases hf
  · obtain ⟨site, hat⟩ := h.sound.noted ha
    exact hat.lt

/-- Another instance in the store, or another generator. -/
theorem make (h : s.Consistent p) {object : Object} (hobject : object.kind = .inst)
    (hinst : ∀ c site, object = .inst c site → c < p.objects.size ∧ p.objects.kind c = .cls)
    (hgenerator : ∀ e, object = .generator e → e < s.objects.size) :
    Consistent p { s with objects := (s.objects.intern object).2 } := by
  have hkeeps := s.objects.keeps_intern object
  let s' : State := { s with objects := (s.objects.intern object).2 }
  have hshape : ∀ {a b : ObjectId}, s.SameShape s a b → s'.SameShape s' a b :=
    fun hab => hab.mono hkeeps hkeeps
  have hcarries : s.Carries .none s → s'.Carries .none s' := by
    intro hc
    refine ⟨fun hv => ?_, fun ha => ?_, fun hf => ?_⟩
    · rcases hc.evidence hv with ⟨b, w, hab, hw, hvw⟩ | ⟨_, _, hseen⟩
      · exact .inl ⟨b, w, hshape hab, hw, hshape hvw⟩
      · exact hseen.elim
    · rcases hc.allocated ha with ⟨b, hab, hb⟩ | ⟨_, _, hnoted⟩
      · exact .inl ⟨b, hshape hab, hb⟩
      · exact hnoted.elim
    · obtain ⟨g, record, hfg, hg, hrecord⟩ := hc.latest hf
      exact ⟨g, record, hshape hfg, hg, hrecord.imp fun _ _ => hshape⟩
  exact ⟨h.sound.intern hobject hinst hgenerator, hcarries h.agree.forth, hcarries h.agree.back,
    h.agree.contexts.imp fun _ _ => SameContext.mono hkeeps hkeeps,
    h.agree.inFlight.imp fun _ _ => hshape, h.agree.resolving⟩

theorem perform (hp : p.WellBound) (h : s.Consistent p) {α : Type} (op : Operation α)
    (hop : op.InRange s.objects.size) {a : α} (hrun : op.perform p s = .ok a s') :
    s'.Consistent p := by
  have hm : Pairing.InMatch p False .none (s, s) s s :=
    ⟨.refl s, .refl s, False.elim, h.sound, h.sound, h.agree⟩
  -- The operation beside itself ends in matching states, which are one state.
  have hends := Pairing.matching.ends_operation hp hm op hop
  unfold Pairing.Ends Pairing.Pairs at hends
  rw [hrun] at hends
  cases hends with
  | ok hr _ => exact ⟨hr.rel.soundLeft, hr.rel.agree⟩
  | strayed _ _ hs => exact hs.elim

end Consistent

/-- Served states are sound and match themselves. -/
theorem Served.sound_and_matches (hp : p.WellBound) {s : State} (h : s.Served p) :
    s.Sound p ∧ s.Matches .none s := by
  suffices hs : s.Consistent p from ⟨hs.sound, hs.agree⟩
  induction h with
  | start options => exact consistent_start hp options
  | resume _ hc options ih => exact ih.resume hp hc options
  | ok _ op hop hrun ih => exact ih.perform hp op hop hrun

end State

end ObjectInference
