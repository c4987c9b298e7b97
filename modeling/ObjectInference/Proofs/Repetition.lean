import Mathlib.Logic.Function.Iterate
import ObjectInference.Proofs.Queries

/-!
Repeated analysis.

An analysis evaluates the arguments of a call with what it has found out so far, so
a second one may find more than the first: a call that was met before the callers of
its function is then recorded with objects that were unknown. As soon as one run
leaves the latest calls and the containers as it found them, though, a further run
makes no difference: it ends in a state that matches, and so does every run after
it. All questions then have the answers that they have, up to the numbers of new
objects.
-/

namespace ObjectInference

open ObjectStore

/-! ### What a run leaves as it was -/

theorem CallLog.mem_functions {l : CallLog} {f : ObjectId} {record : CallRecord}
    (h : l.latest f = some record) : f ∈ l.functions := by
  unfold latest calls at h
  cases hget : l.byFunction.get? f with
  | none => simp [hget] at h
  | some _ => exact Table.mem_keys hget

namespace State

variable {p : Program} {s t : State}

/-- The latest calls and what is known of containers are the same in two states. -/
structure Unchanged (s t : State) : Prop where
  latest (f : ObjectId) : t.calls.latest f = s.calls.latest f
  evidence (c : ObjectId) (slot : Slot) : t.evidence.get? c slot = s.evidence.get? c slot
  allocated (scope : ScopeId) (c : ObjectId) : c ∈ t.allocated scope ↔ c ∈ s.allocated scope

/-- Only what is in one of the tables has to be compared. -/
theorem unchanged_iff : s.Unchanged t ↔
    (∀ f ∈ s.calls.functions ++ t.calls.functions, t.calls.latest f = s.calls.latest f) ∧
    (∀ k ∈ s.evidence.slots.keys ++ t.evidence.slots.keys,
      t.evidence.get? k.1 k.2 = s.evidence.get? k.1 k.2) ∧
    ∀ scope ∈ s.allocations.keys ++ t.allocations.keys,
      ∀ c ∈ s.allocated scope ++ t.allocated scope,
        c ∈ t.allocated scope ↔ c ∈ s.allocated scope := by
  refine ⟨fun h => ⟨fun f _ => h.latest f, fun k _ => h.evidence k.1 k.2,
    fun scope _ c _ => h.allocated scope c⟩, fun ⟨hl, he, ha⟩ => ⟨fun f => ?_, fun c slot => ?_,
    fun scope c => ?_⟩⟩
  · by_cases hf : f ∈ s.calls.functions ++ t.calls.functions
    · exact hl f hf
    · have hnone : ∀ l : CallLog, f ∉ l.functions → l.latest f = none := fun l hl =>
        Option.eq_none_iff_forall_ne_some.2 fun _ h => hl (CallLog.mem_functions h)
      rw [List.mem_append, not_or] at hf
      rw [hnone _ hf.1, hnone _ hf.2]
  · by_cases hk : (c, slot) ∈ s.evidence.slots.keys ++ t.evidence.slots.keys
    · exact he (c, slot) hk
    · have hnone : ∀ e : Evidence, (c, slot) ∉ e.slots.keys → e.get? c slot = none := fun e he =>
        Option.eq_none_iff_forall_ne_some.2 fun _ h => he (Table.mem_keys h)
      rw [List.mem_append, not_or] at hk
      rw [hnone _ hk.1, hnone _ hk.2]
  · by_cases hc : c ∈ s.allocated scope ++ t.allocated scope
    · refine ha scope ?_ c hc
      exact List.mem_append.2 ((List.mem_append.1 hc).imp mem_keys_allocations mem_keys_allocations)
    · rw [List.mem_append, not_or] at hc
      exact iff_of_false hc.2 hc.1

instance (s t : State) : Decidable (s.Unchanged t) :=
  decidable_of_iff' _ unchanged_iff

namespace Unchanged

theorem symm (h : s.Unchanged t) : t.Unchanged s :=
  ⟨fun f => (h.latest f).symm, fun c slot => (h.evidence c slot).symm,
    fun scope c => (h.allocated scope c).symm⟩

/-- An unchanged state has everything by the same numbers. -/
theorem carries (h : s.Unchanged t) {n : Nat} (hrefl : ∀ {a : ObjectId}, a < n → s.SameShape t a a)
    (hevidence : ∀ {a v : ObjectId} {slot : Slot}, s.evidence.get? a slot = some v → a < n ∧ v < n)
    (hallocated : ∀ {scope : ScopeId} {a : ObjectId}, a ∈ s.allocated scope → a < n)
    (hcalls : s.calls.InRange n) : s.Carries .none t := by
  refine ⟨fun {a v slot} hget => ?_, fun {scope a} ha => ?_, fun {f record} hf => ?_⟩
  · obtain ⟨ha, hv⟩ := hevidence hget
    exact .inl ⟨a, v, hrefl ha, (h.evidence a slot).trans hget, hrefl hv⟩
  · exact .inl ⟨a, hrefl (hallocated ha), (h.allocated scope a).2 ha⟩
  · obtain ⟨hlt, hrecord⟩ := hcalls f record hf
    refine ⟨f, record, hrefl hlt, (h.latest f).trans hf, ?_⟩
    exact List.forall₂_same.2 fun o ho => hrefl (hrecord o ho)

/-- A state that a run has left unchanged matches the one in which the run began. -/
theorem matches_of_settles (h : s.Unchanged t) (hp : p.WellBound) (hs : s.Served p)
    (hst : s.Settles t) : s.Matches .none t := by
  obtain ⟨hsound, hm⟩ := hs.sound_and_matches hp
  obtain ⟨hinFlight, hresolving⟩ := hs.reached.depth_eq_zero
  have hrefl : ∀ {a : ObjectId}, a < s.objects.size → s.SameShape t a a :=
    fun ha => sameShape_of_settles hp hsound hst ha
  have hevidence : ∀ {a v : ObjectId} {slot : Slot}, s.evidence.get? a slot = some v →
      a < s.objects.size ∧ v < s.objects.size := fun hget => hm.evidence_lt hget
  have hallocated : ∀ {scope : ScopeId} {a : ObjectId}, a ∈ s.allocated scope →
      a < s.objects.size := by
    intro scope a ha
    obtain ⟨site, hat⟩ := hsound.noted ha
    exact hat.lt
  refine ⟨h.carries hrefl hevidence hallocated hm.calls_inRange,
    h.symm.carries (fun ha => (hrefl ha).symm)
      (fun hget => hevidence ((h.evidence _ _).symm.trans hget))
      (fun ha => hallocated ((h.allocated _ _).1 ha))
      (fun f record hf => hm.calls_inRange f record ((h.latest f).symm.trans hf)), ?_, ?_, ?_⟩
  · rw [hst.contexts, hs.reached.disciplined_and_idle.2.contexts]
    exact .nil
  · exact .of_inactive hst.inFlight hinFlight
  · exact .of_inactive hst.resolving hresolving

end Unchanged

end State

/-! ### Analysis again -/

namespace Session

variable {s t u : Session}

structure Analyzed (s t : Session) : Prop where
  analysis : s.analyze = (.ok t.state.stats, t)
  program : t.program = s.program
  options : t.options = s.options
  ran : Infer.analyze s.program s.options s.program.module (fun _ => true) (fun _ => true) s.state =
    .ok () t.state
  served : t.state.Served s.program
  settles : s.state.Settles t.state

/-- Every analysis comes to an end. -/
theorem exists_analyzed (hd : s.program.tree.Descending) (hp : s.program.WellBound)
    (hmodule : s.program.module < s.program.objects.size) (hs : s.state.Served s.program) :
    ∃ t, s.Analyzed t := by
  let op : Operation Unit :=
    .analyze s.options s.program.module (fun _ => true) fun _ => true
  obtain ⟨_, t, hperform, hsettles⟩ := hs.reached.perform_ok hd op
  have hrun : EStateM.bind (op.perform s.program) (fun _ => do return (← get).stats) s.state =
      .ok t.stats t := by
    rw [EStateM.bind, hperform]
    rfl
  have hlt := Nat.lt_of_lt_of_le hmodule (hs.sound_and_matches hp).1.grown.size_le
  exact ⟨{ s with state := t }, run_of_ok hrun, rfl, rfl, hperform, hs.ok op hlt hperform, hsettles⟩

/-- A fresh session that has analysed is served. -/
theorem served_analyze_start {p : Program} (hd : p.tree.Descending) (hp : p.WellBound)
    (hmodule : p.module < p.objects.size) (options : Options) :
    let s := (start p (.fresh p) options).analyze.2
    s.program = p ∧ s.state.Served p := by
  intro s
  obtain ⟨t, ht⟩ := exists_analyzed (s := start p (.fresh p) options) hd hp hmodule
    (served_start p options)
  have hst : s = t := congrArg Prod.snd ht.analysis
  rw [hst]
  exact ⟨ht.program, ht.served⟩

structure Steady (s : Session) : Prop where
  descending : s.program.tree.Descending
  wellBound : s.program.WellBound
  module : s.program.module < s.program.objects.size
  served : s.state.Served s.program
  agree {t : Session} (h : s.Analyzed t) : s.state.Matches .none t.state

namespace Steady

theorem inMatch (hs : s.Steady) (ht : s.Analyzed t) :
    Pairing.InMatch s.program False .none (s.state, t.state) s.state t.state :=
  ⟨.refl _, .refl _, False.elim, (hs.served.sound_and_matches hs.wellBound).1,
    (ht.served.sound_and_matches hs.wellBound).1, hs.agree ht⟩

theorem sameShape (hs : s.Steady) (ht : s.Analyzed t) (o : ObjectId)
    (ho : o < s.state.objects.size) : s.state.SameShape t.state o o :=
  State.sameShape_of_settles hs.wellBound (hs.served.sound_and_matches hs.wellBound).1 ht.settles ho

/-- An analysis leaves a session steady: it does from both states the same. -/
theorem analyzed (hs : s.Steady) (ht : s.Analyzed t) : t.Steady := by
  refine ⟨ht.program ▸ hs.descending, ht.program ▸ hs.wellBound, ht.program ▸ hs.module,
    ht.program ▸ ht.served, fun {u} hu => ?_⟩
  have hp := hs.wellBound
  have hlt := Nat.lt_of_lt_of_le hs.module (hs.served.sound_and_matches hp).1.grown.size_le
  have hpairs := (Pairing.matching.lawful hp False .none).analyzeWith Pairing.matching.records
    (.of_forall (Pairing.matching.pairsOn_evaluate hp False)) (fun _ _ _ => trivial) s.options
    (hs.inMatch ht) (hs.sameShape ht _ hlt) (fun _ => true) fun _ => true
  have hran := hu.ran
  rw [ht.program, ht.options] at hran
  unfold Pairing.Ends Pairing.Pairs at hpairs
  rw [show Infer.analyzeWith s.program s.program.evaluate s.options s.program.module _ _ s.state =
    _ from ht.ran, show Infer.analyzeWith s.program s.program.evaluate s.options s.program.module
    _ _ t.state = _ from hran] at hpairs
  cases hpairs with
  | ok hr _ => exact hr.rel.agree
  | strayed _ _ hs => exact hs.elim

theorem latest_eq (hs : s.Steady) (ht : s.Analyzed t) {f : ObjectId}
    (hf : f < s.state.objects.size) : t.state.calls.latest f = s.state.calls.latest f := by
  have h := hs.inMatch ht
  have hrel := h.agree.forth.latest_rel h.agree.back h.soundLeft h.soundRight (hs.sameShape ht f hf)
  have hrange := (hs.served.sound_and_matches hs.wellBound).2.calls_inRange f
  generalize s.state.calls.latest f = x, t.state.calls.latest f = y at hrel hrange ⊢
  cases hrel with
  | none => rfl
  | some hrecord =>
      -- An object of the earlier state has no other counterpart than itself.
      have heq := List.Forall₂.imp
        (fun o o' h' => h.oneToOne.right (hs.sameShape ht o h'.1) h'.2)
        ((List.forall₂_and_left _ _).2 ⟨(hrange _ rfl).2, hrecord⟩)
      rw [List.forall₂_eq_eq_eq] at heq
      rw [heq]

/-- A question has the same answer before and after an analysis. -/
theorem same (hs : s.Steady) (ht : s.Analyzed t) {q : Query} {a b : Answer} {u v : Session}
    (hq : q.InRange s.state.objects.size) (hu : s.Asked q a u) (hv : t.Asked q b v) :
    a.Same u v b := by
  cases q with
  | parameters f =>
      obtain ⟨rfl, rfl⟩ := hu.eq rfl
      obtain ⟨rfl, rfl⟩ := hv.eq rfl
      have heq : v.parameterObjects f = u.parameterObjects f := by
        unfold parameterObjects
        rw [ht.program, hs.latest_eq ht hq, u.program.parameters_of_extends ht.settles.objects]
      rw [heq]
      exact .parameters _
  | returned f os =>
      have hp := hs.wellBound
      obtain ⟨o, w, hrun, _⟩ := hs.served.returned_ok hs.descending f (os.map .objects)
      obtain ⟨o', w', hrun', _⟩ := ht.served.returned_ok hs.descending f (os.map .objects)
      obtain ⟨rfl, rfl⟩ := hu.eq (ask_returned hrun)
      rw [← ht.program] at hrun'
      obtain ⟨rfl, rfl⟩ := hv.eq (ask_returned hrun')
      rw [ht.program] at hrun'
      have hpairs := Pairing.matching.returned hp (Pairing.matching.pairsOn_evaluate hp False)
        (hs.inMatch ht) (hs.sameShape ht f hq.1)
        (Pairing.sameArguments?_of_inRange (hs.sameShape ht) (inRange_objects hq.2))
      unfold Pairing.Pairs at hpairs
      rw [hrun, hrun'] at hpairs
      cases hpairs with
      | ok _ hab => exact .returned hab
      | strayed _ _ hs => exact hs.elim

end Steady

/-- After any number of analyses a steady session is steady, and a question has the
answer that it had before. -/
theorem Steady.iterate (hs : s.Steady) {q : Query} {a : Answer}
    (hq : q.InRange s.state.objects.size) (hu : s.Asked q a u) (n : Nat) :
    ∃ t b v, (fun s => s.analyze.2)^[n] s = t ∧ t.Steady ∧ q.InRange t.state.objects.size ∧
      t.Asked q b v ∧ a.Same u v b := by
  induction n with
  | zero => exact ⟨s, a, u, rfl, hs, hq, hu, hu.self⟩
  | succ n ih =>
      obtain ⟨t, b, v, hn, ht, hqt, hv, hsame⟩ := ih
      obtain ⟨t', ht'⟩ := exists_analyzed ht.descending ht.wellBound ht.module ht.served
      have hsteady := ht.analyzed ht'
      have hqt' := hqt.mono ht'.settles.objects.keeps.size_le
      obtain ⟨b', v', hv'⟩ := asked hsteady.descending hsteady.wellBound hsteady.served hqt'
      refine ⟨t', b', v', ?_, hsteady, hqt', hv', hsame.trans (ht.same ht' hqt hv hv')⟩
      rw [Function.iterate_succ_apply', hn, ht'.analysis]

end Session

/-- Repeated analysis. If one analysis finds the latest calls and the containers as it
leaves them, then any number of analyses come to their ends, and every question has
after them the answer that it has before. -/
theorem answers_repeated {tree : Tree} (hd : tree.Descending) (atoms : Interner) (root : NodeRef)
    {s : Session} (hprogram : s.program = .bind tree atoms root)
    (hs : s.state.Served s.program) (h : s.state.Unchanged s.analyze.2.state) {q : Query}
    (hq : q.InRange s.state.objects.size) (n : Nat) :
    let t := (fun s => s.analyze.2)^[n] s
    (∃ counts, t.analyze = (.ok counts, t.analyze.2)) ∧
      ∃ a u b v, s.ask q = (.ok a, u) ∧ t.ask q = (.ok b, v) ∧ a.Same u v b := by
  obtain ⟨hp, hmodule⟩ := Program.wellBound_bind tree atoms root
  rw [← hprogram] at hp hmodule
  have hds : s.program.tree.Descending := by
    rw [hprogram]
    exact hd
  have hsteady : s.Steady := by
    refine ⟨hds, hp, hmodule, hs, fun {t} ht => ?_⟩
    rw [ht.analysis] at h
    exact h.matches_of_settles hp hs ht.settles
  obtain ⟨a, u, hu⟩ := Session.asked hds hp hs hq
  obtain ⟨t, b, v, hn, ht, _, hv, hsame⟩ := hsteady.iterate hq hu n
  obtain ⟨t', ht'⟩ := Session.exists_analyzed ht.descending ht.wellBound ht.module ht.served
  intro t₀
  have ht₀ : t₀ = t := hn
  rw [ht₀, ht'.analysis]
  exact ⟨⟨_, rfl⟩, a, u, b, v, hu.answer, hv.answer, hsame⟩

/-- A function that returns its argument, and a call of it. -/
def Tree.returning : Tree :=
  ⟨#[.name 1, .returnStatement (some 0), .functionDef 2 [⟨1, .positional, none⟩] [] [some 1],
    .name 2, .literal (.int 1), .call (some 3) [some 4] [], .exprStatement (some 5),
    .module [some 2, some 6]]⟩

/-- The second analysis finds what the first has found. -/
theorem answers_repeated_returning :
    let p := Program.bind Tree.returning ⟨#["", "a", "f"]⟩ (some 7)
    let s := (Session.start p (.fresh p) {}).analyze.2
    let t := (fun s => s.analyze.2)^[2] s
    let q : Query := .returned 16 none
    Tree.returning.Descending ∧ s.state.Served p ∧ s.state.Unchanged s.analyze.2.state ∧
      q.InRange s.state.objects.size ∧
      (∃ counts, t.analyze = (.ok counts, t.analyze.2)) ∧
      ∃ a u b v, s.ask q = (.ok a, u) ∧ t.ask q = (.ok b, v) ∧ a.Same u v b := by
  intro p s t q
  have hd : Tree.returning.Descending := by decide
  obtain ⟨hp, hmodule⟩ := Program.wellBound_bind Tree.returning ⟨#["", "a", "f"]⟩ (some 7)
  have hs : s.program = p ∧ s.state.Served p := Session.served_analyze_start hd hp hmodule {}
  have h : s.state.Unchanged s.analyze.2.state := by decide +kernel
  have hq : q.InRange s.state.objects.size := ⟨by decide +kernel, fun _ h => nomatch h⟩
  obtain ⟨hruns, hsame⟩ := answers_repeated hd ⟨#["", "a", "f"]⟩ (some 7) hs.1 (hs.1 ▸ hs.2) h hq 2
  exact ⟨hd, hs.2, h, hq, hruns, hsame⟩

/-- A function that hands its argument on to another one, which returns it, and a
call of the first. -/
def Tree.forwarding : Tree :=
  ⟨#[.name 1, .returnStatement (some 0), .functionDef 2 [⟨1, .positional, none⟩] [] [some 1],
    .name 2, .name 3, .call (some 3) [some 4] [], .exprStatement (some 5),
    .functionDef 4 [⟨3, .positional, none⟩] [] [some 6],
    .name 4, .literal (.int 1), .call (some 8) [some 9] [], .exprStatement (some 10),
    .module [some 2, some 7, some 11]]⟩

/-- The inner call is met before the outer one. The first analysis records it with an
unknown argument, and the second with what the first has recorded of the outer one. -/
theorem answers_unrepeated_forwarding :
    let p := Program.bind Tree.forwarding ⟨#["", "b", "g", "a", "f"]⟩ (some 12)
    let s := (Session.start p (.fresh p) {}).analyze.2
    let t := s.analyze.2
    let integer : ObjectId := 18
    Tree.forwarding.Descending ∧ s.state.Served p ∧ ¬ s.state.Unchanged t.state ∧
      s.parameterObjects 16 = [.unknown] ∧ t.parameterObjects 16 = [integer] ∧
      ∃ u v, s.ask (.returned 16 none) = (.ok (.returned none), u) ∧
        t.ask (.returned 16 none) = (.ok (.returned (some integer)), v) := by
  intro p s t integer
  have hd : Tree.forwarding.Descending := by decide
  obtain ⟨hp, hmodule⟩ :=
    Program.wellBound_bind Tree.forwarding ⟨#["", "b", "g", "a", "f"]⟩ (some 12)
  exact ⟨hd, (Session.served_analyze_start hd hp hmodule {}).2, by decide +kernel,
    by decide +kernel, by decide +kernel, _, _, Session.ask_of_toOption (by decide +kernel),
    Session.ask_of_toOption (by decide +kernel)⟩

end ObjectInference
