import ObjectInference.Proofs.Bracketing
import ObjectInference.Proofs.Matching.Lookup
import ObjectInference.Proofs.Matching.Steps

/-!
Evaluation in matching states.

`Pairing.matching` compares runs from two states that match. Their brackets open
and close together, so the world of a bracket is the pair of states in which it
was opened. That the pairing is lawful needs a well-bound program: what binding
made is the only thing two runs are sure to know by the same number.

Evaluation never enters a call in the log, only analysis does. The pairing takes
it as a parameter whether the logs are supposed to stay fixed.
-/

namespace ObjectInference

open ObjectStore

theorem Infer.allocate_run (s : State) (scope : ScopeId) (container : ObjectId) :
    allocate scope container s = .ok () (s.noteAllocation scope container) := by
  unfold allocate State.noteAllocation
  by_cases h : container ∈ s.allocated scope
  · simp only [if_pos h]
    exact congrArg (fun m => EStateM.Result.ok () { s with toMemory := m }) (if_pos h)
  · simp only [if_neg h]
    exact congrArg (fun m => EStateM.Result.ok () { s with toMemory := m }) (if_neg h)

namespace Pairing

/-- Two sound states match, but for extra containers, and have settled from those
of the innermost bracket. -/
structure InMatch (p : Program) (fixed : Prop) (extra : Places)
    (w : State × State) (s t : State) : Prop where
  left : w.1.Settles s
  right : w.2.Settles t
  calls (hfixed : fixed) : s.calls = w.1.calls ∧ t.calls = w.2.calls
  soundLeft : s.Sound p
  soundRight : t.Sound p
  agree : s.Matches extra t

/-- Runs from two states that match but for extra containers. They may make a
container only where the extra ones allow it. -/
def matching (p : Program) (fixed : Prop) (extra : Places) : Pairing where
  World := State × State
  rel := InMatch p fixed extra
  same := State.SameShape
  signal _ _ _ := True
  inside w w' := w'.1.room < w.1.room
  may scope site := site ≠ none → extra.Allow scope site

variable {p : Program} {fixed : Prop} {extra : Places} {w : State × State}
  {s t s' t' : State}

namespace InMatch

theorem oneToOne (h : InMatch p fixed extra w s t) : OneToOne (s.SameShape t) :=
  State.oneToOne h.soundLeft h.soundRight

theorem sameShape (h : InMatch p fixed extra w s t) (hp : p.WellBound) {o : ObjectId}
    (ho : o < p.objects.size) : s.SameShape t o o :=
  hp.sameShape h.soundLeft h.soundRight ho

/-- A step of both runs to states that match again. -/
theorem reaches (h : InMatch p fixed extra w s t) (hs : s.Settles s') (ht : t.Settles t')
    (hc : fixed → s'.calls = s.calls ∧ t'.calls = t.calls) (hss : s'.Sound p) (hts : t'.Sound p)
    (hm : s'.Matches extra t') : (matching p fixed extra).Reaches w s t s' t' := by
  refine ⟨⟨h.left.trans hs, h.right.trans ht, fun hfixed => ?_, hss, hts, hm⟩,
    fun hab => hab.mono hs.objects.keeps ht.objects.keeps, hs.objects.keeps, id⟩
  rw [(hc hfixed).1, (hc hfixed).2]
  exact h.calls hfixed

theorem reaches_of_quiet (h : InMatch p fixed extra w s t) (hs : s.Quiet s') (ht : t.Quiet t')
    (hss : s'.Sound p) (hts : t'.Sound p) : (matching p fixed extra).Reaches w s t s' t' :=
  h.reaches hs.settles ht.settles (fun _ => ⟨hs.calls, ht.calls⟩) hss hts (h.agree.quiet hs ht)

end InMatch

namespace matching

/-! ### Making objects -/

theorem intern (h : InMatch p fixed extra w s t) {object object' : Object}
    (halike : object.Alike (s.SameShape t) object') (hk : object.kind = .inst)
    (hplain : object.Plain) (hplain' : object'.Plain)
    (hinst : ∀ c site, object = .inst c site → c < p.objects.size ∧ p.objects.kind c = .cls)
    (hinst' : ∀ c site, object' = .inst c site → c < p.objects.size ∧ p.objects.kind c = .cls) :
    (matching p fixed extra).Pairs .none w s t State.SameShape (Infer.intern object)
      (Infer.intern object') := by
  have hk' : object'.kind = .inst := halike.kind_eq ▸ hk
  have hsound := h.soundLeft.intern hk hinst fun e he => by
    subst he
    cases halike with
    | generator he => exact he.lt_left
  have hsound' := h.soundRight.intern hk' hinst' fun e he => by
    subst he
    cases halike with
    | generator he => exact he.lt_right
  exact .ok (h.reaches_of_quiet (s.quiet_intern hk hplain) (t.quiet_intern hk' hplain') hsound
    hsound') (Grown.sameShape_intern halike hk)

/-- A class that binding made is the class of an instance. -/
theorem class_of_inst {c : ObjectId} (hc : c < p.objects.size) (hk : p.objects.kind c = .cls)
    {site : NodeRef} (c' : ObjectId) (site' : NodeRef) (h : Object.inst c site = .inst c' site') :
    c' < p.objects.size ∧ p.objects.kind c' = .cls := by
  obtain ⟨rfl, _⟩ := Object.inst.inj h
  exact ⟨hc, hk⟩

/-- An instance of a class that binding made. -/
theorem internInstance (hp : p.WellBound) (h : InMatch p fixed extra w s t) {c : ObjectId}
    (hc : c < p.objects.size) (hk : p.objects.kind c = .cls) {site : NodeRef}
    (hplain : (Object.inst c site).Plain) :
    (matching p fixed extra).Pairs .none w s t State.SameShape (Infer.intern (.inst c site))
      (Infer.intern (.inst c site)) :=
  intern h (.inst site (h.sameShape hp hc)) rfl hplain hplain (class_of_inst hc hk)
    (class_of_inst hc hk)

theorem builtinInstance (hp : p.WellBound) (h : InMatch p fixed extra w s t) {c : BuiltinClass}
    (hc : c.isContainer = false) :
    (matching p fixed extra).Pairs .none w s t State.SameShape (Infer.builtinInstance c)
      (Infer.builtinInstance c) := by
  refine internInstance hp h (hp.builtinClass_lt c) (hp.kind_builtinClass c)
    (hp.plain_inst (fun b hb => ?_) none)
  cases (hp.get_builtinClass c).symm.trans hb
  exact hc

theorem newInstance (hp : p.WellBound) (h : InMatch p fixed extra w s t) {c c' : ObjectId}
    (hc : s.SameShape t c c') (hk : s.objects.kind c = .cls)
    (hb : ∀ b, s.objects.get c = .builtinClass b → b.isContainer = false) (site : NodeRef) :
    (matching p fixed extra).Pairs .none w s t State.SameShape (Infer.newInstance c site)
      (Infer.newInstance c' site) := by
  have hnot : s.objects.kind c ≠ .inst := by simp [hk]
  obtain rfl := h.soundLeft.grown.eq_of_sameShape h.soundRight.grown hc hnot
  have hlt := h.soundLeft.grown.lt_base hc.lt_left hnot
  have hget : s.objects.get c = p.objects.get c := h.soundLeft.grown.get_base hlt
  have hget' : t.objects.get c = p.objects.get c := h.soundRight.grown.get_base hlt
  have hcls : p.objects.kind c = .cls := by rwa [ObjectStore.kind, ← hget]
  refine Pairs.get_bind ?_
  rw [hget, hget']
  cases hgetc : p.objects.get c with
  | builtinClass b =>
      simp only [hb b (hget.trans hgetc), Bool.false_eq_true, if_false]
      exact internInstance hp h hlt hcls (hp.plain_inst (hget ▸ hb) none)
  | _ => exact internInstance hp h hlt hcls (hp.plain_inst (hget ▸ hb) site)

theorem newContainer_run (s : State) (scope : ScopeId) (c : BuiltinClass) (site : NodeRef) :
    Infer.newContainer scope c site s =
      .ok (s.objects.intern (.inst c.object site)).1 (s.addContainer scope c site) := by
  change EStateM.bind (Infer.allocate scope (s.objects.intern (.inst c.object site)).1)
    (fun _ => pure (s.objects.intern (.inst c.object site)).1)
    { s with objects := (s.objects.intern (.inst c.object site)).2 } = _
  rw [EStateM.bind, Infer.allocate_run]
  rfl

theorem newContainer (hp : p.WellBound) (h : InMatch p fixed extra w s t) {scope : ScopeId}
    {site : NodeRef} (hmay : extra.Allow scope site) {c : BuiltinClass}
    (hc : c.isContainer = true) :
    (matching p fixed extra).Pairs .none w s t State.SameShape (Infer.newContainer scope c site)
      (Infer.newContainer scope c site) := by
  have hclass : ∀ c' site', Object.inst c.object site = .inst c' site' →
      c' < p.objects.size ∧ p.objects.kind c' = .cls :=
    class_of_inst (hp.builtinClass_lt c) (hp.kind_builtinClass c)
  have hab := Grown.sameShape_intern
    (.inst site (h.sameShape hp (hp.builtinClass_lt c)) :
      (Object.inst c.object site).Alike (s.SameShape t) (.inst c.object site)) rfl
  have hsound : ∀ {s : State}, s.Sound p → (s.addContainer scope c site).Sound p :=
    fun hs => hs.addContainer (hs.grown.intern rfl hclass fun e he => by cases he) hc
  have hsettles : ∀ s : State, s.Settles (s.addContainer scope c site) :=
    fun s => ⟨.refl _, .refl _, rfl, extends_intern s.objects rfl, fun scope' o ho =>
      (State.mem_noteAllocation _ scope scope' _ o).2 (.inl ho)⟩
  unfold Pairs
  rw [newContainer_run, newContainer_run]
  refine .ok (h.reaches (hsettles s) (hsettles t) (fun _ => ⟨rfl, rfl⟩) (hsound h.soundLeft)
    (hsound h.soundRight) (h.agree.addContainer hmay c ?_ ?_ hab)) hab
  · exact (hsound h.soundLeft).grown.distinct
  · exact (hsound h.soundRight).grown.distinct

/-! ### Seeing and recording -/

theorem observe (hp : p.WellBound) (h : InMatch p fixed extra w s t) {a b o o' : ObjectId}
    (hab : s.SameShape t a b) (ho : s.SameShape t o o') (slot : Slot) :
    (matching p fixed extra).Ends .none w s t (Infer.observe a slot o)
      (Infer.observe b slot o') := by
  have hk := hp.isKnown_eq h.soundLeft h.soundRight ho
  have hreaches : (matching p fixed extra).Reaches w s t (s.seeInto a slot o)
      (t.seeInto b slot o') := by
    refine h.reaches ⟨.refl _, .refl _, rfl, .refl _, fun _ _ => id⟩
      ⟨.refl _, .refl _, rfl, .refl _, fun _ _ => id⟩ (fun _ => ⟨rfl, rfl⟩) ?_ ?_ ?_
    · exact h.soundLeft.grow h.soundLeft.grown (.refl _) rfl fun hf => .inl ⟨hf, rfl⟩
    · exact h.soundRight.grow h.soundRight.grown (.refl _) rfl fun hf => .inl ⟨hf, rfl⟩
    · refine ⟨?_, ?_, h.agree.contexts, h.agree.inFlight, h.agree.resolving⟩
      · exact h.agree.forth.seeInto hp h.agree.back h.soundLeft h.soundRight hab ho hk.symm slot
      · exact h.agree.back.seeInto hp h.agree.forth h.soundRight h.soundLeft hab.symm ho.symm hk
          slot
  exact .ok hreaches trivial

theorem count (h : InMatch p fixed extra w s t) (change : Stats → Stats) :
    (matching p fixed extra).Ends .none w s t (Infer.count change) (Infer.count change) := by
  have hquiet : ∀ s : State, s.Quiet { s with stats := change s.stats } :=
    fun s => ⟨.refl _, fun _ => .inl rfl, rfl, rfl, rfl, rfl, rfl, rfl⟩
  have hsound : ∀ {s : State}, s.Sound p → State.Sound p { s with stats := change s.stats } :=
    fun hs => hs.grow hs.grown (.refl _) rfl fun hf => .inl ⟨hf, rfl⟩
  exact .ok (h.reaches_of_quiet (hquiet s) (hquiet t) (hsound h.soundLeft)
    (hsound h.soundRight)) trivial

theorem recordCall (h : InMatch p False extra w s t) {f f' : ObjectId} (hf : s.SameShape t f f')
    {os os' : List ObjectId} (hos : List.Forall₂ (s.SameShape t) os os') :
    (matching p False extra).Ends .none w s t (Infer.recordCall f os)
      (Infer.recordCall f' os') := by
  have hforgotten : ∀ {s : State} (f : ObjectId) (record : CallRecord), s.Sound p →
      ∃ s', Infer.recordCall f record s = .ok () s' ∧ (s.recordCall f record).Quiet s' ∧
        s.Settles s' ∧ s'.Sound p := by
    intro s f record hs
    refine ⟨_, rfl, ⟨.refl _, fun _ => .inl rfl, rfl, rfl, rfl, rfl, rfl, rfl⟩,
      ⟨.refl _, .refl _, rfl, .refl _, fun _ _ => id⟩, ?_⟩
    refine hs.grow hs.grown (.refl _) rfl fun {g os} hg => .inl ?_
    have hg : (s.parameterCache.erase f).get? g = some os := hg
    rw [Table.get?_erase] at hg
    split at hg
    · cases hg
    · rename_i hfg
      refine ⟨hg, ?_⟩
      exact (State.latest_record s.calls f g record).trans (if_neg hfg)
  obtain ⟨s', hs', hquiet, hsettles, hsound⟩ := hforgotten f os h.soundLeft
  obtain ⟨t', ht', hquiet', hsettles', hsound'⟩ := hforgotten f' os' h.soundRight
  have hm : (s.recordCall f os).Matches extra (t.recordCall f' os') :=
    ⟨h.agree.forth.recordCall h.soundLeft h.soundRight hf hos,
      h.agree.back.recordCall h.soundRight h.soundLeft hf.symm
        (hos.flip.imp fun _ _ hab => hab.symm),
      h.agree.contexts, h.agree.inFlight, h.agree.resolving⟩
  unfold Ends Pairs
  rw [hs', ht']
  exact .ok (h.reaches hsettles hsettles' False.elim hsound hsound' (hm.quiet hquiet hquiet'))
    trivial

theorem records : (matching p False extra).Records p where
  record {_ _ _} h {_ _} hf {_ _} hos _ := recordCall h hf hos
  count {_ _ _} h {change} _ := count h change

end matching

end Pairing

end ObjectInference
