import ObjectInference.Proofs.Beside
import ObjectInference.Proofs.Registering
import ObjectInference.Proofs.Scanning

/-!
Replaying the body of a function.

A function without definitions inside its own, whose body reads no names but its own, has
everything it comes across to itself. Given values, it finds built-in classes and functions,
values, containers that its body makes, and generators of these, and no function of the source.
So what happens while its returned values are tried depends on the values alone, once nothing is
kept in its containers, and a later inference does again what an earlier one has done.

The later one finds a store to which more has been added, with all the objects in it that the
earlier one has made in the meantime. `Pairing.replaying` says so with a store that the later
run starts in and never leaves: the runs correspond as long as the earlier one keeps below it.
-/

namespace ObjectInference

open Relation

namespace ObjectStore

/-- A built-in container made in the body of a node. -/
def MadeIn (st : ObjectStore) (t : Tree) (n : NodeId) (o : ObjectId) : Prop :=
  ∃ i, st.ContainerAt o (some i) ∧ t.InBody n i

/-- What evaluation comes across in the body of a node that it enters with values only. -/
inductive LocalTo (st : ObjectStore) (t : Tree) (n : NodeId) : ObjectId → Prop where
  | unknown : LocalTo st t n .unknown
  | builtinClass (c : BuiltinClass) : LocalTo st t n c.object
  | builtinFunction (f : BuiltinFunction) : LocalTo st t n f.object
  | inst {o : ObjectId} {c : BuiltinClass} {site : NodeRef} (h : st.get o = .inst c.object site)
      (hsite : c.isContainer = true → ∃ i, site = some i ∧ t.InBody n i) : LocalTo st t n o
  | generator {o e : ObjectId} (h : st.get o = .generator e) (he : LocalTo st t n e) :
      LocalTo st t n o

/-- How such an object reads. -/
inductive LocalTo.Reads (st : ObjectStore) (t : Tree) (n : NodeId) : ObjectId → Object → Prop where
  | unknown : Reads st t n .unknown .unknown
  | builtinClass (c : BuiltinClass) : Reads st t n c.object (.builtinClass c)
  | builtinFunction (f : BuiltinFunction) : Reads st t n f.object (.builtinFunction f)
  | inst {o : ObjectId} {c : BuiltinClass} {site : NodeRef}
      (hsite : c.isContainer = true → ∃ i, site = some i ∧ t.InBody n i) :
      Reads st t n o (.inst c.object site)
  | generator {o e : ObjectId} (he : LocalTo st t n e) : Reads st t n o (.generator e)

variable {p : Program} {st st' : ObjectStore} {t : Tree} {n : NodeId} {o : ObjectId}

theorem MadeIn.keeps (h : st.MadeIn t n o) (hk : st.Keeps st') : st'.MadeIn t n o := by
  obtain ⟨i, hc, hi⟩ := h
  exact ⟨i, hc.keeps hk, hi⟩

theorem MadeIn.of_keeps (h : st'.MadeIn t n o) (hk : st.Keeps st') (ho : o < st.size) :
    st.MadeIn t n o := by
  obtain ⟨i, ⟨c, hc, hget⟩, hi⟩ := h
  exact ⟨i, ⟨c, hc, (hk.get_eq ho).symm.trans hget⟩, hi⟩

namespace LocalTo

theorem keeps (h : st.LocalTo t n o) (hk : st.Keeps st') : st'.LocalTo t n o := by
  induction h with
  | unknown => exact .unknown
  | builtinClass c => exact .builtinClass c
  | builtinFunction f => exact .builtinFunction f
  | inst h hsite => exact .inst (hk.get_eq_of_known h Object.noConfusion) hsite
  | generator h _ ih => exact .generator (hk.get_eq_of_known h Object.noConfusion) ih

section Reading

variable (h : st.LocalTo t n o) (hp : p.WellBound) (hst : p.objects.Keeps st)

include h hp hst

theorem reads : Reads st t n o (st.get o) := by
  cases h with
  | unknown =>
      rw [hp.get_unknown hst]
      exact .unknown
  | builtinClass c =>
      rw [hst.get_eq_of_known (hp.get_builtinClass c) Object.noConfusion]
      exact .builtinClass c
  | builtinFunction f =>
      rw [hst.get_eq_of_known (hp.get_builtinFunction f) Object.noConfusion]
      exact .builtinFunction f
  | inst h hsite =>
      rw [h]
      exact .inst hsite
  | generator h he =>
      rw [h]
      exact .generator he

theorem get_eq (hk : st.Keeps st') : st'.get o = st.get o := by
  cases h with
  | unknown => rw [hp.get_unknown hst, hp.get_unknown (hst.trans hk)]
  | builtinClass c => exact hk.get_eq (Nat.lt_of_lt_of_le (hp.builtinClass_lt c) hst.size_le)
  | builtinFunction f => exact hk.get_eq (Nat.lt_of_lt_of_le (hp.builtinFunction_lt f) hst.size_le)
  | inst h => exact hk.get_eq (lt_size_of_get (by simp [h]))
  | generator h => exact hk.get_eq (lt_size_of_get (by simp [h]))

theorem alike : (st.get o).Alike (fun a b => a = b ∧ st.LocalTo t n a) (st.get o) := by
  have hreads := h.reads hp hst
  generalize st.get o = object at hreads
  cases hreads with
  | unknown => exact .unknown
  | builtinClass c => exact .builtinClass c
  | builtinFunction f => exact .builtinFunction f
  | inst => exact .inst _ ⟨rfl, .builtinClass _⟩
  | generator he => exact .generator ⟨rfl, he⟩

theorem scopeOf?_eq_none : st.scopeOf? o = none := by
  unfold scopeOf?
  have hreads := h.reads hp hst
  generalize st.get o = object at hreads
  cases hreads <;> rfl

/-- The classes among them are the built-in ones. -/
theorem exists_builtinClass (hk : st.kind o = .cls) : ∃ c : BuiltinClass, o = c.object := by
  unfold kind at hk
  have hreads := h.reads hp hst
  generalize st.get o = object at hreads hk
  cases hreads with
  | builtinClass c => exact ⟨c, rfl⟩
  | _ => cases hk

/-- A list, a dict or a tuple is one that the body makes. -/
theorem madeIn {c : BuiltinClass} (hc : c.isContainer = true)
    (hclass : st.builtinClassOf? o = some c) : st.MadeIn t n o := by
  obtain ⟨k, site, hget, hk⟩ := builtinClassOf?_eq_some.1 hclass
  have hreads := h.reads hp hst
  rw [hget] at hreads
  cases hreads with
  | @inst _ c' _ hsite =>
      have hget' := hst.get_eq_of_known (hp.get_builtinClass c') Object.noConfusion
      obtain rfl := Object.builtinClass.inj (hget'.symm.trans hk)
      obtain ⟨i, rfl, hi⟩ := hsite hc
      exact ⟨i, ⟨c', hc, hget⟩, hi⟩

/-- Their attributes are built-in methods, and in later stores they have the same. -/
theorem exists_attribute (name : Atom) : ∃ m : Option BuiltinFunction, ∀ st', st.Keeps st' →
    p.attribute? st' o name = m.map BuiltinFunction.object := by
  have hmethod : ∀ c, ∃ m : Option BuiltinFunction,
      p.builtinMethod? c name = m.map BuiltinFunction.object := fun _ => ⟨_, rfl⟩
  have hreads := h.reads hp hst
  have hget : ∀ st', st.Keeps st' → st'.get o = st.get o := fun st' hk => h.get_eq hp hst hk
  generalize st.get o = object at hreads hget
  cases hreads with
  | builtinClass c =>
      obtain ⟨m, hm⟩ := hmethod c
      refine ⟨m, fun st' hk => ?_⟩
      rw [← hm, Program.attribute?, Program.attributeWithin, hget st' hk]
  | @inst _ c site _ =>
      -- An instance is followed to its class.
      obtain ⟨m, hm⟩ := hmethod c
      refine ⟨m, fun st' hk => ?_⟩
      have hpos : 0 < st'.size := Nat.lt_of_lt_of_le hp.unknown_lt (hst.trans hk).size_le
      obtain ⟨k, hsize⟩ := Nat.exists_eq_succ_of_ne_zero (Nat.ne_of_gt hpos)
      have hclass := (hst.trans hk).get_eq_of_known (hp.get_builtinClass c) Object.noConfusion
      rw [← hm, Program.attribute?, hsize]
      simp only [Program.attributeWithin, hget st' hk, hclass]
  | _ =>
      refine ⟨none, fun st' hk => ?_⟩
      rw [Program.attribute?, Program.attributeWithin, hget st' hk]
      rfl

end Reading

end LocalTo

end ObjectStore

/-! ### Two runs of one body -/

/-- A later run of the body of a function has come as far as an earlier one, which has settled
since its innermost bracket. The later one started in a store of its own, and needs no other
one as long as the earlier one keeps below it. In the containers that the body makes, both have
seen the same, and nothing but what they may come across. -/
structure State.Replays (p : Program) (f : ObjectId) (n : NodeId) (S : ObjectStore)
    (w s t : State) : Prop where
  settles : w.Settles s
  bound : p.objects.Keeps s.objects
  keeps : s.objects.Keeps t.objects
  stays (h : s.objects.Keeps S) : t.objects = S
  inFlight : t.inFlight = s.inFlight
  resolving : t.resolving.refresh = s.resolving.refresh
  contexts : t.contexts = s.contexts
  parameters : ∃ ps, s.boundParameters? f = some ps ∧ ∀ o ∈ ps, s.objects.LocalTo p.tree n o
  agree {c : ObjectId} (hc : t.objects.MadeIn p.tree n c) (slot : Slot) :
    t.evidence.get? c slot = s.evidence.get? c slot
  shut {c v : ObjectId} {slot : Slot} (h : s.evidence.get? c slot = some v) :
    ∃ site, s.objects.ContainerAt c site ∧
      (s.objects.MadeIn p.tree n c → s.objects.LocalTo p.tree n v)
  seen {c v : ObjectId} {slot : Slot} (h : t.evidence.get? c slot = some v) :
    ∃ site, t.objects.ContainerAt c site

namespace Pairing

/-- An earlier run of the body of a function beside a later one. It goes astray when it makes
an object that the later one does not know. -/
def replaying (p : Program) (f : ObjectId) (home : ScopeId) (n : NodeId) (S : ObjectStore) :
    Pairing where
  World := State
  rel := State.Replays p f n S
  same s _ a b := a = b ∧ s.objects.LocalTo p.tree n a
  signal w f g := f = g ∧ f ∈ w.inFlight.visiting
  inside w w' := w'.room < w.room
  may scope e := scope = home ∧ ∃ i, e = some i ∧ p.tree.InBody n i
  astray s := ¬ s.objects.Keeps S

end Pairing

namespace State.Replays

variable {p : Program} {f : ObjectId} {home : ScopeId} {n : NodeId} {S : ObjectStore}
  {w w' s t s' t' : State} {E : Exits}

theorem reaches (h' : State.Replays p f n S w s' t') (hk : s.objects.Keeps s'.objects) :
    (Pairing.replaying p f home n S).Reaches w s t s' t' :=
  ⟨h', fun hab => ⟨hab.1, hab.2.keeps hk⟩, hk, fun hs hS => hs (hk.trans hS)⟩

/-- The same steps of both runs that leave objects, evidence and contexts alone. -/
theorem step (h : State.Replays p f n S w s t) (hw : w'.Settles s') (ho : s'.objects = s.objects)
    (he : s'.evidence = s.evidence) (hc : s'.contexts = s.contexts)
    (ho' : t'.objects = t.objects) (he' : t'.evidence = t.evidence) (hc' : t'.contexts = t.contexts)
    (hf : t'.inFlight = s'.inFlight) (hr : t'.resolving.refresh = s'.resolving.refresh) :
    State.Replays p f n S w' s' t' := by
  refine ⟨hw, ho ▸ h.bound, by rw [ho, ho']; exact h.keeps, fun hS => ?_, hf, hr, ?_, ?_, ?_, ?_,
    ?_⟩
  · rw [ho']
    exact h.stays (ho ▸ hS)
  · rw [hc, hc', h.contexts]
  · rw [State.boundParameters?, hc, ho]
    exact h.parameters
  · intro c hc slot
    rw [ho'] at hc
    rw [he, he']
    exact h.agree hc slot
  · intro c v slot hv
    rw [he] at hv
    rw [ho]
    exact h.shut hv
  · intro c v slot hv
    rw [he'] at hv
    rw [ho']
    exact h.seen hv

/-- The first run comes to a larger store. The second one may have to be taken to be in another
state then. -/
theorem grow (h : State.Replays p f n S w s t) {st st' : ObjectStore} {e : Evidence}
    (hst : s.objects.Extends st) (hkeeps : st.Keeps st') (hstays : st.Keeps S → st' = S)
    (hagree : ∀ c, st'.MadeIn p.tree n c → ∀ slot, e.get? c slot = s.evidence.get? c slot)
    (hseen : ∀ c slot v, e.get? c slot = some v → ∃ site, st'.ContainerAt c site) :
    State.Replays p f n S w { s with objects := st } { t with objects := st', evidence := e } := by
  have hk := hst.keeps
  refine ⟨h.settles.trans ⟨.refl _, .refl _, rfl, hst, fun _ _ => id⟩, h.bound.trans hk, hkeeps,
    hstays, h.inFlight, h.resolving, h.contexts, ?_, fun {c} hc slot => hagree c hc slot,
    fun {c v slot} hv => ?_, fun {c v slot} hv => hseen c slot v hv⟩
  · obtain ⟨ps, hps, hlocal⟩ := h.parameters
    exact ⟨ps, hps, fun o ho => (hlocal o ho).keeps hk⟩
  · -- Where something has been seen, there has been a container before.
    obtain ⟨site, hc, hlocal⟩ := h.shut hv
    exact ⟨site, hc.keeps hk, fun hmade => (hlocal (hmade.of_keeps hk hc.lt)).keeps hk⟩

/-- An object that the first run makes is in the store of the second, with the same number, or
the first run goes astray. -/
theorem intern (hS : S.Distinct) (h : State.Replays p f n S w s t) {object : Object}
    (hk : object.kind = .inst)
    (hlocal : (s.objects.intern object).2.LocalTo p.tree n (s.objects.intern object).1) :
    (Pairing.replaying p f home n S).Pairs .none w s t (Pairing.replaying p f home n S).same
      (Infer.intern object) (Infer.intern object) := by
  have hst := s.objects.extends_intern hk
  have hsame : (Pairing.replaying p f home n S).same
      { s with objects := (s.objects.intern object).2 } t (s.objects.intern object).1
      (s.objects.intern object).1 := ⟨rfl, hlocal⟩
  by_cases hkeeps : (s.objects.intern object).2.Keeps S
  · have ht : t.objects = S := h.stays (hst.keeps.trans hkeeps)
    have hget : S.get (s.objects.intern object).1 = object := by
      rw [hkeeps.get_eq (s.objects.intern_lt object), s.objects.get_intern]
    have hintern : t.objects.intern object = ((s.objects.intern object).1, t.objects) := by
      rw [ht]
      conv_lhs => rw [← hget]
      exact hS.intern_get (Nat.lt_of_lt_of_le (s.objects.intern_lt object) hkeeps.size_le)
    have hrun : Infer.intern object t = .ok (s.objects.intern object).1 t := by
      change EStateM.Result.ok (t.objects.intern object).1
        { t with objects := (t.objects.intern object).2 } = _
      rw [hintern]
    unfold Pairing.Pairs
    rw [hrun]
    exact .ok (reaches (h.grow hst (ht ▸ hkeeps) (fun _ => ht) (fun _ => h.agree)
      fun _ _ _ => h.seen) hst.keeps) hsame
  · have h' : State.Replays p f n S w { s with objects := (s.objects.intern object).2 }
        { t with objects := (s.objects.intern object).2, evidence := s.evidence } := by
      refine h.grow hst (.refl _) (fun hS => absurd hS hkeeps) (fun _ _ _ => rfl)
        fun c slot v hv => ?_
      obtain ⟨site, hc, -⟩ := h.shut hv
      exact ⟨site, hc.keeps hst.keeps⟩
    exact .strayed (h'.reaches hst.keeps) hsame hkeeps

section Reading

variable (hp : p.WellBound) (h : State.Replays p f n S w s t)

include hp h

/-- What the runs know of an object that they may come across is the same, and something of that
kind as well. -/
theorem evidence_same {a : ObjectId} (ha : s.objects.LocalTo p.tree n a) (slot : Slot) :
    Option.Rel (fun v v' => v = v' ∧ s.objects.LocalTo p.tree n v) (s.evidence.get? a slot)
      (t.evidence.get? a slot) := by
  have hmade : ∀ {site}, s.objects.ContainerAt a site → s.objects.MadeIn p.tree n a := by
    rintro site ⟨c, hc, hget⟩
    exact ha.madeIn hp h.bound hc (hp.builtinClassOf?_inst h.bound hget)
  cases hv : s.evidence.get? a slot with
  | some v =>
      obtain ⟨site, hc, hlocal⟩ := h.shut hv
      rw [h.agree ((hmade hc).keeps h.keeps) slot, hv]
      exact .some ⟨rfl, hlocal (hmade hc)⟩
  | none =>
      cases hv' : t.evidence.get? a slot with
      | none => exact .none
      | some v =>
          obtain ⟨site, c, hc, hget⟩ := h.seen hv'
          rw [ha.get_eq hp h.bound h.keeps] at hget
          rw [h.agree ((hmade ⟨c, hc, hget⟩).keeps h.keeps) slot, hv] at hv'
          cases hv'

omit hp in
/-- An object is seen to go into a container that the body makes. -/
theorem seeInto {a o : ObjectId} (ha : s.objects.MadeIn p.tree n a)
    (ho : s.objects.LocalTo p.tree n o) (slot : Slot) :
    State.Replays p f n S w (s.seeInto a slot o) (t.seeInto a slot o) := by
  have hagree := h.agree (ha.keeps h.keeps) slot
  refine ⟨h.settles.trans ⟨.refl _, .refl _, rfl, .refl _, fun _ _ => id⟩, h.bound, h.keeps,
    h.stays, h.inFlight, h.resolving, h.contexts, h.parameters, fun {c} hc slot' => ?_,
    fun {c v slot'} hv => ?_, fun {c v slot'} hv => ?_⟩
  · simp only [State.seeInto, Evidence.get?_add, hagree]
    split
    · rfl
    · exact h.agree hc slot'
  · simp only [State.seeInto, Evidence.get?_add] at hv
    split at hv
    · rename_i hcond
      obtain ⟨-, rfl, rfl⟩ := hcond
      obtain ⟨i, hc, hi⟩ := id ha
      refine ⟨some i, hc, fun hmade => ?_⟩
      cases hold : s.evidence.get? a slot with
      | none =>
          rw [hold] at hv
          obtain rfl := Option.some.inj hv
          exact ho
      | some v' =>
          rw [hold] at hv
          obtain rfl := Option.some.inj hv
          obtain ⟨_, _, hlocal⟩ := h.shut hold
          exact hlocal hmade
    · exact h.shut hv
  · simp only [State.seeInto, Evidence.get?_add] at hv
    split at hv
    · rename_i hcond
      obtain ⟨-, rfl, rfl⟩ := hcond
      obtain ⟨i, hc, _⟩ := ha.keeps h.keeps
      exact ⟨some i, hc⟩
    · exact h.seen hv

end Reading

/-- The attempt to mark a name comes out alike, and once it is marked it can be left alike. -/
theorem closesName (hw : w.Settles s) {key : ScopeId × Atom} {g : Guard (ScopeId × Atom)}
    (hg : s.resolving.refresh.enter key = (.entered, g)) {s'' t'' : State}
    (h : State.Replays p f n S { s with resolving := g } s'' t'') :
    (Pairing.replaying p f home n S).Ends .none w s'' t'' (Infer.leaveName key)
      (Infer.leaveName key) := by
  have hdepth : 0 < s''.resolving.depth := by
    obtain ⟨rfl, _⟩ := Guard.enter_eq_entered hg
    rw [h.settles.resolving.depth]
    exact Nat.succ_pos _
  have hnames : t''.resolving = s''.resolving := Guard.eq_of_refresh_eq h.resolving hdepth
  obtain ⟨g₃, hleave, hs₃, hsettles⟩ := Infer.leaveName_of_settles hg h.settles
  have ht₃ : Infer.leaveName key t'' = .ok () { t'' with resolving := g₃ } :=
    Infer.leaveName_eq (hnames ▸ hleave)
  unfold Pairing.Ends Pairing.Pairs
  rw [hs₃, ht₃]
  exact .ok (reaches (h.step (hw.trans hsettles) rfl rfl rfl rfl rfl rfl h.inFlight rfl) (.refl _))
    trivial

end State.Replays

/-! ### The body of a function -/

/-- A function by itself, whose body reads no names but those that the function binds. -/
structure Program.SelfContained (p : Program) (r : NodeId) (f : ObjectId) (home : ScopeId)
    (n : NodeId) : Prop extends p.Lone r f home n where
  names {i : NodeId} {name : Atom} (hi : p.tree.InBody n i)
    (hname : p.tree.get? i = some (.name name)) : p.definitions home name ≠ []

namespace Pairing.replaying

variable {p : Program} {r n : NodeId} {f : ObjectId} {home : ScopeId} {S : ObjectStore}
  {w s t : State}

section Reading

variable (hl : p.SelfContained r f home n)

include hl

theorem eq_home {scope : ScopeId} {name : Atom}
    (hread : p.ReadAt (replaying p f home n S).may (scope, name)) : scope = home := by
  obtain ⟨_, _, ⟨rfl, i, rfl, hi⟩, hname, hbinder⟩ := hread
  rw [Program.binder?_self (hl.names hi hname)] at hbinder
  exact (Option.some.inj hbinder).symm

theorem not_readOutside {name : Atom} :
    ¬ p.ReadOutside (replaying p f home n S).may name := by
  rintro ⟨_, _, ⟨rfl, i, rfl, hi⟩, hname, hbinder⟩
  rw [Program.binder?_self (hl.names hi hname)] at hbinder
  cases hbinder

end Reading

theorem lawful (hp : p.WellBound) (hl : p.SelfContained r f home n) (hS : S.Distinct) :
    (replaying p f home n S).Lawful p where
  unknown _ := ⟨rfl, .unknown⟩
  isKnown_eq {_ _ _} _ {a b} hab := by rw [hab.1]
  get {_ _ _} h {a b} hab := by
    obtain ⟨rfl, ha⟩ := hab
    rw [ha.get_eq hp h.bound h.keeps]
    exact ha.alike hp h.bound
  lookup {_ _ _} h {a b} hab name := by
    obtain ⟨rfl, ha⟩ := hab
    obtain ⟨m, hm⟩ := ha.exists_attribute hp h.bound name
    rw [hm _ (.refl _), hm _ h.keeps]
    cases m with
    | none => exact .none
    | some m => exact .some ⟨rfl, .builtinFunction m⟩
  evidence {_ _ _} h {a b} hab slot := by
    obtain ⟨rfl, ha⟩ := hab
    exact h.evidence_same hp ha slot
  defined {_ _ _} _ {_ _} hread {_} ho := by
    obtain rfl := eq_home hl hread
    exact absurd ho hl.not_defined
  global {_ _ _} _ {_} hread {_} _ := absurd hread (not_readOutside hl)
  count {w s t} h {giveUp} _ := by
    have hs : s.Settles { s with stats := giveUp s.stats } :=
      ⟨.refl _, .refl _, rfl, .refl _, fun _ _ => id⟩
    have h' : State.Replays p f n S w { s with stats := giveUp s.stats }
        { t with stats := giveUp t.stats } :=
      h.step (h.settles.trans hs) rfl rfl rfl rfl rfl rfl h.inFlight h.resolving
    exact .ok (h'.reaches (.refl _)) trivial
  builtinInstance {_ _ _} h {c} hc :=
    h.intern hS rfl (.inst (ObjectStore.get_intern _ _) fun hcontainer => by
      rw [hc] at hcontainer
      cases hcontainer)
  newInstance {_ s t} h {c c'} hc hk hb site := by
    obtain ⟨rfl, hc⟩ := hc
    obtain ⟨b, rfl⟩ := hc.exists_builtinClass hp h.bound hk
    have hget : s.objects.get b.object = .builtinClass b :=
      h.bound.get_eq_of_known (hp.get_builtinClass b) Object.noConfusion
    have hget' : t.objects.get b.object = .builtinClass b :=
      h.keeps.get_eq_of_known hget Object.noConfusion
    refine .get_bind ?_
    simp only [hget, hget', hb b hget, Bool.false_eq_true, if_false]
    refine h.intern hS rfl (.inst (ObjectStore.get_intern _ _) fun hcontainer => ?_)
    rw [hb b hget] at hcontainer
    cases hcontainer
  newContainer {w s t} h {scope site} hmay _ {c} _ := by
    refine .bind (h.intern hS rfl (.inst (ObjectStore.get_intern _ _) fun _ => hmay.2))
      fun o o' s' t' hr ho => ?_
    obtain ⟨rfl, ho⟩ := ho
    have h' : State.Replays p f n S w (s'.noteAllocation scope o) (t'.noteAllocation scope o) := by
      have hr := hr.rel
      obtain ⟨_, _, hrun, hsettles⟩ := Infer.settling_allocate scope o s'
      rw [Infer.allocate_run] at hrun
      cases hrun
      exact hr.step (hr.settles.trans hsettles) rfl rfl rfl rfl rfl rfl hr.inFlight hr.resolving
    have hallocate : (replaying p f home n S).Ends .none w s' t' (Infer.allocate scope o)
        (Infer.allocate scope o) := by
      unfold Ends Pairs
      rw [Infer.allocate_run, Infer.allocate_run]
      exact .ok (h'.reaches (.refl _)) trivial
    exact .bind hallocate fun _ _ _ _ hr' _ => .pure hr'.rel (hr'.same ⟨rfl, ho⟩)
  generatorOf {_ s _} h {e e'} he _ := by
    obtain ⟨rfl, he⟩ := he
    refine h.intern hS rfl (.generator (ObjectStore.get_intern _ _) (he.keeps ?_))
    exact s.objects.keeps_intern _
  observe {w s t} h {c c' o o'} hc ho {slot} hslot := by
    obtain ⟨rfl, hc⟩ := hc
    obtain ⟨rfl, ho⟩ := ho
    have hmade : s.objects.MadeIn p.tree n c := by
      obtain ⟨b, hb, ⟨scope, site, ⟨-, i, rfl, hi⟩, hget⟩ | ⟨-, hclass⟩⟩ := hslot
      · exact ⟨i, ⟨b, Slot.isContainer_of_isOf hb, hget⟩, hi⟩
      · exact hc.madeIn hp h.bound (Slot.isContainer_of_isOf hb) hclass
    exact .ok ((h.seeInto hmade ho slot).reaches (.refl _)) trivial
  currentParameters {w s t} h {_ _} hread {d} hd := by
    obtain rfl := eq_home hl hread
    obtain ⟨d', hd', _, rfl, _⟩ := hl.scope
    obtain rfl := Option.some.inj (hd.symm.trans hd')
    obtain ⟨ps, hps, hlocal⟩ := h.parameters
    have hrun : ∀ u : State, u.boundParameters? d.owner = some ps →
        Infer.currentParameters p d.owner u = .ok ps u := by
      intro u hu
      unfold Infer.currentParameters
      rw [Infer.get_bind_run, hu]
      rfl
    have hps' : t.boundParameters? d.owner = some ps := by
      rw [State.boundParameters?, h.contexts]
      exact hps
    unfold Pairs
    rw [hrun s hps, hrun t hps']
    exact .ok (.refl h) (List.forall₂_same.2 fun o ho => ⟨rfl, hlocal o ho⟩)
  enterName {w s t} h key _ := by
    have hrun : Infer.enterName key t = .ok (s.resolving.refresh.enter key).1
        { t with resolving := (s.resolving.refresh.enter key).2 } := by
      rw [Infer.enterName_run, h.resolving]
    rcases Infer.enterName_cases key s with ⟨e, s', he, hs', hsettles⟩ | ⟨g, hg, hs'⟩
    · rw [Infer.enterName_run] at hs'
      cases hs'
      have h' : State.Replays p f n S w
          { s with resolving := (s.resolving.refresh.enter key).2 }
          { t with resolving := (s.resolving.refresh.enter key).2 } :=
        h.step (h.settles.trans hsettles) rfl rfl rfl rfl rfl rfl h.inFlight rfl
      exact .inl ⟨_, _, _, he, Infer.enterName_run key s, hrun, h'.reaches (.refl _)⟩
    · rw [hg] at hrun
      have h' : State.Replays p f n S { s with resolving := g } { s with resolving := g }
          { t with resolving := g } := h.step (.refl _) rfl rfl rfl rfl rfl rfl h.inFlight rfl
      refine .inr ⟨{ s with resolving := g }, _, _, hs', hrun,
        ⟨?_, h'.reaches (.refl _), State.Replays.closesName h.settles hg⟩,
        fun _ _ hff => ⟨hff.1, h.settles.inFlight.subset hff.2⟩⟩
      change State.room _ < w.room
      rw [← h.settles.room_eq, State.room, State.room]
      exact Nat.add_lt_add_left (Guard.room_lt_of_enter hg) _
  enterFunction {w s t} h {f f'} hf {scope} hscope {parameters parameters'} _ := by
    rw [hf.2.scopeOf?_eq_none hp h.bound] at hscope
    cases hscope

theorem pairsIn_evaluate (hp : p.WellBound) (hl : p.SelfContained r f home n) (hS : S.Distinct)
    {scope : ScopeId} {expr : NodeRef} (hexpr : p.Own home n scope expr) :
    (replaying p f home n S).PairsIn (fun _ => ¬ p.tree.Descending) p.evaluate p.evaluate scope
      expr := by
  have hclosed : (replaying p f home n S).Closed p (p.Own home n) :=
    hl.closed_own (fun hread => eq_home hl hread)
      fun h hsame => hsame.2.scopeOf?_eq_none hp h.bound
  refine (lawful hp hl hS).pairsIn_evaluate hclosed (fun {scope expr node} hexpr hn => ?_)
    State.room id (fun {w s t} h => ⟨h.settles.room_eq, ?_⟩) hexpr
  · obtain ⟨rfl, hbody⟩ := hexpr
    cases expr with
    | none => cases hn
    | some i => exact ⟨rfl, i, rfl, hbody i rfl (Array.getElem?_eq_some_iff.1 hn).1⟩
  · rw [Program.budget, Program.budget, h.inFlight, Guard.room_eq_of_refresh_eq h.resolving]

end Pairing.replaying

end ObjectInference
