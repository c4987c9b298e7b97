import ObjectInference.Proofs.ReadingBack
import ObjectInference.Proofs.Replaying
import ObjectInference.Proofs.ScopeTree

/-!
Each binding follows its own arguments.

A container has one number for each place in the source, so inferences of a function for
different arguments share the containers that its body makes, and the first object seen in a
slot stays there. They do not get in the way of each other all the same: an inference for
arguments first forgets what has been seen in the containers noted for the function, and those
are all that its body makes. So it starts from the same, whatever has been asked before, and
`Pairing.replaying` takes it to the same answer with the same things in it.
-/

namespace ObjectInference

open Relation

namespace State

variable {p : Program} {f : ObjectId} {home : ScopeId} {n : NodeId} {S : ObjectStore}
  {s t w : State} {o : ObjectId}

/-- An object is in another one: as an element, a value or an item, or as what a generator
gives. -/
def Contains (s : State) (o x : ObjectId) : Prop :=
  (∃ slot, s.evidence.get? o slot = some x) ∨ s.objects.get o = .generator x

/-- An object and all that it contains are the same in two states, with the same evidence. -/
def SameWithin (s t : State) (o : ObjectId) : Prop :=
  ∀ x, ReflTransGen s.Contains o x →
    t.objects.get x = s.objects.get x ∧ ∀ slot, t.evidence.get? x slot = s.evidence.get? x slot

/-- Runs that have come to the same object have come to the same things in it. -/
theorem Replays.sameWithin (hp : p.WellBound) (h : State.Replays p f n S w s t)
    (ho : s.objects.LocalTo p.tree n o) : s.SameWithin t o := by
  have hlocal : ∀ x, ReflTransGen s.Contains o x → s.objects.LocalTo p.tree n x := by
    intro x hx
    induction hx with
    | refl => exact ho
    | tail _ hstep ih =>
        rcases hstep with ⟨slot, hv⟩ | hget
        · have hrel := h.evidence_same hp ih slot
          rw [hv] at hrel
          generalize t.evidence.get? _ slot = v' at hrel
          cases hrel with
          | some hab => exact hab.2
        · have hreads := ih.reads hp h.bound
          rw [hget] at hreads
          cases hreads with
          | generator he => exact he
  intro x hx
  refine ⟨(hlocal x hx).get_eq hp h.bound h.keeps, fun slot => ?_⟩
  have hrel := h.evidence_same hp (hlocal x hx) slot
  generalize s.evidence.get? x slot = v, t.evidence.get? x slot = v' at hrel
  cases hrel with
  | none => rfl
  | some hab => rw [hab.1]

/-! ### From the same start -/

section Opened

variable {r : NodeId} {ps : List ObjectId} {g : Guard ObjectId} {c v : ObjectId} {slot : Slot}

/-- Opening a call takes evidence away and brings none. -/
theorem evidence_of_opened
    (h : (Infer.opened p f home (some ps) s).evidence.get? c slot = some v) :
    (∀ scope ∈ p.subtree home, c ∉ s.allocated scope) ∧ s.evidence.get? c slot = some v := by
  change (s.toMemory.forgetTree p home).evidence.get? c slot = some v at h
  rw [Memory.forgetTree_eq, Memory.get?_without] at h
  split at h
  · exact ⟨‹_›, h⟩
  · cases h

/-- Once a call of the function is open, nothing is kept in a container that its body makes. -/
theorem Registers.evidence_opened (hl : p.Lone r f home n) (hs : s.Registers p home n)
    (hc : s.objects.MadeIn p.tree n c) :
    (Infer.opened p f home (some ps) s).evidence.get? c slot = none := by
  obtain ⟨i, hc, hi⟩ := hc
  cases hv : (Infer.opened p f home (some ps) s).evidence.get? c slot with
  | none => rfl
  | some v =>
      have hhome := (Program.mem_subtree hl.framed hl.home_lt).2 .refl
      exact absurd (hs.noted hc (hi.inside hl.forest)) ((evidence_of_opened hv).1 home hhome)

/-- With a function marked as in flight, two states are at the start of one and the same run,
whatever has been asked in between. -/
theorem replays_opened (hp : p.WellBound) (hl : p.Lone r f home n) (hs : s.Visited p)
    (ht : t.Visited p) (hrs : s.Registers p home n) (hrt : t.Registers p home n)
    (hcontexts : t.contexts = s.contexts) (hk : s.objects.Keeps t.objects)
    (hps : ∀ o ∈ ps, s.objects.LocalTo p.tree n o) :
    State.Replays p f n t.objects (Infer.opened p f home (some ps) { s with inFlight := g })
      (Infer.opened p f home (some ps) { s with inFlight := g })
      (Infer.opened p f home (some ps) { t with inFlight := g }) := by
  have hseen : ∀ {u : State}, u.Visited p → ∀ {c v slot},
      (Infer.opened p f home (some ps) { u with inFlight := g }).evidence.get? c slot = some v →
      ∃ site, u.objects.ContainerAt c site :=
    fun hu _ _ _ hv => hu.containerAt hp (evidence_of_opened hv).2
  have hnone : ∀ {u : State}, u.Registers p home n → ∀ {c}, u.objects.MadeIn p.tree n c → ∀ slot,
      (Infer.opened p f home (some ps) { u with inFlight := g }).evidence.get? c slot = none := by
    intro u hu c hc slot
    have hu' : State.Registers p home n { u with inFlight := g } := hu.of_eq rfl rfl
    exact hu'.evidence_opened hl hc
  refine ⟨.refl _, ?_, ?_, fun _ => Infer.objects_opened _, ?_, ?_, congrArg (_ :: ·) hcontexts, ?_,
    fun {c} hc slot => ?_, fun {c v slot} hv => ?_, fun {c v slot} hv => ?_⟩
  · rw [Infer.objects_opened]
    exact hrs.keeps
  · rw [Infer.objects_opened, Infer.objects_opened]
    exact hk
  · rw [Infer.inFlight_opened, Infer.inFlight_opened]
  · rw [Infer.resolving_opened, Infer.resolving_opened, hs.resolving.refresh_eq rfl,
      ht.resolving.refresh_eq rfl]
  · rw [Infer.objects_opened]
    exact ⟨ps, by simp [State.boundParameters?, Infer.opened], hps⟩
  · rw [Infer.objects_opened] at hc
    rw [hnone hrt hc]
    cases hv : (Infer.opened p f home (some ps) { s with inFlight := g }).evidence.get? c slot with
    | none => rfl
    | some v =>
        obtain ⟨_, hat⟩ := hseen hs hv
        rw [hnone hrs (hc.of_keeps hk hat.lt)] at hv
        cases hv
  · obtain ⟨site, hat⟩ := hseen hs hv
    rw [Infer.objects_opened]
    refine ⟨site, hat, fun hc => ?_⟩
    rw [hnone hrs hc] at hv
    cases hv
  · rw [Infer.objects_opened]
    exact hseen ht hv

end Opened

end State

namespace Infer

variable {p : Program} {r n : NodeId} {f : ObjectId} {home : ScopeId} {s s' t : State}
  {ps os : List ObjectId} {g : Guard ObjectId} {a : Option ObjectId}

/-- While a call of the function is open, its returned values give the same as before. -/
theorem scanReturned_replayed (hp : p.WellBound) (hl : p.SelfContained r f home n)
    (hS : t.objects.Distinct) {w u : State} (h : State.Replays p f n t.objects w s u)
    (hrun : scanReturned p.evaluate home (p.isGenerator home) (p.returnedSites home).reverse s =
      .ok a s') (hk : s'.objects.Keeps t.objects) :
    ∃ u', scanReturned p.evaluate home (p.isGenerator home) (p.returnedSites home).reverse u =
        .ok a u' ∧ State.Replays p f n t.objects w s' u' ∧
      ∀ o ∈ a, s'.objects.LocalTo p.tree n o := by
  have hpairs := (Pairing.replaying.lawful hp hl hS).scanReturned (p.isGenerator home)
    (fun site hsite => Pairing.replaying.pairsIn_evaluate hp hl hS
      (hl.own_of_mem_returnedSites (List.mem_reverse.1 hsite))) h
  unfold Pairing.Pairs at hpairs
  rw [hrun] at hpairs
  generalize scanReturned p.evaluate home _ _ u = result at hpairs ⊢
  cases hpairs with
  | strayed _ _ hstray => exact absurd hk hstray
  | @ok _ b _ u' h' hab =>
      cases hab with
      | none => exact ⟨u', rfl, h'.rel, nofun⟩
      | some hab =>
          obtain ⟨rfl, ho⟩ := hab
          refine ⟨u', rfl, h'.rel, ?_⟩
          rintro _ ⟨⟩
          exact ho

/-- With nothing in flight and the same limits, the function gives the same for the same values
as it has given before, with the same things in it. -/
theorem returned_replayed (hp : p.WellBound) (hl : p.SelfContained r f home n) (hs : s.Visited p)
    (ht : t.Visited p) (hrs : s.Registers p home n) (hrt : t.Registers p home n)
    (hidle : s.inFlight.depth = 0) (hinFlight : t.inFlight.refresh = s.inFlight.refresh)
    (hcontexts : t.contexts = s.contexts) (hos : ∀ o ∈ os, s.objects.LocalTo p.tree n o)
    (hrun : returned p p.evaluate f (some (.objects os)) s = .ok a s')
    (hk : s.objects.Keeps t.objects) (hk' : s'.objects.Keeps t.objects) :
    ∃ t', returned p p.evaluate f (some (.objects os)) t = .ok a t' ∧
      ∀ o ∈ a, s'.SameWithin t' o := by
  have hscope : ∀ {u : State}, u.Registers p home n → u.objects.scopeOf? f = some home := by
    intro u hu
    rw [ObjectStore.scopeOf?, hu.keeps.get_eq_of_known hl.function Object.noConfusion]
  by_cases hsites : p.returnedSites home = []
  · have hnone : ∀ {u : State}, u.Registers p home n →
        returned p p.evaluate f (some (.objects os)) u = .ok none u :=
      fun hu => returned_of_ok (tryReturned_of_isEmpty (hscope hu) (List.isEmpty_iff.2 hsites) _)
    rw [hnone hrs] at hrun
    cases hrun
    exact ⟨t, hnone hrt, fun o ho => absurd ho (Option.not_mem_none o)⟩
  let params := p.parameters p.objects f
  let ps := ordinaryObjects params (bindObjects params { positional := os })
  have hbound : ∀ {u : State}, u.Visited p →
      (some (.objects os)).mapM (boundParameters p p.evaluate f) u = .ok (some ps) u :=
    fun hu => boundParameters_run hu.inSlots.objects rfl
  have hps : ∀ o ∈ ps, s.objects.LocalTo p.tree n o :=
    ordinaryObjects_of_positional .unknown params hos
  cases henter : s.inFlight.refresh.enter f with
  | mk e g =>
      have henter' : t.inFlight.refresh.enter f = (e, g) := hinFlight ▸ henter
      by_cases he : e = .entered
      · subst he
        obtain ⟨a', s₃, hscan, hsettles⟩ := scanReturned_total hl.descending home
          (p.isGenerator home) (p.returnedSites home).reverse
          (opened p f home (some ps) { s with inFlight := g })
        obtain ⟨g', hleave, _⟩ := closeCall_of_settles henter hsettles
        have hgiven := returned_of_ok
          (tryReturned_of_entered (hscope hrs) hsites (hbound hs) henter hscan hleave)
        rw [hgiven] at hrun
        cases hrun
        rw [objects_closed] at hk'
        obtain ⟨t₃, hscan', h, hlocal⟩ := scanReturned_replayed hp hl
          (ht.consistent hp).sound.grown.distinct
          (State.replays_opened hp hl.toLone hs ht hrs hrt hcontexts hk hps) hscan hk'
        have hleave' : t₃.inFlight.leave f = .ok g' := h.inFlight ▸ hleave
        refine ⟨_, returned_of_ok
          (tryReturned_of_entered (hscope hrt) hsites (hbound ht) henter' hscan' hleave'),
          fun o ho => ?_⟩
        have hsame : s₃.SameWithin t₃ o := h.sameWithin hp (hlocal o ho)
        exact hsame
      · -- Nothing is visited, so it is a limit that denies both.
        have hcycle := Guard.ne_cycle_of_enter_refresh hidle henter
        have hdenied := tryReturned_of_bound (hscope hrs) hsites (hbound hs) henter he
        have hdenied' := tryReturned_of_bound (hscope hrt) hsites (hbound ht) henter' he
        rw [if_neg hcycle] at hdenied hdenied'
        rw [returned_of_ok hdenied] at hrun
        cases hrun
        exact ⟨_, returned_of_ok hdenied', fun o ho => absurd ho (Option.not_mem_none o)⟩

end Infer

/-- Each binding follows its own arguments. Take a function with no definition inside its own,
whose body reads no names but those that it binds, and some values as arguments. Whenever a
session is asked for what the function returns for them, and whatever it has been asked in
between, other arguments of the function among it, it gives the same object as before, and right
after the two answers that object and all that it contains have the same evidence. It does not
matter whether there are calls inside the function. -/
theorem bindings_follow_arguments {tree : Tree} (hu : tree.Unshared) (hd : tree.Descending)
    (atoms : Interner) (r : NodeId) :
    let p := Program.bind tree atoms (some r)
    ∀ (f : ObjectId) (home : ScopeId) (n : NodeId), p.objects.get f = .function home →
      p.nodeOf home = some n →
      (∀ i, tree.Inside n i → tree.isDefinition i = false) →
      (∀ i name, tree.InBody n i → tree.get? i = some (.name name) →
        p.definitions home name ≠ []) →
      ∀ (s t : Session) (os : List ObjectId), s.Ran p →
        (∀ o ∈ os, ∃ c : BuiltinClass, c.isContainer = false ∧
          s.state.objects.get o = .inst c.object none) →
        ReflTransGen Session.Step (s.returnedObjectFor f os).2 t →
        ∃ a s' t', s.returnedObjectFor f os = (.ok a, s') ∧
          t.returnedObjectFor f os = (.ok a, t') ∧ ∀ o ∈ a, s'.state.SameWithin t'.state o := by
  intro p f home n hf hn hplain hnames s t os hs hos ht
  obtain ⟨hp, hmodule⟩ := Program.wellBound_bind tree atoms (some r)
  have hl : p.SelfContained r f home n :=
    ⟨Program.lone_bind hu hd atoms hf hn hplain, fun hi hname => hnames _ _ hi hname⟩
  have hready := hs.ready hd hp hmodule
  have hlocal : ∀ o ∈ os, s.state.objects.LocalTo p.tree n o := by
    intro o ho
    obtain ⟨c, hc, hget⟩ := hos o ho
    refine .inst hget fun hcontainer => ?_
    rw [hc] at hcontainer
    cases hcontainer
  obtain ⟨a, s', hrun, hsettles⟩ := (Operation.returned f (some (.objects os))).perform_ok (p := p)
    hd (hready.inFlight.visiting_eq_nil rfl)
  have hanswer : s.returnedObjectFor f os = (.ok a, { s with state := s' }) := by
    refine Session.run_of_ok ?_
    rw [hready.program]
    exact hrun
  have hregisters := hs.registers hp hmodule hl.toLone
  have hstep : s.Step (s.returnedObjectFor f os).2 := by
    refine .returnedFor s ?_ fun o ho => ?_
    · exact ObjectStore.lt_size_of_get
        (by simp [hregisters.keeps.get_eq_of_known hf Object.noConfusion])
    · obtain ⟨c, _, hget⟩ := hos o ho
      exact ObjectStore.lt_size_of_get (by simp [hget])
  obtain ⟨htran, htoptions, htsettles⟩ := (hs.step hstep).later hd hp hmodule ht
  have htready := htran.ready hd hp hmodule
  rw [hanswer] at htoptions htsettles
  have hk' : s'.objects.Keeps t.state.objects := htsettles.objects.keeps
  have hinFlight := htready.inFlight
  rw [htoptions] at hinFlight
  obtain ⟨t', hrun', hsame⟩ := Infer.returned_replayed hp hl hready.visited htready.visited
    hregisters (htran.registers hp hmodule hl.toLone) hready.inFlight.depth
    ((hinFlight.refresh_eq rfl).trans (hready.inFlight.refresh_eq rfl).symm)
    (htready.contexts.trans hready.contexts.symm) hlocal hrun (hsettles.objects.keeps.trans hk') hk'
  refine ⟨a, _, { t with state := t' }, hanswer, Session.run_of_ok ?_, hsame⟩
  rw [htready.program]
  exact hrun'

/-- A function that puts its argument into a list, and returns it by a name. -/
def Tree.listing : Tree :=
  ⟨#[.name 2, .list [some 0], .name 3, .assign [some 2] (some 1), .name 3,
    .returnStatement (some 4), .functionDef 1 [⟨2, .positional, none⟩] [] [some 3, some 5],
    .module [some 6]]⟩

/-- It is asked for a number, then for a text, and after an analysis for the number again. The
text is in the list in between. -/
theorem bindings_follow_arguments_listing :
    let p := Program.bind Tree.listing ⟨#["", "f", "a", "x"]⟩ (some 7)
    let s := (((Session.start p (.fresh p) {}).run (Infer.builtinInstance .int)).2.run
      (Infer.builtinInstance .str)).2
    let other := ((s.returnedObjectFor 16 [17]).2.returnedObjectFor 16 [18]).2
    let t := other.analyze.2
    Tree.listing.Unshared ∧ Tree.listing.Descending ∧ p.objects.get 16 = .function 1 ∧
      p.nodeOf 1 = some 6 ∧ (∀ i, Tree.listing.Inside 6 i → Tree.listing.isDefinition i = false) ∧
      (∀ i name, Tree.listing.InBody 6 i → Tree.listing.get? i = some (.name name) →
        p.definitions 1 name ≠ []) ∧
      s.Ran p ∧ (∀ o ∈ [17], ∃ c : BuiltinClass, c.isContainer = false ∧
        s.state.objects.get o = .inst c.object none) ∧
      ReflTransGen Session.Step (s.returnedObjectFor 16 [17]).2 t ∧
      other.state.evidence.get? 19 .element = some 18 ∧
      ∃ s' t', s.returnedObjectFor 16 [17] = (.ok (some 19), s') ∧
        t.returnedObjectFor 16 [17] = (.ok (some 19), t') ∧
        s'.state.evidence.get? 19 .element = some 17 ∧ s'.state.SameWithin t'.state 19 := by
  intro p s other t
  have hu : Tree.listing.Unshared := by decide
  have hd : Tree.listing.Descending := by decide
  have F := hu.forest hd
  have hf : p.objects.get 16 = .function 1 := by decide +kernel
  have hn : p.nodeOf 1 = some 6 := by decide +kernel
  have hplain : ∀ i, Tree.listing.Inside 6 i → Tree.listing.isDefinition i = false := by
    rintro i ⟨hbelow, hne⟩
    have hlt : i < 6 := Nat.lt_of_le_of_ne (F.rank_le hbelow) hne
    exact (by decide : ∀ i < 6, Tree.listing.isDefinition i = false) i hlt
  have hnames : ∀ i name, Tree.listing.InBody 6 i → Tree.listing.get? i = some (.name name) →
      p.definitions 1 name ≠ [] := by
    intro i name hi hname
    have hbound : ∀ i < 6, ∀ name ∈ Tree.listing.name? (some i), p.definitions 1 name ≠ [] := by
      decide +kernel
    refine hbound i (hi.lt F) name ?_
    rw [Tree.name?, show Tree.listing.node? (some i) = _ from hname]
    rfl
  have hs : s.Ran p := .step (.step (.start {}) (.value _ rfl)) (.value _ rfl)
  have hos : ∀ o ∈ [17], ∃ c : BuiltinClass, c.isContainer = false ∧
      s.state.objects.get o = .inst c.object none := by
    intro o ho
    obtain rfl := List.mem_singleton.1 ho
    exact ⟨.int, rfl, by decide +kernel⟩
  have ht : ReflTransGen Session.Step (s.returnedObjectFor 16 [17]).2 t :=
    .tail (.single (.returnedFor _ (by decide +kernel) (by decide +kernel))) (.analyze _)
  obtain ⟨a, s', t', hanswer, hanswer', hsame⟩ :=
    bindings_follow_arguments hu hd _ 7 16 1 6 hf hn hplain hnames s t [17] hs hos ht
  have hgiven : (s.returnedObjectFor 16 [17]).1 = .ok (some 19) := by decide +kernel
  have helement : (s.returnedObjectFor 16 [17]).2.state.evidence.get? 19 .element = some 17 := by
    decide +kernel
  rw [hanswer] at hgiven helement
  obtain rfl : a = some 19 := Except.ok.inj hgiven
  exact ⟨hu, hd, hf, hn, hplain, hnames, hs, hos, ht, by decide +kernel, s', t', hanswer, hanswer',
    helement, hsame 19 rfl⟩

end ObjectInference
