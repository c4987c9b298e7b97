import ObjectInference.Proofs.Resolving
import ObjectInference.Proofs.Scanning
import ObjectInference.Proofs.ScopeTree

/-!
Functions that return only calls of each other.

Such functions have no base case, so nothing may be inferred for them. A request that
enters one of them takes up room among the functions in flight, and all that is tried then
are calls. A call resolves to the function it names or to nothing, and asks for what that
function returns, with less room than before. So the argument is an induction on the room:
if no request with less room gives an object, then no call resolves to a known one, no
returned value answers, and the request at hand gives no object either. It does not matter
which calls are passed over on the way, which are given up at a limit, and what is inferred
for their arguments.
-/

namespace ObjectInference

/-- Functions of the module that return nothing but calls of each other by their names, which
stand for these functions alone. -/
structure Program.OnlyCallEachOther (p : Program) (S : Set ObjectId) (name : ObjectId → Atom)
    (scope : ObjectId → ScopeId) : Prop where
  function : ∀ f ∈ S, p.objects.get f = .function (scope f)
  inModule : ∀ f ∈ S, (p.scope? (scope f)).bind Scope.parent = some 0
  definitions : ∀ f ∈ S, p.definitions 0 (name f) = [.object f]
  unshadowed : ∀ f ∈ S, ∀ g ∈ S, p.definitions (scope f) (name g) = []
  calls : ∀ f ∈ S, ∀ site ∈ p.returnedSites (scope f), ∃ g ∈ S, ∃ func args keywords,
    p.tree.get? site = some (.call func args keywords) ∧
    p.tree.node? func = some (.name (name g))

/-- The first scope is that of the module. -/
theorem Program.scope?_zero {tree : Tree} (ht : tree.Descending) (atoms : Interner)
    (root : NodeRef) :
    ∃ d, (Program.bind tree atoms root).scope? 0 = some d ∧ d.kind = .module := by
  obtain ⟨d, hd, hgrows⟩ := Program.grows_bind ht atoms root 0 _ rfl
  exact ⟨d, hd, hgrows.kind⟩

namespace Infer

variable {p : Program} {scope : ScopeId} {sites : List NodeId} {found : Option Name}
  {s s₁ s' : State}

/-- Values that are passed over leave the guards as they were. -/
theorem PassedOver.settles (h : PassedOver p.evaluate scope sites s s') : s.Settles s' := by
  induction h with
  | nil s => exact .refl s
  | @cons site sites s s₁ s' g hsite _ ih =>
      have hend := (Operation.evaluate scope (some site)).ended (p := p) s
      rw [show (Operation.evaluate scope (some site)).perform p s = _ from hsite] at hend
      cases hend with
      | reentrant h _ =>
          have hpassed : s₁.Settles s₁.passedOver :=
            ⟨.refl _, .refl _, rfl, .refl _, fun _ _ => id⟩
          exact h.trans (hpassed.trans ih)

/-- A name with one definition, of a known object, resolves to this object or is denied. -/
theorem evaluate_name_object (hp : p.WellBound) (hd : p.tree.Descending) {start t : ScopeId}
    {name : Atom} {expr : NodeRef} {o : ObjectId} (hexpr : p.tree.node? expr = some (.name name))
    (hsees : p.Sees start name start t) (hdef : p.definitions t name = [.object o])
    (ho : o.isKnown = true) (s : State) :
    ∃ found s', p.evaluate start expr s = .ok found s' ∧ s.Settles s' ∧
      (found = none ∨ found = some ⟨o, .defined name⟩) := by
  rw [evaluate_of_sees hp hd hexpr hsees]
  cases henter : s.resolving.refresh.enter (t, name) with
  | mk e g =>
      by_cases he : e = .entered
      · subst he
        obtain ⟨g', hleave, hg'⟩ := Guard.leave_of_settles henter (.refl g)
        have hlast : p.definitions t name = [] ++ [.object o] := hdef
        refine ⟨_, _, resolveLocal_object hlast ho henter hleave, ?_, .inr rfl⟩
        exact ⟨.refl _, hg', rfl, .refl _, fun _ _ => id⟩
      · have hdenied : s.DeniesName (t, name) :=
          Guard.enter_ne_entered.1 (by rw [henter]; exact he)
        refine ⟨_, _, resolveLocal_of_denied (by simp [hdef]) hdenied, ?_, .inl rfl⟩
        rw [henter]
        exact ⟨.refl _, (Guard.settles_refresh _).trans (Guard.settles_of_enter henter he), rfl,
          .refl _, fun _ _ => id⟩

/-! ### Calls of each other -/

section Recursion

variable {S : Set ObjectId} {name : ObjectId → Atom} {scopeOf : ObjectId → ScopeId}
  {f g : ObjectId}

variable (h : p.OnlyCallEachOther S name scopeOf)
  (hmodule : ∃ d, p.scope? 0 = some d ∧ d.kind = .module)

include h hmodule

/-- The name of a member is seen in the module from every member. -/
theorem sees_module (hf : f ∈ S) (hg : g ∈ S) :
    p.Sees (scopeOf f) (name g) (scopeOf f) 0 := by
  obtain ⟨d, hd, hparent⟩ := Option.bind_eq_some_iff.1 (h.inModule f hf)
  obtain ⟨m, hm, hkind⟩ := hmodule
  have hfree : ¬ p.BindsFor (scopeOf f) (name g) (scopeOf f) := by
    rintro ⟨d', hd', _, hbinds⟩
    exact (Program.binds_iff hd').1 hbinds (h.unshadowed f hf g hg)
  have hbinds : p.BindsFor (scopeOf f) (name g) 0 :=
    ⟨m, hm, .inl (by simp [hkind]), (Program.binds_iff hm).2 (by simp [h.definitions g hg])⟩
  exact .further hfree hd hparent (.here hbinds)

variable (hp : p.WellBound) (hd : p.tree.Descending) (hs : p.objects.Extends s.objects)

include hp hd hs

/-- If nothing is inferred for members, a call of one does not resolve to a known object. -/
theorem unknown_of_evaluate_call (hf : f ∈ S) {site : NodeId}
    (hsite : site ∈ p.returnedSites (scopeOf f))
    (hnone : ∀ s₁, s.Settles s₁ → ∀ g ∈ S, ∀ arguments o s',
      tryReturned p p.evaluate g arguments s₁ ≠ .ok (some o) s')
    (hrun : p.evaluate (scopeOf f) (some site) s = .ok found s') :
    (Name.objectOf found).isKnown = false := by
  obtain ⟨g, hg, func, args, keywords, hcall, hfunc⟩ := h.calls f hf site hsite
  replace hcall : p.tree.node? (some site) = some (.call func args keywords) := hcall
  have hget : p.objects.get g = .function (scopeOf g) := h.function g hg
  have hknown : g.isKnown = true := hp.isKnown_of_get (.refl _) (by simp [hget])
  rw [p.evaluate_eq_step hd, evaluateStep, hcall] at hrun
  obtain ⟨callee, s₁, hname, hsettles, rfl | rfl⟩ := evaluate_name_object hp hd hfunc
    (sees_module h hmodule hf hg) (h.definitions g hg) hknown s
  · -- The name is denied, so nothing is called.
    have hprimary : primaryAndResult p p.evaluate (scopeOf f) func s = .ok (none, none) s₁ := by
      rw [primaryAndResult, hfunc]
      exact bind_of_ok hname
    simp only [evaluateCall] at hrun
    rw [bind_of_ok hprimary] at hrun
    cases hrun
    rfl
  · have hfunction : s₁.objects.get g = .function (scopeOf g) := by
      rw [(hs.trans hsettles.objects).keeps.get_eq (ObjectStore.lt_size_of_get (by simp [hget])),
        hget]
    simp only [evaluateCall_function hfunc hname hfunction] at hrun
    obtain ⟨result, s₂, hasked, hrun⟩ := bind_eq_ok.1 hrun
    cases hrun
    cases result with
    | none => rfl
    | some o => exact absurd hasked (hnone s₁ hsettles g hg _ o _)

/-- No request for a member gives an object, however much room there is. -/
theorem tryReturned_ne_some (hf : f ∈ S) (arguments : Option Arguments) (o : ObjectId)
    (s' : State) :
    tryReturned p p.evaluate f arguments s ≠ .ok (some o) s' := by
  induction hn : s.room using Nat.strongRecOn generalizing s f arguments o s' with
  | _ n ih =>
  subst hn
  intro hrun
  obtain ⟨scope, parameters, s₁, g, _, _, decided, s₂, hscope, hbound, henter, hdecides, hknown,
    _, _⟩ := tryReturned_decides hd hrun
  have hget : s.objects.get f = .function (scopeOf f) := by
    rw [hs.keeps.get_eq (ObjectStore.lt_size_of_get (by simp [h.function f hf])),
      h.function f hf]
  obtain rfl : scopeOf f = scope := by
    rw [ObjectStore.scopeOf?, hget] at hscope
    exact Option.some.inj hscope
  obtain ⟨passed, site, rest, s₃, hsites, hpassed, hsite⟩ := hdecides
  have hmem : site ∈ p.returnedSites (scopeOf f) :=
    List.mem_reverse.1 (hsites ▸ List.mem_append_right _ List.mem_cons_self)
  -- The value is tried with less room than the request had.
  have hbinding := settles_of_boundParameters hbound
  have hsettles := hpassed.settles
  have hroom : s₃.room < s.room := by
    rw [hsettles.room_eq, ← hbinding.room_eq]
    simp only [State.room, inFlight_opened, resolving_opened]
    exact Nat.add_lt_add_right (Guard.room_lt_of_enter henter) _
  have hs₃ : p.objects.Extends s₃.objects := by
    refine hs.trans (hbinding.objects.trans ?_)
    have hopened := hsettles.objects
    rwa [objects_opened] at hopened
  have hunknown : (Name.objectOf (some decided)).isKnown = false := by
    refine unknown_of_evaluate_call h hmodule hp hd hs₃ hf hmem (fun s₄ h₄ g hg => ?_) hsite
    intro arguments o s'
    exact ih s₄.room (h₄.room_eq ▸ hroom) (hs₃.trans h₄.objects) hg arguments o s' rfl
  exact absurd hknown (Bool.eq_false_iff.1 hunknown)

/-- So a request for a member ends without an object or on a function in flight. -/
theorem tryReturned_of_member (hf : f ∈ S) (arguments : Option Arguments) :
    (∃ s', tryReturned p p.evaluate f arguments s = .ok none s') ∨
      ∃ g s', tryReturned p p.evaluate f arguments s = .error (.reentrant g) s' ∧
        g ∈ s.inFlight.visiting := by
  have hend := (Operation.tryReturned f arguments).ended (p := p) s
  have hnone := tryReturned_ne_some h hmodule hp hd hs hf arguments
  change Operation.Ended p s (tryReturned p p.evaluate f arguments s) at hend
  generalize tryReturned p p.evaluate f arguments s = r at hend hnone ⊢
  cases hend with
  | @ok r s' _ =>
      cases r with
      | none => exact .inl ⟨s', rfl⟩
      | some o => exact absurd rfl (hnone o s')
  | reentrant _ hg => exact .inr ⟨_, _, rfl, hg⟩
  | exhausted hnot => exact absurd hd hnot

end Recursion

end Infer

/-- Nothing is inferred for functions that return only calls of each other: between
operations, with any arguments and under any limits, and in generators as well. Where such
a function is asked for in the midst of other inferences, it gives nothing either, or the
request is met as one for a function in flight. -/
theorem recursion_unanswered {tree : Tree} (hd : tree.Descending) (atoms : Interner)
    (root : NodeRef) :
    let p := Program.bind tree atoms root
    ∀ (S : Set ObjectId) (name : ObjectId → Atom) (scope : ObjectId → ScopeId),
      p.OnlyCallEachOther S name scope →
      ∀ f ∈ S, ∀ (arguments : Option Arguments) (s : State),
        (s.Reached p → ∃ s', (Operation.returned f arguments).perform p s = .ok none s') ∧
        (p.objects.Extends s.objects →
          (∃ s', (Operation.tryReturned f arguments).perform p s = .ok none s') ∨
          ∃ g s', (Operation.tryReturned f arguments).perform p s = .error (.reentrant g) s' ∧
            g ∈ s.inFlight.visiting) := by
  intro p S name scope h f hf arguments s
  have hp : p.WellBound := (Program.wellBound_bind tree atoms root).1
  have hpd : p.tree.Descending := hd
  have hmodule : ∃ d, p.scope? 0 = some d ∧ d.kind = .module := Program.scope?_zero hd atoms root
  refine ⟨fun hs => ?_,
    fun hs => Infer.tryReturned_of_member h hmodule hp hpd hs hf arguments⟩
  obtain ⟨r, s', hrun, _⟩ := hs.perform_ok hpd (.returned f arguments)
  cases r with
  | none => exact ⟨s', hrun⟩
  | some o =>
      have htried := Infer.returned_eq_some hrun
      exact absurd htried
        (Infer.tryReturned_ne_some h hmodule hp hpd hs.extends hf arguments o s')

/-- Two functions that return calls of each other, one of them with two returned values and
a call among the arguments, and a generator function that yields a call of itself. -/
def Tree.circling : Tree :=
  ⟨#[.name 2, .call (some 0) [] [], .returnStatement (some 1), .name 1, .literal (.int 1),
    .name 2, .call (some 5) [some 4] [], .call (some 3) [some 6] [], .returnStatement (some 7),
    .functionDef 1 [⟨4, .positional, none⟩] [] [some 2, some 8], .name 1,
    .call (some 10) [] [], .returnStatement (some 11), .functionDef 2 [] [] [some 12], .name 3,
    .call (some 14) [] [], .yield (some 15), .exprStatement (some 16),
    .functionDef 3 [] [] [some 17], .module [some 9, some 13, some 18]]⟩

theorem Program.onlyCallEachOther_circling :
    (Program.bind Tree.circling ⟨#["", "f", "g", "h", "a"]⟩ (some 19)).OnlyCallEachOther
      {16, 17, 18} (· - 15) (· - 15) where
  function := by
    rintro f (rfl | rfl | rfl) <;> decide +kernel
  inModule := by
    rintro f (rfl | rfl | rfl) <;> decide +kernel
  definitions := by
    rintro f (rfl | rfl | rfl) <;> decide +kernel
  unshadowed := by
    rintro f (rfl | rfl | rfl) g (rfl | rfl | rfl) <;> decide +kernel
  calls := by
    have hsites : [1, 2, 3].map
        (Program.bind Tree.circling ⟨#["", "f", "g", "h", "a"]⟩ (some 19)).returnedSites =
          [[1, 7], [11], [15]] := by decide +kernel
    obtain ⟨hf, hg, hh⟩ : _ ∧ _ ∧ _ := by simpa using hsites
    rintro f (rfl | rfl | rfl) site hsite
    · rcases List.mem_cons.1 (hf ▸ hsite) with rfl | hsite
      · exact ⟨17, .inr (.inl rfl), some 0, [], [], rfl, rfl⟩
      · obtain rfl := List.mem_singleton.1 hsite
        exact ⟨16, .inl rfl, some 3, [some 6], [], rfl, rfl⟩
    · obtain rfl := List.mem_singleton.1 (hg ▸ hsite)
      exact ⟨16, .inl rfl, some 10, [], [], rfl, rfl⟩
    · obtain rfl := List.mem_singleton.1 (hh ▸ hsite)
      exact ⟨18, .inr (.inr rfl), some 14, [], [], rfl, rfl⟩

/-- Nothing is inferred for any of the three, even with room for one function in flight. -/
theorem recursion_unanswered_circling :
    let p := Program.bind Tree.circling ⟨#["", "f", "g", "h", "a"]⟩ (some 19)
    let s := State.start (.fresh p) {} { maxInferenceDepth := 1 }
    let t := { s with inFlight := (s.inFlight.refresh.enter 16).2 }
    Tree.circling.Descending ∧ p.OnlyCallEachOther {16, 17, 18} (· - 15) (· - 15) ∧
      p.isGenerator 3 = true ∧ s.Reached p ∧
      (∀ f ∈ ({16, 17, 18} : Set ObjectId), ∀ arguments, ∃ s',
        (Operation.returned f arguments).perform p s = .ok none s') ∧
      p.objects.Extends t.objects ∧
      ∃ s', (Operation.tryReturned 17 none).perform p t = .ok none s' := by
  intro p s t
  have hd : Tree.circling.Descending := by decide
  have hcircling := Program.onlyCallEachOther_circling
  have hs : s.Reached p := .start _ _
  have ht : p.objects.Extends t.objects := hs.extends
  have hnone := recursion_unanswered hd ⟨#["", "f", "g", "h", "a"]⟩ (some 19) {16, 17, 18} (· - 15)
    (· - 15) hcircling
  refine ⟨hd, hcircling, by decide +kernel, hs, fun f hf arguments => ?_, ht, ?_⟩
  · exact (hnone f hf arguments s).1 hs
  · rcases (hnone 17 (.inr (.inl rfl)) none t).2 ht with hrun | ⟨g, s', hrun, _⟩
    · exact hrun
    · have hends : ((Operation.tryReturned 17 none).perform p).interrupt? t = none := by
        decide +kernel
      rw [Infer.interrupt?_eq_some.2 ⟨s', hrun⟩] at hends
      cases hends

end ObjectInference
