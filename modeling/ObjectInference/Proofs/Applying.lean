import ObjectInference.Proofs.Beside
import ObjectInference.Proofs.Matching.Views
import ObjectInference.Proofs.Reentry

/-!
Calls among the arguments of calls.

The arguments of a call are evaluated to the end before its function counts as in flight. So
a call of the same function among them is no recursion, and a tower of calls, each of them
the argument of the next, is inferred as if every call were made on its own:
`evaluate_applied` goes up the tower, and finds nothing in flight before each call. The only
trace of the tower is that the name of the function was looked up before the arguments were
evaluated, which an idle guard of names remembers and nobody asks.
-/

namespace ObjectInference

/-- A tower of calls of a name around an expression, with one argument each. -/
inductive Tree.Applied (t : Tree) (name : Atom) (e : NodeRef) : Nat → NodeRef → Prop where
  | zero : Applied t name e 0 e
  | succ {n : Nat} {inner func call : NodeRef} (h : Applied t name e n inner)
      (hcall : t.node? call = some (.call func [inner] []))
      (hfunc : t.node? func = some (.name name)) : Applied t name e (n + 1) call

/-- A name stands for an object that is defined under it, as it is seen from a scope, and
nothing else is bound to it. -/
def Program.SeenAs (p : Program) (scope : ScopeId) (name : Atom) (o : ObjectId) : Prop :=
  ∃ binder, p.binder? scope name = some binder ∧ p.definitions binder name = [.object o]

/-- Infer a function for an object, then for what that gave, and so on. -/
def Infer.applied (p : Program) (f : ObjectId) : Nat → ObjectId → Infer ObjectId
  | 0, o => return o
  | n + 1, o => do
    let o ← applied p f n o
    return (← returned p p.evaluate f (some (.objects [o]))).getD .unknown

/-! ### What an idle guard of names remembers -/

def Slack.idleNames : Slack where
  counts := Eq
  names g g' := g'.refresh = g.refresh

theorem Slack.unnoticed_idleNames : idleNames.Unnoticed where
  counts {giveUp} _ {_ _} h := congrArg giveUp h
  same _ := rfl
  refresh {_ _} h := h

variable {p : Program} {s s₁ t u : State} {f : ObjectId} {fs scope : ScopeId} {name : Atom}
  {call e : NodeRef} {n : Nat}

theorem State.Beside.trans (h : s.Beside .idleNames t) (h' : t.Beside .idleNames u) :
    s.Beside .idleNames u := by
  obtain ⟨g, c, hg, rfl, rfl⟩ := h
  obtain ⟨g', c', hg', rfl, rfl⟩ := h'
  exact ⟨g', s.stats, hg'.trans hg, rfl, rfl⟩

theorem State.Beside.stats_eq (h : s.Beside .idleNames t) : t.stats = s.stats := by
  obtain ⟨_, _, _, hc, rfl⟩ := h
  exact Eq.symm hc

namespace Infer

/-- With nothing in flight a name of a function resolves to it, and only the guard of names
can tell. -/
theorem evaluate_seenAs (hs : s.Reached p) (hseen : p.SeenAs scope name f)
    (hf : f.isKnown = true) {func : NodeRef} (hfunc : p.tree.node? func = some (.name name)) :
    ∃ s', p.evaluate scope func s = .ok (some ⟨f, .defined name⟩) s' ∧
      s.Beside .idleNames s' := by
  obtain ⟨binder, hbinder, hdefinitions⟩ := hseen
  obtain ⟨g, henter⟩ := hs.enter_resolving (binder, name)
  obtain ⟨g', hleave, hsettles⟩ := Guard.leave_of_settles henter (.refl g)
  have hlast : p.definitions binder name = [] ++ [.object f] := hdefinitions
  refine ⟨{ s with resolving := g' }, ?_, g', s.stats, ?_, rfl, rfl⟩
  · exact evaluate_name hfunc hbinder fun _ => resolveLocal_object hlast hf henter hleave
  · exact hsettles.refresh_eq hs.depth_eq_zero.2

/-! ### Arguments before the function -/

section CallSite

variable {func : NodeRef} {args : List NodeRef} {receiver : Option ObjectId}
  (hcall : p.tree.node? call = some (.call func args []))

include hcall

/-- The arguments of a call without named ones are objects by position. -/
theorem resolveArguments_positional {eval : Evaluator} {r : ResolvedArguments}
    (h : resolveArguments p eval (.callSite call scope receiver) s = .ok r s₁) :
    r = { positional := r.positional } := by
  unfold resolveArguments at h
  simp only [hcall] at h
  obtain ⟨positional, s₂, _, h⟩ := bind_eq_ok.1 h
  cases h
  rfl

/-- It is the same whether a function is inferred for a call or for the objects that the
arguments of the call give. A signal of theirs is passed on. -/
theorem tryReturned_callSite (hscope : s.objects.scopeOf? f = some fs)
    (hsites : p.returnedSites fs ≠ []) :
    tryReturned p p.evaluate f (some (.callSite call scope receiver)) s =
      (do
        let r ← resolveArguments p p.evaluate (.callSite call scope receiver)
        tryReturned p p.evaluate f (some (.objects r.positional)) : Infer _) s := by
  have hnonempty : (p.returnedSites fs).isEmpty = false := by
    rwa [Bool.eq_false_iff, ne_eq, List.isEmpty_iff]
  have hleft : tryReturned p p.evaluate f (some (.callSite call scope receiver)) s =
      (do
        let r ← resolveArguments p p.evaluate (.callSite call scope receiver)
        let params := p.parameters (← get).objects f
        afterEntry p p.evaluate f fs (ordinaryObjects params (bindObjects params r))
          (← enterFunction f) : Infer _) s := by
    unfold tryReturned
    rw [get_bind_run, hscope]
    simp only [hnonempty, Bool.false_eq_true, if_false, Option.mapM_some, boundParameters,
      bindArguments, map_eq_pure_bind, bind_assoc, pure_bind]
    rfl
  rw [hleft]
  change EStateM.bind _ _ s = EStateM.bind _ _ s
  have hend := (Operation.resolveArguments (.callSite call scope receiver)).ended (p := p) s
  change Operation.Ended p s
    (resolveArguments p p.evaluate (.callSite call scope receiver) s) at hend
  cases hrun : resolveArguments p p.evaluate (.callSite call scope receiver) s with
  | error => simp only [EStateM.bind, hrun]
  | ok r s₁ =>
      rw [hrun] at hend
      cases hend with
      | ok hsettles =>
          have hscope₁ : s₁.objects.scopeOf? f = some fs := by
            rw [Program.scopeOf?_of_extends hsettles.objects, hscope]
          simp only [EStateM.bind, hrun]
          rw [tryReturned_objects hscope₁ hnonempty rfl, ← resolveArguments_positional hcall hrun]
          rfl

end CallSite

end Infer

/-! ### Towers of calls -/

/-- The tower gives what the single calls give, one after the other, and each of those is
made with nothing in flight. -/
theorem Infer.evaluate_applied (hp : p.WellBound) (hd : p.tree.Descending)
    (hf : p.objects.get f = .function fs) (hsites : p.returnedSites fs ≠ [])
    (hseen : p.SeenAs scope name f) (happlied : p.tree.Applied name e n call)
    (hs : s.Reached p) {found : Option Name} (he : p.evaluate scope e s = .ok found s₁) :
    ∃ result s₂ s₃, applied p f n (Name.objectOf found) s₁ = .ok (Name.objectOf result) s₂ ∧
      p.evaluate scope call s = .ok result s₃ ∧ s₂.Reached p ∧ s₂.Beside .idleNames s₃ ∧
      (0 < n → result = some (.unbound (Name.objectOf result))) := by
  induction happlied with
  | zero =>
      have hs₁ : s₁.Reached p := hs.ok (.evaluate scope e) he
      exact ⟨found, s₁, s₁, rfl, he, hs₁, ⟨_, _, rfl, rfl, rfl⟩,
        fun h => absurd h (Nat.lt_irrefl 0)⟩
  | @succ n inner func call _ hcall hfunc ih =>
      obtain ⟨result, s₂, s₃, hsingles, hinner, hs₂, hbeside, -⟩ := ih
      have hknown : f.isKnown = true := hp.isKnown_of_get (.refl _) (by simp [hf])
      have hget : ∀ {t : State}, p.objects.Extends t.objects → t.objects.get f = .function fs :=
        fun h => h.keeps.get_eq_of_known hf Object.noConfusion
      -- The function is looked up first, and then the argument is evaluated.
      obtain ⟨s', hname, hs'⟩ := evaluate_seenAs hs hseen hknown hfunc
      have hs'_reached : s'.Reached p := hs.ok (.evaluate scope func) hname
      obtain ⟨t₃, hinner', h₃⟩ := (Operation.evaluate scope inner).perform_beside
        Slack.unnoticed_idleNames id hs' hinner
      have hargument : resolveArguments p p.evaluate (.callSite call scope none) s' =
          .ok { positional := [Name.objectOf result] } t₃ := by
        have hobject : argumentObject p.evaluate scope inner s' =
            .ok (Name.objectOf result) t₃ := bind_of_ok hinner'
        unfold resolveArguments
        simp only [hcall, List.mapM_cons, List.mapM_nil, bind_assoc, pure_bind]
        rw [bind_of_ok hobject]
        rfl
      -- Then it is as if the function were inferred for the object by itself.
      obtain ⟨r, s₄, hsingle, _⟩ := hs₂.perform_ok hd
        (.tryReturned f (some (.objects [Name.objectOf result])))
      obtain ⟨t₄, hsingle', h₄⟩ := (Operation.tryReturned f _).perform_beside
        Slack.unnoticed_idleNames id (hbeside.trans h₃) hsingle
      have hasked : tryReturned p p.evaluate f (some (.callSite call scope none)) s' =
          .ok r t₄ := by
        have hscope : s'.objects.scopeOf? f = some fs := by
          rw [ObjectStore.scopeOf?, hget hs'_reached.extends]
        rw [tryReturned_callSite hcall hscope hsites, bind_of_ok hargument]
        exact hsingle'
      have hreturned : returned p p.evaluate f (some (.objects [Name.objectOf result])) s₂ =
          .ok r s₄ := returned_of_ok hsingle
      refine ⟨some (.unbound (r.getD .unknown)), s₄, t₄, ?_, ?_, ?_, h₄, fun _ => rfl⟩
      · exact (bind_of_ok hsingles).trans (bind_of_ok hreturned)
      · rw [p.evaluate_eq_step hd]
        unfold evaluateStep
        rw [hcall]
        simp only
        rw [evaluateCall_function hfunc hname (hget hs'_reached.extends), bind_of_ok hasked]
        rfl
      · exact hs₂.ok (.tryReturned f _) hsingle

theorem Tree.Applied.of_le {tree : Tree} (h : tree.Applied name e n call) {k : Nat} (hk : k ≤ n) :
    ∃ inner, tree.Applied name e k inner := by
  induction h with
  | zero =>
      obtain rfl := Nat.le_zero.1 hk
      exact ⟨e, .zero⟩
  | succ h hcall hfunc ih =>
      rcases Nat.le_succ_iff.1 hk with hk | rfl
      · exact ih hk
      · exact ⟨_, h.succ hcall hfunc⟩

/-- Calls among arguments are no recursion. A tower of calls of a function, by a name that
stands for it and nothing else, gives what the function gives for the innermost argument, then
for that, and so on, under all limits. It ends with a result. Every single call finds nothing
in flight, and all counts come out as they do for single calls, that of the limits met among
them, so the tower takes no more room than the single calls do. In general, and in any state,
inferring a function for a call without named arguments is evaluating the arguments, and then
inferring it for the objects. -/
theorem nested_calls_as_single {tree : Tree} (hd : tree.Descending) (atoms : Interner)
    (root : NodeRef) :
    let p := Program.bind tree atoms root
    (∀ (s : State) (f : ObjectId) (fs scope : ScopeId) (name : Atom) (e call : NodeRef) (n : Nat),
      s.Reached p → p.objects.get f = .function fs → p.returnedSites fs ≠ [] →
      p.SeenAs scope name f → tree.Applied name e n call → 0 < n →
      ∃ found s₁ o s₂ s₃, p.evaluate scope e s = .ok found s₁ ∧
        Infer.applied p f n (Name.objectOf found) s₁ = .ok o s₂ ∧
        p.evaluate scope call s = .ok (some (.unbound o)) s₃ ∧
        s₂.Beside .idleNames s₃ ∧ s₃.stats = s₂.stats ∧
        ∀ k ≤ n, ∃ o' s', Infer.applied p f k (Name.objectOf found) s₁ = .ok o' s' ∧
          s'.inFlight.depth = 0) ∧
    ∀ (s : State) (f : ObjectId) (fs scope : ScopeId) (call func : NodeRef) (args : List NodeRef)
      (receiver : Option ObjectId),
      s.objects.scopeOf? f = some fs → p.returnedSites fs ≠ [] →
      tree.node? call = some (.call func args []) →
      Infer.tryReturned p p.evaluate f (some (.callSite call scope receiver)) s =
        (do
          let r ← Infer.resolveArguments p p.evaluate (.callSite call scope receiver)
          Infer.tryReturned p p.evaluate f (some (.objects r.positional)) : Infer _) s := by
  intro p
  have hp : p.WellBound := (Program.wellBound_bind tree atoms root).1
  refine ⟨fun s f fs scope name e call n hs hf hsites hseen happlied hn => ?_,
    fun s f fs scope call func args receiver hscope hsites hcall =>
      Infer.tryReturned_callSite hcall hscope hsites⟩
  obtain ⟨found, s₁, he, -⟩ := hs.perform_ok hd (.evaluate scope e)
  have htower {k : Nat} {inner : NodeRef} (h : tree.Applied name e k inner) :=
    Infer.evaluate_applied hp hd hf hsites hseen h hs he
  obtain ⟨result, s₂, s₃, hsingles, hcall, -, hbeside, hresult⟩ := htower happlied
  refine ⟨found, s₁, Name.objectOf result, s₂, s₃, he, hsingles, ?_, hbeside,
    hbeside.stats_eq, fun k hk => ?_⟩
  · rw [← hresult hn]
    exact hcall
  · obtain ⟨inner, hinner⟩ := happlied.of_le hk
    obtain ⟨result', s', _, hrun, _, hs', -⟩ := htower hinner
    exact ⟨_, s', hrun, hs'.depth_eq_zero.1⟩

/-- A function that returns its argument in a list, and a tower of two calls of it. -/
def Tree.wrappingTwice : Tree :=
  ⟨#[.name 1, .list [some 0], .returnStatement (some 1),
    .functionDef 2 [⟨1, .positional, none⟩] [] [some 2], .name 2, .literal (.int 1),
    .call (some 4) [some 5] [], .name 2, .call (some 7) [some 6] [], .exprStatement (some 8),
    .module [some 3, some 9]]⟩

/-- Both calls are inferred where only one function may be in flight. -/
theorem nested_calls_as_single_wrappingTwice :
    let p := Program.bind Tree.wrappingTwice ⟨#["", "a", "f"]⟩ (some 10)
    let s := State.start (.fresh p) {} { maxInferenceDepth := 1 }
    Tree.wrappingTwice.Descending ∧ s.Reached p ∧ p.objects.get 16 = .function 1 ∧
      p.returnedSites 1 ≠ [] ∧ p.SeenAs 0 2 16 ∧
      Tree.wrappingTwice.Applied 2 (some 5) 2 (some 8) ∧
      (∃ found s₁ o s₂ s₃, p.evaluate 0 (some 5) s = .ok found s₁ ∧
        Infer.applied p 16 2 (Name.objectOf found) s₁ = .ok o s₂ ∧
        p.evaluate 0 (some 8) s = .ok (some (.unbound o)) s₃ ∧
        s₂.Beside .idleNames s₃ ∧ s₃.stats = s₂.stats ∧
        ∀ k ≤ 2, ∃ o' s', Infer.applied p 16 k (Name.objectOf found) s₁ = .ok o' s' ∧
          s'.inFlight.depth = 0) ∧
      s.objects.scopeOf? 16 = some 1 ∧
      Tree.wrappingTwice.node? (some 8) = some (.call (some 7) [some 6] []) ∧
      Infer.tryReturned p p.evaluate 16 (some (.callSite (some 8) 0 none)) s =
        (do
          let r ← Infer.resolveArguments p p.evaluate (.callSite (some 8) 0 none)
          Infer.tryReturned p p.evaluate 16 (some (.objects r.positional)) : Infer _) s := by
  intro p s
  have hd : Tree.wrappingTwice.Descending := by decide
  have hs : s.Reached p := .start _ _
  have hf : p.objects.get 16 = .function 1 := by decide +kernel
  have hsites : p.returnedSites 1 ≠ [] := by decide +kernel
  have hseen : p.SeenAs 0 2 16 := ⟨0, by decide +kernel, by decide +kernel⟩
  have happlied : Tree.wrappingTwice.Applied 2 (some 5) 2 (some 8) :=
    .succ (.succ .zero rfl rfl) rfl rfl
  obtain ⟨htower, hcallSite⟩ := nested_calls_as_single hd ⟨#["", "a", "f"]⟩ (some 10)
  exact ⟨hd, hs, hf, hsites, hseen, happlied,
    htower s 16 1 0 2 (some 5) (some 8) 2 hs hf hsites hseen happlied (by decide),
    by decide +kernel, rfl, hcallSite s 16 1 0 (some 8) (some 7) [some 6] none (by decide +kernel)
      hsites rfl⟩

end ObjectInference
