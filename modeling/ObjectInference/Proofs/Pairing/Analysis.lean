import ObjectInference.Proofs.Pairing.Evaluation

/-!
Analysis pairs with analysis.

The visitor of an analysis evaluates what stands below the sites of a scope, so
the evaluators are supposed to agree on a set that holds all sites. Of the pairing
two things more are asked than for evaluation, that it respects the log of calls
and the counts that an analysis makes.
-/

namespace ObjectInference

namespace Pairing

/-- The pairing respects recording a call with one object for each parameter, and
counting. -/
structure Records (R : Pairing) (p : Program) : Prop where
  record {w : R.World} {s t : State} (h : R.rel w s t) {f f' : ObjectId}
    (hf : R.same s t f f') {os os' : List ObjectId} (hos : R.SameList s t os os')
    (hlength : os.length = (p.parameters s.objects f).length) :
    R.Ends .none w s t (Infer.recordCall f os) (Infer.recordCall f' os')
  count {w : R.World} {s t : State} (h : R.rel w s t) {change : Stats → Stats}
    (hchange : Stats.Tallies change) :
    R.Ends .none w s t (Infer.count change) (Infer.count change)

variable {R : Pairing} {p : Program} {excused : R.World → Prop} {eval eval' : Evaluator}
  {On : ScopeId → NodeRef → Prop} {w : R.World} {s t : State} {E : Exits} {scope : ScopeId}

theorem argumentsOn_true (a : Arguments) : ArgumentsOn p (fun _ _ => True) a := by
  cases a with
  | callSite call scope receiver => exact fun _ _ _ _ _ => trivial
  | objects os => exact trivial

section Below

variable (hbelow : ∀ {e : NodeRef}, On scope e → Under p On scope e)

include hbelow

theorem on_of_sequence? {e r : NodeRef} {elements : List NodeRef} (he : On scope e)
    (hseq : p.tree.sequence? e = some elements) (hr : r ∈ elements) : On scope r := by
  unfold Tree.sequence? at hseq
  split at hseq <;> cases hseq
  · rename_i hn
    exact hbelow he _ hn rfl r hr
  · rename_i hn
    exact hbelow he _ hn rfl r hr

/-- A path through displays stays below the expression that it starts at. -/
theorem on_follow {value : NodeRef} (he : On scope value) (path : List Nat) :
    On scope (p.tree.follow value path).1 := by
  induction path generalizing value with
  | nil => exact he
  | cons position rest ih =>
      unfold Tree.follow
      split
      · rename_i element helement
        obtain ⟨elements, hseq, hget⟩ := Option.bind_eq_some_iff.1 helement
        exact ih (on_of_sequence? hbelow he hseq (List.mem_of_getElem? hget))
      · exact he

theorem on_of_mem_leaves {target : NodeRef} (he : On scope target) {leaf : NodeRef × List Nat}
    (hleaf : leaf ∈ p.tree.leaves target) : On scope leaf.1 := by
  unfold Tree.leaves at hleaf
  generalize p.tree.size + 1 = fuel at hleaf
  induction fuel generalizing target leaf with
  | zero => cases hleaf
  | succ fuel ih =>
      unfold Tree.leavesWithin at hleaf
      split at hleaf
      · rename_i elements hseq
        obtain ⟨⟨element, position⟩, helement, hleaf⟩ := List.mem_flatMap.1 hleaf
        obtain ⟨inner, hinner, rfl⟩ := List.mem_map.1 hleaf
        have hmem := (List.mem_zipIdx' helement).2 ▸ List.getElem_mem _
        show On scope inner.1
        exact ih (on_of_sequence? hbelow he hseq hmem) hinner
      · obtain rfl := List.mem_singleton.1 hleaf
        exact he

end Below

/-- A loop over the same list on both sides. -/
theorem Pairs.forM {α : Type} (h : R.rel w s t) {xs : List α} {f g : α → Infer Unit}
    (hfg : ∀ x ∈ xs, ∀ {s t : State}, R.rel w s t → R.Ends E w s t (f x) (g x)) :
    R.Ends E w s t (xs.forM f) (xs.forM g) := by
  induction xs generalizing s t with
  | nil => exact .pure h trivial
  | cons x xs ih =>
      refine .bind (hfg x List.mem_cons_self h) fun _ _ s' t' hr _ => ?_
      exact ih hr.rel fun x hx => hfg x (List.mem_cons_of_mem _ hx)

namespace Lawful

/-- Simulated calls raise no signal: one that is met while arguments are bound
ends the simulation. -/
theorem simulateCall (L : R.Lawful p) (hlog : R.Records p)
    (A : R.Agree p excused eval eval' On) (options : Options) (h : R.rel w s t)
    {c c' : CallTarget} (hc : R.SameTarget s t c c') (hon : ArgumentsOn p On c.arguments) :
    R.Ends (R.exits excused w).silent w s t (Infer.simulateCall p eval options c)
      (Infer.simulateCall p eval' options c') := by
  have hbind := (L.bindArguments A h hc.function hc.arguments hon).attempt
  unfold Infer.simulateCall
  refine .get_bind ?_
  simp only [← L.kind_eq h hc.function]
  cases s.objects.kind c.function with
  | function =>
      refine .bind hbind fun x y s' t' hr hxy => ?_
      cases hxy with
      | error _ => exact .pure hr.rel trivial
      | ok hxy => exact (hlog.record hr.rel hxy.1 hxy.2.1 hxy.2.2).of_none
  | builtinFunction =>
      simp only
      split
      · refine .bind hbind fun x y s' t' hr hxy => ?_
        cases hxy with
        | error _ => exact .pure hr.rel trivial
        | ok hxy =>
            obtain ⟨hf, hos, _⟩ := hxy
            refine .bind (L.callBuiltinObject hr.rel hf hos).discard fun _ _ s'' t'' hr' _ => ?_
            exact (hlog.count hr'.rel (by intro; rfl)).of_none
      · exact .pure h trivial
  | _ => exact .pure h trivial

theorem visitCall (L : R.Lawful p) (hlog : R.Records p)
    (A : R.Agree p excused eval eval' On) (options : Options) (h : R.rel w s t) {call : NodeId}
    (hcall : Under p On scope (some call)) {func : NodeRef} (hfunc : On scope func) :
    R.Ends (R.exits excused w).silent w s t (Infer.visitCall p eval options scope call func)
      (Infer.visitCall p eval' options scope call func) := by
  refine .bind (hlog.count h (by intro; rfl)).of_none fun _ _ s₁ t₁ hr₁ _ => ?_
  refine .bind (L.primaryAndResult A hr₁.rel hfunc).attempt
    fun x y s₂ t₂ hr₂ hxy => ?_
  cases hxy with
  | error _ => exact (hlog.count hr₂.rel (by intro; rfl)).of_none
  | @ok x y hxy =>
      obtain ⟨primary, callee⟩ := x
      obtain ⟨primary', callee'⟩ := y
      obtain ⟨hprimary, hcallee⟩ := hxy
      cases hcallee with
      | none => exact (hlog.count hr₂.rel (by intro; rfl)).of_none
      | some hn =>
          refine .bind (L.callTarget hr₂.rel hcall hprimary hn.1) fun c c' s₃ t₃ hr₃ hc => ?_
          obtain ⟨hc, hon⟩ := hc
          cases hc with
          | none => exact (hlog.count hr₃.rel (by intro; rfl)).of_none
          | some hc => exact L.simulateCall hlog A options hr₃.rel hc (hon _ rfl)

theorem simulateItemSetter (L : R.Lawful p) (hlog : R.Records p)
    (A : R.Agree p excused eval eval' On) (options : Options) (h : R.rel w s t)
    {c c' i i' v v' : ObjectId} (hc : R.same s t c c') (hi : R.same s t i i')
    (hv : R.same s t v v') :
    R.Ends (R.exits excused w).silent w s t (Infer.simulateItemSetter p eval options c i v)
      (Infer.simulateItemSetter p eval' options c' i' v') := by
  have hm := L.itemSetter? h hc
  unfold Infer.simulateItemSetter
  rw [← L.isKnown_eq h hc, ← L.isKnown_eq h hv]
  split
  · refine .get_bind ?_
    generalize p.itemSetter? s.objects c = x, p.itemSetter? t.objects c' = y at hm ⊢
    cases hm with
    | none => exact .pure h trivial
    | some hm =>
        refine .bind (hlog.count h (by intro; rfl)).of_none fun _ _ s' t' hr _ => ?_
        refine L.simulateCall hlog A options hr.rel ⟨hr.same hm, .objects ?_⟩ trivial
        exact .cons (hr.same hc) (.cons (hr.same hi) (.cons (hr.same hv) .nil))
  · exact .pure h trivial

theorem visitItemTarget (L : R.Lawful p) (hlog : R.Records p)
    (A : R.Agree p excused eval eval' On) (options : Options) (h : R.rel w s t)
    {value : NodeRef} (hvalue : On scope value) {target : NodeRef × List Nat}
    (htarget : On scope target.1) :
    R.Ends (R.exits excused w).silent w s t
      (Infer.visitItemTarget p eval options scope value target)
      (Infer.visitItemTarget p eval' options scope value target) := by
  unfold Infer.visitItemTarget
  split
  · rename_i container slice index hnode hindex
    have hparts := A.below htarget _ hnode rfl
    have hcontainer : On scope container := hparts _ (by simp [Node.places])
    have hindex : On scope index := by
      simp only [Tree.simpleIndex?, hnode] at hindex
      split at hindex <;> cases hindex
      exact A.below (hparts slice (by simp [Node.places])) _ ‹_› rfl _ (by simp [Node.places])
    refine .bind (A.pairs hcontainer w s t h).attempt fun x y s₁ t₁ hr₁ hxy => ?_
    cases hxy with
    | error _ => exact .pure hr₁.rel trivial
    | ok hxy =>
        cases hxy with
        | none => exact .pure hr₁.rel trivial
        | some hn =>
            have hfollow := A.pairs (on_follow A.below hvalue target.2)
            refine .bind (L.elementObject A hr₁.rel hindex) fun i i' s₂ t₂ hr₂ hi => ?_
            refine .bind (L.assignedObject hfollow hr₂.rel).attempt fun v v' s₃ t₃ hr₃ hv => ?_
            cases hv with
            | error _ => exact .pure hr₃.rel trivial
            | ok hv =>
                cases hv with
                | none => exact .pure hr₃.rel trivial
                | some hv =>
                    exact L.simulateItemSetter hlog A options hr₃.rel
                      (hr₃.same (hr₂.same hn.1)) (hr₃.same hi) hv
  · exact .pure h trivial

theorem visitSite (L : R.Lawful p) (hlog : R.Records p)
    (A : R.Agree p excused eval eval' On) (options : Options) (h : R.rel w s t)
    {site : NodeId} (hsite : On scope (some site)) :
    R.Ends (R.exits excused w).silent w s t (Infer.visitSite p eval options scope site)
      (Infer.visitSite p eval' options scope site) := by
  have hparts := A.below hsite
  unfold Infer.visitSite
  split
  · rename_i hcall
    exact L.visitCall hlog A options h hparts (hparts _ hcall rfl _ (by simp [Node.places]))
  · rename_i targets value hassign
    have hparts := hparts _ hassign rfl
    split
    · refine .forM h fun target htarget s t h => L.visitItemTarget hlog A options h
        (hparts value (by simp [Node.places])) ?_
      obtain ⟨place, hplace, hleaf⟩ := List.mem_flatMap.1 (List.mem_of_mem_filter htarget)
      exact on_of_mem_leaves A.below (hparts place (by simp [Node.places, hplace])) hleaf
    · exact .pure h trivial
  · exact .pure h trivial

theorem analyzeScope (L : R.Lawful p) (hlog : R.Records p)
    (A : R.Agree p excused eval eval' On) (options : Options) (h : R.rel w s t)
    (hsites : ∀ site ∈ p.sites scope, On scope (some site)) :
    R.Ends (R.exits excused w).silent w s t (Infer.analyzeScope p eval options scope)
      (Infer.analyzeScope p eval' options scope) := by
  refine .bind (hlog.count h (by intro; rfl)).of_none fun _ _ s' t' hr _ => ?_
  exact .forM hr.rel fun site hsite s t h => L.visitSite hlog A options h (hsites site hsite)

/-- Analysis raises no signal. -/
theorem analyzeWith (L : R.Lawful p) (hlog : R.Records p)
    (A : R.Agree p excused eval eval' On)
    (hsites : ∀ scope, ∀ site ∈ p.sites scope, On scope (some site)) (options : Options)
    (h : R.rel w s t)
    {entity entity' : ObjectId} (hentity : R.same s t entity entity')
    (analyzes searches : ObjectId → Bool) :
    R.Ends (R.exits excused w).silent w s t
      (Infer.analyzeWith p eval options entity analyzes searches)
      (Infer.analyzeWith p eval' options entity' analyzes searches) := by
  refine .get_bind ?_
  rw [← L.scopeOf?_eq h hentity]
  split
  · exact .forM h fun scope _ s t h => L.analyzeScope hlog A options h (hsites scope)
  · exact .pure h trivial

end Lawful

end Pairing

end ObjectInference
