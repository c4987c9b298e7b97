import ObjectInference.Proofs.Runs
import ObjectInference.Proofs.Matching.Lookup
import Mathlib.Logic.Relation

/-!
Chains of attributes, calls and subscripts.

Evaluation goes down a chain to its innermost expression first and comes back one step at
a time. What it does on the way back depends on what it comes back with: an object that is
not known has no attributes, is not called and has no items, so nothing is made of it and
nothing more is evaluated, the arguments and the index included. `Infer.PassedOn` says this
of two results, `passedOn_of_wraps` has a case for each kind of step, and a chain is a
sequence of steps.
-/

namespace ObjectInference

open Relation

/-- One step of a chain: the outer expression is made from what the inner one gives. -/
inductive Tree.Wraps (t : Tree) (inner outer : NodeRef) : Prop where
  | attr (name : Atom) (h : t.node? outer = some (.attr inner name))
  | call (args keywords : List NodeRef) (h : t.node? outer = some (.call inner args keywords))
  | subscript (slice : NodeRef) (h : t.node? outer = some (.subscript inner slice))
  | keyword (name : Atom) (h : t.node? outer = some (.keyword name inner))
  | index (h : t.node? outer = some (.index inner))

/-! ### The unknown object in a store -/

section Unknown

variable {p : Program} {st : ObjectStore} (hst : st.get .unknown = .unknown)

include hst

theorem ObjectStore.kind_unknown : st.kind .unknown = .unknown := by
  rw [kind, hst]
  rfl

theorem ObjectStore.builtinClassOf?_unknown : st.builtinClassOf? .unknown = none := by
  rw [builtinClassOf?, classOf?, hst]
  rfl

theorem Program.attribute?_unknown (name : Atom) : p.attribute? st .unknown name = none := by
  rw [attribute?, attributeWithin, hst]

theorem Program.specialMethod?_unknown (name : String) :
    p.specialMethod? st .unknown name = none := by
  unfold specialMethod?
  cases p.atoms.find? name with
  | none => rfl
  | some atom =>
      change (p.attribute? st .unknown atom).bind _ = none
      rw [attribute?_unknown hst]
      rfl

end Unknown

namespace Infer

variable {p : Program} {eval : Evaluator} {scope : ScopeId} {s : State} {found : Option Name}

/-! ### Steps from the unknown object -/

section Unknown

variable (hs : s.objects.get .unknown = .unknown)

include hs

theorem attributeName_unknown (name : Atom) (hfound : Name.objectOf found = .unknown) :
    attributeName p name found s = .ok none s := by
  unfold attributeName
  rw [get_bind_run]
  cases found with
  | none => rfl
  | some v =>
      have ho : v.object = .unknown := hfound
      simp only [Option.bind_some, ho, p.attribute?_unknown hs]
      rfl

theorem callTarget_unknown (call : NodeRef) (primary : Option Name) :
    callTarget p scope call primary .unknown s = .ok none s := by
  unfold callTarget
  rw [get_bind_run, ObjectStore.kind_unknown hs]
  rfl

theorem indexedObject_unknown (index : NodeRef) :
    indexedObject p eval scope .unknown index s = .ok .unknown s := by
  unfold indexedObject
  rw [get_bind_run, ObjectStore.builtinClassOf?_unknown hs]
  simp only [itemByMethod]
  rw [get_bind_run, p.specialMethod?_unknown hs]
  rfl

end Unknown

/-! ### Results that are passed on -/

/-- Nothing is made of a result without a known object, and nothing is done after it; an
interruption is the same one. -/
structure PassedOn (r r' : EStateM.Result Interrupt State (Option Name)) : Prop where
  unknown {found : Option Name} {s' : State} (h : r = .ok found s')
    (hfound : Name.objectOf found = .unknown) :
    ∃ found', r' = .ok found' s' ∧ Name.objectOf found' = .unknown
  interrupt {e : Interrupt} {s' : State} (h : r = .error e s') : r' = .error e s'

theorem PassedOn.refl (r : EStateM.Result Interrupt State (Option Name)) : PassedOn r r :=
  ⟨fun h hfound => ⟨_, h, hfound⟩, id⟩

theorem PassedOn.trans {r₁ r₂ r₃ : EStateM.Result Interrupt State (Option Name)}
    (h : PassedOn r₁ r₂) (h' : PassedOn r₂ r₃) : PassedOn r₁ r₃ := by
  refine ⟨fun hr hfound => ?_, fun hr => h'.interrupt (h.interrupt hr)⟩
  obtain ⟨found', hr', hfound'⟩ := h.unknown hr hfound
  exact h'.unknown hr' hfound'

/-- It is enough that nothing is made of an unknown part of what a computation gives. -/
theorem passedOn_map_bind {α : Type} {x : Infer α} {part : α → Option Name}
    {f : α → Infer (Option Name)}
    (h : ∀ a s', x s = .ok a s' → Name.objectOf (part a) = .unknown →
      ∃ found', f a s' = .ok found' s' ∧ Name.objectOf found' = .unknown) :
    PassedOn ((part <$> x) s) ((x >>= f) s) := by
  change PassedOn (EStateM.map part x s) (EStateM.bind x f s)
  unfold EStateM.map EStateM.bind
  cases hx : x s with
  | ok a s₁ =>
      refine ⟨fun hr hfound => ?_, fun hr => by cases hr⟩
      cases hr
      exact h a s₁ hx hfound
  | error e s₁ => exact ⟨fun hr => (by cases hr), fun hr => hr⟩

theorem passedOn_bind {x : Infer (Option Name)} {f : Option Name → Infer (Option Name)}
    (h : ∀ found s', x s = .ok found s' → Name.objectOf found = .unknown →
      ∃ found', f found s' = .ok found' s' ∧ Name.objectOf found' = .unknown) :
    PassedOn (x s) ((x >>= f) s) := by
  have hpassed := passedOn_map_bind h
  rwa [id_map'] at hpassed

/-- What is called is what the expression in front of the arguments resolves to, although
the value of an attribute is evaluated on its own there. -/
theorem primaryAndResult_snd (hd : p.tree.Descending) (expr : NodeRef) :
    (Prod.snd <$> primaryAndResult p p.evaluate scope expr) s = p.evaluate scope expr s := by
  by_cases hattr : ∃ value name, p.tree.node? expr = some (.attr value name)
  · obtain ⟨value, name, hexpr⟩ := hattr
    rw [p.evaluate_eq_step hd, evaluateStep, primaryAndResult, hexpr]
    simp only [map_bind, map_pure, bind_pure]
  · have heq : primaryAndResult p p.evaluate scope expr =
        (do return (none, ← p.evaluate scope expr) : Infer (Option Name × Option Name)) := by
      unfold primaryAndResult
      split
      · rename_i value name hexpr
        exact absurd ⟨value, name, hexpr⟩ hattr
      · rfl
    rw [heq]
    simp only [map_bind, map_pure, bind_pure]

/-! ### Chains -/

section Chains

variable (hp : p.WellBound) (hs : p.objects.Extends s.objects)

include hp hs

/-- The unknown object is itself in every state that an operation leaves. -/
theorem get_unknown_of_ok {α : Type} (op : Operation α) {a : α} {s' : State}
    (h : op.perform p s = .ok a s') : s'.objects.get .unknown = .unknown := by
  have hend := op.ended (p := p) s
  rw [h] at hend
  cases hend with
  | ok hsettles => exact hp.get_unknown (hs.trans hsettles.objects).keeps

/-- Something unknown is neither a class nor anything else to call. -/
theorem passedOn_evaluateCall (hd : p.tree.Descending) (call func : NodeRef) :
    PassedOn (p.evaluate scope func s) (evaluateCall p p.evaluate scope call func s) := by
  rw [← primaryAndResult_snd hd]
  refine passedOn_map_bind fun x s' hrun hfound => ?_
  have hs' : s'.objects.get .unknown = .unknown :=
    get_unknown_of_ok hp hs (.primaryAndResult scope func) hrun
  obtain ⟨primary, found⟩ := x
  cases found with
  | none => exact ⟨none, rfl, rfl⟩
  | some callee =>
      have ho : callee.object = .unknown := hfound
      refine ⟨some (.unbound .unknown), ?_, rfl⟩
      simp only [ho]
      rw [get_bind_run, ObjectStore.kind_unknown hs', if_neg (by decide),
        bind_of_ok (callTarget_unknown hs' call primary)]
      rfl

theorem passedOn_evaluateSubscript (value slice : NodeRef) :
    PassedOn (p.evaluate scope value s) (evaluateSubscript p p.evaluate scope value slice s) := by
  refine passedOn_bind fun found s' hrun hfound => ?_
  have hs' : s'.objects.get .unknown = .unknown :=
    get_unknown_of_ok hp hs (.evaluate scope value) hrun
  cases found with
  | none => exact ⟨none, rfl, rfl⟩
  | some container =>
      have ho : container.object = .unknown := hfound
      simp only [ho]
      rcases p.tree.node? slice with _ | node
      · exact ⟨none, rfl, rfl⟩
      · cases node with
        | index index =>
            refine ⟨some (.unbound .unknown), ?_, rfl⟩
            exact bind_of_ok (indexedObject_unknown hs' index)
        | slice lower upper step =>
            refine ⟨some (.unbound .unknown), ?_, rfl⟩
            simp only
            rw [get_bind_run, ObjectStore.builtinClassOf?_unknown hs']
            rfl
        | _ => exact ⟨none, rfl, rfl⟩

theorem passedOn_of_wraps (hd : p.tree.Descending) {inner outer : NodeRef}
    (h : p.tree.Wraps inner outer) :
    PassedOn (p.evaluate scope inner s) (p.evaluate scope outer s) := by
  rw [p.evaluate_eq_step hd scope outer, evaluateStep]
  cases h with
  | attr name h =>
      rw [h]
      refine passedOn_bind fun found s' hrun hfound => ⟨none, ?_, rfl⟩
      exact attributeName_unknown (get_unknown_of_ok hp hs (.evaluate scope inner) hrun) name
        hfound
  | call args keywords h =>
      rw [h]
      exact passedOn_evaluateCall hp hs hd outer inner
  | subscript slice h =>
      rw [h]
      exact passedOn_evaluateSubscript hp hs inner slice
  | keyword name h =>
      rw [h]
      exact .refl _
  | index h =>
      rw [h]
      exact .refl _

theorem passedOn_of_chain (hd : p.tree.Descending) {base expr : NodeRef}
    (h : ReflTransGen p.tree.Wraps base expr) :
    PassedOn (p.evaluate scope base s) (p.evaluate scope expr s) := by
  induction h with
  | refl => exact .refl _
  | tail _ hwraps ih => exact ih.trans (passedOn_of_wraps hp hs hd hwraps)

end Chains

end Infer

/-- A chain of attributes, calls and subscripts, of any length, gives nothing known where
its innermost expression does not. It then leaves the state that the innermost expression
leaves, so neither arguments nor indices have been evaluated. And where the innermost
expression asks for a function in flight, so does the whole chain. -/
theorem unknown_stays_unknown {tree : Tree} (hd : tree.Descending) (atoms : Interner)
    (root : NodeRef) :
    let p := Program.bind tree atoms root
    ∀ (s : State) (scope : ScopeId) (base expr : NodeRef), p.objects.Extends s.objects →
      ReflTransGen tree.Wraps base expr →
      (∀ (found : Option Name) (s' : State), p.evaluate scope base s = .ok found s' →
        Name.objectOf found = .unknown →
        ∃ found', p.evaluate scope expr s = .ok found' s' ∧ Name.objectOf found' = .unknown) ∧
      ∀ (f : ObjectId) (s' : State), p.evaluate scope base s = .error (.reentrant f) s' →
        p.evaluate scope expr s = .error (.reentrant f) s' := by
  intro p s scope base expr hs hchain
  have hp : p.WellBound := (Program.wellBound_bind tree atoms root).1
  have hpassed : Infer.PassedOn (p.evaluate scope base s) (p.evaluate scope expr s) :=
    Infer.passedOn_of_chain hp hs hd hchain
  exact ⟨fun found s' hrun hfound => hpassed.unknown hrun hfound,
    fun f s' hrun => hpassed.interrupt hrun⟩

/-- A function that returns an item of an attribute of what it returns itself, called. -/
def Tree.chainedToItself : Tree :=
  ⟨#[.name 1, .call (some 0) [] [], .attr (some 1) 2, .literal (.int 0), .index (some 3),
    .subscript (some 2) (some 4), .call (some 5) [some 3] [], .returnStatement (some 6),
    .functionDef 1 [] [] [some 7], .module [some 8]]⟩

/-- From outside the function the call of it gives nothing, and so does the chain around
it. While the function is in flight, both end on it. -/
theorem unknown_stays_unknown_chainedToItself :
    let p := Program.bind Tree.chainedToItself ⟨#["", "f", "a"]⟩ (some 9)
    let s := State.start (.fresh p) {} {}
    let t := { s with inFlight := (s.inFlight.refresh.enter 16).2 }
    Tree.chainedToItself.Descending ∧ p.objects.Extends s.objects ∧
      p.objects.Extends t.objects ∧
      ReflTransGen Tree.chainedToItself.Wraps (some 1) (some 6) ∧
      (∃ found found' s', p.evaluate 1 (some 1) s = .ok found s' ∧
        Name.objectOf found = .unknown ∧ p.evaluate 1 (some 6) s = .ok found' s' ∧
        Name.objectOf found' = .unknown) ∧
      ∃ s', p.evaluate 1 (some 1) t = .error (.reentrant 16) s' ∧
        p.evaluate 1 (some 6) t = .error (.reentrant 16) s' := by
  intro p s t
  have hd : Tree.chainedToItself.Descending := by decide
  have hs : p.objects.Extends s.objects := .refl _
  have ht : p.objects.Extends t.objects := .refl _
  have hchain : ReflTransGen Tree.chainedToItself.Wraps (some 1) (some 6) :=
    ((ReflTransGen.single (.attr 2 rfl)).tail (.subscript (some 4) rfl)).tail
      (.call [some 3] [] rfl)
  have hchained := unknown_stays_unknown hd ⟨#["", "f", "a"]⟩ (some 9)
  refine ⟨hd, hs, ht, hchain, ?_, ?_⟩
  · obtain ⟨s', hrun⟩ := Infer.value?_eq_some.1
      (by decide +kernel : (p.evaluate 1 (some 1)).value? s = some (some (.unbound .unknown)))
    obtain ⟨found', hrun', hfound'⟩ :=
      (hchained s 1 (some 1) (some 6) hs hchain).1 _ s' hrun rfl
    exact ⟨_, found', s', hrun, rfl, hrun', hfound'⟩
  · obtain ⟨s', hrun⟩ := Infer.interrupt?_eq_some.1
      (by decide +kernel : (p.evaluate 1 (some 1)).interrupt? t = some (.reentrant 16))
    exact ⟨s', hrun, (hchained t 1 (some 1) (some 6) ht hchain).2 16 s' hrun⟩

end ObjectInference
