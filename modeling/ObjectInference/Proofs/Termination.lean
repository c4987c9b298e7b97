import ObjectInference.Proofs.Matching.Shape
import ObjectInference.Proofs.Runs
import ObjectInference.Proofs.Walks

/-!
Inference comes to an end.

Evaluation is not structural. A name leads to whatever expression was assigned
to it, and a call to whatever its function returns. What bounds it is the room
left in the two guards and, between two brackets, the way down the tree:
`Program.need` puts them together. On a descending tree a bound that covers the
need is never used up and gives what any larger bound gives. So evaluation
satisfies its own recursion, without a bound, and nothing else does.
-/

namespace ObjectInference

/-- An evaluator that satisfies the recursion of evaluation is evaluation. -/
theorem Program.eq_evaluate_of_step {p : Program} (hd : p.tree.Descending) {eval : Evaluator}
    (h : ∀ scope expr s, eval scope expr s = Infer.evaluateStep p eval scope expr s) :
    eval = p.evaluate := by
  funext scope expr s
  have L := Pairing.bracketing.lawful (Inherited.trivial p)
  have heval : ∀ scope expr, eval scope expr = Infer.evaluateStep p eval scope expr :=
    fun scope expr => funext (h scope expr)
  have hpairs := L.pairsWithin State.room id (Infer.evaluateWithin p) (fun _ => eval)
    (fun _ _ => rfl) (fun n m expr excused hstep scope w s t hr => ?_) (Nat.le_refl (p.budget s))
    expr scope s s s ⟨rfl, .refl s, trivial⟩
  · refine (Pairing.bracketing.eq_of_pairs (hpairs.mono fun _ _ _ _ _ => ?_) (fun f g hfg => hfg.1)
      fun he => ?_).symm
    · exact Pairing.bracketing.diagonal.sameFound_iff.1
    · exact absurd (he hd) (Nat.not_lt.2 (p.need_le_budget s expr))
  · rw [heval scope expr]
    exact hstep scope trivial w s t hr

/-- A run ends with a result, or on a function that was in flight before it. -/
def State.Finishes {α : Type} (s : State) : EStateM.Result Interrupt State α → Prop
  | .ok _ _ => True
  | .error (.reentrant f) _ => f ∈ s.inFlight.visiting
  | .error (.misuse _) _ => False
  | .error .exhausted _ => False

theorem Operation.Ended.finishes {p : Program} (hd : p.tree.Descending) {s : State} {α : Type}
    {r : EStateM.Result Interrupt State α} (h : Ended p s r) : s.Finishes r := by
  cases h with
  | ok _ => trivial
  | reentrant _ hf => exact hf
  | exhausted h => exact absurd hd h

/-- Inference on a descending tree. Every operation finishes in every state, so
whatever the limits of the guards are and whatever is in flight. Evaluations are
nested at most as deep as the need says. The bounded evaluator is a stand-in for
the recursion without a bound, to which it is the only solution. And no bound on
a walk over scopes, nodes or classes is ever used up. -/
theorem inference_terminates {tree : Tree} (hd : tree.Descending) (atoms : Interner)
    (root : NodeRef) :
    let p := Program.bind tree atoms root
    (∀ (α : Type) (op : Operation α) (s : State), s.Finishes (op.perform p s)) ∧
    (∀ (s : State) (scope : ScopeId) (expr : NodeRef) (n : Nat), p.need s.room expr ≤ n →
      Infer.evaluateWithin p n scope expr s = p.evaluate scope expr s) ∧
    (∀ (α : Type) (op : Operation α) (s : State) (n : Nat), p.budget s ≤ n →
      op.run p (Infer.evaluateWithin p n) s = op.perform p s) ∧
    (∀ eval : Evaluator, eval = p.evaluate ↔
      ∀ scope expr s, eval scope expr s = Infer.evaluateStep p eval scope expr s) ∧
    (∀ (scope : ScopeId) (name : Atom) (analyzes searches : ObjectId → Bool) (n : Nat),
      p.scopes.size ≤ n → 0 < n →
      p.subtreeWithin n scope = p.subtree scope ∧
      p.binderWithin scope name n scope = p.binder? scope name ∧
      (scope < p.scopes.size →
        p.agendaWithin analyzes searches n scope = p.agenda analyzes searches scope)) ∧
    (∀ (i : NodeId) (target : NodeRef) (n : Nat), tree.size < n →
      tree.sitesWithin n i = tree.sites i ∧ tree.leavesWithin n target = tree.leaves target) ∧
    (∀ (st : ObjectStore) (o : ObjectId) (name : Atom) (n : Nat), p.objects.Grown st → 2 ≤ n →
      p.attributeWithin st name n o = p.attribute? st o name) := by
  intro p
  have hp : p.WellBound := (Program.wellBound_bind tree atoms root).1
  have hpd : p.tree.Descending := hd
  refine ⟨fun α op s => (op.ended s).finishes hpd, fun s scope expr n hn => ?_,
    fun α op s n hn => op.run_evaluateWithin hpd hn, fun eval => ⟨?_, ?_⟩,
    fun scope name analyzes searches n hn hpos => ⟨?_, ?_, fun hscope => ?_⟩,
    fun i target n hn => ⟨?_, ?_⟩, fun st o name n hst hn => ?_⟩
  · exact Infer.evaluateWithin_eq_evaluate hpd hn scope
  · rintro rfl scope expr s
    exact p.evaluate_eq_step hpd scope expr s
  · exact p.eq_evaluate_of_step hpd
  · exact p.subtreeWithin_eq hp (Nat.le_trans hn (Nat.le_add_left _ _)) (Nat.le_add_left _ _)
  · exact p.binderWithin_eq_binder? hp scope name hn
  · exact p.agendaWithin_eq hp analyzes searches (Nat.le_trans hn (Nat.le_add_left _ _))
      (Nat.le_add_left _ _) hpos (Nat.zero_lt_of_lt hscope)
  · have hi : ∀ m, tree.size < m → tree.size ≤ i ∨ i < m := fun m hm =>
      (Nat.lt_or_ge i tree.size).elim (fun h => .inr (Nat.lt_trans h hm)) .inl
    exact Tree.sitesWithin_eq hd (hi n hn) (hi _ (Nat.lt_succ_self _))
  · have hheight := tree.height_le target
    exact Tree.leavesWithin_eq hd (Nat.le_trans hheight hn) hheight
  · have hsize : 15 ≤ st.size := Nat.le_trans hp.builtins.size_le hst.size_le
    refine p.attributeWithin_eq (fun o c site h => ?_) name hn (by omega) o
    obtain ⟨hlt, hk⟩ := hst.inst h
    rw [ObjectStore.kind, hst.get_base hlt]
    exact hk

/-- One function, which returns what a call of itself gives. -/
def Tree.selfCalling : Tree :=
  ⟨#[.name 1, .call (some 0) [] [], .returnStatement (some 1), .functionDef 1 [] [] [some 2],
    .module [some 3]]⟩

/-- The function of that tree is inferred in the end. -/
theorem inference_terminates_selfCalling :
    let p := Program.bind Tree.selfCalling ⟨#["", "f"]⟩ (some 4)
    let s := State.start (.fresh p) {} {}
    Tree.selfCalling.Descending ∧ p.objects.get 16 = .function 1 ∧
      s.Finishes ((Operation.tryReturned 16 none).perform p s) :=
  ⟨by decide, by decide +kernel, (inference_terminates (by decide) _ _).1 _ _ _⟩

end ObjectInference
