import ObjectInference.Proofs.Bracketing
import ObjectInference.Proofs.Operation
import ObjectInference.Session

/-!
What a whole operation does.

Every operation has one of three ends: a result, a function in flight, or, on a
tree that is not descending, none at all. `Operation.ends` says what is known of
the state after each. The other results of this module compare an operation with
itself under another evaluator, one with a bound of its own on the depth, or one
that watches the states in which expressions are evaluated.
-/

namespace ObjectInference

namespace Pairing.bracketing

variable {p : Program} {places : ScopeId → NodeRef → Prop} {I : State → Prop} {E : Exits}
  {w s t : State} {α : Type} {eval eval' : Evaluator} {excused : State → Prop}

theorem records : (bracketingAmong places I).Records p where
  record {_ _ _} h {f f'} hf {os os'} hos _ := by
    obtain rfl : f = f' := hf
    obtain rfl : os = os' := diagonal.sameList_iff.1 hos
    exact pairs_of_settling h (Infer.settling_recordCall f os) fun _ _ => trivial
  count {_ _ _} h {change} _ := pairs_of_settling h (Infer.settling_count change) fun _ _ => trivial

/-- Computations that pair without an excuse are equal on the state. -/
theorem eq_of_pairs {x y : Infer α}
    (h : (bracketingAmong places I).Pairs E w s s (fun _ _ => Eq) x y)
    (hsignal : ∀ f g, E.signal f g → f = g) (hE : ¬ E.excused) : x s = y s :=
  h.eq_run And.left (fun _ => id) id hsignal hE

/-- An operation pairs with itself under evaluators that pair everywhere. -/
theorem operation (hI : Inherited p I)
    (H : ∀ e, (bracketing I).PairsOn excused eval eval' e)
    (hmono : ∀ {w w' : State}, w'.room < w.room → excused w' → excused w)
    (h : (bracketing I).rel w s t) (op : Operation α) :
    (bracketing I).Pairs ((bracketing I).exits excused w) w s t (fun _ _ => Eq)
      (op.run p eval) (op.run p eval') :=
  (lawful hI).operation_eq diagonal H hmono h op fun _ => records

end Pairing.bracketing

/-! ### How operations end -/

/-- Evaluate with the member of a family of evaluators that the budget picks. -/
def Program.evaluateBy (p : Program) (F : Nat → Evaluator) : Evaluator :=
  fun scope expr s => F (p.budget s) scope expr s

/-- The budget is never used up on a descending tree. It is an excuse that a bound is below
the height of the expression. -/
theorem Pairing.Lawful.pairsIn_evaluateBy {R : Pairing} {p : Program} {F F' : Nat → Evaluator}
    (L : R.Lawful p) {On : ScopeId → NodeRef → Prop} (hOn : R.Closed p On) (room : R.World → Nat)
    (hroom : ∀ {w w' : R.World}, R.inside w w' → room w' < room w)
    (hrel : ∀ {w : R.World} {s t : State}, R.rel w s t →
      s.room = room w ∧ p.budget s = p.budget t)
    (hzero : ∀ scope expr, F 0 scope expr = throw .exhausted)
    (hstep : ∀ (n m : Nat) (expr : NodeRef) (excused : R.World → Prop), n ≤ m →
      (∀ w, (p.tree.Descending → n + 1 < p.tree.height expr) → excused w) →
      (∀ scope, On scope expr → R.may scope expr → R.PairsIn excused (Infer.evaluateStep p (F n))
        (Infer.evaluateStep p (F' m)) scope expr) →
      ∀ scope, On scope expr → R.PairsIn excused (F (n + 1)) (F' (m + 1)) scope expr)
    {scope : ScopeId} {expr : NodeRef} (hon : On scope expr) :
    R.PairsIn (fun _ => ¬ p.tree.Descending) (p.evaluateBy F) (p.evaluateBy F') scope expr := by
  intro w s t h
  obtain ⟨hw, hbudget⟩ := hrel h
  have hn := L.pairsWithinAmong hOn room hroom F F' hzero hstep (Nat.le_of_eq hbudget) hon w s t h
  refine hn.imp (fun _ _ => id) (fun he hd => ?_) fun _ _ _ _ _ => id
  have hlt := he hd
  have hle := p.need_le_budget s expr
  rw [hw] at hle
  omega

/-- Evaluation pairs with itself on a closed set of expressions. The runs have to follow only
those that the tree has. -/
theorem Pairing.Lawful.pairsIn_evaluate {R : Pairing} {p : Program} (L : R.Lawful p)
    {On : ScopeId → NodeRef → Prop} (hOn : R.Closed p On)
    (hmay : ∀ {scope : ScopeId} {expr : NodeRef} {node : Node}, On scope expr →
      p.tree.node? expr = some node → R.may scope expr) (room : R.World → Nat)
    (hroom : ∀ {w w' : R.World}, R.inside w w' → room w' < room w)
    (hrel : ∀ {w : R.World} {s t : State}, R.rel w s t →
      s.room = room w ∧ p.budget s = p.budget t)
    {scope : ScopeId} {expr : NodeRef} (hon : On scope expr) :
    R.PairsIn (fun _ => ¬ p.tree.Descending) p.evaluate p.evaluate scope expr := by
  refine L.pairsIn_evaluateBy hOn room hroom hrel (fun _ _ => rfl)
    (fun n m expr excused _ _ h scope hon => ?_) hon
  cases hn : p.tree.node? expr with
  | some node => exact h scope hon (hmay hon hn)
  | none =>
      intro w s t hst
      unfold Infer.evaluateWithin Infer.evaluateStep
      rw [hn]
      exact .pure hst .none

theorem Pairing.Lawful.pairsOn_evaluateByHeight {R : Pairing} {p : Program}
    {F F' : Nat → Evaluator} (L : R.Lawful p) (room : R.World → Nat)
    (hroom : ∀ {w w' : R.World}, R.inside w w' → room w' < room w)
    (hrel : ∀ {w : R.World} {s t : State}, R.rel w s t →
      s.room = room w ∧ p.budget s = p.budget t)
    (hzero : ∀ scope expr, F 0 scope expr = throw .exhausted)
    (hstep : ∀ (n m : Nat) (expr : NodeRef) (excused : R.World → Prop), n ≤ m →
      (∀ w, (p.tree.Descending → n + 1 < p.tree.height expr) → excused w) →
      (∀ scope, R.may scope expr → R.PairsIn excused (Infer.evaluateStep p (F n))
        (Infer.evaluateStep p (F' m)) scope expr) →
      R.PairsOn excused (F (n + 1)) (F' (m + 1)) expr) (expr : NodeRef) :
    R.PairsOn (fun _ => ¬ p.tree.Descending) (p.evaluateBy F) (p.evaluateBy F') expr :=
  fun _ => L.pairsIn_evaluateBy .all room hroom hrel hzero
    (fun n m expr excused hle hlow h scope _ =>
      hstep n m expr excused hle hlow (fun scope => h scope trivial) scope) trivial

theorem Pairing.Lawful.pairsOn_evaluateBy {R : Pairing} {p : Program} {F F' : Nat → Evaluator}
    (L : R.Lawful p) (room : R.World → Nat)
    (hroom : ∀ {w w' : R.World}, R.inside w w' → room w' < room w)
    (hrel : ∀ {w : R.World} {s t : State}, R.rel w s t →
      s.room = room w ∧ p.budget s = p.budget t)
    (hzero : ∀ scope expr, F 0 scope expr = throw .exhausted)
    (hstep : ∀ (n m : Nat) (expr : NodeRef) (excused : R.World → Prop),
      (∀ scope, R.may scope expr → R.PairsIn excused (Infer.evaluateStep p (F n))
        (Infer.evaluateStep p (F' m)) scope expr) →
      R.PairsOn excused (F (n + 1)) (F' (m + 1)) expr) (expr : NodeRef) :
    R.PairsOn (fun _ => ¬ p.tree.Descending) (p.evaluateBy F) (p.evaluateBy F') expr :=
  L.pairsOn_evaluateByHeight room hroom hrel hzero
    (fun n m expr excused _ _ => hstep n m expr excused) expr

namespace Pairing.bracketing

variable {p : Program} {places : ScopeId → NodeRef → Prop} {I : State → Prop} {α : Type}

theorem room_and_budget {w s t : State} (h : (bracketingAmong places I).rel w s t) :
    s.room = w.room ∧ p.budget s = p.budget t := by
  obtain ⟨rfl, hw, _⟩ := h
  exact ⟨hw.room_eq, rfl⟩

theorem pairsOn_evaluate (hI : Inherited p I) (expr : NodeRef) :
    (bracketing I).PairsOn (fun _ => ¬ p.tree.Descending) p.evaluate p.evaluate expr :=
  (lawful hI).pairsOn_evaluateBy State.room id room_and_budget (fun _ _ => rfl)
    (fun _ _ _ _ h scope => h scope trivial) expr

end Pairing.bracketing

namespace Operation

variable {p : Program} {α : Type}

inductive Ended (p : Program) (s : State) : EStateM.Result Interrupt State α → Prop where
  | ok {a : α} {s' : State} (h : s.Settles s') : Ended p s (.ok a s')
  | reentrant {f : ObjectId} {s' : State} (h : s.Settles s') (hf : f ∈ s.inFlight.visiting) :
      Ended p s (.error (.reentrant f) s')
  | exhausted {s' : State} (h : ¬ p.tree.Descending) : Ended p s (.error .exhausted s')

theorem ended_of_pairs {places : ScopeId → NodeRef → Prop} {I : State → Prop} {E : Exits}
    {s : State} {x y : Infer α} {Q : State → State → α → α → Prop}
    (h : (Pairing.bracketingAmong places I).Pairs E s s s Q x y)
    (hsignal : ∀ f g, E.signal f g → f ∈ s.inFlight.visiting)
    (hE : E.excused → ¬ p.tree.Descending) : Ended p s (x s) := by
  unfold Pairing.Pairs at h
  generalize x s = r, y s = r' at h ⊢
  cases h with
  | ok h _ => exact .ok h.rel.2.1
  | reentrant h hfg => exact .reentrant h.rel.2.1 (hsignal _ _ hfg)
  | exhausted he => exact .exhausted (hE he)
  | strayed _ _ hs => exact hs.elim
  | strayedReentrant _ _ hs => exact hs.elim

theorem ended (op : Operation α) (s : State) : Ended p s (op.perform p s) := by
  have hI := Inherited.trivial p
  refine ended_of_pairs (Pairing.bracketing.operation hI (Pairing.bracketing.pairsOn_evaluate hI)
    (fun _ => id) ⟨rfl, .refl s, trivial⟩ op) (fun f g hfg => ?_) id
  exact hfg.1 ▸ hfg.2

/-- With nothing in flight an operation has a result, if the tree lets it end. -/
theorem perform_ok (hd : p.tree.Descending) (op : Operation α) {s : State}
    (hs : s.inFlight.visiting = []) : ∃ a s', op.perform p s = .ok a s' ∧ s.Settles s' := by
  have hend := op.ended (p := p) s
  generalize op.perform p s = r at hend
  cases hend with
  | ok h => exact ⟨_, _, rfl, h⟩
  | reentrant _ hf =>
      rw [hs] at hf
      cases hf
  | exhausted hnot => exact absurd hd hnot

end Operation

/-! ### Bounds on the depth -/

/-- A bound that covers the need is as good as any. -/
theorem Infer.evaluateWithin_eq_evaluate {p : Program} (hd : p.tree.Descending) {n : Nat}
    {s : State} {expr : NodeRef} (hn : p.need s.room expr ≤ n) (scope : ScopeId) :
    evaluateWithin p n scope expr s = p.evaluate scope expr s := by
  have L := Pairing.bracketing.lawful (Inherited.trivial p)
  have heq : ∀ {n m : Nat}, p.need s.room expr ≤ n → n ≤ m →
      evaluateWithin p n scope expr s = evaluateWithin p m scope expr s := by
    intro n m hn hnm
    have h := L.pairsWithin State.room id (evaluateWithin p) (evaluateWithin p)
      (fun _ _ => rfl) (fun _ _ _ _ h scope => h scope trivial) hnm expr scope s s s
      ⟨rfl, .refl s, trivial⟩
    refine Pairing.bracketing.eq_of_pairs (h.mono fun _ _ _ _ _ => ?_) (fun f g hfg => hfg.1) ?_
    · exact Pairing.bracketing.diagonal.sameFound_iff.1
    · exact fun he => absurd (he hd) (Nat.not_lt.2 hn)
  have hbudget : p.need s.room expr ≤ p.budget s := p.need_le_budget s expr
  change _ = evaluateWithin p (p.budget s) scope expr s
  rcases Nat.le_total n (p.budget s) with h | h
  · exact heq hn h
  · exact (heq hbudget h).symm

/-- Evaluation with a bound agrees with evaluation wherever the bound covers
every expression. -/
theorem Pairing.bracketing.pairsOn_evaluateWithin {p : Program} {I : State → Prop}
    (hI : Inherited p I) (hd : p.tree.Descending) (n : Nat) (expr : NodeRef) :
    (bracketing I).PairsOn (fun w => n < p.budget w) (Infer.evaluateWithin p n) p.evaluate
      expr := by
  intro scope w s t h
  have hw : p.budget s = p.budget w := by
    unfold Program.budget
    rw [show _ + _ = _ + _ from h.2.1.room_eq]
  have hn := fun {m : Nat} (hm : n ≤ m) => (lawful hI).pairsWithin State.room id
    (Infer.evaluateWithin p) (Infer.evaluateWithin p) (fun _ _ => rfl)
    (fun _ _ _ _ h scope => h scope trivial) hm expr scope w s t h
  obtain rfl := h.1
  have hroom : s.room = State.room w := h.2.1.room_eq
  have hneed := p.need_le_budget s expr
  rcases Nat.le_total n (p.budget s) with hle | hle
  · refine (hn hle).imp (fun _ _ => id) (fun he => ?_) fun _ _ _ _ _ => id
    rw [hroom, hw] at hneed
    exact Nat.lt_of_lt_of_le (he hd) hneed
  · have heq := Infer.evaluateWithin_eq_evaluate hd (Nat.le_trans hneed hle) scope
    have hself := hn (Nat.le_refl n)
    unfold Pairs at hself ⊢
    rw [← heq]
    refine Pairs.imp hself (fun _ _ => id) (fun he => ?_) fun _ _ _ _ _ => id
    rw [hroom] at hneed
    exact absurd (he hd) (Nat.not_lt.2 (Nat.le_trans hneed hle))

/-- Evaluation satisfies its own recursion. -/
theorem Program.evaluate_eq_step {p : Program} (hd : p.tree.Descending) (scope : ScopeId)
    (expr : NodeRef) (s : State) :
    p.evaluate scope expr s = Infer.evaluateStep p p.evaluate scope expr s := by
  have hI := Inherited.trivial p
  have hneed := p.need_le_budget s expr
  have H := Pairing.bracketing.pairsOn_evaluateWithin hI hd (p.budget s)
  have D : (Pairing.bracketing fun _ => True).Within p (fun w => p.budget s < p.budget w)
      (fun w => p.budget s < p.budget w) (Infer.evaluateWithin p (p.budget s)) p.evaluate := by
    refine .of_forall H fun {w w'} h hw => Nat.lt_trans hw ?_
    exact Nat.mul_lt_mul_of_pos_right (Nat.succ_lt_succ h) (Nat.succ_pos _)
  have hstep := (Pairing.bracketing.lawful hI).evaluateStep (.of_forall H) D scope
    expr trivial (fun _ _ _ _ _ => trivial) s s s ⟨rfl, .refl s, trivial⟩
  rw [← Infer.evaluateWithin_eq_evaluate hd (Nat.le_succ_of_le hneed) scope]
  refine Pairing.bracketing.eq_of_pairs (hstep.mono fun _ _ _ _ _ => ?_) (fun f g hfg => hfg.1)
    (Nat.lt_irrefl _)
  exact Pairing.bracketing.diagonal.sameFound_iff.1

/-- Every operation is the same under a bound that covers the budget. -/
theorem Operation.run_evaluateWithin {p : Program} (hd : p.tree.Descending) {α : Type}
    (op : Operation α) {s : State} {n : Nat} (hn : p.budget s ≤ n) :
    op.run p (Infer.evaluateWithin p n) s = op.perform p s := by
  have hI := Inherited.trivial p
  refine Pairing.bracketing.eq_of_pairs
    (Pairing.bracketing.operation hI (Pairing.bracketing.pairsOn_evaluateWithin hI hd n)
      (fun {w w'} h hw => Nat.lt_trans hw ?_) ⟨rfl, .refl s, trivial⟩ op)
    (fun f g hfg => hfg.1) (Nat.not_lt.2 hn)
  exact Nat.mul_lt_mul_of_pos_right (Nat.succ_lt_succ h) (Nat.succ_pos _)

/-! ### Watching -/

namespace Infer

/-- Evaluation that stops the whole run when it meets a state that fails a test. -/
def evaluateWatching (p : Program) (ok : State → Prop) [DecidablePred ok] : Nat → Evaluator
  | 0, _, _ => throw .exhausted
  | fuel + 1, scope, expr => fun s =>
    if ok s then evaluateStep p (evaluateWatching p ok fuel) scope expr s
    else .error (.misuse .notVisiting) s

end Infer

/-- Runs pair while the first of them is watched for something that is the case whenever
their states correspond. -/
theorem Pairing.Lawful.pairsOn_watching {R : Pairing} {p : Program} {W : State → Prop}
    [DecidablePred W] (L : R.Lawful p) (room : R.World → Nat)
    (hroom : ∀ {w w' : R.World}, R.inside w w' → room w' < room w)
    (hrel : ∀ {w : R.World} {s t : State}, R.rel w s t →
      s.room = room w ∧ p.budget s = p.budget t)
    (hmay : ∀ scope expr, R.may scope expr)
    (hW : ∀ {w : R.World} {s t : State}, R.rel w s t → W s) (expr : NodeRef) :
    R.PairsOn (fun _ => ¬ p.tree.Descending) (p.evaluateBy (Infer.evaluateWatching p W)) p.evaluate
      expr := by
  refine L.pairsOn_evaluateBy room hroom hrel (fun _ _ => rfl) (fun n m expr excused h => ?_) expr
  intro scope w s t hst
  have hrun : Infer.evaluateWatching p W (n + 1) scope expr s =
      Infer.evaluateStep p (Infer.evaluateWatching p W n) scope expr s := if_pos (hW hst)
  have hpairs := h scope (hmay scope expr) w s t hst
  unfold Pairing.Pairs at hpairs ⊢
  rw [hrun]
  exact hpairs

namespace Operation

variable {p : Program} {I : State → Prop} [DecidablePred I] {α : Type}

/-- Carry out an operation, watching every state in which an expression is
evaluated. -/
def watch (p : Program) (I : State → Prop) [DecidablePred I] (op : Operation α) : Infer α :=
  op.run p (p.evaluateBy (Infer.evaluateWatching p I))

theorem pairsOn_watching (hI : Inherited p I) (expr : NodeRef) :
    (Pairing.bracketing I).PairsOn (fun _ => ¬ p.tree.Descending)
      (p.evaluateBy (Infer.evaluateWatching p I)) p.evaluate expr :=
  (Pairing.bracketing.lawful hI).pairsOn_watching State.room id Pairing.bracketing.room_and_budget
    (fun _ _ => trivial) (fun h => hI.settles h.2.2 h.2.1) expr

/-- An inherited invariant that holds at the start of an operation is never found
to fail. -/
theorem watch_ended (hI : Inherited p I) (op : Operation α) {s : State} (hs : I s) :
    Ended p s (op.watch p I s) ∧
      (p.tree.Descending → op.watch p I s = op.perform p s) := by
  have h := Pairing.bracketing.operation hI (pairsOn_watching hI) (fun _ => id)
    ⟨rfl, .refl s, hs⟩ op
  refine ⟨ended_of_pairs h (fun f g hfg => hfg.1 ▸ hfg.2) id, fun hd => ?_⟩
  exact Pairing.bracketing.eq_of_pairs h (fun f g hfg => hfg.1) fun he => he hd

end Operation

/-! ### Avoiding -/

/-- Evaluation that gives up on an expression that fails a test. -/
def Infer.evaluateAvoiding (p : Program) (ok : ScopeId → NodeRef → Bool) : Nat → Evaluator
  | 0, _, _ => throw .exhausted
  | fuel + 1, scope, expr =>
    if ok scope expr then evaluateStep p (evaluateAvoiding p ok fuel) scope expr
    else throw .exhausted

def Program.avoiding (p : Program) (ok : ScopeId → NodeRef → Bool) : Evaluator :=
  p.evaluateBy (Infer.evaluateAvoiding p ok)

/-- Runs pair if the first of them has kept away from wherever it may not make a
container. -/
theorem Pairing.Lawful.pairsOn_avoiding {R : Pairing} {p : Program} (L : R.Lawful p)
    {ok : ScopeId → NodeRef → Bool}
    (hok : ∀ {scope : ScopeId} {expr : NodeRef}, ok scope expr = true → R.may scope expr)
    (hbudget : ∀ {w : R.World} {s t : State}, R.rel w s t → p.budget s = p.budget t)
    (expr : NodeRef) : R.PairsOn (fun _ => True) (p.avoiding ok) p.evaluate expr := by
  intro scope w s t h
  refine L.pairsAnyhow (Infer.evaluateAvoiding p ok) (Infer.evaluateWithin p) (fun _ _ => rfl)
    (fun n m expr hstep scope w s t h => ?_) (Nat.le_of_eq (hbudget h)) expr scope w s t h
  by_cases hexpr : ok scope expr = true
  · have hrun : Infer.evaluateAvoiding p ok (n + 1) scope expr =
        Infer.evaluateStep p (Infer.evaluateAvoiding p ok n) scope expr := if_pos hexpr
    rw [hrun]
    exact hstep scope (hok hexpr) w s t h
  · have hrun : Infer.evaluateAvoiding p ok (n + 1) scope expr = throw .exhausted := if_neg hexpr
    rw [hrun]
    exact .exhausted trivial

/-- An operation that has given up on nothing is the operation. -/
theorem Operation.run_avoiding (p : Program) {α : Type} (op : Operation α)
    (ok : ScopeId → NodeRef → Bool) (s : State) :
    (∃ s', op.run p (p.avoiding ok) s = .error .exhausted s') ∨
      op.run p (p.avoiding ok) s = op.perform p s := by
  have hI := Inherited.trivial p
  have H : ∀ e, (Pairing.bracketing fun _ => True).PairsOn (fun _ => True) (p.avoiding ok)
      p.evaluate e :=
    (Pairing.bracketing.lawful hI).pairsOn_avoiding (fun _ => trivial)
      fun {_ _ _} h => congrArg p.budget h.1
  have h := Pairing.bracketing.operation hI H (fun _ => id) ⟨rfl, .refl s, trivial⟩ op
  unfold Pairing.Pairs at h
  change _ ∨ _ = op.run p p.evaluate s
  generalize op.run p (p.avoiding ok) s = r, op.run p p.evaluate s = r' at h ⊢
  cases h with
  | ok h hab =>
      obtain rfl := h.rel.1
      rw [show _ = _ from hab]
      exact .inr rfl
  | reentrant h hfg =>
      obtain rfl := h.rel.1
      rw [hfg.1]
      exact .inr rfl
  | exhausted _ => exact .inl ⟨_, rfl⟩
  | strayed _ _ hs => exact hs.elim
  | strayedReentrant _ _ hs => exact hs.elim

/-! ### Sessions -/

namespace Session

variable {s : Session} {t : State}

theorem run_of_ok {α : Type} {x : Infer α} {a : α} (h : x s.state = .ok a t) :
    s.run x = (.ok a, { s with state := t }) := by
  unfold run
  rw [h]

theorem analyze_of_ok
    (h : Infer.analyze s.program s.options s.program.module (fun _ => true) (fun _ => true)
      s.state = .ok () t) :
    s.analyze = (.ok t.stats, { s with state := t }) :=
  run_of_ok (Infer.bind_of_ok h)

end Session

end ObjectInference
