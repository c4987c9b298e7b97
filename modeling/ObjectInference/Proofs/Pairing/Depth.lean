import ObjectInference.Proofs.Pairing.Evaluation

/-!
How deep evaluation goes.

An evaluation goes down the tree until a bracket is opened, and may be anywhere
in the tree then. Going down makes the height of the expression smaller, and a
bracket takes up room in one of the guards. `Program.need` counts both: it is
how many steps down an evaluation of an expression takes at most when the
guards have so much room.

`Lawful.pairsWithin` is the induction over these steps, for any pairing and any
two families of evaluators that step alike. Only runs whose bound is below the
need are excused.
-/

namespace ObjectInference

namespace Tree

theorem descending_iff {t : Tree} :
    t.Descending ↔ ∀ i < t.size, ∀ c ∈ t.children i, c < t.size → c < i := by
  refine ⟨fun h i _ => h i, fun h i c hc hlt => ?_⟩
  refine h i (Nat.lt_of_not_le fun hi => ?_) c hc hlt
  have hget : t.get? i = none := Array.getElem?_eq_none hi
  simp [children, hget] at hc

instance (t : Tree) : Decidable t.Descending :=
  decidable_of_iff' _ descending_iff

/-- One more than the number of nodes up to a node and itself; nothing is below
a place without a node. -/
def height (t : Tree) : NodeRef → Nat
  | some i => if t.size ≤ i then 1 else i + 2
  | none => 1

theorem height_pos (t : Tree) (r : NodeRef) : 0 < t.height r := by
  unfold height
  split
  · split <;> omega
  · omega

theorem height_le (t : Tree) (r : NodeRef) : t.height r ≤ t.size + 1 := by
  unfold height
  split
  · split <;> omega
  · omega

theorem lt_size_of_get? {t : Tree} {i : NodeId} {node : Node} (h : t.get? i = some node) :
    ¬ t.size ≤ i := by
  unfold get? at h
  exact Nat.not_le.2 (Array.getElem?_eq_some_iff.1 h).1

/-- On a descending tree every place is less high than the node it is in. -/
theorem height_lt {t : Tree} (ht : t.Descending) {e : NodeRef} {node : Node}
    (hn : t.node? e = some node) {r : NodeRef} (hr : r ∈ node.places) :
    t.height r < t.height e := by
  cases e with
  | none => simp [node?] at hn
  | some i =>
      have hget : t.get? i = some node := hn
      have hi := lt_size_of_get? hget
      have he : t.height (some i) = i + 2 := by simp [height, hi]
      rw [he]
      cases r with
      | none => simp [height]
      | some c =>
          have hc : c ∈ t.children i := by
            simp only [children, hget, Node.children]
            exact List.mem_filterMap.2 ⟨some c, hr, rfl⟩
          simp only [height]
          split
          · omega
          · rename_i hc'
            exact Nat.add_lt_add_right (ht i c hc (Nat.not_le.1 hc')) 2

end Tree

def State.room (s : State) : Nat :=
  s.inFlight.room + s.resolving.room

/-- How many steps down an evaluation of an expression takes at most. -/
def Program.need (p : Program) (room : Nat) (expr : NodeRef) : Nat :=
  room * (p.tree.size + 1) + p.tree.height expr

theorem Program.need_le_budget (p : Program) (s : State) (expr : NodeRef) :
    p.need s.room expr ≤ p.budget s := by
  have := p.tree.height_le expr
  unfold need budget State.room
  rw [Nat.succ_mul]
  omega

/-- Whatever is evaluated in less room needs fewer steps. -/
theorem Program.need_lt_of_room_lt (p : Program) {room room' : Nat} (h : room' < room)
    (expr expr' : NodeRef) : p.need room' expr' < p.need room expr := by
  have hexpr := p.tree.height_pos expr
  have hexpr' := p.tree.height_le expr'
  have hmul : (room' + 1) * (p.tree.size + 1) ≤ room * (p.tree.size + 1) :=
    Nat.mul_le_mul_right _ h
  rw [Nat.succ_mul] at hmul
  unfold need
  omega

namespace Pairing

variable {R : Pairing} {p : Program}

/-- A set of expressions in scopes that evaluation of them does not leave. -/
structure Closed (R : Pairing) (p : Program) (On : ScopeId → NodeRef → Prop) : Prop where
  below {scope : ScopeId} {e : NodeRef} (he : On scope e) : Under p On scope e
  leads {scope : ScopeId} {e : NodeRef} (he : R.Leads p scope e) : On scope e

theorem Closed.all : R.Closed p fun _ _ => True :=
  ⟨fun _ _ _ _ _ _ => trivial, fun _ => trivial⟩

/-- Runs with a smaller and a larger bound pair on a closed set, unless the smaller bound is
below the need. It is an excuse that it is below the height of the expression. -/
theorem Lawful.pairsWithinAmong (L : R.Lawful p) {On : ScopeId → NodeRef → Prop}
    (hOn : R.Closed p On) (room : R.World → Nat)
    (hroom : ∀ {w w' : R.World}, R.inside w w' → room w' < room w) (F F' : Nat → Evaluator)
    (hzero : ∀ scope expr, F 0 scope expr = throw .exhausted)
    (hstep : ∀ (n m : Nat) (expr : NodeRef) (excused : R.World → Prop), n ≤ m →
      (∀ w, (p.tree.Descending → n + 1 < p.tree.height expr) → excused w) →
      (∀ scope, On scope expr → R.may scope expr →
        R.PairsIn excused (Infer.evaluateStep p (F n)) (Infer.evaluateStep p (F' m)) scope expr) →
      ∀ scope, On scope expr → R.PairsIn excused (F (n + 1)) (F' (m + 1)) scope expr)
    {n m : Nat} (hnm : n ≤ m) {scope : ScopeId} {expr : NodeRef} (hon : On scope expr) :
    R.PairsIn (fun w => p.tree.Descending → n < p.need (room w) expr) (F n) (F' m) scope
      expr := by
  induction n generalizing m scope expr with
  | zero =>
      intro w s t h
      rw [hzero]
      refine .exhausted fun _ => ?_
      exact Nat.lt_of_lt_of_le (p.tree.height_pos expr) (Nat.le_add_left _ _)
  | succ n ih =>
      obtain ⟨m, rfl⟩ : ∃ k, m = k + 1 := ⟨m - 1, by omega⟩
      have ih : ∀ {scope e}, On scope e →
          R.PairsIn (fun w => p.tree.Descending → n < p.need (room w) e) (F n) (F' m) scope e :=
        ih (by omega)
      have hexcused : ∀ {P P' : R.World → Prop}, (∀ w, P w → P' w) → ∀ {scope} {e : NodeRef},
          R.PairsIn P (F n) (F' m) scope e → R.PairsIn P' (F n) (F' m) scope e :=
        fun hP _ _ h w s t hr => (h w s t hr).imp (fun _ _ => id) (hP w) fun _ _ _ _ _ => id
      -- Below the expression, on a descending tree, all is less high.
      have A : R.Agree p (fun w => p.tree.Descending → n + 1 < p.need (room w) expr) (F n)
          (F' m) fun scope r =>
            On scope r ∧ (p.tree.Descending → p.tree.height r < p.tree.height expr) := by
        refine ⟨fun he node hn hdef r hr => ⟨hOn.below he.1 node hn hdef r hr, fun hd => ?_⟩,
          fun {_ e} he => hexcused (fun w hw hd => ?_) (ih he.1)⟩
        · exact Nat.lt_trans (Tree.height_lt hd hn hr) (he.2 hd)
        · have hw := hw hd
          have he := he.2 hd
          unfold Program.need at hw ⊢
          omega
      -- Behind a bracket the expression may be anywhere, but there is less room.
      have D : R.Within p (fun w => p.tree.Descending → n + 1 < p.need (room w) expr)
          (fun w => p.tree.Descending → ∃ e, n < p.need (room w) e) (F n) (F' m) := by
        refine ⟨fun {_ e} he => hexcused (fun w hw hd => ⟨e, hw hd⟩) (ih (hOn.leads he)),
          fun {w w'} h hw hd => ?_⟩
        obtain ⟨e, he⟩ := hw hd
        have := p.need_lt_of_room_lt (hroom h) expr e
        omega
      refine hstep n m expr _ (Nat.le_of_succ_le_succ hnm) (fun w hw hd => ?_)
        (fun scope hon hmay => L.evaluateStep A D scope expr hmay fun node hn hdef r hr =>
          ⟨hOn.below hon node hn hdef r hr, fun hd => Tree.height_lt hd hn hr⟩) scope hon
      exact Nat.lt_of_lt_of_le (hw hd) (Nat.le_add_left _ _)

theorem Lawful.pairsWithinHeight (L : R.Lawful p) (room : R.World → Nat)
    (hroom : ∀ {w w' : R.World}, R.inside w w' → room w' < room w) (F F' : Nat → Evaluator)
    (hzero : ∀ scope expr, F 0 scope expr = throw .exhausted)
    (hstep : ∀ (n m : Nat) (expr : NodeRef) (excused : R.World → Prop), n ≤ m →
      (∀ w, (p.tree.Descending → n + 1 < p.tree.height expr) → excused w) →
      (∀ scope, R.may scope expr →
        R.PairsIn excused (Infer.evaluateStep p (F n)) (Infer.evaluateStep p (F' m)) scope expr) →
      R.PairsOn excused (F (n + 1)) (F' (m + 1)) expr)
    {n m : Nat} (hnm : n ≤ m) (expr : NodeRef) :
    R.PairsOn (fun w => p.tree.Descending → n < p.need (room w) expr) (F n) (F' m) expr :=
  fun _ => L.pairsWithinAmong .all room hroom F F' hzero
    (fun n m expr excused hle hlow h scope _ =>
      hstep n m expr excused hle hlow (fun scope => h scope trivial) scope) hnm trivial

theorem Lawful.pairsWithin (L : R.Lawful p) (room : R.World → Nat)
    (hroom : ∀ {w w' : R.World}, R.inside w w' → room w' < room w) (F F' : Nat → Evaluator)
    (hzero : ∀ scope expr, F 0 scope expr = throw .exhausted)
    (hstep : ∀ (n m : Nat) (expr : NodeRef) (excused : R.World → Prop),
      (∀ scope, R.may scope expr →
        R.PairsIn excused (Infer.evaluateStep p (F n)) (Infer.evaluateStep p (F' m)) scope expr) →
      R.PairsOn excused (F (n + 1)) (F' (m + 1)) expr)
    {n m : Nat} (hnm : n ≤ m) (expr : NodeRef) :
    R.PairsOn (fun w => p.tree.Descending → n < p.need (room w) expr) (F n) (F' m) expr :=
  L.pairsWithinHeight room hroom F F' hzero (fun n m expr excused _ _ => hstep n m expr excused)
    hnm expr

/-- Where every run may give up, nothing need be said of the bounds. -/
theorem Lawful.pairsAnyhow (L : R.Lawful p) (F F' : Nat → Evaluator)
    (hzero : ∀ scope expr, F 0 scope expr = throw .exhausted)
    (hstep : ∀ (n m : Nat) (expr : NodeRef),
      (∀ scope, R.may scope expr → R.PairsIn (fun _ => True) (Infer.evaluateStep p (F n))
        (Infer.evaluateStep p (F' m)) scope expr) →
      R.PairsOn (fun _ => True) (F (n + 1)) (F' (m + 1)) expr)
    {n m : Nat} (hnm : n ≤ m) (expr : NodeRef) : R.PairsOn (fun _ => True) (F n) (F' m) expr := by
  induction n generalizing m expr with
  | zero =>
      intro scope w s t h
      rw [hzero]
      exact .exhausted trivial
  | succ n ih =>
      obtain ⟨m, rfl⟩ : ∃ k, m = k + 1 := ⟨m - 1, by omega⟩
      have H := fun e => ih (m := m) (by omega) e
      exact hstep n m expr fun scope hmay =>
        L.evaluateStep (.of_forall H) (.of_forall H fun _ => id) scope expr hmay
          fun _ _ _ _ _ => trivial

end Pairing

end ObjectInference
