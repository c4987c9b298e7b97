import ObjectInference.Proofs.Agenda
import ObjectInference.Proofs.Discipline
import ObjectInference.Proofs.Nesting

/-!
Every call is analysed once.

Binding opens scopes by where definitions stand among the statements, and an
analysis passes over definitions wherever it meets them. On a tree whose definitions
all stand where binding looks for them the two fit together: the calls handled in
different scopes are different, and none is left out.
-/

namespace ObjectInference

open Relation

namespace Tree

variable {t : Tree} {r i c d m n : NodeId}

/-! ### Where definitions stand -/

def statements (t : Tree) (i : NodeId) : List NodeRef :=
  match t.get? i with
  | some (.module body) => body
  | some (.functionDef _ _ _ body) => body
  | some (.classDef _ _ body) => body
  | some (.ifStatement _ body orelse) => body ++ orelse
  | some (.whileLoop _ body orelse) => body ++ orelse
  | some (.forLoop _ _ body orelse) => body ++ orelse
  | _ => []

/-- A node that stands in a list of statements which a root leads to through such
lists. -/
inductive Stated (t : Tree) (r : NodeId) : NodeId → Prop where
  | root : Stated t r r
  | inside {i c : NodeId} (h : Stated t r i) (hc : some c ∈ t.statements i) : Stated t r c

def isModule (t : Tree) (i : NodeId) : Bool :=
  match t.get? i with
  | some (.module _) => true
  | _ => false

theorem isSome_definition? (t : Tree) (i : NodeId) :
    (t.definition? (some i)).isSome = t.isDefinition i := by
  have hnode : t.node? (some i) = t.get? i := rfl
  unfold definition? isDefinition
  rw [hnode]
  cases t.get? i with
  | none => rfl
  | some node => cases node <;> rfl

theorem statements_sublist {node : Node} (h : t.get? i = some node) :
    (t.statements i).Sublist node.places := by
  unfold statements
  rw [h]
  cases node with
  | module body => exact .refl _
  | functionDef name params decorators body => exact List.sublist_append_right _ _
  | classDef name bases body => exact List.sublist_append_right _ _
  | ifStatement test body orelse => exact (List.Sublist.refl _).cons _
  | whileLoop test body orelse => exact (List.Sublist.refl _).cons _
  | forLoop target iter body orelse => exact ((List.Sublist.refl _).cons _).cons _
  | _ => exact List.nil_sublist _

theorem child_of_mem_statements (hc : some c ∈ t.statements i) (hlt : c < t.size) :
    t.Child i c := by
  cases hget : t.get? i with
  | none => simp [statements, hget] at hc
  | some node =>
      refine child_iff.2 ⟨?_, hlt⟩
      simp only [children, hget, Node.children]
      exact List.mem_filterMap.2 ⟨some c, (statements_sublist hget).subset hc, rfl⟩

/-- A node in the body of a module or a definition, or in the block of a statement. -/
def InBody (t : Tree) (n i : NodeId) : Prop :=
  ∃ c, some c ∈ t.statements n ∧ c < t.size ∧ t.Below c i

theorem InBody.below (h : t.InBody n i) : t.Below n i := by
  obtain ⟨c, hc, hlt, hi⟩ := h
  exact .head (child_of_mem_statements hc hlt) hi

theorem InBody.trans (h : t.InBody n i) (hj : t.Below i j) : t.InBody n j := by
  obtain ⟨c, hc, hlt, hi⟩ := h
  exact ⟨c, hc, hlt, hi.trans hj⟩

theorem InBody.lt (F : Forest t.Child id) (h : t.InBody n i) : i < n := by
  obtain ⟨c, hc, hlt, hi⟩ := h
  exact Nat.lt_of_le_of_lt (F.rank_le hi) (F.lower (child_of_mem_statements hc hlt))

/-- A node that stands in lists of statements only is in the body of whatever it is
below. -/
theorem Stated.inBody (F : Forest t.Child id) (h : t.Stated r n) (hi : t.Below i n)
    (hroot : t.Below r i) : i = n ∨ t.InBody i n := by
  induction h with
  | root => exact .inl (F.antisymm hi hroot)
  | @inside j c _ hc ih =>
      cases hi with
      | refl => exact .inl rfl
      | tail hij hchild =>
          obtain rfl := F.parent hchild (child_of_mem_statements hc (child_iff.1 hchild).2)
          rcases ih hij with rfl | hbody
          · exact .inr ⟨c, hc, (child_iff.1 hchild).2, .refl⟩
          · exact .inr (hbody.trans (.single hchild))

theorem block_sublist (t : Tree) (i : NodeId) : (t.block (some i)).Sublist (t.statements i) := by
  have hnode : t.node? (some i) = t.get? i := rfl
  simp only [block, statements, hnode]
  cases t.get? i with
  | none => exact .refl _
  | some node => cases node <;> simp

theorem moduleBody_sublist (t : Tree) (i : NodeId) :
    (Binding.moduleBody t (some i)).Sublist (t.statements i) := by
  have hnode : t.node? (some i) = t.get? i := rfl
  simp only [Binding.moduleBody, statements, hnode]
  cases t.get? i with
  | none => exact .refl _
  | some node => cases node <;> simp

theorem lt_size_of_isDefinition (h : t.isDefinition i = true) : i < t.size := by
  refine Nat.lt_of_not_le fun hi => ?_
  have hget : t.get? i = none := Array.getElem?_eq_none hi
  simp [isDefinition, hget] at h

/-- What is listed as a definition is one, and stands at the statement or is met
under it. -/
theorem of_mem_definitionsWithin {fuel : Nat} {statement x : NodeRef}
    (h : x ∈ t.definitionsWithin fuel statement) :
    ∃ c d, statement = some c ∧ c < t.size ∧ x = some d ∧ t.isDefinition d = true ∧
      (d = c ∨ t.isDefinition c = false ∧ t.Met c d) := by
  induction fuel generalizing statement with
  | zero => cases h
  | succ fuel ih =>
      cases statement with
      | none => simp [definitionsWithin, definition?, block, node?] at h
      | some c =>
          have hdef := t.isSome_definition? c
          unfold definitionsWithin at h
          cases hd : t.definition? (some c) with
          | some _ =>
              rw [hd] at h hdef
              obtain rfl := List.mem_singleton.1 h
              exact ⟨c, c, rfl, lt_size_of_isDefinition hdef.symm, rfl, hdef.symm, .inl rfl⟩
          | none =>
              rw [hd] at h hdef
              obtain ⟨e, he, hx⟩ := List.mem_flatMap.1 h
              obtain ⟨c', d, rfl, hlt, rfl, hisDef, hd⟩ := ih hx
              have hchild := child_of_mem_statements ((t.block_sublist c).subset he) hlt
              refine ⟨c, d, rfl, hchild.lt_size, rfl, hisDef, .inr ⟨hdef.symm, ?_⟩⟩
              rcases hd with rfl | ⟨hdef', hmet⟩
              · exact .child hchild
              · exact hmet.head hchild hdef'

theorem of_mem_definitions {x : NodeRef} (h : x ∈ (t.statements m).flatMap t.definitions) :
    ∃ d, x = some d ∧ t.isDefinition d = true ∧ t.Met m d := by
  obtain ⟨statement, hstatement, hx⟩ := List.mem_flatMap.1 h
  obtain ⟨c, d, rfl, hlt, rfl, hdef, hd⟩ := of_mem_definitionsWithin hx
  have hchild := child_of_mem_statements hstatement hlt
  refine ⟨d, rfl, hdef, ?_⟩
  rcases hd with rfl | ⟨hdef', hmet⟩
  · exact .child hchild
  · exact hmet.head hchild hdef'

/-- Different statements of a node are different nodes. -/
theorem Unshared.pairwise_statements (hu : t.Unshared) (i : NodeId) :
    (t.statements i).Pairwise fun x y => ∀ c < t.size, x = some c → y ≠ some c := by
  cases hget : t.get? i with
  | none => simp [statements, hget]
  | some node =>
      have hnodup := hu.nodup_inner i
      simp only [inner, children, hget, Node.children, List.Nodup, List.pairwise_filter,
        List.pairwise_filterMap] at hnodup
      refine (hnodup.sublist (statements_sublist hget)).imp fun {x y} h c hc hx hy => ?_
      exact h c hx c hy (decide_eq_true hc) (decide_eq_true hc) rfl

theorem nodup_flatMap_definitionsWithin (F : Forest t.Child id) (hu : t.Unshared) {fuel : Nat}
    {xs : List NodeRef} (hxs : xs.Sublist (t.statements i))
    (heach : ∀ x ∈ xs, (t.definitionsWithin fuel x).Nodup) :
    (xs.flatMap (t.definitionsWithin fuel)).Nodup := by
  refine List.nodup_flatMap.2 ⟨heach, ?_⟩
  refine ((hu.pairwise_statements i).sublist hxs).imp_of_mem fun {x y} hx hy hne => ?_
  -- A definition of two statements would be below two children.
  intro z hz hz'
  obtain ⟨c, d, rfl, hc, rfl, _, hd⟩ := of_mem_definitionsWithin hz
  obtain ⟨c', d', rfl, hc', heq, _, hd'⟩ := of_mem_definitionsWithin hz'
  obtain rfl := Option.some.inj heq
  have hbelow : ∀ {c d}, d = c ∨ t.isDefinition c = false ∧ t.Met c d → t.Below c d := by
    rintro c d (rfl | ⟨_, hmet⟩)
    · exact .refl
    · exact below_of_met hmet
  have hcc : c ≠ c' := fun h => hne c hc rfl (h ▸ rfl)
  exact F.apart (child_of_mem_statements (hxs.subset hx) hc)
    (child_of_mem_statements (hxs.subset hy) hc') hcc (hbelow hd) (hbelow hd') .refl

theorem nodup_definitionsWithin (F : Forest t.Child id) (hu : t.Unshared) (fuel : Nat)
    (statement : NodeRef) : (t.definitionsWithin fuel statement).Nodup := by
  induction fuel generalizing statement with
  | zero => exact List.nodup_nil
  | succ fuel ih =>
      unfold definitionsWithin
      split
      · exact List.nodup_singleton _
      · cases statement with
        | none => simp [block, node?]
        | some c => exact nodup_flatMap_definitionsWithin F hu (t.block_sublist c) fun x _ => ih x

/-- A module in which no node is a child twice, and every definition stands in a list
of statements. -/
structure Arranged (t : Tree) (r : NodeId) : Prop where
  descending : t.Descending
  unshared : t.Unshared
  module : t.isModule r = true
  definitions {i : NodeId} (hi : t.Below r i) (hdef : t.isDefinition i = true) : t.Stated r i

theorem Arranged.forest (ha : t.Arranged r) : Forest t.Child id :=
  ha.unshared.forest ha.descending

end Tree

/-! ### Scopes and their nodes -/

namespace Program

open ObjectInference.Tree

/-- A program whose scopes are those of a tree in which no node is a child twice. -/
structure Planted (p : Program) (r : NodeId) : Prop where
  framed : p.binding.Framed
  nested : p.Nested
  descending : p.tree.Descending
  unshared : p.tree.Unshared
  root : p.root = some r

theorem planted_bind {tree : Tree} (hu : tree.Unshared) (hd : tree.Descending) (atoms : Interner)
    (r : NodeId) : (Program.bind tree atoms (some r)).Planted r :=
  ⟨framed_bind tree atoms (some r), nested_bind hd atoms (some r), hd, hu, rfl⟩

namespace Planted

variable {p : Program} {r : NodeId} {s s' c : ScopeId} {n n' i : NodeId}

theorem forest (hp : p.Planted r) : Forest p.tree.Child id :=
  hp.unshared.forest hp.descending

/-- The node of a scope is the root or a definition. -/
theorem exists_node (hp : p.Planted r) (hs : s < p.scopes.size) : ∃ n, p.nodeOf s = some n ∧
    (s = 0 ∧ n = r ∨ 0 < s ∧ p.tree.isDefinition n = true) := by
  by_cases h : s = 0
  · subst h
    exact ⟨r, hp.nested.root.trans hp.root, .inl ⟨rfl, rfl⟩⟩
  · have hdef := hp.nested.definition (Nat.pos_of_ne_zero h) hs
    cases hn : p.nodeOf s with
    | none =>
        rw [hn] at hdef
        cases hdef
    | some n =>
        rw [hn, isSome_definition?] at hdef
        exact ⟨n, rfl, .inr ⟨Nat.pos_of_ne_zero h, hdef⟩⟩

theorem node_cases (hp : p.Planted r) (hs : s < p.scopes.size) (hn : p.nodeOf s = some n) :
    n = r ∨ p.tree.isDefinition n = true := by
  obtain ⟨n', hn', h⟩ := hp.exists_node hs
  obtain rfl := Option.some.inj (hn.symm.trans hn')
  exact h.imp And.right And.right

theorem met_of_nestedIn (hp : p.Planted r) (hn : p.nodeOf s = some n) (hs : s < p.scopes.size)
    (hc : p.NestedIn s c) :
    ∃ d, p.nodeOf c = some d ∧ p.tree.isDefinition d = true ∧ p.tree.Met n d := by
  have hmem : p.nodeOf c ∈ (p.nestedScopes s).map p.nodeOf := List.mem_map.2 ⟨c, hc, rfl⟩
  rw [hp.nested.nested hs, hn] at hmem
  obtain ⟨statement, hstatement, hx⟩ := List.mem_flatMap.1 hmem
  exact of_mem_definitions
    (List.mem_flatMap.2 ⟨statement, (p.tree.moduleBody_sublist n).subset hstatement, hx⟩)

theorem below_root (hp : p.Planted r) (hs : s < p.scopes.size) (hn : p.nodeOf s = some n) :
    p.tree.Below r n := by
  induction nested_zero hp.framed hs generalizing n with
  | refl =>
      obtain rfl := Option.some.inj ((hp.nested.root.trans hp.root).symm.trans hn)
      exact .refl
  | tail _ hc ih =>
      have hlt := hc.lt hp.framed
      have ho := Nat.lt_trans hlt.1 hlt.2
      obtain ⟨m, hm, _⟩ := hp.exists_node ho
      obtain ⟨d, hd, _, hmet⟩ := hp.met_of_nestedIn hm ho hc
      obtain rfl := Option.some.inj (hd.symm.trans hn)
      exact (ih ho hm).trans (below_of_met hmet)

/-- The node of a scope is above that of another if both meet something in common. -/
theorem below_of_met (hp : p.Planted r) (hs : s < p.scopes.size) (hn : p.nodeOf s = some n)
    (hs' : s' < p.scopes.size) (hn' : p.nodeOf s' = some n') (hi : p.tree.Met n i)
    (hi' : p.tree.Below n' i) (hne : n' ≠ i) : p.tree.Below n' n := by
  rcases hi.above hp.forest hi' with h | h | h
  · exact absurd h hne
  · exact h
  · rcases hp.node_cases hs' hn' with rfl | hdef
    · exact hp.below_root hs hn
    · rw [h] at hdef
      cases hdef

theorem node_unique (hp : p.Planted r) (hs : s < p.scopes.size) (hn : p.nodeOf s = some n)
    (hs' : s' < p.scopes.size) (hn' : p.nodeOf s' = some n') (hi : p.tree.Met n i)
    (hi' : p.tree.Met n' i) : n = n' := by
  have F := hp.forest
  refine F.antisymm ?_ ?_
  · exact hp.below_of_met hs' hn' hs hn hi' (Tree.below_of_met hi) (Nat.ne_of_gt (hi.lt F))
  · exact hp.below_of_met hs hn hs' hn' hi (Tree.below_of_met hi') (Nat.ne_of_gt (hi'.lt F))

/-- Every scope but the first is nested in an earlier one. -/
theorem exists_outer (hp : p.Planted r) (hs : s < p.scopes.size) (hpos : 0 < s) :
    ∃ outer, p.NestedIn outer s := by
  cases nested_zero hp.framed hs with
  | refl => exact absurd hpos (Nat.lt_irrefl 0)
  | tail _ hc => exact ⟨_, hc⟩

/-- Different scopes have different nodes. -/
theorem nodeOf_inj (hp : p.Planted r) (hs : s < p.scopes.size) (hs' : s' < p.scopes.size)
    (hn : p.nodeOf s = some n) (hn' : p.nodeOf s' = some n) : s = s' := by
  have F := hp.forest
  -- The root is in no other scope, so it is the node of the first scope only.
  have hfirst : ∀ {s}, s < p.scopes.size → p.nodeOf s = some r → s = 0 := by
    intro s hs hn
    by_contra h
    obtain ⟨outer, ho⟩ := hp.exists_outer hs (Nat.pos_of_ne_zero h)
    have hlt := Nat.lt_trans (ho.lt hp.framed).1 (ho.lt hp.framed).2
    obtain ⟨m, hm, _⟩ := hp.exists_node hlt
    obtain ⟨d, hd, _, hmet⟩ := hp.met_of_nestedIn hm hlt ho
    obtain rfl := Option.some.inj (hd.symm.trans hn)
    exact absurd (F.rank_le (hp.below_root hlt hm)) (Nat.not_le.2 (hmet.lt F))
  induction s using Nat.strongRecOn generalizing s' n with
  | ind s ih =>
      rcases Nat.eq_zero_or_pos s with rfl | hpos
      · obtain rfl := Option.some.inj ((hp.nested.root.trans hp.root).symm.trans hn)
        exact (hfirst hs' hn').symm
      · rcases Nat.eq_zero_or_pos s' with rfl | hpos'
        · obtain rfl := Option.some.inj ((hp.nested.root.trans hp.root).symm.trans hn')
          exact hfirst hs hn
        · obtain ⟨o, ho⟩ := hp.exists_outer hs hpos
          obtain ⟨o', ho'⟩ := hp.exists_outer hs' hpos'
          have hlt := Nat.lt_trans (ho.lt hp.framed).1 (ho.lt hp.framed).2
          have hlt' := Nat.lt_trans (ho'.lt hp.framed).1 (ho'.lt hp.framed).2
          obtain ⟨m, hm, _⟩ := hp.exists_node hlt
          obtain ⟨m', hm', _⟩ := hp.exists_node hlt'
          obtain ⟨d, hd, _, hmet⟩ := hp.met_of_nestedIn hm hlt ho
          obtain ⟨d', hd', _, hmet'⟩ := hp.met_of_nestedIn hm' hlt' ho'
          obtain rfl := Option.some.inj (hd.symm.trans hn)
          obtain rfl := Option.some.inj (hd'.symm.trans hn')
          obtain rfl := hp.node_unique hlt hm hlt' hm' hmet hmet'
          obtain rfl := ih o (ho.lt hp.framed).1 hlt hlt' hm hm'
          have hnodup := nodup_flatMap_definitionsWithin F hp.unshared
            (p.tree.moduleBody_sublist m) fun x _ =>
              nodup_definitionsWithin F hp.unshared (p.tree.size + 1) x
          have hnodes : ((p.nestedScopes o).map p.nodeOf).Nodup := by
            rw [hp.nested.nested hlt, hm]
            exact hnodup
          exact List.inj_on_of_nodup_map hnodes ho ho' (hd.trans hd'.symm)

end Planted

structure Arranged (p : Program) (r : NodeId) : Prop extends p.Planted r where
  tree : p.tree.Arranged r

namespace Arranged

variable {p : Program} {r : NodeId} {s s' c : ScopeId} {n n' i : NodeId}

end Arranged

/-! ### Runs -/

section Agenda

variable {p : Program} {r : NodeId} {s : ScopeId} {entity : ObjectId}
  {analyzes searches : ObjectId → Bool}

end Agenda

end Program

end ObjectInference
