import Mathlib.Data.List.Basic
import ObjectInference.Proofs.Coverage
import ObjectInference.Proofs.Returning

/-!
Unpacking assignments.

The leaves of a target stand at the ends of the paths through its tuple and list displays,
and the leaves are listed with these paths in the order of the text. Three parts of the
program go by the paths. Binding defines the names among the leaves, an analysis simulates
the assignments to the items among them, and an assigned value is followed along a path into
its own displays as far as they go. If the path is there to its end, then what is assigned is
what the expression at its end resolves to, and nothing else of the value is evaluated.

`At` is the relation between an expression, a path and what stands at its end. It is the
same one for targets and for values, which is why they match.
-/

namespace ObjectInference

open Relation

namespace Tree

variable {t : Tree} {target leaf expr value r : NodeRef} {elements : List NodeRef}
  {path : List Nat} {i n : NodeId}

/-- What stands at a path through nested tuple and list displays. -/
inductive At (t : Tree) : NodeRef → List Nat → NodeRef → Prop where
  | here (expr : NodeRef) : At t expr [] expr
  | inside {expr element inner : NodeRef} {elements : List NodeRef} {position : Nat}
      {path : List Nat} (h : t.sequence? expr = some elements)
      (he : elements[position]? = some element) (hin : At t element path inner) :
      At t expr (position :: path) inner

/-- A path that is there is followed to its end. -/
theorem follow_of_at (h : t.At value path expr) : t.follow value path = (expr, []) := by
  induction h with
  | here expr => exact follow.eq_1 t expr
  | inside h he _ ih =>
      rw [follow, h, Option.bind_some, he]
      exact ih

/-! ### The leaves of a target -/

/-- Induction on the displays of a target. -/
theorem display_induction (ht : t.Descending) {motive : NodeRef → Prop}
    (leaf : ∀ target, t.sequence? target = none → motive target)
    (display : ∀ target elements, t.sequence? target = some elements →
      (∀ e ∈ elements, motive e) → motive target) (target : NodeRef) : motive target := by
  induction hn : t.height target using Nat.strongRecOn generalizing target with
  | _ n ih =>
  cases hs : t.sequence? target with
  | none => exact leaf target hs
  | some elements =>
      refine display target elements hs fun e he => ?_
      exact ih _ (hn ▸ height_lt_of_sequence? ht hs he) e rfl

theorem leaves_of_none (h : t.sequence? target = none) : t.leaves target = [(target, [])] := by
  rw [leaves, leavesWithin, h]

theorem leaves_of_some (ht : t.Descending) (h : t.sequence? target = some elements) :
    t.leaves target = elements.zipIdx.flatMap fun (element, position) =>
      (t.leaves element).map fun (leaf, path) => (leaf, position :: path) := by
  rw [leaves, leavesWithin, h]
  refine List.flatMap_congr fun e he => ?_
  have hlt := height_lt_of_sequence? ht h (List.fst_mem_of_mem_zipIdx he)
  have hle := t.height_le target
  have heq : t.leavesWithin t.size e.1 = t.leaves e.1 :=
    leavesWithin_eq ht (by omega) (t.height_le e.1)
  simp only [heq]

/-- A leaf is listed with every path that leads to it. -/
theorem mem_leaves (ht : t.Descending) :
    (leaf, path) ∈ t.leaves target ↔ t.At target path leaf ∧ t.sequence? leaf = none := by
  constructor
  · induction target using display_induction ht generalizing path with
    | leaf target hs =>
        intro h
        rw [leaves_of_none hs] at h
        cases List.mem_singleton.1 h
        exact ⟨.here _, hs⟩
    | display target elements hs ih =>
        intro h
        rw [leaves_of_some ht hs] at h
        obtain ⟨⟨element, position⟩, he, h⟩ := List.mem_flatMap.1 h
        obtain ⟨⟨leaf', path'⟩, hleaf, heq⟩ := List.mem_map.1 h
        cases heq
        obtain ⟨hat, hnone⟩ := ih element (List.fst_mem_of_mem_zipIdx he) hleaf
        exact ⟨.inside hs (List.mem_zipIdx_iff_getElem?.1 he) hat, hnone⟩
  · rintro ⟨hat, hnone⟩
    induction hat with
    | here expr =>
        rw [leaves_of_none hnone]
        exact List.mem_singleton_self _
    | inside hs he _ ih =>
        rw [leaves_of_some ht hs]
        refine List.mem_flatMap.2 ⟨(_, _), List.mem_zipIdx_iff_getElem?.2 he, ?_⟩
        exact List.mem_map.2 ⟨_, ih hnone, rfl⟩

theorem pairwise_snd_zipIdx {α : Type} (xs : List α) :
    xs.zipIdx.Pairwise fun a b => a.2 < b.2 := by
  apply List.pairwise_map.1
  rw [List.zipIdx_map_snd]
  exact List.pairwise_lt_range'

/-- The leaves are listed in the order of their paths, which is that of the text. -/
theorem pairwise_leaves (ht : t.Descending) (target : NodeRef) :
    (t.leaves target).Pairwise fun a b => a.2 < b.2 := by
  induction target using display_induction ht with
  | leaf target hs =>
      rw [leaves_of_none hs]
      exact List.pairwise_singleton _ _
  | display target elements hs ih =>
      rw [leaves_of_some ht hs, List.pairwise_flatMap]
      refine ⟨fun e he => ?_, (pairwise_snd_zipIdx elements).imp fun hlt => ?_⟩
      · rw [List.pairwise_map]
        refine (ih e.1 (List.fst_mem_of_mem_zipIdx he)).imp fun h => ?_
        exact List.cons_lt_cons_iff.2 (.inr ⟨rfl, h⟩)
      · intro x hx y hy
        obtain ⟨x', _, rfl⟩ := List.mem_map.1 hx
        obtain ⟨y', _, rfl⟩ := List.mem_map.1 hy
        exact List.cons_lt_cons_iff.2 (.inl hlt)

/-! ### Names and items -/

/-- The names that an assignment defines, each with the value and the path to its place. -/
def assignedNames (t : Tree) (statement : NodeRef) : List (Atom × Definition) :=
  match t.node? statement with
  | some (.assign targets value) => (targets.flatMap t.leaves).filterMap fun (leaf, path) =>
      (t.name? leaf).map fun name => (name, .assigned value path)
  | _ => []

/-- A subscript with a plain index, so not with a slice. -/
def IsItem (t : Tree) (r : NodeRef) : Prop :=
  ∃ container slice index, t.node? r = some (.subscript container slice) ∧
    t.node? slice = some (.index index)

theorem isSome_simpleIndex? : (t.simpleIndex? r).isSome = true ↔ t.IsItem r := by
  unfold simpleIndex? IsItem
  constructor
  · intro h
    split at h
    · rename_i container slice hr
      split at h
      · rename_i index hslice
        exact ⟨container, slice, index, hr, hslice⟩
      · cases h
    · cases h
  · rintro ⟨container, slice, index, hr, hslice⟩
    rw [hr]
    simp only
    rw [hslice]
    rfl

instance (t : Tree) (r : NodeRef) : Decidable (t.IsItem r) :=
  decidable_of_iff _ isSome_simpleIndex?

theorem itemTargets_eq (t : Tree) (targets : List NodeRef) :
    t.itemTargets targets = (targets.flatMap t.leaves).filter fun leaf => t.IsItem leaf.1 := by
  refine List.filter_congr fun leaf _ => ?_
  rw [Bool.eq_iff_iff, isSome_simpleIndex?, decide_eq_true_iff]

/-! ### Statements that an analysis meets -/

theorem isDefinition_of_mem_block (h : r ∈ t.block (some i)) : t.isDefinition i = false := by
  have hnode : t.node? (some i) = t.get? i := rfl
  unfold block at h
  unfold isDefinition
  rw [hnode] at h
  cases hget : t.get? i with
  | none => rfl
  | some node =>
      rw [hget] at h
      cases node with
      | functionDef => cases h
      | classDef => cases h
      | _ => rfl

/-- The statements inside a statement are met under it. -/
theorem met_of_mem_statementsWithin {fuel : Nat} {c : NodeId}
    (h : some i ∈ t.statementsWithin fuel (some c)) (hlt : i < t.size) :
    i = c ∨ t.isDefinition c = false ∧ t.Met c i := by
  induction fuel generalizing c with
  | zero => cases h
  | succ fuel ih =>
      rw [statementsWithin, List.mem_cons, Option.some.injEq, List.mem_flatMap] at h
      obtain rfl | ⟨inner, hinner, hi⟩ := h
      · exact .inl rfl
      refine .inr ⟨isDefinition_of_mem_block hinner, ?_⟩
      cases inner with
      | none =>
          -- An empty place holds no statement.
          cases fuel with
          | zero => cases hi
          | succ fuel =>
              have hblock : t.block none = [] := rfl
              rw [statementsWithin, hblock] at hi
              cases List.mem_singleton.1 hi
      | some d =>
          have hchild : d < t.size → t.Child c d := fun hd =>
            child_of_mem_statements ((t.block_sublist c).subset hinner) hd
          obtain rfl | ⟨hdef, hmet⟩ := ih hi
          · exact .child (hchild hlt)
          · obtain ⟨e, he, _⟩ := met_iff.1 hmet
            exact hmet.head (hchild he.lt_size) hdef

theorem met_of_mem_statementsOf
    (h : some i ∈ t.statementsOf (Binding.moduleBody t (some n))) (hlt : i < t.size) :
    t.Met n i := by
  obtain ⟨statement, hmem, hi⟩ := List.mem_flatMap.1 h
  cases statement with
  | none =>
      have hnone : t.statementsAt none = [none] := by
        simp [statementsAt, statementsWithin, block, node?]
      rw [hnone] at hi
      cases List.mem_singleton.1 hi
  | some c =>
      have hchild : c < t.size → t.Child n c := fun hc =>
        child_of_mem_statements ((t.moduleBody_sublist n).subset hmem) hc
      obtain rfl | ⟨hdef, hmet⟩ := met_of_mem_statementsWithin hi hlt
      · exact .child (hchild hlt)
      · obtain ⟨e, he, _⟩ := met_iff.1 hmet
        exact hmet.head (hchild he.lt_size) hdef

end Tree

/-! ### What binding defines -/

def Definition.isAssigned : Definition → Bool
  | .assigned .. => true
  | _ => false

def Scope.assigned (d : Scope) : List (Atom × Definition) :=
  d.bindings.filter fun b => b.2.isAssigned

/-- The names in a target are those of its leaves that are names. -/
theorem Tree.targetNames_eq (t : Tree) (source : List Nat → Definition) (target : NodeRef) :
    t.targetNames source target = (t.leaves target).filterMap fun (leaf, path) =>
      (t.name? leaf).map fun name => (name, source path) :=
  (List.filterMap_eq_flatMap_toList _ _).symm

theorem Tree.exists_of_mem_targetNames {t : Tree} {source : List Nat → Definition}
    {target : NodeRef} {b : Atom × Definition} (h : b ∈ t.targetNames source target) :
    ∃ path, b.2 = source path := by
  rw [targetNames_eq] at h
  obtain ⟨⟨leaf, path⟩, _, hb⟩ := List.mem_filterMap.1 h
  obtain ⟨name, _, rfl⟩ := Option.map_eq_some_iff.1 hb
  exact ⟨path, rfl⟩

/-- Among the names that a statement binds, an assignment assigns all and a loop none. -/
theorem Tree.assigned_boundNames (t : Tree) (statement : NodeRef) :
    (t.boundNames statement).filter (fun b => b.2.isAssigned) = t.assignedNames statement := by
  unfold boundNames assignedNames
  split
  · rename_i targets value hn
    have hall : ∀ b ∈ targets.flatMap (t.targetNames (.assigned value)),
        b.2.isAssigned = true := by
      intro b hb
      obtain ⟨target, _, hb⟩ := List.mem_flatMap.1 hb
      obtain ⟨path, hpath⟩ := exists_of_mem_targetNames hb
      rw [hpath]
      rfl
    rw [List.filter_eq_self.2 hall, hn]
    simp only [List.filterMap_flatMap]
    exact List.flatMap_congr fun target _ => t.targetNames_eq _ target
  · rename_i target iter body orelse hn
    have hnone : ∀ b ∈ t.targetNames (.iterated iter) target, ¬ b.2.isAssigned = true := by
      intro b hb
      obtain ⟨path, hpath⟩ := exists_of_mem_targetNames hb
      rw [hpath]
      exact Bool.false_ne_true
    rw [List.filter_eq_nil_iff.2 hnone, hn]
  · rename_i hassign _
    split
    · rename_i targets value hn
      exact absurd hn (hassign targets value)
    · rfl

/-- The names that are assigned are gathered from the statements. -/
theorem Scope.gathering_assigned (t : Tree) :
    Gathering t (fun d names => d.assigned = names) t.assignedNames where
  note {d names} h statement := by
    have hnotes : (t.notes statement).bindings = t.boundNames statement := rfl
    rw [Scope.assigned, Scope.add, hnotes, List.filter_append, t.assigned_boundNames]
    exact congrArg (· ++ t.assignedNames statement) h
  definition {statement h} hh := by
    unfold Tree.header? at hh
    unfold Tree.assignedNames
    split at hh <;> cases hh
    · rename_i hn
      rw [hn]
    · rename_i hn
      rw [hn]
  define {d names} h inner name o := by
    rw [Scope.assigned, List.filter_append]
    exact (List.append_nil _).trans h
  opened {d} params _ _ hbindings := by
    rw [Scope.assigned, hbindings, List.filter_eq_nil_iff]
    intro b hb
    obtain ⟨⟨param, index⟩, _, rfl⟩ := List.mem_map.1 hb
    exact Bool.false_ne_true

/-! ### What an assigned value comes to -/

/-- A path that is there in the value leads to one expression, and only this one is
evaluated. -/
theorem Infer.assignedObject_of_at {p : Program} {value expr : NodeRef} {path : List Nat}
    (h : p.tree.At value path expr) (eval : Evaluator) (scope : ScopeId) :
    assignedObject p eval scope value path = Option.map Name.object <$> eval scope expr := by
  unfold assignedObject
  rw [Tree.follow_of_at h]
  funext s
  change EStateM.bind (eval scope expr) _ s = EStateM.map _ (eval scope expr) s
  unfold EStateM.bind EStateM.map
  cases eval scope expr s with
  | ok found s' => cases found <;> rfl
  | error e s' => rfl

/-- Targets are matched with what stands at their places. The leaves of a target are listed
with the paths that lead to them, in the order of the text. What a scope defines by
assignments are the names among the leaves of the assignments in its body, each with the
assigned value and its path. An analysis of the scope meets each of these assignments, once
if no node is shared, and goes through the items among the leaves with their paths. And
where a path is there in the displays of the value, what is assigned along it is what the
expression at its end resolves to, without anything else that is done. -/
theorem targets_matched {tree : Tree} (ht : tree.Descending) (atoms : Interner)
    (root : NodeRef) :
    let p := Program.bind tree atoms root
    (∀ target, (tree.leaves target).Pairwise (fun a b => a.2 < b.2) ∧
      ∀ leaf path, (leaf, path) ∈ tree.leaves target ↔
        tree.At target path leaf ∧ tree.sequence? leaf = none) ∧
    (∀ (s : ScopeId) (d : Scope), p.scope? s = some d →
      let statements := tree.statementsOf (Binding.moduleBody tree d.node)
      d.assigned = statements.flatMap tree.assignedNames ∧
      ∀ (i : NodeId) (targets : List NodeRef) (value : NodeRef), some i ∈ statements →
        tree.get? i = some (.assign targets value) →
        i ∈ p.sites s ∧ (tree.Unshared → (p.sites s).count i = 1) ∧
        ∀ (eval : Evaluator) (options : Options), options.analyzeSubscriptAssignments = true →
          Infer.visitSite p eval options s i =
            ((targets.flatMap tree.leaves).filter fun leaf => tree.IsItem leaf.1).forM
              (Infer.visitItemTarget p eval options s value)) ∧
    (∀ (value expr : NodeRef) (path : List Nat), tree.At value path expr →
      ∀ (eval : Evaluator) (scope : ScopeId),
        Infer.assignedObject p eval scope value path =
          Option.map Name.object <$> eval scope expr) := by
  intro p
  have hpd : p.tree.Descending := ht
  refine ⟨fun target => ⟨Tree.pairwise_leaves ht target, fun leaf path => Tree.mem_leaves ht⟩,
    ?_, fun value expr path hat eval scope => Infer.assignedObject_of_at hat eval scope⟩
  intro s d hd statements
  refine ⟨(Scope.gathering_assigned tree).bind ht atoms root hd, ?_⟩
  intro i targets value hi hassign
  have hlt : i < tree.size := (Array.getElem?_eq_some_iff.1 hassign).1
  obtain ⟨n, hn⟩ : ∃ n, d.node = some n := by
    cases hnode : d.node with
    | none =>
        have hnone : statements = [] := by
          change tree.statementsOf (Binding.moduleBody tree d.node) = []
          rw [hnode]
          rfl
        rw [hnone] at hi
        cases hi
    | some n => exact ⟨n, rfl⟩
  have hnode : p.nodeOf s = some n := by
    rw [Program.nodeOf, hd]
    exact hn
  have hmet : tree.Met n i := by
    refine Tree.met_of_mem_statementsOf ?_ hlt
    rw [← hn]
    exact hi
  have hsite : i ∈ p.sites s := by
    refine (Program.mem_sites hpd hnode).2 ⟨?_, hmet⟩
    change tree.isSite i = true
    unfold Tree.isSite
    rw [hassign]
  refine ⟨hsite, fun hu => ?_, fun eval options hoption => ?_⟩
  · exact List.count_eq_one_of_mem (Program.insideOut_sites hu hpd hnode).nodup hsite
  · unfold Infer.visitSite
    rw [show p.tree.get? i = _ from hassign]
    simp only [hoption, if_true]
    rw [← Tree.itemTargets_eq]
    rfl

/-- The assignment `(a, [x[0], b], y.z, w[1:2]) = (1, ("s", 2))`. -/
def Tree.unpacking : Tree :=
  ⟨#[.name 1, .name 2, .literal (.int 0), .index (some 2), .subscript (some 1) (some 3),
    .name 3, .list [some 4, some 5], .name 4, .attr (some 7) 5, .name 6, .slice none none none,
    .subscript (some 9) (some 10), .tuple [some 0, some 6, some 8, some 11],
    .literal (.int 1), .literal (.str "s"), .literal (.int 2), .tuple [some 14, some 15],
    .tuple [some 13, some 16], .assign [some 12] (some 17), .module [some 18]]⟩

/-- The two names are defined, the attribute and the slice are passed over, and the item
and the second name get the elements of the inner tuple. -/
theorem targets_matched_unpacking :
    let p := Program.bind Tree.unpacking ⟨#["", "a", "x", "b", "y", "z", "w"]⟩ (some 19)
    Tree.unpacking.Descending ∧ Tree.unpacking.Unshared ∧
      (p.scope? 0).map Scope.node = some (some 19) ∧
      some 18 ∈ Tree.unpacking.statementsOf [some 18] ∧
      (∃ d, p.scope? 0 = some d ∧
        d.assigned = [(1, .assigned (some 17) [0]), (3, .assigned (some 17) [1, 1])]) ∧
      (p.sites 0).count 18 = 1 ∧
      ∀ eval, Infer.visitSite p eval {} 0 18 =
          [(some 4, [1, 0])].forM
            (Infer.visitItemTarget p eval {} 0 (some 17)) ∧
        Infer.assignedObject p eval 0 (some 17) [1, 1] =
          Option.map Name.object <$> eval 0 (some 15) := by
  intro p
  have ht : Tree.unpacking.Descending := by decide
  have hu : Tree.unpacking.Unshared := by decide +kernel
  have hnode : (p.scope? 0).map Scope.node = some (some 19) := by decide +kernel
  have hmem : some 18 ∈ Tree.unpacking.statementsOf [some 18] := by decide +kernel
  obtain ⟨d, hd, hdnode⟩ := Option.map_eq_some_iff.1 hnode
  have hbody : Binding.moduleBody Tree.unpacking d.node = [some 18] := by
    rw [hdnode]
    rfl
  obtain ⟨_, hscopes, hvalues⟩ := targets_matched ht _ (some 19)
  obtain ⟨hassigned, hsites⟩ := hscopes 0 d hd
  rw [hbody] at hassigned hsites
  obtain ⟨_, honce, hvisit⟩ := hsites 18 [some 12] (some 17) hmem rfl
  have hat : Tree.unpacking.At (some 17) [1, 1] (some 15) :=
    .inside rfl rfl (.inside rfl rfl (.here _))
  exact ⟨ht, hu, hnode, hmem, ⟨d, hd, hassigned.trans (by decide +kernel)⟩, honce hu,
    fun eval => ⟨(hvisit eval _ rfl).trans (congrArg (List.forM · _) (by decide +kernel)),
      hvalues _ _ _ hat eval 0⟩⟩

end ObjectInference
