import ObjectInference.Proofs.Coverage

/-!
In which scope a call or an assignment is simulated.

A definition has a header, its decorators and defaults or its bases, and a body. An
analysis goes through both in the scope of the definition. For what stands in the body
this is the innermost definition whose body contains it. What stands in the header is
simulated one scope too far inside: the innermost body that contains it is that of the
scope around the definition.
-/

namespace ObjectInference

open Relation

namespace Tree

variable {t : Tree} {r n m d i j c : NodeId}

def header (t : Tree) (i : NodeId) : List NodeRef :=
  match t.get? i with
  | some (.functionDef _ params decorators _) => decorators ++ params.map ParamDecl.default
  | some (.classDef _ bases _) => bases
  | _ => []

def InHeader (t : Tree) (n i : NodeId) : Prop :=
  ∃ c, some c ∈ t.header n ∧ c < t.size ∧ t.Below c i

/-- The innermost definition whose body contains a node, or the module at the root if
there is none. -/
structure Innermost (t : Tree) (r n i : NodeId) : Prop where
  opens : n = r ∨ t.isDefinition n = true
  inBody : t.InBody n i
  above {m : NodeId} (hm : m = r ∨ t.isDefinition m = true) (h : t.InBody m i) : t.Below m n

theorem Innermost.unique (F : Forest t.Child id) (h : t.Innermost r n i)
    (h' : t.Innermost r m i) : n = m :=
  F.antisymm (h'.above h.opens h.inBody) (h.above h'.opens h'.inBody)

theorem isDefinition_of_inHeader (h : t.InHeader n i) : t.isDefinition n = true := by
  obtain ⟨c, hc, _⟩ := h
  unfold header at hc
  unfold isDefinition
  split at hc
  · rename_i hget
    rw [hget]
    rfl
  · rename_i hget
    rw [hget]
    rfl
  · cases hc

/-- The children of a module or a definition are those of its header and its body. -/
theorem children_eq (h : (t.isDefinition n || t.isModule n) = true) :
    t.children n = (t.header n ++ t.statements n).filterMap id := by
  unfold children header statements
  unfold isDefinition isModule at h
  cases hget : t.get? n with
  | none => rfl
  | some node => cases node <;> simp_all [Node.children, Node.places, Node.isDefinition]

theorem child_of_mem_header (hc : some c ∈ t.header n) (hlt : c < t.size) : t.Child n c := by
  have hdef := isDefinition_of_inHeader ⟨c, hc, hlt, .refl⟩
  refine child_iff.2 ⟨?_, hlt⟩
  rw [children_eq (by rw [hdef, Bool.true_or])]
  exact List.mem_filterMap.2 ⟨some c, List.mem_append_left _ hc, rfl⟩

theorem InHeader.below (h : t.InHeader n i) : t.Below n i := by
  obtain ⟨c, hc, hlt, hi⟩ := h
  exact .head (child_of_mem_header hc hlt) hi

end Tree

namespace Program.Arranged

open ObjectInference.Tree

variable {p : Program} {r n m i : NodeId} {s o : ScopeId}

theorem opens (hp : p.Arranged r) (hs : s < p.scopes.size) (hn : p.nodeOf s = some n) :
    (p.tree.isDefinition n || p.tree.isModule n) = true := by
  rcases hp.node_cases hs hn with rfl | hdef
  · rw [hp.tree.module, Bool.or_true]
  · rw [hdef, Bool.true_or]

end Program.Arranged

/-! ### Evaluation in one scope -/

namespace Infer

variable {p : Program} {options : Options} {eval eval' : Evaluator} {scope : ScopeId}

section Congr

variable (h : ∀ e, eval scope e = eval' scope e)

include h

end Congr

end Infer

/-- A name is looked up from the scope that it is evaluated in. -/
theorem Program.evaluate_name {p : Program} (hd : p.tree.Descending) {e : NodeRef} {name : Atom}
    (he : p.tree.node? e = some (.name name)) (scope : ScopeId) :
    p.evaluate scope e = Infer.resolveName p p.evaluate scope name := by
  funext s
  rw [p.evaluate_eq_step hd]
  unfold Infer.evaluateStep
  rw [he]

end ObjectInference
