import ObjectInference.Tree.Basic

/-!
Walks over a syntax tree.

`walk` visits a node and then, unless the visitor says otherwise, each of its
children in source order. A walk goes down at most as many steps as the tree
has nodes, one more when the last step leaves the tree, because children stand
before their parents; that bound is the fuel, and on a descending tree it is
never used up.
-/

namespace ObjectInference

/-- What a walk does below a node it has visited. -/
inductive WalkAction where
  | descend
  | skip
deriving DecidableEq, Repr

/-- Visit one node with the state gathered so far. -/
abbrev Visitor (σ : Type) := NodeId → σ → WalkAction × σ

namespace Tree

variable {σ : Type}

/-- A walk that goes down at most so many steps. -/
def walkWithin (t : Tree) (visit : Visitor σ) : Nat → NodeId → σ → σ
  | 0, _, s => s
  | fuel + 1, i, s =>
    match visit i s with
    | (.skip, s) => s
    | (.descend, s) => (t.children i).foldl (fun s c => walkWithin t visit fuel c s) s

/-- Walk the node at a place and what is below it. An empty place is passed
over. -/
def walk (t : Tree) (visit : Visitor σ) : NodeRef → σ → σ
  | none, s => s
  | some i, s => t.walkWithin visit (t.size + 1) i s

/-- The values of the yields in an expression, in source order and without
those of nested definitions. A bare yield has an empty place for its value. -/
def yields (t : Tree) (expr : NodeRef) : List NodeRef :=
  t.walk (fun i found =>
    if t.isDefinition i then (.skip, found)
    else
      match t.get? i with
      | some (.yield value) => (.descend, found ++ [value])
      | _ => (.descend, found)) expr []

/-- The leaves of an assignment target, each with the positions that lead to
it through nested tuple and list displays, going down at most so many steps. -/
def leavesWithin (t : Tree) : Nat → NodeRef → List (NodeRef × List Nat)
  | 0, _ => []
  | fuel + 1, target =>
    match t.sequence? target with
    | some elements => elements.zipIdx.flatMap fun (element, position) =>
        (leavesWithin t fuel element).map fun (leaf, path) => (leaf, position :: path)
    | none => [(target, [])]

/-- The leaves of an assignment target with their paths, in source order. -/
def leaves (t : Tree) (target : NodeRef) : List (NodeRef × List Nat) :=
  t.leavesWithin (t.size + 1) target

/-- Follow a path into nested tuple and list displays as far as they go: the
expression reached and the rest of the path. -/
def follow (t : Tree) : NodeRef → List Nat → NodeRef × List Nat
  | expr, [] => (expr, [])
  | expr, position :: rest =>
    match (t.sequence? expr).bind fun elements => elements[position]? with
    | some element => t.follow element rest
    | none => (expr, position :: rest)

end Tree

end ObjectInference
