import ObjectInference.Program.Basic
import ObjectInference.Tree.Walk

/-!
What an analysis does, and in which order.

The sites of a scope are the calls and assignments below its node, each after
those inside it, so that an inner call is met before the call that it is an
argument of. What is below a nested definition belongs to the scope of that
definition, decorators, defaults and bases included, since they are children
of its node. The agenda of a scope lists the scopes to analyse, nested ones
before their parent.
-/

namespace ObjectInference

namespace Tree

/-- The calls and assignments at a node and below it, each after those inside
it and none of nested definitions, going down at most so many steps. -/
def sitesWithin (t : Tree) : Nat → NodeId → List NodeId
  | 0, _ => []
  | fuel + 1, i =>
    if t.isDefinition i then []
    else
      let inner := (t.children i).flatMap (sitesWithin t fuel)
      match t.get? i with
      | some (.call ..) => inner ++ [i]
      | some (.assign ..) => inner ++ [i]
      | _ => inner

def sites (t : Tree) (i : NodeId) : List NodeId :=
  t.sitesWithin (t.size + 1) i

/-- The targets with a plain index among the leaves of assignment targets, with
the paths that lead to them. -/
def itemTargets (t : Tree) (targets : List NodeRef) : List (NodeRef × List Nat) :=
  (targets.flatMap t.leaves).filter fun (leaf, _) => (t.simpleIndex? leaf).isSome

end Tree

namespace Program

/-- The calls and assignments that the analysis of a scope meets. -/
def sites (p : Program) (s : ScopeId) : List NodeId :=
  match p.nodeOf s with
  | some i => (p.tree.children i).flatMap p.tree.sites
  | none => []

/-- The scopes to analyse in a scope and below it, going down at most so many
steps. -/
def agendaWithin (p : Program) (analyzes searches : ObjectId → Bool) :
    Nat → ScopeId → List ScopeId
  | 0, _ => []
  | fuel + 1, s =>
    let nested :=
      if searches (p.ownerOf s) then
        (p.nestedScopes s).flatMap (agendaWithin p analyzes searches fuel)
      else []
    if analyzes (p.ownerOf s) then nested ++ [s] else nested

/-- The scopes to analyse in a scope and below it: those whose owner is to be
analysed, reached through scopes whose owner is to be searched. -/
def agenda (p : Program) (analyzes searches : ObjectId → Bool) (s : ScopeId) : List ScopeId :=
  p.agendaWithin analyzes searches p.scopes.size s

end Program

end ObjectInference
