import ObjectInference.Proofs.Unpacking

/-!
Which expressions belong to a scope.

Evaluation goes down the tree in the scope that it is in, or it goes to the value of a
definition, or to a value that is returned. Binding has read these values off the statements
of one body. `Scope.sources` lists them, and `met_of_mem_sources` says that they stand in that
body and outside the definitions in it.

So a function with no definition inside its own has what is inside it to itself: wherever
evaluation comes from, it evaluates nothing of it in another scope, which is `closed_apart`.
And if the function binds all names that its body reads, evaluation does not leave the body
from there, which is `closed_own`.
-/

namespace ObjectInference

open Relation

namespace Tree

variable {t : Tree} {n c i j : NodeId} {statement expr : NodeRef}

def Inside (t : Tree) (n i : NodeId) : Prop :=
  t.Below n i ∧ i ≠ n

theorem Inside.lt_size (h : t.Inside n i) : i < t.size := by
  obtain ⟨hbelow, hne⟩ := h
  cases hbelow with
  | refl => exact absurd rfl hne
  | tail _ hchild => exact (child_iff.1 hchild).2

theorem InBody.inside (F : Forest t.Child id) (h : t.InBody n i) : t.Inside n i :=
  ⟨h.below, Nat.ne_of_lt (h.lt F)⟩

/-! ### Values in a body -/

/-- A statement in a body, or inside another one there. -/
theorem inBody_of_mem_statementsOf
    (h : some i ∈ t.statementsOf (Binding.moduleBody t (some n))) (hlt : i < t.size) :
    t.InBody n i := by
  obtain ⟨statement, hmem, hi⟩ := List.mem_flatMap.1 h
  have hmem := (t.moduleBody_sublist n).subset hmem
  cases statement with
  | none =>
      have hnone : t.statementsAt none = [none] := by
        simp [statementsAt, statementsWithin, block, node?]
      rw [hnone] at hi
      cases List.mem_singleton.1 hi
  | some c =>
      obtain rfl | ⟨_, hmet⟩ := met_of_mem_statementsWithin hi hlt
      · exact ⟨i, hmem, hlt, .refl⟩
      · obtain ⟨e, he, _⟩ := met_iff.1 hmet
        exact ⟨c, hmem, he.lt_size, below_of_met hmet⟩

theorem lt_size_of_mem_children (h : c ∈ t.children i) : i < t.size := by
  refine Nat.lt_of_not_le fun hi => ?_
  have hget : t.get? i = none := Array.getElem?_eq_none hi
  simp [children, hget] at h

theorem mem_children_of_places {node : Node} (hn : t.get? i = some node)
    (hc : some c ∈ node.places) : c ∈ t.children i := by
  rw [children, hn]
  exact List.mem_filterMap.2 ⟨some c, hc, rfl⟩

/-- What is entered from a node that is met is met. -/
theorem met_and_inBody_of_enters (h : ReflTransGen t.Enters c j)
    (hc : c < t.size → t.Met n c ∧ t.InBody n c) (hj : j < t.size) :
    t.Met n j ∧ t.InBody n j := by
  induction h with
  | refl => exact hc hj
  | tail _ hstep ih =>
      obtain ⟨hdef, hmem⟩ := hstep
      obtain ⟨hmet, hbody⟩ := ih (lt_size_of_mem_children hmem)
      have hchild := child_iff.2 ⟨hmem, hj⟩
      exact ⟨hmet.inside hdef hchild, hbody.trans (.single hchild)⟩

/-- The value of a yield is entered from the expression that the yield is in. -/
theorem enters_of_mem_yields (ht : t.Descending) (h : some j ∈ t.yields (some i)) :
    ReflTransGen t.Enters i j := by
  rw [yields_eq] at h
  obtain ⟨k, hk, hy⟩ := List.mem_filterMap.1 h
  obtain ⟨hreach, hdef⟩ := (mem_outline ht).1 hk
  unfold yieldAt? at hy
  split at hy <;> cases hy
  rename_i hget
  exact hreach.tail ⟨hdef, mem_children_of_places hget (by simp [Node.places])⟩

end Tree

def Definition.source? : Definition → NodeRef
  | assigned value _ => value
  | iterated iter _ => iter
  | _ => none

def Scope.sources (d : Scope) : List NodeId :=
  d.bindings.filterMap (·.2.source?) ++ d.returned

def Notes.sources (n : Notes) : List NodeId :=
  n.bindings.filterMap (·.2.source?) ++ n.returned

theorem Scope.sources_add (d : Scope) (n : Notes) :
    (d.add n).sources ⊆ d.sources ++ n.sources := by
  intro i hi
  simp only [sources, Notes.sources, Scope.add, List.filterMap_append, List.mem_append] at hi ⊢
  tauto

namespace Tree

variable {t : Tree} {c i j : NodeId}

theorem source?_of_mem_targetNames {source : List Nat → Definition} {target value : NodeRef}
    {b : Atom × Definition} (hb : b ∈ t.targetNames source target)
    (hsource : ∀ path, (source path).source? = value) : b.2.source? = value := by
  obtain ⟨path, hpath⟩ := exists_of_mem_targetNames hb
  rw [hpath, hsource]

/-- What a statement binds is no function and no class. -/
theorem object?_of_mem_boundNames {statement : NodeRef} {b : Atom × Definition}
    (h : b ∈ t.boundNames statement) : b.2.object? = none := by
  unfold boundNames at h
  split at h
  · obtain ⟨target, _, h⟩ := List.mem_flatMap.1 h
    obtain ⟨path, hpath⟩ := exists_of_mem_targetNames h
    rw [hpath]
    rfl
  · obtain ⟨path, hpath⟩ := exists_of_mem_targetNames h
    rw [hpath]
    rfl
  · cases h

/-- What stands at a place of a node is entered from it, unless the node opens a scope. -/
theorem Enters.of_places {node : Node} (hn : t.get? c = some node)
    (hdef : node.isDefinition = false) (hj : some j ∈ node.places) : t.Enters c j :=
  ⟨by simp [isDefinition, hn, hdef], mem_children_of_places hn hj⟩

/-- The expression of a statement is entered from it, where it is not the same. -/
theorem enters_of_expression (h : t.expression (some c) = some j) : ReflTransGen t.Enters c j := by
  unfold expression at h
  rw [show t.node? (some c) = t.get? c from rfl] at h
  cases hn : t.get? c with
  | none =>
      rw [hn] at h
      cases h
  | some node =>
      rw [hn] at h
      cases node with
      | functionDef | classDef | pass => cases h
      | returnStatement | assign | ifStatement | whileLoop | forLoop | exprStatement =>
          exact .single (.of_places hn rfl (by simp [Node.places, ← h]))
      -- What is no statement is its own expression.
      | _ =>
          obtain rfl := Option.some.inj h
          exact .refl

/-- What a statement binds a name from is entered from it. -/
theorem enters_of_mem_boundNames {b : Atom × Definition} (hb : b ∈ t.boundNames (some c))
    (hsource : b.2.source? = some j) : t.Enters c j := by
  unfold boundNames at hb
  rw [show t.node? (some c) = t.get? c from rfl] at hb
  split at hb
  · rename_i targets value hn
    obtain ⟨target, _, hb⟩ := List.mem_flatMap.1 hb
    obtain rfl := (source?_of_mem_targetNames hb fun _ => rfl).symm.trans hsource
    exact .of_places hn rfl (by simp [Node.places])
  · rename_i target iter body orelse hn
    obtain rfl := (source?_of_mem_targetNames hb fun _ => rfl).symm.trans hsource
    exact .of_places hn rfl (by simp [Node.places])
  · cases hb

theorem enters_of_returnedValue (h : t.returnedValue (some c) = some j) : t.Enters c j := by
  unfold returnedValue at h
  rw [show t.node? (some c) = t.get? c from rfl] at h
  split at h
  · rename_i value hn
    exact .of_places hn rfl (by simpa [Node.places] using h.symm)
  · cases h

/-- What is noted of a statement stands at it or is entered from it. -/
theorem enters_of_mem_notes (ht : t.Descending) (hj : j ∈ (t.notes (some c)).sources) :
    ReflTransGen t.Enters c j := by
  rw [Notes.sources, notes, Notes.append, List.mem_append] at hj
  simp only [yielded, List.nil_append, List.mem_append, List.mem_filterMap, id_eq,
    exists_eq_right] at hj
  rcases hj with ⟨b, hb, hsource⟩ | hyield | hreturned
  · exact .single (enters_of_mem_boundNames hb hsource)
  · cases he : t.expression (some c) with
    | none =>
        rw [he] at hyield
        cases hyield
    | some e =>
        rw [he] at hyield
        exact (enters_of_expression he).trans (enters_of_mem_yields ht hyield)
  · exact .single (enters_of_returnedValue (Option.mem_toList.1 hreturned))

theorem sources_notes_none (t : Tree) : (t.notes none).sources = [] := rfl

end Tree

/-- The expressions that scopes take something from are noted of their statements. -/
theorem Scope.gathering_sources (t : Tree) :
    Gathering t (fun d sources => d.sources ⊆ sources) fun statement =>
      (t.notes statement).sources where
  note {d sources} h statement := by
    refine List.Subset.trans (d.sources_add _) ?_
    exact List.append_subset.2 ⟨List.Subset.trans h (List.subset_append_left _ _),
      List.subset_append_right _ _⟩
  definition {statement h} hh := by
    unfold Tree.header? at hh
    unfold Tree.notes Tree.expression Tree.boundNames Tree.returnedValue
    split at hh <;> cases hh
    · rename_i hn
      rw [hn]
      rfl
    · rename_i hn
      rw [hn]
      rfl
  define {d sources} h inner name o := by
    intro i hi
    exact h (by simpa [Scope.sources, Definition.source?] using hi)
  opened {d} params hreturned _ hbindings := by
    have hnone : ∀ b ∈ Binding.parameterNames params, b.2.source? = none := by
      intro b hb
      obtain ⟨⟨param, index⟩, _, rfl⟩ := List.mem_map.1 hb
      rfl
    rw [Scope.sources, hbindings, hreturned, List.filterMap_eq_nil_iff.2 hnone]
    exact List.Subset.refl _

/-- A scope defines a function or a class only where another scope is nested in it. -/
theorem Scope.gathering_children (t : Tree) :
    Gathering t (fun d (_ : List NodeId) =>
      ∀ b ∈ d.bindings, b.2.object? ≠ none → d.children ≠ []) fun _ => [] where
  note {d _} h statement := by
    intro b hb hobject
    rcases List.mem_append.1 hb with hb | hb
    · exact h b hb hobject
    · exact absurd (Tree.object?_of_mem_boundNames hb) hobject
  definition _ := rfl
  define {_ _} _ _ _ _ := fun _ _ _ => List.append_ne_nil_of_right_ne_nil _ (List.cons_ne_nil _ _)
  opened {d} params _ _ hbindings := by
    intro b hb hobject
    rw [hbindings] at hb
    obtain ⟨⟨param, index⟩, _, rfl⟩ := List.mem_map.1 hb
    exact absurd rfl hobject

namespace Program

open ObjectInference.Tree

theorem exists_nestedIn_of_defined {tree : Tree} (ht : tree.Descending) (atoms : Interner)
    (root : NodeRef) {s : ScopeId} {name : Atom} {o : ObjectId}
    (h : .object o ∈ (Program.bind tree atoms root).definitions s name) :
    ∃ c, (Program.bind tree atoms root).NestedIn s c := by
  unfold definitions at h
  cases hd : (Program.bind tree atoms root).scope? s with
  | none =>
      rw [hd] at h
      cases h
  | some d =>
      rw [hd] at h
      obtain ⟨b, hb, hobject⟩ := List.mem_map.1 h
      have hchildren := (Scope.gathering_children tree).bind ht atoms root hd b
        (List.mem_of_mem_filter hb) (by simp [hobject, Definition.object?])
      obtain ⟨c, hc⟩ := List.exists_mem_of_ne_nil _ hchildren
      exact ⟨c, by simpa [NestedIn, nestedScopes, hd] using hc⟩

/-- What a scope takes something from stands in the body of its node, outside the definitions
there. -/
theorem met_of_mem_sources {tree : Tree} (ht : tree.Descending) (atoms : Interner) (root : NodeRef)
    {s : ScopeId} {d : Scope} (hd : (Program.bind tree atoms root).scope? s = some d)
    {n i : NodeId} (hn : d.node = some n) (hi : i ∈ d.sources) (hlt : i < tree.size) :
    tree.Met n i ∧ tree.InBody n i := by
  have hmem := (Scope.gathering_sources tree).bind ht atoms root hd hi
  obtain ⟨statement, hstatement, hi⟩ := List.mem_flatMap.1 hmem
  rw [hn] at hstatement
  cases statement with
  | none =>
      rw [tree.sources_notes_none] at hi
      cases hi
  | some c =>
      exact met_and_inBody_of_enters (enters_of_mem_notes ht hi)
        (fun hc => ⟨met_of_mem_statementsOf hstatement hc,
          inBody_of_mem_statementsOf hstatement hc⟩) hlt

variable {p : Program} {s : ScopeId} {name : Atom}

theorem source_of_mem_definitions {definition : Definition}
    (h : definition ∈ p.definitions s name) :
    ∃ d, p.scope? s = some d ∧ ∀ i, definition.source? = some i → i ∈ d.sources := by
  unfold definitions at h
  cases hd : p.scope? s with
  | none =>
      rw [hd] at h
      cases h
  | some d =>
      rw [hd] at h
      obtain ⟨b, hb, rfl⟩ := List.mem_map.1 h
      refine ⟨d, rfl, fun i hi => List.mem_append_left _ (List.mem_filterMap.2 ⟨b, ?_, hi⟩)⟩
      exact List.mem_of_mem_filter hb

theorem source_of_mem_returnedSites {i : NodeId} (h : i ∈ p.returnedSites s) :
    ∃ d, p.scope? s = some d ∧ i ∈ d.sources := by
  unfold returnedSites at h
  cases hd : p.scope? s with
  | none =>
      rw [hd] at h
      cases h
  | some d =>
      rw [hd] at h
      exact ⟨d, rfl, List.mem_append_right _ h⟩

/-! ### A function by itself -/

/-- A function with no definition inside its own. -/
structure Lone (p : Program) (r : NodeId) (f : ObjectId) (home : ScopeId) (n : NodeId) : Prop
    extends p.Planted r where
  function : p.objects.get f = .function home
  node : p.nodeOf home = some n
  plain {i : NodeId} (hi : p.tree.Inside n i) : p.tree.isDefinition i = false
  sources {s : ScopeId} {d : Scope} (hd : p.scope? s = some d) {m i : NodeId}
    (hm : d.node = some m) (hi : i ∈ d.sources) (hlt : i < p.tree.size) :
    p.tree.Met m i ∧ p.tree.InBody m i
  defined {s : ScopeId} {name : Atom} {o : ObjectId} (h : .object o ∈ p.definitions s name) :
    ∃ c, p.NestedIn s c

/-- What is strictly inside a node is evaluated in one scope only. -/
def Apart (p : Program) (home : ScopeId) (n : NodeId) (scope : ScopeId) (expr : NodeRef) : Prop :=
  ∀ i, expr = some i → p.tree.Inside n i → scope = home

/-- Only the body of a node is evaluated, and only in one scope. -/
def Own (p : Program) (home : ScopeId) (n : NodeId) (scope : ScopeId) (expr : NodeRef) : Prop :=
  scope = home ∧ ∀ i, expr = some i → i < p.tree.size → p.tree.InBody n i

namespace Lone

variable {r : NodeId} {f : ObjectId} {home : ScopeId} {m n i : NodeId} {R : Pairing}

theorem scope (h : p.Lone r f home n) :
    ∃ d, p.scope? home = some d ∧ d.kind = .function ∧ d.owner = f ∧ d.node = some n := by
  have hfunction : p.binding.objects.get f = Binding.ownerObject .function home := h.function
  obtain ⟨d, hd, hkind, howner⟩ := h.framed.owned hfunction
  have hd : p.scope? home = some d := hd
  have hn := h.node
  rw [nodeOf, hd] at hn
  exact ⟨d, hd, hkind, howner, hn⟩

theorem home_lt (h : p.Lone r f home n) : home < p.scopes.size := by
  obtain ⟨d, hd, _⟩ := h.scope
  exact (Array.getElem?_eq_some_iff.1 hd).1

theorem isDefinition (h : p.Lone r f home n) : p.tree.isDefinition n = true := by
  obtain ⟨n', hn', hcases⟩ := h.exists_node h.home_lt
  obtain rfl := Option.some.inj (h.node.symm.trans hn')
  rcases hcases with ⟨rfl, _⟩ | ⟨_, hdef⟩
  · -- The first scope is that of the module.
    obtain ⟨d, hd, hkind, _⟩ := h.scope
    have hmodule : p.binding.objects.get p.module = Binding.ownerObject .module 0 :=
      h.nested.module
    obtain ⟨d', hd', hkind', _⟩ := h.framed.owned hmodule
    obtain rfl := Option.some.inj (hd.symm.trans hd')
    cases hkind.symm.trans hkind'
  · exact hdef

/-- The function defines no functions and classes. -/
theorem not_defined (h : p.Lone r f home n) {name : Atom} {o : ObjectId} :
    .object o ∉ p.definitions home name := by
  intro ho
  obtain ⟨c, hc⟩ := h.defined ho
  obtain ⟨i, _, hdef, hmet⟩ := h.met_of_nestedIn h.node h.home_lt hc
  rw [h.plain ⟨below_of_met hmet, Nat.ne_of_lt (hmet.lt h.forest)⟩] at hdef
  cases hdef

/-- A scope that meets something inside the function is that of the function. -/
theorem eq_home (h : p.Lone r f home n) (hs : s < p.scopes.size) (hm : p.nodeOf s = some m)
    (hmet : p.tree.Met m i) (hi : p.tree.Inside n i) : s = home := by
  rcases hmet.above h.forest hi.1 with heq | hbelow | hdef
  · exact absurd heq.symm hi.2
  · by_cases hmn : m = n
    · exact h.nodeOf_inj hs h.home_lt (hmn ▸ hm) h.node
    · -- A scope inside the function could only be that of the module.
      rcases h.node_cases hs hm with rfl | hdef
      · exact absurd (h.forest.antisymm (h.below_root h.home_lt h.node) hbelow) hmn
      · rw [h.plain ⟨hbelow, hmn⟩] at hdef
        cases hdef
  · rw [h.isDefinition] at hdef
    cases hdef

theorem eq_home_of_source (h : p.Lone r f home n) {d : Scope} (hd : p.scope? s = some d)
    (hi : i ∈ d.sources) (hin : p.tree.Inside n i) : s = home := by
  have hs := (Array.getElem?_eq_some_iff.1 hd).1
  obtain ⟨m, hm, _⟩ := h.exists_node hs
  have hnode : d.node = some m := by
    rw [nodeOf, hd] at hm
    exact hm
  exact h.eq_home hs hm (h.sources hd hnode hi hin.lt_size).1 hin

/-- Wherever evaluation comes from, it evaluates nothing inside the function in another
scope. -/
theorem closed_apart (h : p.Lone r f home n) : R.Closed p (p.Apart home n) := by
  have hbelow : ∀ {scope : ScopeId} {e : NodeRef}, p.Apart home n scope e →
      Pairing.Under p (p.Apart home n) scope e := by
    rintro scope e he node hn hdef _ hr c rfl hin
    cases e with
    | none => cases hn
    | some j =>
        have hmem : c ∈ p.tree.children j := mem_children_of_places hn hr
        rcases h.forest.above_child hin.1 (child_iff.2 ⟨hmem, hin.lt_size⟩) with heq | hj
        · exact absurd heq.symm hin.2
        · refine he j rfl ⟨hj, ?_⟩
          rintro rfl
          have hget : p.tree.get? j = some node := hn
          have hnot : p.tree.isDefinition j = false := by simp [Tree.isDefinition, hget, hdef]
          rw [h.isDefinition] at hnot
          cases hnot
  refine ⟨hbelow, fun he => ?_⟩
  have hsource : ∀ {scope name definition}, definition ∈ p.definitions scope name →
      p.Apart home n scope definition.source? := by
    intro scope name definition hmem i hi hin
    obtain ⟨d, hd, hsources⟩ := source_of_mem_definitions hmem
    exact h.eq_home_of_source hd (hsources i hi) hin
  cases he with
  | @assigned _ _ value path _ hmem => exact Pairing.on_follow hbelow (hsource hmem) path
  | iterated _ hmem => exact hsource hmem
  | returned _ _ _ hsite =>
      rintro i hi hin
      obtain rfl := Option.some.inj hi
      obtain ⟨d, hd, hmem⟩ := source_of_mem_returnedSites hsite
      exact h.eq_home_of_source hd hmem hin

/-- An analysis of a scope comes to the sites of the function in its own scope only. -/
theorem apart_of_mem_sites (h : p.Lone r f home n) {site : NodeId} (hsite : site ∈ p.sites s) :
    p.Apart home n s (some site) := by
  rintro i hi hin
  obtain rfl := Option.some.inj hi
  cases hm : p.nodeOf s with
  | none =>
      simp only [Program.sites, hm] at hsite
      cases hsite
  | some m =>
      have hs : s < p.scopes.size := by
        refine Nat.lt_of_not_le fun hs => ?_
        rw [nodeOf, scope?, Array.getElem?_eq_none hs] at hm
        cases hm
      exact h.eq_home hs hm ((mem_sites h.descending hm).1 hsite).2 hin

theorem own_of_source (h : p.Lone r f home n) {d : Scope} (hd : p.scope? home = some d)
    {e : NodeRef} (hi : ∀ i, e = some i → i ∈ d.sources) : p.Own home n home e := by
  obtain ⟨d', hd', _, _, hnode⟩ := h.scope
  obtain rfl := Option.some.inj (hd.symm.trans hd')
  exact ⟨rfl, fun i he hlt => (h.sources hd hnode (hi i he) hlt).2⟩

theorem own_of_mem_returnedSites (h : p.Lone r f home n) (hi : i ∈ p.returnedSites home) :
    p.Own home n home (some i) := by
  obtain ⟨d, hd, hmem⟩ := source_of_mem_returnedSites hi
  exact h.own_of_source hd fun j hj => Option.some.inj hj ▸ hmem

/-- If the function binds the names that its body reads, and the runs meet no function of the
source, evaluation does not leave the body. -/
theorem closed_own (h : p.Lone r f home n)
    (hread : ∀ {scope name}, p.ReadAt R.may (scope, name) → scope = home)
    (hsame : ∀ {w s t f f'}, R.rel w s t → R.same s t f f' → s.objects.scopeOf? f = none) :
    R.Closed p (p.Own home n) := by
  have hbelow : ∀ {scope : ScopeId} {e : NodeRef}, p.Own home n scope e →
      Pairing.Under p (p.Own home n) scope e := by
    rintro scope e ⟨rfl, he⟩ node hn hdef r hr
    refine ⟨rfl, ?_⟩
    rintro c rfl hlt
    cases e with
    | none => cases hn
    | some j =>
        have hmem : c ∈ p.tree.children j := mem_children_of_places hn hr
        exact (he j rfl (lt_size_of_mem_children hmem)).trans (.single (child_iff.2 ⟨hmem, hlt⟩))
  refine ⟨hbelow, fun he => ?_⟩
  have hsource : ∀ {scope name definition}, p.ReadAt R.may (scope, name) →
      definition ∈ p.definitions scope name → p.Own home n scope definition.source? := by
    intro scope name definition hat hmem
    obtain rfl := hread hat
    obtain ⟨d, hd, hsources⟩ := source_of_mem_definitions hmem
    exact h.own_of_source hd hsources
  cases he with
  | @assigned _ _ value path hat hmem => exact Pairing.on_follow hbelow (hsource hat hmem) path
  | iterated hat hmem => exact hsource hat hmem
  | returned hrel hf hscope =>
      rw [hsame hrel hf] at hscope
      cases hscope

end Lone

theorem lone_bind {tree : Tree} (hu : tree.Unshared) (ht : tree.Descending) (atoms : Interner)
    {r : NodeId} {f : ObjectId} {home : ScopeId} {n : NodeId}
    (hf : (Program.bind tree atoms (some r)).objects.get f = .function home)
    (hn : (Program.bind tree atoms (some r)).nodeOf home = some n)
    (hplain : ∀ i, tree.Inside n i → tree.isDefinition i = false) :
    (Program.bind tree atoms (some r)).Lone r f home n :=
  ⟨planted_bind hu ht atoms r, hf, hn, fun hi => hplain _ hi,
    fun hd _ _ hm hi hlt => met_of_mem_sources ht atoms (some r) hd hm hi hlt,
    fun h => exists_nestedIn_of_defined ht atoms (some r) h⟩

end Program

end ObjectInference
