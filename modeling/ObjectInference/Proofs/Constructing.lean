import Mathlib.Data.List.Induction
import ObjectInference.Proofs.Interning
import ObjectInference.Tree.Builder

/-!
Trees made by a builder.

A builder is asked for one thing after the other. `Build.Request` has every operation with its
arguments, and what is given back is an atom, a declaration or the position of a node. What a
request comes to can be said without the builder: the texts that it interns, the nodes made on
the way and then the node asked for, all in terms of the first free position and of the atoms
that texts have in the end. An operation does that and no more (`Build.Does`), with one rule for
each way of putting operations together.

The run of a list of requests is followed from the end. Each request leaves what was there and
puts its nodes behind it, so positions that were given back lead to the same nodes ever after,
and children stand before their parents as long as requests use such positions only.
-/

namespace ObjectInference

def Node.atoms : Node → List Atom
  | functionDef id params _ _ => id :: params.map ParamDecl.name
  | classDef id _ _ => [id]
  | keyword id _ => [id]
  | attr _ id => [id]
  | name id => [id]
  | _ => []

theorem Tree.exists_of_mem_children {t : Tree} {i c : NodeId} (h : c ∈ t.children i) :
    ∃ node, t.get? i = some node ∧ some c ∈ node.places := by
  unfold children at h
  cases hi : t.get? i with
  | none =>
      rw [hi] at h
      cases h
  | some node =>
      rw [hi] at h
      obtain ⟨place, hplace, rfl⟩ := List.mem_filterMap.1 h
      exact ⟨node, rfl, hplace⟩

namespace Build

inductive Request where
  | atom (text : String)
  | param (name : String)
  | paramWithDefault (name : String) (default : NodeRef)
  | varArgs (name : String)
  | kwArgs (name : String)
  | module (body : List NodeRef)
  | functionWith (name : String) (params : List ParamDecl) (body : List NodeRef)
  | function (name : String) (params : List String) (body : List NodeRef)
  | classDef (name : String) (bases body : List NodeRef)
  | returnValue (value : NodeRef)
  | returnNone
  | assign (targets : List NodeRef) (value : NodeRef)
  | assignName (id : String) (value : NodeRef)
  | exprStatement (value : NodeRef)
  | ifStatement (test : NodeRef) (body orelse : List NodeRef)
  | whileLoop (test : NodeRef) (body : List NodeRef)
  | forLoop (target iter : NodeRef) (body : List NodeRef)
  | pass
  | callWith (func : NodeRef) (args : List NodeRef) (keywords : List (String × NodeRef))
  | call (func : NodeRef) (args : List NodeRef)
  | callName (callee : String) (args : List NodeRef)
  | methodCall (receiver : NodeRef) (method : String) (args : List NodeRef)
  | attr (value : NodeRef) (name : String)
  | subscript (value index : NodeRef)
  | slice (value lower upper : NodeRef)
  | name (id : String)
  | tuple (elements : List NodeRef)
  | list (elements : List NodeRef)
  | dict (entries : List (NodeRef × NodeRef))
  | int (value : Int)
  | float (bits : UInt64)
  | str (value : String)
  | bool (value : Bool)
  | noneLiteral
  | yieldValue (value : NodeRef)
deriving DecidableEq, Repr

inductive Product where
  | atom (a : Atom)
  | param (d : ParamDecl)
  | node (i : NodeId)
deriving DecidableEq, Repr

def Product.name? : Product → Option Atom
  | atom a => some a
  | param d => some d.name
  | node _ => none

namespace Request

def perform : Request → Build Product
  | atom text => .atom <$> Build.atom text
  | param id => .param <$> Build.param id
  | paramWithDefault id default => .param <$> Build.paramWithDefault id default
  | varArgs id => .param <$> Build.varArgs id
  | kwArgs id => .param <$> Build.kwArgs id
  | module body => .node <$> Build.module body
  | functionWith id params body => .node <$> Build.functionWith id params body
  | function id params body => .node <$> Build.function id params body
  | classDef id bases body => .node <$> Build.classDef id bases body
  | returnValue value => .node <$> Build.returnValue value
  | returnNone => .node <$> Build.returnNone
  | assign targets value => .node <$> Build.assign targets value
  | assignName id value => .node <$> Build.assignName id value
  | exprStatement value => .node <$> Build.exprStatement value
  | ifStatement test body orelse => .node <$> Build.ifStatement test body orelse
  | whileLoop test body => .node <$> Build.whileLoop test body
  | forLoop target iter body => .node <$> Build.forLoop target iter body
  | pass => .node <$> Build.pass
  | callWith func args keywords => .node <$> Build.callWith func args keywords
  | call func args => .node <$> Build.call func args
  | callName callee args => .node <$> Build.callName callee args
  | methodCall receiver method args => .node <$> Build.methodCall receiver method args
  | attr value id => .node <$> Build.attr value id
  | subscript value index => .node <$> Build.subscript value index
  | slice value lower upper => .node <$> Build.slice value lower upper
  | name id => .node <$> Build.name id
  | tuple elements => .node <$> Build.tuple elements
  | list elements => .node <$> Build.list elements
  | dict entries => .node <$> Build.dict entries
  | int value => .node <$> Build.int value
  | float bits => .node <$> Build.float bits
  | str value => .node <$> Build.str value
  | bool value => .node <$> Build.bool value
  | noneLiteral => .node <$> Build.noneLiteral
  | yieldValue value => .node <$> Build.yieldValue value

/-! ### What is given -/

/-- The places given, those in declarations included. -/
def places : Request → List NodeRef
  | paramWithDefault _ default => [default]
  | module body => body
  | functionWith _ params body => params.map ParamDecl.default ++ body
  | function _ _ body => body
  | classDef _ bases body => bases ++ body
  | returnValue value => [value]
  | assign targets value => targets ++ [value]
  | assignName _ value => [value]
  | exprStatement value => [value]
  | ifStatement test body orelse => test :: (body ++ orelse)
  | whileLoop test body => test :: body
  | forLoop target iter body => target :: iter :: body
  | callWith func args keywords => func :: (args ++ keywords.map Prod.snd)
  | call func args => func :: args
  | callName _ args => args
  | methodCall receiver _ args => receiver :: args
  | attr value _ => [value]
  | subscript value index => [value, index]
  | slice value lower upper => [value, lower, upper]
  | tuple elements => elements
  | list elements => elements
  | dict entries => entries.flatMap fun (k, v) => [k, v]
  | yieldValue value => [value]
  | _ => []

def declarations : Request → List ParamDecl
  | functionWith _ params _ => params
  | _ => []

def texts : Request → List String
  | atom text => [text]
  | param id => [id]
  | paramWithDefault id _ => [id]
  | varArgs id => [id]
  | kwArgs id => [id]
  | functionWith id _ _ => [id]
  | function id params _ => params ++ [id]
  | classDef id _ _ => [id]
  | assignName id _ => [id]
  | callWith _ _ keywords => keywords.map Prod.fst
  | callName callee _ => [callee]
  | methodCall _ method _ => [method]
  | attr _ id => [id]
  | name id => [id]
  | _ => []

def Uses (r : Request) (made : List Product) : Prop :=
  ∀ i ∈ r.places.filterMap id, .node i ∈ made

instance (r : Request) (made : List Product) : Decidable (r.Uses made) :=
  inferInstanceAs (Decidable (∀ i ∈ r.places.filterMap id, .node i ∈ made))

/-! ### What is made -/

section

variable (number : String → Atom) (base : NodeId)

/-- The nodes that are made on the way. -/
def helpers : Request → List Node
  | assignName id _ => [.name (number id)]
  | callWith _ _ keywords => keywords.map fun (id, value) => .keyword (number id) value
  | callName callee _ => [.name (number callee)]
  | methodCall receiver method _ => [.attr receiver (number method)]
  | subscript _ index => [.index index]
  | slice _ lower upper => [.slice lower upper none]
  | _ => []

/-- The node that is asked for, if the nodes made on the way stand from a position on. -/
def node? : Request → Option Node
  | atom _ => none
  | param _ => none
  | paramWithDefault _ _ => none
  | varArgs _ => none
  | kwArgs _ => none
  | module body => some (.module body)
  | functionWith id params body => some (.functionDef (number id) params [] body)
  | function id params body =>
    some (.functionDef (number id) (params.map fun p => ⟨number p, .positional, none⟩) [] body)
  | classDef id bases body => some (.classDef (number id) bases body)
  | returnValue value => some (.returnStatement value)
  | returnNone => some (.returnStatement none)
  | assign targets value => some (.assign targets value)
  | assignName _ value => some (.assign [some base] value)
  | exprStatement value => some (.exprStatement value)
  | ifStatement test body orelse => some (.ifStatement test body orelse)
  | whileLoop test body => some (.whileLoop test body [])
  | forLoop target iter body => some (.forLoop target iter body [])
  | pass => some .pass
  | callWith func args keywords =>
    some (.call func args ((List.range' base keywords.length).map some))
  | call func args => some (.call func args [])
  | callName _ args => some (.call (some base) args [])
  | methodCall _ _ args => some (.call (some base) args [])
  | attr value id => some (.attr value (number id))
  | subscript value _ => some (.subscript value (some base))
  | slice value _ _ => some (.subscript value (some base))
  | name id => some (.name (number id))
  | tuple elements => some (.tuple elements)
  | list elements => some (.list elements)
  | dict entries => some (.dict (entries.map Prod.fst) (entries.map Prod.snd))
  | int value => some (.literal (.int value))
  | float bits => some (.literal (.float bits))
  | str value => some (.literal (.str value))
  | bool value => some (.literal (.bool value))
  | noneLiteral => some (.literal .none)
  | yieldValue value => some (.yield value)

def nodes (r : Request) : List Node :=
  r.helpers number ++ (r.node? number base).toList

/-- What is given back: the position of a node is the one behind the nodes made on the way. -/
def product : Request → Product
  | atom text => .atom (number text)
  | param id => .param ⟨number id, .positional, none⟩
  | paramWithDefault id default => .param ⟨number id, .positional, default⟩
  | varArgs id => .param ⟨number id, .varArgs, none⟩
  | kwArgs id => .param ⟨number id, .kwArgs, none⟩
  | r => .node (base + (r.helpers number).length)

end

end Request

/-! ### What operations do -/

/-- What an operation does to any builder, given the texts that there are in the end: the texts
that it interns, and the nodes that it puts behind the others and what it gives back, by the
first free position. -/
def Does {α : Type} (t : Interner) (m : Build α) (texts : List String)
    (nodes : NodeId → List Node) (value : NodeId → α) : Prop :=
  ∀ b : Builder, (b.atoms.internAll texts).Extends t →
    m.run b = (value b.tree.size,
      ⟨⟨b.tree.nodes ++ (nodes b.tree.size).toArray⟩, b.atoms.internAll texts⟩)

section

variable {α β : Type} {t : Interner} {m : Build α} {f : α → Build β} {texts texts' : List String}
  {nodes : NodeId → List Node} {nodes' : NodeId → NodeId → List Node} {value : NodeId → α}
  {value' : NodeId → NodeId → β}

theorem Does.pure (a : α) : Does t (pure a) [] (fun _ => []) fun _ => a := by
  intro b _
  have hrun : (Pure.pure a : Build α).run b = (a, b) := rfl
  rw [hrun]
  simp [Interner.internAll]

theorem Does.bind (h : Does t m texts nodes value)
    (h' : ∀ base, Does t (f (value base)) texts' (nodes' base) (value' base)) :
    Does t (m >>= f) (texts ++ texts')
      (fun base => nodes base ++ nodes' base (base + (nodes base).length))
      fun base => value' base (base + (nodes base).length) := by
  intro b hb
  rw [Interner.internAll_append] at hb ⊢
  have hm := h b ((Interner.extends_internAll _ _).trans hb)
  -- The second operation finds the nodes of the first one in front of its own.
  have hf := h' b.tree.size (m.run b).2 (by rw [hm]; exact hb)
  have hrun : (m >>= f).run b = (f (m.run b).1).run (m.run b).2 := rfl
  rw [hm] at hf
  rw [hrun, hm, hf]
  simp [Tree.size]

theorem Does.map (g : α → β) (h : Does t m texts nodes value) :
    Does t (g <$> m) texts nodes fun base => g (value base) := by
  intro b hb
  have hrun : (g <$> m).run b = (g (m.run b).1, (m.run b).2) := rfl
  rw [hrun, h b hb]

theorem does_atom (text : String) :
    Does t (atom text) [text] (fun _ => []) fun _ => t.number text := by
  intro b hb
  have hrun : (atom text).run b =
      (b.atoms.number text, { b with atoms := (b.atoms.intern text).2 }) := rfl
  -- The atom given out now is the one that the text has in the end.
  rw [hrun, ← Interner.Extends.number_eq hb]
  simp [Interner.internAll]

theorem does_add (node : Node) : Does t (add node) [] (fun _ => [node]) fun base => base := by
  intro b _
  have hrun : (add node).run b = (b.tree.size, { b with tree := ⟨b.tree.nodes.push node⟩ }) := rfl
  rw [hrun]
  simp [Interner.internAll]

end

/-! ### What each request does -/

section

variable {t : Interner}

theorem does_param (name : String) :
    Does t (param name) [name] (fun _ => []) fun _ => ⟨t.number name, .positional, none⟩ :=
  have h : Does t (param name) _ _ _ := (does_atom name).bind fun _ => .pure _
  h

theorem does_mapM_param (names : List String) :
    Does t (names.mapM param) names (fun _ => []) fun _ =>
      names.map fun name => ⟨t.number name, .positional, none⟩ := by
  induction names with
  | nil => exact .pure []
  | cons name names ih =>
      have h : Does t (do return (← param name) :: (← names.mapM param)) _ _ _ :=
        (does_param name).bind fun _ => ih.bind fun _ => .pure _
      rw [List.mapM_cons]
      simpa using h

theorem does_functionWith (name : String) (params : List ParamDecl) (body : List NodeRef) :
    Does t (functionWith name params body) [name]
      (fun _ => [.functionDef (t.number name) params [] body]) fun base => base :=
  have h : Does t (functionWith name params body) _ _ _ := (does_atom name).bind fun _ => does_add _
  h

theorem does_name (id : String) :
    Does t (name id) [id] (fun _ => [.name (t.number id)]) fun base => base :=
  have h : Does t (name id) _ _ _ := (does_atom id).bind fun _ => does_add _
  h

theorem does_attr (value : NodeRef) (name : String) :
    Does t (attr value name) [name] (fun _ => [.attr value (t.number name)]) fun base => base :=
  have h : Does t (attr value name) _ _ _ := (does_atom name).bind fun _ => does_add _
  h

theorem does_keyword (entry : String × NodeRef) :
    Does t (keyword entry) [entry.1] (fun _ => [.keyword (t.number entry.1) entry.2])
      fun base => base :=
  have h : Does t (keyword entry) _ _ _ := (does_atom entry.1).bind fun _ => does_add _
  h

theorem does_mapM_keyword (keywords : List (String × NodeRef)) :
    Does t (keywords.mapM keyword) (keywords.map Prod.fst)
      (fun _ => keywords.map fun (name, value) => .keyword (t.number name) value)
      fun base => List.range' base keywords.length := by
  induction keywords with
  | nil => exact .pure []
  | cons entry keywords ih =>
      have h : Does t (do return (← keyword entry) :: (← keywords.mapM keyword)) _ _ _ :=
        (does_keyword entry).bind fun _ => ih.bind fun _ => .pure _
      rw [List.mapM_cons]
      simpa [List.range'_succ] using h

theorem does_callWith (func : NodeRef) (args : List NodeRef) (keywords : List (String × NodeRef)) :
    Does t (callWith func args keywords) (keywords.map Prod.fst)
      (fun base => keywords.map (fun (name, value) => .keyword (t.number name) value) ++
        [.call func args ((List.range' base keywords.length).map some)])
      fun base => base + keywords.length := by
  have h : Does t (callWith func args keywords) _ _ _ :=
    (does_mapM_keyword keywords).bind fun _ => does_add _
  simpa using h

theorem Request.does_perform (r : Request) :
    Does t r.perform r.texts (r.nodes t.number) (r.product t.number) := by
  cases r with
  | atom text => exact (does_atom text).map _
  | param name => exact (does_param name).map _
  | paramWithDefault name default =>
      have h : Does t (Build.paramWithDefault name default) _ _ _ :=
        (does_param name).bind fun _ => .pure _
      exact h.map _
  | varArgs name =>
      have h : Does t (Build.varArgs name) _ _ _ := (does_param name).bind fun _ => .pure _
      exact h.map _
  | kwArgs name =>
      have h : Does t (Build.kwArgs name) _ _ _ := (does_param name).bind fun _ => .pure _
      exact h.map _
  | functionWith name params body => exact (does_functionWith name params body).map _
  | function name params body =>
      have h : Does t (Build.function name params body) _ _ _ :=
        (does_mapM_param params).bind fun _ => does_functionWith name _ body
      exact h.map _
  | classDef name bases body =>
      have h : Does t (Build.classDef name bases body) _ _ _ :=
        (does_atom name).bind fun _ => does_add _
      exact h.map _
  | assignName id value =>
      have h : Does t (Build.assignName id value) _ _ _ := (does_name id).bind fun _ => does_add _
      exact h.map _
  | callWith func args keywords => 
      have h := (does_callWith (t := t) func args keywords).map Product.node
      simpa [nodes, helpers, node?, product, texts, perform] using h
  | call func args => exact (does_callWith func args []).map _
  | callName callee args =>
      have h : Does t (Build.callName callee args) _ _ _ :=
        (does_name callee).bind fun _ => does_callWith _ args []
      exact h.map _
  | methodCall receiver method args =>
      have h : Does t (Build.methodCall receiver method args) _ _ _ :=
        (does_attr receiver method).bind fun _ => does_callWith _ args []
      exact h.map _
  | attr value name => exact (does_attr value name).map _
  | subscript value index =>
      have h : Does t (Build.subscript value index) _ _ _ :=
        (does_add (.index index)).bind fun _ => does_add _
      exact h.map _
  | slice value lower upper =>
      have h : Does t (Build.slice value lower upper) _ _ _ :=
        (does_add (.slice lower upper none)).bind fun _ => does_add _
      exact h.map _
  | name id => exact (does_name id).map _
  | _ => exact (does_add _).map _

end

/-! ### What is made of what is given -/

namespace Request

variable {r : Request} {number : String → Atom} {base c : NodeId} {node : Node} {a : Atom}

theorem lt_of_product_eq {i : NodeId} (h : r.product number base = .node i) :
    i < base + (r.nodes number base).length := by
  cases r <;> cases h <;> simp [nodes, node?]

theorem exists_of_name?_product (h : (r.product number base).name? = some a) :
    ∃ text ∈ r.texts, number text = a := by
  cases r <;> cases h <;> exact ⟨_, List.mem_singleton.2 rfl, rfl⟩

/-- The nodes made on the way have nothing below them but what is given. -/
theorem mem_places_of_mem_helpers (h : node ∈ r.helpers number) (hc : some c ∈ node.places) :
    some c ∈ r.places := by
  cases r with
  | callWith func args keywords =>
      obtain ⟨entry, hentry, rfl⟩ := List.mem_map.1 h
      rw [List.mem_singleton.1 hc]
      exact List.mem_cons_of_mem _ (List.mem_append_right _ (List.mem_map_of_mem hentry))
  | slice value lower upper =>
      obtain rfl := List.mem_singleton.1 h
      simp_all [Node.places, places]
  | _ => simp_all [helpers, Node.places, places]

/-- Below the node that is asked for is what is given, or was made on the way. -/
theorem mem_places_of_node? (h : r.node? number base = some node) (hc : some c ∈ node.places) :
    some c ∈ r.places ∨ base ≤ c ∧ c < base + (r.helpers number).length := by
  cases r with
  | callWith func args keywords =>
      cases h
      simp only [Node.places, places, helpers, List.mem_cons, List.mem_append, List.mem_map,
        List.mem_range'_1, Option.some.injEq, exists_eq_right, List.length_map] at hc ⊢
      tauto
  | dict entries =>
      cases h
      rw [Node.places, ← List.unzip_fst, ← List.unzip_snd, List.zip_unzip] at hc
      exact .inl hc
  | _ =>
      -- A single node made on the way stands at the first free position.
      cases h <;> simp_all only [Node.places, places, helpers] <;> grind

theorem mem_atoms_of_mem_helpers (h : node ∈ r.helpers number) (ha : a ∈ node.atoms) :
    ∃ text ∈ r.texts, number text = a := by
  cases r with
  | callWith func args keywords =>
      obtain ⟨entry, hentry, rfl⟩ := List.mem_map.1 h
      exact ⟨entry.1, List.mem_map_of_mem hentry, (List.mem_singleton.1 ha).symm⟩
  | _ => simp_all [helpers, Node.atoms, texts]

theorem mem_atoms_of_node? (h : r.node? number base = some node) (ha : a ∈ node.atoms) :
    (∃ text ∈ r.texts, number text = a) ∨ ∃ d ∈ r.declarations, d.name = a := by
  cases r with
  | functionWith name params body =>
      cases h
      rcases List.mem_cons.1 ha with rfl | ha
      · exact .inl ⟨name, List.mem_singleton.2 rfl, rfl⟩
      · exact .inr (List.mem_map.1 ha)
  | function name params body =>
      cases h
      rcases List.mem_cons.1 ha with rfl | ha
      · exact .inl ⟨name, List.mem_append_right _ (List.mem_singleton.2 rfl), rfl⟩
      · obtain ⟨d, hd, rfl⟩ := List.mem_map.1 ha
        obtain ⟨param, hparam, rfl⟩ := List.mem_map.1 hd
        exact .inl ⟨param, List.mem_append_left _ hparam, rfl⟩
  | _ => cases h <;> simp_all [Node.atoms, texts]

/-- Nodes come after what is below them if what is given comes before all of them. -/
theorem lt_of_mem_places_nodes {k : Nat} (hplaces : ∀ c, some c ∈ r.places → c < base)
    (hk : (r.nodes number base)[k]? = some node) (hc : some c ∈ node.places) : c < base + k := by
  unfold nodes at hk
  rcases Nat.lt_or_ge k (r.helpers number).length with hlt | hge
  · rw [List.getElem?_append_left hlt] at hk
    exact Nat.lt_add_right k (hplaces c (mem_places_of_mem_helpers (List.mem_of_getElem? hk) hc))
  · rw [List.getElem?_append_right hge] at hk
    have hnode : r.node? number base = some node := Option.mem_toList.1 (List.mem_of_getElem? hk)
    rcases mem_places_of_node? hnode hc with hgiven | ⟨-, hmade⟩
    · exact Nat.lt_add_right k (hplaces c hgiven)
    · exact Nat.lt_of_lt_of_le hmade (Nat.add_le_add_left hge base)

theorem mem_atoms_of_mem_nodes (h : node ∈ r.nodes number base) (ha : a ∈ node.atoms) :
    (∃ text ∈ r.texts, number text = a) ∨ ∃ d ∈ r.declarations, d.name = a := by
  rcases List.mem_append.1 h with h | h
  · exact .inl (mem_atoms_of_mem_helpers h ha)
  · exact mem_atoms_of_node? (Option.mem_toList.1 h) ha

/-- Keys and values are given in pairs. -/
theorem length_eq_of_dict {keys values : List NodeRef}
    (h : .dict keys values ∈ r.nodes number base) : keys.length = values.length := by
  rcases List.mem_append.1 h with h | h
  · cases r <;> simp_all [helpers]
  · have h := Option.mem_toList.1 h
    cases r <;> cases h
    simp

end Request

/-! ### Runs -/

/-- What a new builder gives back for some requests, and what it is then. -/
def outcome (requests : List Request) : List Product × Builder :=
  (requests.mapM Request.perform).run {}

/-- Each request uses only positions that were given back for those before it. -/
def Admissible (requests : List Request) : Prop :=
  ∀ k (h : k < requests.length), (requests[k]).Uses (outcome (requests.take k)).1

variable {requests before after : List Request} {r : Request} {t : Interner}

theorem Admissible.of_concat (h : Admissible (requests ++ [r])) :
    Admissible requests ∧ r.Uses (outcome requests).1 := by
  refine ⟨fun k hk => ?_, ?_⟩
  · have hk' := h k (by rw [List.length_append]; omega)
    rwa [List.getElem_append_left hk, List.take_append_of_le_length (Nat.le_of_lt hk)] at hk'
  · have hlast := h requests.length (by simp)
    rwa [List.getElem_concat_length rfl, List.take_left] at hlast

/-- One more request. -/
theorem outcome_concat (h : ((outcome requests).2.atoms.internAll r.texts).Extends t) :
    outcome (requests ++ [r]) =
      ((outcome requests).1 ++ [r.product t.number (outcome requests).2.tree.size],
        ⟨⟨(outcome requests).2.tree.nodes ++
            (r.nodes t.number (outcome requests).2.tree.size).toArray⟩,
          (outcome requests).2.atoms.internAll r.texts⟩) := by
  have hrun : outcome (requests ++ [r]) =
      ((outcome requests).1 ++ [(r.perform.run (outcome requests).2).1],
        (r.perform.run (outcome requests).2).2) := by
    unfold outcome
    rw [List.mapM_append]
    rfl
  rw [hrun, r.does_perform _ h]

theorem atoms_outcome (requests : List Request) :
    (outcome requests).2.atoms =
      Interner.new.internCommon.internAll (requests.flatMap Request.texts) := by
  induction requests using List.reverseRecOn with
  | nil => rfl
  | append_singleton requests r ih =>
      rw [outcome_concat (.refl _), List.flatMap_append, Interner.internAll_append, ← ih]
      simp

/-- Everything is still there and as it was. -/
structure Grows (x y : List Product × Builder) : Prop where
  products : x.1 <+: y.1
  nodes : x.2.tree.nodes.toList <+: y.2.tree.nodes.toList
  atoms : x.2.atoms.Extends y.2.atoms

theorem grows_outcome (before after : List Request) :
    Grows (outcome before) (outcome (before ++ after)) := by
  induction after using List.reverseRecOn with
  | nil =>
      rw [List.append_nil]
      exact ⟨List.prefix_rfl, List.prefix_rfl, .refl _⟩
  | append_singleton after r ih =>
      rw [← List.append_assoc, outcome_concat (.refl _)]
      refine ⟨ih.products.trans (List.prefix_append _ _), ih.nodes.trans ?_,
        ih.atoms.trans (Interner.extends_internAll _ _)⟩
      simp

theorem length_products (requests : List Request) :
    (outcome requests).1.length = requests.length := by
  induction requests using List.reverseRecOn with
  | nil => rfl
  | append_singleton requests r ih =>
      rw [outcome_concat (.refl _), List.length_append, List.length_append, ih]
      rfl

theorem getElem?_of_isPrefix {α : Type} {l l' : List α} (h : l <+: l') {k : Nat} {x : α}
    (hk : l[k]? = some x) : l'[k]? = some x := by
  obtain ⟨more, rfl⟩ := h
  rw [List.getElem?_append_left (List.getElem?_eq_some_iff.1 hk).1, hk]

/-- What a request has made stays where it was put, under the names that there are in the end. -/
theorem answered_outcome (before : List Request) (r : Request) (after : List Request) :
    let b := (outcome (before ++ r :: after)).2
    let base := (outcome before).2.tree.size
    (outcome (before ++ r :: after)).1[before.length]? =
        some (r.product b.atoms.number base) ∧
      ∀ k node, (r.nodes b.atoms.number base)[k]? = some node →
        b.tree.get? (base + k) = some node := by
  intro b base
  have hgrows := grows_outcome (before ++ [r]) after
  rw [List.append_assoc, List.singleton_append] at hgrows
  have ht := hgrows.atoms
  rw [outcome_concat (.refl _)] at ht
  rw [outcome_concat ht] at hgrows
  refine ⟨?_, fun k node hk => ?_⟩
  · refine getElem?_of_isPrefix hgrows.products ?_
    rw [← length_products before]
    exact List.getElem?_concat_length
  · rw [Tree.get?, ← Array.getElem?_toList]
    refine getElem?_of_isPrefix hgrows.nodes ?_
    simpa [b, base, Tree.size, List.getElem?_append_right] using hk

/-- Everything was made for one of the requests, under the names that there are in the end. -/
theorem made_outcome (ht : (outcome requests).2.atoms.Extends t) :
    (∀ x ∈ (outcome requests).1, ∃ r ∈ requests, ∃ base, r.product t.number base = x) ∧
      ∀ node ∈ (outcome requests).2.tree.nodes.toList,
        ∃ r ∈ requests, ∃ base, node ∈ r.nodes t.number base := by
  induction requests using List.reverseRecOn with
  | nil => exact ⟨fun x hx => absurd hx List.not_mem_nil, fun node hnode => by cases hnode⟩
  | append_singleton requests r ih =>
      rw [outcome_concat (.refl _)] at ht
      obtain ⟨hproducts, hnodes⟩ := ih ((Interner.extends_internAll _ _).trans ht)
      have hlast : r ∈ requests ++ [r] := List.mem_append_right _ (List.mem_singleton.2 rfl)
      rw [outcome_concat ht]
      refine ⟨fun x hx => ?_, fun node hnode => ?_⟩
      · rcases List.mem_append.1 hx with hx | hx
        · obtain ⟨r', hr', h⟩ := hproducts x hx
          exact ⟨r', List.mem_append_left _ hr', h⟩
        · exact ⟨r, hlast, _, (List.mem_singleton.1 hx).symm⟩
      · simp only [Array.toList_append] at hnode
        rcases List.mem_append.1 hnode with hnode | hnode
        · obtain ⟨r', hr', h⟩ := hnodes node hnode
          exact ⟨r', List.mem_append_left _ hr', h⟩
        · exact ⟨r, hlast, _, hnode⟩

/-- The names given back are atoms of texts that were given. -/
theorem exists_of_name?_outcome (ht : (outcome requests).2.atoms.Extends t) {a : Atom}
    (h : some a ∈ (outcome requests).1.map Product.name?) :
    ∃ text ∈ requests.flatMap Request.texts, t.number text = a := by
  obtain ⟨x, hx, hname⟩ := List.mem_map.1 h
  obtain ⟨r, hr, base, rfl⟩ := (made_outcome ht).1 x hx
  obtain ⟨text, htext, ha⟩ := Request.exists_of_name?_product hname
  exact ⟨text, List.mem_flatMap.2 ⟨r, hr, htext⟩, ha⟩

/-- The positions given back are those of nodes, and children stand before their parents. -/
theorem lt_of_admissible (h : Admissible requests) :
    (∀ i, .node i ∈ (outcome requests).1 → i < (outcome requests).2.tree.size) ∧
      ∀ i node, (outcome requests).2.tree.get? i = some node → ∀ c, some c ∈ node.places →
        c < i := by
  induction requests using List.reverseRecOn with
  | nil => exact ⟨fun i hi => absurd hi List.not_mem_nil, fun i node hi => by cases hi⟩
  | append_singleton requests r ih =>
      obtain ⟨hrequests, huses⟩ := h.of_concat
      obtain ⟨hgiven, hbefore⟩ := ih hrequests
      -- What the last request uses stands before all that it makes.
      have hplaces (c : NodeId) (hc : some c ∈ r.places) : c < (outcome requests).2.tree.size :=
        hgiven c (huses c (List.mem_filterMap.2 ⟨some c, hc, rfl⟩))
      rw [outcome_concat (.refl _)]
      refine ⟨fun i hi => ?_, fun i node hi c hc => ?_⟩
      · simp only [Tree.size, Array.size_append, List.size_toArray]
        rcases List.mem_append.1 hi with hi | hi
        · exact Nat.lt_add_right _ (hgiven i hi)
        · exact Request.lt_of_product_eq (List.mem_singleton.1 hi).symm
      · rcases Nat.lt_or_ge i (outcome requests).2.tree.size with hlt | hge
        · exact hbefore i node ((Array.getElem?_append_left hlt).symm.trans hi) c hc
        · have hnew := (Array.getElem?_append_right hge).symm.trans hi
          rw [List.getElem?_toArray] at hnew
          have hlt := Request.lt_of_mem_places_nodes hplaces hnew hc
          exact Nat.lt_of_lt_of_eq hlt (Nat.add_sub_cancel' hge)

/-- What a builder holds and has given back, for the requests that were made. -/
structure Faithful (requests : List Request) (products : List Product) (b : Builder) : Prop where
  /-- Whatever was there after some of the requests is there after all of them. -/
  grows : ∀ before after, requests = before ++ after → Grows (outcome before) (products, b)
  /-- Each request was answered with what it asked for, which stands where the tree ended then. -/
  answered : ∀ before r after, requests = before ++ r :: after →
    let base := (outcome before).2.tree.size
    products[before.length]? = some (r.product b.atoms.number base) ∧
      (∀ k helper, (r.helpers b.atoms.number)[k]? = some helper →
        b.tree.get? (base + k) = some helper) ∧
      ∀ node, r.node? b.atoms.number base = some node →
        b.tree.get? (base + (r.helpers b.atoms.number).length) = some node
  /-- Places are empty or lead back. -/
  descends : ∀ i node, b.tree.get? i = some node → ∀ c, some c ∈ node.places → c < i
  /-- All children exist. -/
  inRange : ∀ i, ∀ c ∈ b.tree.children i, c < b.tree.size
  /-- No key and no value is without the other. -/
  paired : ∀ i keys values, b.tree.get? i = some (.dict keys values) → keys.length = values.length
  /-- The names in the tree are atoms of texts that were given, as long as the declarations given
  have names that were given back. -/
  named : (∀ d ∈ requests.flatMap Request.declarations, some d.name ∈ products.map Product.name?) →
    ∀ i node, b.tree.get? i = some node → ∀ a ∈ node.atoms,
      ∃ text ∈ requests.flatMap Request.texts, b.atoms.number text = a
  /-- Texts that were given have atoms, which stand for them. -/
  resolved : ∀ text ∈ requests.flatMap Request.texts,
    b.atoms.number text < b.atoms.size ∧ b.atoms.resolve (b.atoms.number text) = text
  /-- No text has two atoms. -/
  distinct : b.atoms.Distinct

/-- A builder that is asked for one thing after the other, with positions that it has given back
before, answers every request with what it asked for and never goes back on it. -/
theorem faithful_outcome (h : Admissible requests) :
    Faithful requests (outcome requests).1 (outcome requests).2 where
  grows := by
    rintro before after rfl
    exact grows_outcome before after
  answered := by
    rintro before r after rfl base
    obtain ⟨hproduct, hnodes⟩ := answered_outcome before r after
    refine ⟨hproduct, fun k helper hk => hnodes k helper ?_, fun node hnode => hnodes _ node ?_⟩
    · exact getElem?_of_isPrefix (List.prefix_append _ _) hk
    · rw [Request.nodes, hnode]
      exact List.getElem?_concat_length
  descends := (lt_of_admissible h).2
  inRange := by
    intro i c hc
    obtain ⟨node, hi, hc⟩ := Tree.exists_of_mem_children hc
    exact Nat.lt_trans ((lt_of_admissible h).2 i node hi c hc) (Array.getElem?_eq_some_iff.1 hi).1
  paired := by
    intro i keys values hi
    have hmem := Array.mem_toList_iff.2 (Array.mem_of_getElem? hi)
    obtain ⟨r, -, base, h⟩ := (made_outcome (.refl _)).2 _ hmem
    exact Request.length_eq_of_dict h
  named := by
    intro hnames i node hi a ha
    have hmem := Array.mem_toList_iff.2 (Array.mem_of_getElem? hi)
    obtain ⟨r, hr, base, h⟩ := (made_outcome (.refl _)).2 node hmem
    rcases Request.mem_atoms_of_mem_nodes h ha with ⟨text, htext, hatom⟩ | ⟨d, hd, rfl⟩
    · exact ⟨text, List.mem_flatMap.2 ⟨r, hr, htext⟩, hatom⟩
    · exact exists_of_name?_outcome (.refl _) (hnames d (List.mem_flatMap.2 ⟨r, hr, hd⟩))
  resolved := by
    intro text htext
    have hfind := Interner.find?_internAll (t := Interner.new.internCommon) htext
    rw [← atoms_outcome] at hfind
    exact ⟨Interner.lt_size_of_find? hfind, Interner.resolve_of_find? hfind⟩
  distinct := by
    rw [atoms_outcome]
    exact (Interner.distinct_new.internAll _).internAll _

/-- A function with a default value, which calls a method and passes named arguments. -/
def greeting : List Request :=
  [.atom "x", .int 1, .paramWithDefault "x" (some 0), .name "x",
    .methodCall (some 1) "append" [some 0, none],
    .callWith (some 1) [] [("key", some 0), ("x", none)], .slice (some 1) none (some 0),
    .dict [(some 0, some 1)], .returnValue (some 8),
    .functionWith "f" [⟨22, .positional, some 0⟩, ⟨22, .kwArgs, none⟩] [some 6, some 10]]

theorem faithful_outcome_greeting :
    let products : List Product :=
      [.atom 22, .node 0, .param ⟨22, .positional, some 0⟩, .node 1, .node 3, .node 6, .node 8,
        .node 9, .node 10, .node 11]
    Admissible greeting ∧ Faithful greeting products (outcome greeting).2 ∧
      ∀ d ∈ greeting.flatMap Request.declarations, some d.name ∈ products.map Product.name? := by
  intro products
  have h : Admissible greeting := by
    unfold Admissible
    decide +kernel
  have hproducts : (outcome greeting).1 = products := by decide +kernel
  exact ⟨h, hproducts ▸ faithful_outcome h, by decide⟩

end Build

end ObjectInference
