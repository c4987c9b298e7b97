import Mathlib.Logic.Relation
import ObjectInference.Proofs.Noting

/-!
What a body returns and yields.

A value leaves a function where a statement returns it, or where an expression yields it.
`Exit` is such a place, and the exits of a body are found statement by statement: first
those of the expressions of a statement, in source order, then the value it returns, and
then those of the statements inside it. That this misses no yield is not seen from the
definition. `yields_statement` says so of one statement, and `flatMap_parts` of a body:
the yields of its statements are those that one walk over the body comes to, which enters
no definition.

The binder goes through the same statements, but in an assignment or a loop it looks at
one expression only, and not at the targets. `Gathering` says when something that scopes
keep is the parts of the statements of their bodies, one after the other, and what they
return is an instance.
-/

namespace ObjectInference

open Relation

/-- A place where a value leaves a function. -/
inductive Exit where
  | yielded (value : NodeRef)
  | returned (value : NodeRef)
deriving DecidableEq, Repr

namespace Exit

def value : Exit → NodeRef
  | yielded value => value
  | returned value => value

def isYield : Exit → Bool
  | yielded _ => true
  | returned _ => false

def yield? : Exit → Option NodeRef
  | yielded value => some value
  | returned _ => none

end Exit

namespace Tree

variable {t : Tree} {i j : NodeId}

/-! ### Walks that enter no definition -/

/-- A step down to a child, unless the node is a definition. -/
def Enters (t : Tree) (i c : NodeId) : Prop :=
  t.isDefinition i = false ∧ c ∈ t.children i

/-- The nodes at and below a node in source order, each before those below it, without
definitions and what is inside them, going down at most so many steps. -/
def outlineWithin (t : Tree) : Nat → NodeId → List NodeId
  | 0, _ => []
  | fuel + 1, i =>
    if t.isDefinition i then [] else i :: (t.children i).flatMap (outlineWithin t fuel)

def outline (t : Tree) (r : NodeRef) : List NodeId :=
  r.toList.flatMap (t.outlineWithin (t.size + 1))

def yieldAt? (t : Tree) (i : NodeId) : Option NodeRef :=
  match t.get? i with
  | some (.yield value) => some value
  | _ => none

theorem height_lt_of_mem_children (ht : t.Descending) {c : NodeId} (hc : c ∈ t.children i) :
    t.height (some c) < t.height (some i) := by
  unfold children at hc
  split at hc
  · rename_i node hn
    obtain ⟨r, hr, rfl⟩ := List.mem_filterMap.1 hc
    exact height_lt (e := some i) ht hn hr
  · cases hc

theorem outlineWithin_eq (ht : t.Descending) {n m : Nat} (hn : t.height (some i) ≤ n)
    (hm : t.height (some i) ≤ m) : t.outlineWithin n i = t.outlineWithin m i := by
  have hpos := t.height_pos (some i)
  induction n generalizing m i with
  | zero => omega
  | succ n ih =>
      obtain ⟨m, rfl⟩ : ∃ k, m = k + 1 := ⟨m - 1, by omega⟩
      have hchildren : ∀ c ∈ t.children i, t.outlineWithin n c = t.outlineWithin m c := by
        intro c hc
        have hlt := height_lt_of_mem_children ht hc
        exact ih (by omega) (by omega) (t.height_pos _)
      simp only [outlineWithin, List.flatMap, List.map_congr_left hchildren]

theorem outline_some (ht : t.Descending) (i : NodeId) :
    t.outline (some i) =
      if t.isDefinition i then [] else i :: (t.children i).flatMap fun c => t.outline (some c) := by
  have hchildren : ∀ c ∈ t.children i,
      t.outlineWithin t.size c = t.outlineWithin (t.size + 1) c := by
    intro c hc
    have hlt := height_lt_of_mem_children ht hc
    have hle := t.height_le (some i)
    exact outlineWithin_eq ht (by omega) (by omega)
  simp only [outline, Option.toList_some, List.flatMap_cons, List.flatMap_nil, List.append_nil]
  rw [outlineWithin]
  simp only [List.flatMap, List.map_congr_left hchildren]

/-- The outline of a node holds what can be reached from it. -/
theorem mem_outline (ht : t.Descending) :
    j ∈ t.outline (some i) ↔ ReflTransGen t.Enters i j ∧ t.isDefinition j = false := by
  generalize hn : t.height (some i) = n
  induction n using Nat.strongRecOn generalizing i with
  | ind n ih =>
      rw [outline_some ht]
      cases hdef : t.isDefinition i with
      | true =>
          simp only [if_true, List.not_mem_nil, false_iff, not_and, Bool.not_eq_false]
          intro h
          rcases ReflTransGen.cases_head h with rfl | ⟨c, hc, _⟩
          · exact hdef
          · exact absurd (hdef.symm.trans hc.1) Bool.noConfusion
      | false =>
          have hchild : ∀ c ∈ t.children i, (j ∈ t.outline (some c) ↔
              ReflTransGen t.Enters c j ∧ t.isDefinition j = false) :=
            fun c hc => ih _ (hn ▸ height_lt_of_mem_children ht hc) rfl
          rw [if_neg Bool.false_ne_true, List.mem_cons, List.mem_flatMap]
          constructor
          · rintro (rfl | ⟨c, hc, hj⟩)
            · exact ⟨.refl, hdef⟩
            · obtain ⟨h, hj⟩ := (hchild c hc).1 hj
              exact ⟨.head ⟨hdef, hc⟩ h, hj⟩
          · rintro ⟨h, hj⟩
            rcases ReflTransGen.cases_head h with rfl | ⟨c, hc, h⟩
            · exact .inl rfl
            · exact .inr ⟨c, hc.2, (hchild c hc.2).2 ⟨h, hj⟩⟩

/-! ### Yields -/

def yieldVisitor (t : Tree) : Visitor (List NodeRef) := fun i found =>
  if t.isDefinition i then (.skip, found) else (.descend, found ++ (t.yieldAt? i).toList)

theorem walkWithin_yieldVisitor (t : Tree) (fuel : Nat) (i : NodeId) (found : List NodeRef) :
    t.walkWithin t.yieldVisitor fuel i found =
      found ++ (t.outlineWithin fuel i).filterMap t.yieldAt? := by
  induction fuel generalizing i found with
  | zero => simp [walkWithin, outlineWithin]
  | succ fuel ih =>
      have hall : ∀ (cs : List NodeId) (found : List NodeRef),
          cs.foldl (fun found c => t.walkWithin t.yieldVisitor fuel c found) found =
            found ++ (cs.flatMap (t.outlineWithin fuel)).filterMap t.yieldAt? := by
        intro cs
        induction cs with
        | nil => simp
        | cons c cs ihcs =>
            intro found
            rw [List.foldl_cons, ih, ihcs, List.flatMap_cons, List.filterMap_append,
              List.append_assoc]
      unfold walkWithin outlineWithin
      cases hdef : t.isDefinition i with
      | true => simp [yieldVisitor, hdef]
      | false =>
          simp only [yieldVisitor, hdef, Bool.false_eq_true, if_false]
          rw [hall]
          cases hy : t.yieldAt? i <;> simp [hy]

/-- The yields of an expression are those that a walk comes to. -/
theorem yields_eq (t : Tree) (r : NodeRef) : t.yields r = (t.outline r).filterMap t.yieldAt? := by
  have hvisitor : t.yields r = t.walk t.yieldVisitor r [] := by
    unfold yields
    congr 1
    funext i found
    unfold yieldVisitor yieldAt?
    split
    · rfl
    · split <;> simp_all
  rw [hvisitor]
  cases r with
  | none => rfl
  | some i => simp [walk, walkWithin_yieldVisitor, outline]

theorem yields_of_isDefinition (ht : t.Descending) (h : t.isDefinition i = true) :
    t.yields (some i) = [] := by
  rw [yields_eq, outline_some ht, if_pos h]
  rfl

/-- The yields at a node, and then those of its children. -/
theorem yields_of_get? (ht : t.Descending) {node : Node} (hn : t.get? i = some node)
    (hdef : node.isDefinition = false) :
    t.yields (some i) = (t.yieldAt? i).toList ++ node.places.flatMap t.yields := by
  have hnot : t.isDefinition i = false := by simp [isDefinition, hn, hdef]
  have hplaces : ∀ places : List NodeRef,
      ((places.filterMap id).flatMap fun c => t.outline (some c)).filterMap t.yieldAt? =
        places.flatMap t.yields := by
    intro places
    induction places with
    | nil => rfl
    | cons r places ih => cases r <;> simp_all [yields_eq, outline]
  have hchildren : t.children i = node.places.filterMap id := by
    simp only [children, hn, Node.children]
  rw [yields_eq, outline_some ht, hnot, if_neg Bool.false_ne_true, hchildren,
    List.filterMap_cons, hplaces]
  cases t.yieldAt? i <;> rfl

/-! ### Statements -/

/-- The expressions of a statement, in source order. What is no statement is taken for an
expression. -/
def parts (t : Tree) (statement : NodeRef) : List NodeRef :=
  match t.node? statement with
  | some (.returnStatement value) => [value]
  | some (.assign targets value) => targets ++ [value]
  | some (.ifStatement test _ _) => [test]
  | some (.whileLoop test _ _) => [test]
  | some (.forLoop target iter _ _) => [target, iter]
  | some (.exprStatement value) => [value]
  | some (.functionDef ..) => []
  | some (.classDef ..) => []
  | some .pass => []
  | some _ => [statement]
  | none => []

def targets (t : Tree) (statement : NodeRef) : List NodeRef :=
  match t.node? statement with
  | some (.assign targets _) => targets
  | some (.forLoop target _ _ _) => [target]
  | _ => []

/-- A statement and the statements inside it, but those of definitions, going down at most
so many steps. -/
def statementsWithin (t : Tree) : Nat → NodeRef → List NodeRef
  | 0, _ => []
  | fuel + 1, statement => statement :: (t.block statement).flatMap (statementsWithin t fuel)

def statementsAt (t : Tree) (statement : NodeRef) : List NodeRef :=
  t.statementsWithin (t.size + 1) statement

/-- The statements of a body, those inside others included, but not those of definitions. -/
def statementsOf (t : Tree) (body : List NodeRef) : List NodeRef :=
  body.flatMap t.statementsAt

/-- The yields of some expressions of a statement, and then the value that it returns. -/
def exitsIn (t : Tree) (exprs : List NodeRef) (statement : NodeRef) : List Exit :=
  (exprs.flatMap t.yields).map .yielded ++
    match t.node? statement with
    | some (.returnStatement value) => [.returned value]
    | _ => []

/-- The exits of a statement, less those of the statements inside it. -/
def exits (t : Tree) (statement : NodeRef) : List Exit :=
  t.exitsIn (t.parts statement) statement

/-- The exits of a statement that the binder looks for. -/
def collected (t : Tree) (statement : NodeRef) : List Exit :=
  t.exitsIn [t.expression statement] statement

theorem statementsWithin_eq (ht : t.Descending) {n m : Nat} {statement : NodeRef}
    (hn : t.height statement ≤ n) (hm : t.height statement ≤ m) :
    t.statementsWithin n statement = t.statementsWithin m statement := by
  have hpos := t.height_pos statement
  induction n generalizing m statement with
  | zero => omega
  | succ n ih =>
      obtain ⟨m, rfl⟩ : ∃ k, m = k + 1 := ⟨m - 1, by omega⟩
      have hblock : ∀ r ∈ t.block statement,
          t.statementsWithin n r = t.statementsWithin m r := by
        intro r hr
        have hlt := height_lt_of_mem_block ht hr
        exact ih (by omega) (by omega) (t.height_pos r)
      simp only [statementsWithin, List.flatMap, List.map_congr_left hblock]

theorem statementsAt_eq (ht : t.Descending) (statement : NodeRef) :
    t.statementsAt statement = statement :: t.statementsOf (t.block statement) := by
  have hblock : ∀ r ∈ t.block statement, t.statementsWithin t.size r = t.statementsAt r := by
    intro r hr
    have hlt := height_lt_of_mem_block ht hr
    have hle := t.height_le statement
    exact statementsWithin_eq ht (by omega) (by omega)
  rw [statementsAt, statementsWithin]
  simp only [statementsOf, List.flatMap, List.map_congr_left hblock]

/-- The expressions of a statement and the statements inside it hold all its yields. -/
theorem yields_statement (ht : t.Descending) (statement : NodeRef) :
    t.yields statement =
      (t.parts statement).flatMap t.yields ++ (t.block statement).flatMap t.yields := by
  cases statement with
  | none => rfl
  | some i =>
      have hnode : t.node? (some i) = t.get? i := rfl
      unfold parts block
      rw [hnode]
      cases hn : t.get? i with
      | none =>
          rw [yields_eq, outline_some ht]
          simp [isDefinition, children, yieldAt?, hn]
      | some node =>
          cases hdef : node.isDefinition with
          | true =>
              rw [yields_of_isDefinition ht (by simp [isDefinition, hn, hdef])]
              cases node <;> first | rfl | cases hdef
          | false =>
              have hyields := yields_of_get? ht hn hdef
              cases node with
              | functionDef | classDef => cases hdef
              | returnStatement | assign | ifStatement | whileLoop | forLoop | exprStatement
              | pass =>
                  rw [hyields]
                  simp [Node.places, yieldAt?, hn]
              -- Only an expression may be a yield itself, and it is its own part.
              | _ => simp

/-- Statement by statement, all yields of a body are met, in the order of the body. -/
theorem flatMap_parts (ht : t.Descending) (body : List NodeRef) :
    (t.statementsOf body).flatMap (fun statement => (t.parts statement).flatMap t.yields) =
      body.flatMap t.yields := by
  have hone : ∀ n statement, t.height statement = n → (t.statementsAt statement).flatMap
      (fun statement => (t.parts statement).flatMap t.yields) = t.yields statement := by
    intro n
    induction n using Nat.strongRecOn with
    | ind n ih =>
        intro statement hn
        have hblock : ∀ r ∈ t.block statement, (t.statementsAt r).flatMap
            (fun statement => (t.parts statement).flatMap t.yields) = t.yields r :=
          fun r hr => ih _ (hn ▸ height_lt_of_mem_block ht hr) r rfl
        rw [statementsAt_eq ht, List.flatMap_cons, yields_statement ht statement, statementsOf,
          List.flatMap_assoc]
        exact congrArg (_ ++ ·) (List.flatMap_congr hblock)
  rw [statementsOf, List.flatMap_assoc]
  simp only [hone _ _ rfl]

/-- The expressions of a statement are its targets and the one that yields are looked for
in. -/
theorem flatMap_parts_eq (t : Tree) (statement : NodeRef) :
    (t.parts statement).flatMap t.yields =
      (t.targets statement).flatMap t.yields ++ t.yields (t.expression statement) := by
  unfold parts targets expression
  cases t.node? statement with
  | none => rfl
  | some node => cases node <;> simp <;> rfl

/-- The binder misses the yields in targets, and nothing else. -/
theorem exits_eq (t : Tree) (statement : NodeRef) :
    t.exits statement =
      ((t.targets statement).flatMap t.yields).map .yielded ++ t.collected statement := by
  rw [exits, collected, exitsIn, exitsIn, flatMap_parts_eq, List.flatMap_singleton,
    List.map_append, List.append_assoc]

/-- The yields among the exits of a body are those of its outline, in that order. -/
theorem filterMap_yield?_exits (ht : t.Descending) (body : List NodeRef) :
    ((t.statementsOf body).flatMap t.exits).filterMap Exit.yield? =
      (body.flatMap t.outline).filterMap t.yieldAt? := by
  have hone : ∀ statement,
      (t.exits statement).filterMap Exit.yield? = (t.parts statement).flatMap t.yields := by
    intro statement
    unfold exits exitsIn
    split <;> simp [List.filterMap_map, Function.comp_def, Exit.yield?]
  rw [List.filterMap_flatMap, List.filterMap_flatMap]
  simp only [hone, flatMap_parts ht, ← yields_eq]

theorem any_isYield (exits : List Exit) :
    exits.any Exit.isYield = true ↔ ∃ value, value ∈ exits.filterMap Exit.yield? := by
  rw [List.any_eq_true]
  constructor
  · rintro ⟨exit, hexit, hyield⟩
    cases exit with
    | yielded value => exact ⟨value, List.mem_filterMap.2 ⟨_, hexit, rfl⟩⟩
    | returned value => cases hyield
  · rintro ⟨value, hvalue⟩
    obtain ⟨exit, hexit, hyield⟩ := List.mem_filterMap.1 hvalue
    cases exit with
    | yielded value' => exact ⟨_, hexit, rfl⟩
    | returned value' => cases hyield

/-- There is a yield among the exits of a body if one can be reached from the body. -/
theorem exits_yield_iff (ht : t.Descending) (body : List NodeRef) :
    ((t.statementsOf body).flatMap t.exits).any Exit.isYield = true ↔
      ∃ i j value, some i ∈ body ∧ ReflTransGen t.Enters i j ∧
        t.get? j = some (.yield value) := by
  rw [any_isYield, filterMap_yield?_exits ht]
  constructor
  · rintro ⟨value, hvalue⟩
    obtain ⟨j, hj, hyield⟩ := List.mem_filterMap.1 hvalue
    obtain ⟨r, hr, hj⟩ := List.mem_flatMap.1 hj
    cases r with
    | none => cases hj
    | some i =>
        unfold yieldAt? at hyield
        split at hyield <;> cases hyield
        rename_i hget
        exact ⟨i, j, value, hr, ((mem_outline ht).1 hj).1, hget⟩
  · rintro ⟨i, j, value, hi, hreach, hget⟩
    have hdef : t.isDefinition j = false := by simp [isDefinition, hget, Node.isDefinition]
    refine ⟨value, List.mem_filterMap.2 ⟨j, List.mem_flatMap.2 ⟨_, hi, ?_⟩, ?_⟩⟩
    · exact (mem_outline ht).2 ⟨hreach, hdef⟩
    · simp [yieldAt?, hget]

end Tree

/-! ### What scopes gather from their bodies -/

/-- Something that scopes keep of the statements of their bodies: every statement that is no
definition adds its part, and a definition adds nothing, neither where it stands nor to the
scope that it opens. -/
structure Gathering (t : Tree) {α : Type} (K : Scope → List α → Prop) (part : NodeRef → List α) :
    Prop where
  note {d : Scope} {xs : List α} (h : K d xs) (statement : NodeRef) :
    K (d.add (t.notes statement)) (xs ++ part statement)
  definition {statement : NodeRef} {h : Header} (hh : t.header? statement = some h) :
    part statement = []
  define {d : Scope} {xs : List α} (h : K d xs) (inner : ScopeId) (name : Atom) (o : ObjectId) :
    K { d with
        children := d.children ++ [inner]
        bindings := d.bindings ++ [(name, .object o)] } xs
  opened {d : Scope} (params : List ParamDecl) (hreturned : d.returned = [])
    (hgenerator : d.generator = false) (hbindings : d.bindings = Binding.parameterNames params) :
    K d []

theorem Tree.block_of_header? {t : Tree} {statement : NodeRef} {h : Header}
    (hh : t.header? statement = some h) : t.block statement = [] := by
  unfold header? at hh
  unfold block
  split at hh <;> cases hh
  · rename_i hn
    rw [hn]
  · rename_i hn
    rw [hn]

namespace Binding

/-- From one binding to a later one, this has been added to what a scope has gathered, and
nothing has happened to the others that were there. The scopes opened on the way have
gathered the parts of their bodies. -/
structure Gathers (t : Tree) {α : Type} (K : Scope → List α → Prop) (part : NodeRef → List α)
    (s : ScopeId) (found : List α) (b b' : Binding) : Prop where
  kept {a : ScopeId} {d : Scope} (hd : b.scopes[a]? = some d) :
    ∃ d', b'.scopes[a]? = some d' ∧ d'.node = d.node ∧
      ∀ before, K d before → K d' (before ++ if a = s then found else [])
  opened {a : ScopeId} {d : Scope} (ha : b.scopes.size ≤ a) (hd : b'.scopes[a]? = some d) :
    ∃ h, t.header? d.node = some h ∧ K d ((t.statementsOf h.body).flatMap part)

namespace Gathers

variable {t : Tree} {α : Type} {K : Scope → List α → Prop} {part : NodeRef → List α}
  {s : ScopeId} {found found' : List α} {b b₁ b₂ : Binding}

theorem refl (b : Binding) : Gathers t K part s [] b b where
  kept {a d} hd := ⟨d, hd, rfl, fun before h => by simpa using h⟩
  opened ha hd := absurd (Array.getElem?_eq_some_iff.1 hd).1 (Nat.not_lt.2 ha)

theorem trans (h : Gathers t K part s found b b₁) (h' : Gathers t K part s found' b₁ b₂)
    (hs : s < b.scopes.size) : Gathers t K part s (found ++ found') b b₂ where
  kept {a d} hd := by
    obtain ⟨d₁, hd₁, hnode, hkeeps⟩ := h.kept hd
    obtain ⟨d₂, hd₂, hnode', hkeeps'⟩ := h'.kept hd₁
    refine ⟨d₂, hd₂, hnode'.trans hnode, fun before hbefore => ?_⟩
    have hd₂ := hkeeps' _ (hkeeps before hbefore)
    split at hd₂ <;> simp_all
  opened {a d} ha hd := by
    rcases Nat.lt_or_ge a b₁.scopes.size with hlt | hge
    · obtain ⟨h₁, hh, hkeeps⟩ := h.opened ha (Array.getElem?_eq_getElem hlt)
      obtain ⟨d', hd', hnode, hkeeps'⟩ := h'.kept (Array.getElem?_eq_getElem hlt)
      obtain rfl := Option.some.inj (hd.symm.trans hd')
      have has : a ≠ s := Nat.ne_of_gt (Nat.lt_of_lt_of_le hs ha)
      refine ⟨h₁, by rwa [hnode], ?_⟩
      have hd := hkeeps' _ hkeeps
      rwa [if_neg has, List.append_nil] at hd
    · exact h'.opened hge hd

/-- A statement that is no definition adds its part. -/
theorem note (G : Gathering t K part) (b : Binding) (s : ScopeId) (statement : NodeRef) :
    Gathers t K part s (part statement) b (b.note s (t.notes statement)) where
  kept {a d} hd := by
    rw [getElem?_note, hd]
    split
    · exact ⟨_, rfl, rfl, fun before h => G.note h statement⟩
    · exact ⟨d, rfl, rfl, fun before h => by simpa using h⟩
  opened {a d} ha hd := by
    have hlt := (Array.getElem?_eq_some_iff.1 hd).1
    rw [size_note] at hlt
    exact absurd hlt (Nat.not_lt.2 ha)

/-- A definition adds nothing where it stands, and the parts of its body to its own scope. -/
theorem definition (G : Gathering t K part) (hs : s < b.scopes.size) {statement : NodeRef}
    {h : Header} (hh : t.header? statement = some h)
    (hbody : Gathers t K part b.scopes.size ((t.statementsOf h.body).flatMap part)
      (b.openDefinition s statement h) b₁) : Gathers t K part s [] b b₁ where
  kept {a d} hd := by
    have ha : a < b.scopes.size := (Array.getElem?_eq_some_iff.1 hd).1
    have hget := getElem?_openDefinition b statement hs (Tree.params_of_header? hh) a
    rw [if_neg (Nat.ne_of_lt ha), hd] at hget
    have hopened : ∃ d₁, (b.openDefinition s statement h).scopes[a]? = some d₁ ∧
        d₁.node = d.node ∧ ∀ before, K d before → K d₁ before := by
      split at hget
      · exact ⟨_, hget, rfl, fun before h => G.define h _ _ _⟩
      · exact ⟨d, hget, rfl, fun before h => h⟩
    obtain ⟨d₁, hd₁, hnode, hkeeps⟩ := hopened
    obtain ⟨d', hd', hnode', hkeeps'⟩ := hbody.kept hd₁
    refine ⟨d', hd', hnode'.trans hnode, fun before hbefore => ?_⟩
    have hd' := hkeeps' _ (hkeeps before hbefore)
    rw [if_neg (Nat.ne_of_lt ha)] at hd'
    simpa using hd'
  opened {a d} ha hd := by
    rcases Nat.eq_or_lt_of_le ha with rfl | hlt
    · have hget := getElem?_openDefinition b statement hs (Tree.params_of_header? hh) b.scopes.size
      rw [if_pos rfl] at hget
      obtain ⟨d', hd', hnode, hkeeps⟩ := hbody.kept hget
      obtain rfl := Option.some.inj (hd.symm.trans hd')
      refine ⟨h, by rw [hnode]; exact hh, ?_⟩
      have hd := hkeeps [] (G.opened h.params rfl rfl rfl)
      rwa [if_pos rfl, List.nil_append] at hd
    · exact hbody.opened (by rw [size_openDefinition]; exact hlt) hd

end Gathers

theorem Binds.gathers {t : Tree} (ht : t.Descending) {α : Type} {K : Scope → List α → Prop}
    {part : NodeRef → List α} (G : Gathering t K part) {s : ScopeId} {body : List NodeRef}
    {b b₁ : Binding} (h : Binds t s body b b₁) (hs : s < b.scopes.size) :
    Gathers t K part s ((t.statementsOf body).flatMap part) b b₁ := by
  induction h with
  | nil s b => exact .refl b
  | append hbody _ ih ih' =>
      rw [Tree.statementsOf, List.flatMap_append, List.flatMap_append]
      exact (ih hs).trans (ih' (hbody.lt_size hs)) hs
  | @definition s statement h b _ hh _ ih =>
      have hnone : (t.statementsOf [statement]).flatMap part = [] := by
        rw [Tree.statementsOf, List.flatMap_singleton, Tree.statementsAt_eq ht,
          Tree.block_of_header? hh, List.flatMap_cons, G.definition hh]
        rfl
      rw [hnone]
      exact .definition G hs hh (ih (b.lt_size_openDefinition statement))
  | @other s statement b _ hh _ ih =>
      rw [Tree.statementsOf, List.flatMap_singleton, Tree.statementsAt_eq ht, List.flatMap_cons]
      exact (Gathers.note G b s statement).trans (ih (by rwa [size_note])) hs

end Binding

/-- Every scope of a bound program has gathered the parts of its body. -/
theorem Gathering.bind {tree : Tree} (ht : tree.Descending) {α : Type}
    {K : Scope → List α → Prop} {part : NodeRef → List α} (G : Gathering tree K part)
    (atoms : Interner) (root : NodeRef) {s : ScopeId} {d : Scope}
    (hd : (Program.bind tree atoms root).scope? s = some d) :
    K d ((tree.statementsOf (Binding.moduleBody tree d.node)).flatMap part) := by
  have hgathers := (Program.binds_bind ht atoms root).gathers ht G (Nat.lt_succ_self 0)
  rcases Nat.eq_zero_or_pos s with rfl | hs
  · obtain ⟨d', hd', hnode, hkeeps⟩ := hgathers.kept (a := 0) rfl
    obtain rfl := Option.some.inj (hd'.symm.trans hd)
    rw [hnode]
    exact hkeeps [] (G.opened [] rfl rfl rfl)
  · obtain ⟨h, hh, hkeeps⟩ := hgathers.opened hs hd
    have hdef : tree.definition? d.node = some (h.kind, h.body) := by
      rw [tree.definition?_eq, hh]
      rfl
    rwa [Program.moduleBody_of_definition? hdef]

/-! ### What the binder collects -/

/-- A scope keeps the values of some exits, and whether there is a yield among them. -/
structure Scope.Keeps (d : Scope) (exits : List Exit) : Prop where
  returned : d.returned = exits.filterMap Exit.value
  generator : d.generator = exits.any Exit.isYield

theorem Tree.returned_notes (t : Tree) (statement : NodeRef) :
    (t.notes statement).returned = (t.collected statement).filterMap Exit.value := by
  have hall : ∀ values : List NodeRef, (values.map Exit.yielded).filterMap Exit.value =
      values.filterMap id := fun values => List.filterMap_map
  unfold notes returnedValue collected exitsIn
  cases t.node? statement with
  | none => simp [Notes.append, yielded, hall]
  | some node =>
      cases node with
      | returnStatement value => cases value <;> simp [Notes.append, yielded, hall, Exit.value]
      | _ => simp [Notes.append, yielded, hall]

theorem Tree.generator_notes (t : Tree) (statement : NodeRef) :
    (t.notes statement).generator = (t.collected statement).any Exit.isYield := by
  have hall : ∀ values : List NodeRef, (values.map Exit.yielded).any Exit.isYield =
      !values.isEmpty := by
    intro values
    cases values <;> simp [Exit.isYield]
  unfold notes collected exitsIn
  split <;> simp [Notes.append, yielded, hall, Exit.isYield]

/-- A definition has no exits. -/
theorem Tree.collected_of_header? {t : Tree} {statement : NodeRef} {h : Header}
    (hh : t.header? statement = some h) : t.collected statement = [] := by
  unfold header? at hh
  unfold collected exitsIn expression
  split at hh <;> cases hh
  · rename_i hn
    simp only [hn]
    rfl
  · rename_i hn
    simp only [hn]
    rfl

/-- The exits are gathered from the statements. -/
theorem Scope.gathering_keeps (t : Tree) : Gathering t Scope.Keeps t.collected where
  note {d exits} h statement := by
    refine ⟨?_, ?_⟩
    · rw [List.filterMap_append, ← h.returned, ← t.returned_notes]
      rfl
    · rw [List.any_append, ← h.generator, ← t.generator_notes]
      rfl
  definition hh := Tree.collected_of_header? hh
  define h _ _ _ := ⟨h.returned, h.generator⟩
  opened _ hreturned hgenerator _ := ⟨hreturned, hgenerator⟩

/-! ### Bound programs -/

theorem Program.keeps_bind {tree : Tree} (ht : tree.Descending) (atoms : Interner)
    (root : NodeRef) {s : ScopeId} {d : Scope}
    (hd : (Program.bind tree atoms root).scope? s = some d) :
    d.Keeps ((tree.statementsOf (Binding.moduleBody tree d.node)).flatMap tree.collected) :=
  (Scope.gathering_keeps tree).bind ht atoms root hd

/-- What a scope returns is collected statement by statement from its body, in the order
of the text and without what is in definitions inside it: the values of the yields of a
statement, less those in the targets of an assignment or a loop, and then the value that
it returns. It is a generator if there is such a yield. Where no target has a yield in it,
these are all yields that can be reached from the body without entering a definition, each
as often as it is met and in the order of a walk over the body. -/
theorem returns_collected {tree : Tree} (ht : tree.Descending) (atoms : Interner)
    (root : NodeRef) :
    ∀ (s : ScopeId) (d : Scope), (Program.bind tree atoms root).scope? s = some d →
      let body := Binding.moduleBody tree d.node
      let statements := tree.statementsOf body
      d.returned = (statements.flatMap tree.collected).filterMap Exit.value ∧
      d.generator = (statements.flatMap tree.collected).any Exit.isYield ∧
      (∀ statement, tree.exits statement =
        ((tree.targets statement).flatMap tree.yields).map .yielded ++
          tree.collected statement) ∧
      (statements.flatMap tree.exits).filterMap Exit.yield? =
        (body.flatMap tree.outline).filterMap tree.yieldAt? ∧
      ((∀ statement ∈ statements, ∀ target ∈ tree.targets statement,
          tree.yields target = []) →
        d.returned = (statements.flatMap tree.exits).filterMap Exit.value ∧
        (d.generator = true ↔ ∃ i j value, some i ∈ body ∧ ReflTransGen tree.Enters i j ∧
          tree.get? j = some (.yield value))) := by
  intro s d hd body statements
  have hkeeps := Program.keeps_bind ht atoms root hd
  refine ⟨hkeeps.returned, hkeeps.generator, tree.exits_eq,
    Tree.filterMap_yield?_exits ht body, fun htargets => ?_⟩
  have hexits : statements.flatMap tree.collected = statements.flatMap tree.exits := by
    refine List.flatMap_congr fun statement hs => ?_
    rw [tree.exits_eq, List.flatMap_eq_nil_iff.2 (htargets statement hs)]
    rfl
  refine ⟨hexits ▸ hkeeps.returned, ?_⟩
  rw [← Tree.exits_yield_iff ht body, hkeeps.generator]
  exact Bool.eq_iff_iff.1 (congrArg (List.any · Exit.isYield) hexits)

/-- A function that yields in a test, in a returned value and in what a loop goes through,
and has a function inside that yields too. -/
def Tree.exiting : Tree :=
  ⟨#[.literal (.int 1), .yield (some 0), .literal (.int 2), .yield (some 2),
    .returnStatement (some 3), .name 1, .literal (.int 3), .yield (some 6),
    .returnStatement none, .forLoop (some 5) (some 7) [some 8] [],
    .ifStatement (some 1) [some 4] [some 9], .literal (.int 4), .yield (some 11),
    .exprStatement (some 12), .functionDef 2 [] [] [some 13],
    .functionDef 3 [] [] [some 10, some 14], .module [some 15]]⟩

/-- The value of a return comes after the yield in it, and the bare return and the
function inside add nothing. -/
theorem returns_collected_exiting :
    let p := Program.bind Tree.exiting ⟨#["", "x", "g", "f"]⟩ (some 16)
    let statements := Tree.exiting.statementsOf [some 10, some 14]
    Tree.exiting.Descending ∧ (p.scope? 1).map Scope.node = some (some 15) ∧
      (∀ statement ∈ statements, ∀ target ∈ Tree.exiting.targets statement,
        Tree.exiting.yields target = []) ∧
      (∃ d, p.scope? 1 = some d ∧ d.returned = [0, 2, 3, 6] ∧ d.generator = true ∧
        d.returned = (statements.flatMap Tree.exiting.exits).filterMap Exit.value ∧
        ∃ i j value, some i ∈ [some 10, some 14] ∧ ReflTransGen Tree.exiting.Enters i j ∧
          Tree.exiting.get? j = some (.yield value)) := by
  intro p statements
  have ht : Tree.exiting.Descending := by decide
  have htargets : ∀ statement ∈ statements, ∀ target ∈ Tree.exiting.targets statement,
      Tree.exiting.yields target = [] := by decide +kernel
  have hsome : (p.scope? 1).isSome = true := by decide +kernel
  obtain ⟨d, hd⟩ := Option.isSome_iff_exists.1 hsome
  have hnode : (p.scope? 1).map Scope.node = some (some 15) := by decide +kernel
  have hreturned : (p.scope? 1).map Scope.returned = some [0, 2, 3, 6] := by decide +kernel
  have hgenerator : (p.scope? 1).map Scope.generator = some true := by decide +kernel
  rw [hd, Option.map_some, Option.some.injEq] at hreturned hgenerator
  have hbody : Binding.moduleBody Tree.exiting d.node = [some 10, some 14] := by
    have hnode := hnode
    rw [hd, Option.map_some, Option.some.injEq] at hnode
    rw [hnode]
    rfl
  obtain ⟨_, _, _, _, hall⟩ := returns_collected ht _ _ 1 d hd
  rw [hbody] at hall
  obtain ⟨hexits, hyields⟩ := hall htargets
  exact ⟨ht, hnode, htargets, d, hd, hreturned, hgenerator, hexits, hyields.1 hgenerator⟩

/-- A function whose only statement assigns to an item, and yields in the index. -/
def Tree.yieldingInTarget : Tree :=
  ⟨#[.name 1, .literal (.int 1), .yield (some 1), .index (some 2), .subscript (some 0) (some 3),
    .literal (.int 2), .assign [some 4] (some 5), .functionDef 2 [] [] [some 6],
    .module [some 7]]⟩

/-- The yield can be reached from the body, but it is not collected, and the function is
not taken for a generator. -/
theorem target_uncollected_yieldingInTarget :
    let p := Program.bind Tree.yieldingInTarget ⟨#["", "x", "f"]⟩ (some 8)
    Tree.yieldingInTarget.Descending ∧
      (p.scope? 1).map Scope.node = some (some 7) ∧
      (p.scope? 1).map Scope.returned = some [] ∧
      (p.scope? 1).map Scope.generator = some false ∧
      Binding.moduleBody Tree.yieldingInTarget (some 7) = [some 6] ∧
      ReflTransGen Tree.yieldingInTarget.Enters 6 2 ∧
      Tree.yieldingInTarget.get? 2 = some (.yield (some 1)) ∧
      ([some 6].flatMap Tree.yieldingInTarget.exits).filterMap Exit.value = [1] := by
  intro p
  have hstep : ∀ i c, Tree.yieldingInTarget.isDefinition i = false →
      c ∈ Tree.yieldingInTarget.children i → Tree.yieldingInTarget.Enters i c :=
    fun _ _ hdef hc => ⟨hdef, hc⟩
  refine ⟨by decide, by decide +kernel, by decide +kernel, by decide +kernel, rfl, ?_, rfl,
    by decide +kernel⟩
  exact .head (hstep 6 4 (by decide) (by decide)) <| .head (hstep 4 3 (by decide) (by decide)) <|
    .single (hstep 3 2 (by decide) (by decide))

end ObjectInference
