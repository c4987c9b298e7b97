import ObjectInference.Proofs.Scopes
import ObjectInference.Proofs.Walks

/-!
Which scopes are nested in a scope.

A scope is opened by every definition that stands among the statements of a body,
or in the blocks of a statement among them, and by nothing else. So the scopes
nested in a scope are those of the definitions of its body, in textual order. The
binder reads every body once and goes on where it stands; `Binding.Opens` is what
it has added on the way from one binding to a later one.
-/

namespace ObjectInference

namespace Tree

/-- The definitions at a statement and in the blocks inside it, outermost only,
going down at most so many steps. -/
def definitionsWithin (t : Tree) : Nat → NodeRef → List NodeRef
  | 0, _ => []
  | fuel + 1, statement =>
    match t.definition? statement with
    | some _ => [statement]
    | none => (t.block statement).flatMap (definitionsWithin t fuel)

def definitions (t : Tree) (statement : NodeRef) : List NodeRef :=
  t.definitionsWithin (t.size + 1) statement

variable {t : Tree}

theorem height_lt_of_mem_body (ht : t.Descending) {statement r : NodeRef} {kind : ScopeKind}
    {body : List NodeRef} (h : t.definition? statement = some (kind, body)) (hr : r ∈ body) :
    t.height r < t.height statement := by
  unfold definition? at h
  split at h
  · rename_i hn
    cases h
    exact height_lt ht hn (by simp [Node.places, hr])
  · rename_i hn
    cases h
    exact height_lt ht hn (by simp [Node.places, hr])
  · cases h

theorem height_lt_of_mem_block (ht : t.Descending) {statement r : NodeRef}
    (hr : r ∈ t.block statement) : t.height r < t.height statement := by
  unfold block at hr
  split at hr
  · rename_i hn
    exact height_lt ht hn (List.mem_cons_of_mem _ hr)
  · rename_i hn
    exact height_lt ht hn (List.mem_cons_of_mem _ hr)
  · rename_i hn
    exact height_lt ht hn (List.mem_cons_of_mem _ (List.mem_cons_of_mem _ hr))
  · cases hr

theorem definitionsWithin_eq (ht : t.Descending) {n m : Nat} {statement : NodeRef}
    (hn : t.height statement ≤ n) (hm : t.height statement ≤ m) :
    t.definitionsWithin n statement = t.definitionsWithin m statement := by
  have hpos := t.height_pos statement
  induction n generalizing m statement with
  | zero => omega
  | succ n ih =>
      obtain ⟨m, rfl⟩ : ∃ k, m = k + 1 := ⟨m - 1, by omega⟩
      unfold definitionsWithin
      cases t.definition? statement with
      | some _ => rfl
      | none =>
          have hblock : ∀ r ∈ t.block statement,
              t.definitionsWithin n r = t.definitionsWithin m r := by
            intro r hr
            have hlt := height_lt_of_mem_block ht hr
            exact ih (by omega) (by omega) (t.height_pos r)
          simp only [List.flatMap, List.map_congr_left hblock]

theorem flatMap_definitionsWithin (ht : t.Descending) {n : Nat} {body : List NodeRef}
    (hn : ∀ r ∈ body, t.height r ≤ n) :
    body.flatMap (t.definitionsWithin n) = body.flatMap t.definitions := by
  have hbody : ∀ r ∈ body, t.definitionsWithin n r = t.definitions r :=
    fun r hr => definitionsWithin_eq ht (hn r hr) (t.height_le r)
  simp only [List.flatMap, List.map_congr_left hbody]

end Tree

namespace Binding

def nodeOf (b : Binding) (s : ScopeId) : NodeRef := (b.scopes[s]?).bind Scope.node

def nestedNodes (b : Binding) (s : ScopeId) : List NodeRef :=
  (((b.scopes[s]?).map Scope.children).getD []).map b.nodeOf

/-- A scope that a definition has opened, with all that its body nests in it. -/
def Complete (t : Tree) (b : Binding) (s : ScopeId) : Prop :=
  ∃ kind body, t.definition? (b.nodeOf s) = some (kind, body) ∧
    b.nestedNodes s = body.flatMap t.definitions

/-- From one binding to a later one, scopes of these definitions have been nested in
a scope, and nothing else but what is inside them. -/
structure Opens (t : Tree) (s : ScopeId) (found : List NodeRef) (b b' : Binding) : Prop where
  size_le : b.scopes.size ≤ b'.scopes.size
  nodeOf {a : ScopeId} (ha : a < b.scopes.size) : b'.nodeOf a = b.nodeOf a
  nestedNodes {a : ScopeId} (ha : a < b.scopes.size) :
    b'.nestedNodes a = b.nestedNodes a ++ if a = s then found else []
  complete {a : ScopeId} (ha : b.scopes.size ≤ a) (ha' : a < b'.scopes.size) : Complete t b' a

namespace Opens

variable {t : Tree} {s : ScopeId} {found found' : List NodeRef} {b b₁ b₂ : Binding}

theorem refl (b : Binding) : Opens t s [] b b :=
  ⟨Nat.le_refl _, fun _ => rfl, fun _ => by simp, fun h h' => absurd h' (Nat.not_lt.2 h)⟩

theorem trans (h : Opens t s found b b₁) (h' : Opens t s found' b₁ b₂)
    (hs : s < b.scopes.size) : Opens t s (found ++ found') b b₂ where
  size_le := Nat.le_trans h.size_le h'.size_le
  nodeOf ha := (h'.nodeOf (Nat.lt_of_lt_of_le ha h.size_le)).trans (h.nodeOf ha)
  nestedNodes {a} ha := by
    rw [h'.nestedNodes (Nat.lt_of_lt_of_le ha h.size_le), h.nestedNodes ha]
    split <;> simp
  complete {a} ha ha' := by
    by_cases hlt : a < b₁.scopes.size
    · obtain ⟨kind, body, hdef, hnested⟩ := h.complete ha hlt
      refine ⟨kind, body, by rw [h'.nodeOf hlt, hdef], ?_⟩
      rw [h'.nestedNodes hlt, if_neg (Nat.ne_of_gt (Nat.lt_of_lt_of_le hs ha)), hnested,
        List.append_nil]
    · exact h'.complete (Nat.not_lt.1 hlt) ha'

end Opens

theorem SameFrames.nodeOf {b b' : Binding} (h : SameFrames b b') (s : ScopeId) :
    b'.nodeOf s = b.nodeOf s := by
  have hnode := h.map_eq (f := Scope.node) (fun _ => rfl) s
  have hbind : ∀ o : Option Scope, o.bind Scope.node = (o.map Scope.node).join := by
    intro o
    cases o <;> rfl
  rw [Binding.nodeOf, Binding.nodeOf, hbind, hbind, hnode]

theorem SameFrames.nestedNodes {b b' : Binding} (h : SameFrames b b') (s : ScopeId) :
    b'.nestedNodes s = b.nestedNodes s := by
  have hnode : b'.nodeOf = b.nodeOf := funext h.nodeOf
  rw [Binding.nestedNodes, Binding.nestedNodes, h.map_eq (f := Scope.children) (fun _ => rfl) s,
    hnode]

theorem SameFrames.opens {b b' : Binding} (h : SameFrames b b') (t : Tree) (s : ScopeId) :
    Opens t s [] b b' where
  size_le := Nat.le_of_eq h.size_eq.symm
  nodeOf _ := h.nodeOf _
  nestedNodes _ := by rw [h.nestedNodes]; simp
  complete ha ha' := absurd (h.size_eq ▸ ha') (Nat.not_lt.2 ha)

theorem nodeOf_openScope (b : Binding) (kind : ScopeKind) {parent : Option ScopeId}
    (hparent : ∀ outer ∈ parent, outer < b.scopes.size) (node : NodeRef) (a : ScopeId) :
    (b.openScope kind parent node).2.2.nodeOf a =
      if a = b.scopes.size then node else b.nodeOf a := by
  unfold nodeOf
  rw [getElem?_openScope b kind node hparent]
  by_cases ha : a = b.scopes.size
  · simp [ha]
  · by_cases ho : parent = some a
    · cases b.scopes[a]? <;> simp [ha, ho]
    · simp [ha, ho]

theorem Framed.children_lt {b : Binding} (hb : Framed b) {a c : ScopeId} {d : Scope}
    (hd : b.scopes[a]? = some d) (hc : c ∈ d.children) : c < b.scopes.size := by
  rw [hb.children hd] at hc
  exact List.mem_range.1 (List.mem_of_mem_filter hc)

theorem Framed.nestedNodes_openScope {b : Binding} (hb : Framed b) (kind : ScopeKind)
    {parent : Option ScopeId} (hparent : ∀ outer ∈ parent, outer < b.scopes.size) (node : NodeRef)
    {a : ScopeId} (ha : a < b.scopes.size) :
    (b.openScope kind parent node).2.2.nestedNodes a =
      b.nestedNodes a ++ if parent = some a then [node] else [] := by
  have hd := Array.getElem?_eq_getElem ha
  -- The scopes that were nested before keep their nodes.
  have hold : b.scopes[a].children.map (b.openScope kind parent node).2.2.nodeOf =
      b.scopes[a].children.map b.nodeOf := by
    refine List.map_congr_left fun c hc => ?_
    rw [nodeOf_openScope b kind hparent, if_neg (Nat.ne_of_lt (hb.children_lt hd hc))]
  have hnew : (b.openScope kind parent node).2.2.nodeOf b.scopes.size = node := by
    rw [nodeOf_openScope b kind hparent, if_pos rfl]
  unfold nestedNodes
  rw [getElem?_openScope b kind node hparent, if_neg (Nat.ne_of_lt ha), hd]
  split
  · simp only [Option.map_some, Option.getD_some, List.map_append, List.map_cons, List.map_nil,
      hold, hnew]
  · simp only [Option.map_some, Option.getD_some, hold, List.append_nil]

theorem nestedNodes_openScope_self (b : Binding) (kind : ScopeKind) {parent : Option ScopeId}
    (hparent : ∀ outer ∈ parent, outer < b.scopes.size) (node : NodeRef) :
    (b.openScope kind parent node).2.2.nestedNodes b.scopes.size = [] := by
  unfold nestedNodes
  rw [getElem?_openScope b kind node hparent, if_pos rfl]
  rfl

/-- A definition opens one scope where it stands, and all that its body opens is
inside that scope. -/
theorem Framed.opens_definition {t : Tree} {b b₁ b₂ : Binding} (hb : Framed b) {s : ScopeId}
    (hs : s < b.scopes.size) {kind : ScopeKind} {body : List NodeRef} {statement : NodeRef}
    (hdef : t.definition? statement = some (kind, body))
    (hsame : SameFrames (b.openScope kind (some s) statement).2.2 b₁)
    (hbody : Opens t b.scopes.size (body.flatMap t.definitions) b₁ b₂) :
    Opens t s [statement] b b₂ := by
  have hparent : ∀ outer ∈ some s, outer < b.scopes.size := by
    rintro outer ⟨⟩
    exact hs
  have hsize : b₁.scopes.size = b.scopes.size + 1 := by
    rw [hsame.size_eq, size_openScope]
  refine ⟨?_, fun {a} ha => ?_, fun {a} ha => ?_, fun {a} ha ha' => ?_⟩
  · have := hbody.size_le
    omega
  · rw [hbody.nodeOf (hsize ▸ Nat.lt_succ_of_lt ha), hsame.nodeOf,
      nodeOf_openScope b kind hparent, if_neg (Nat.ne_of_lt ha)]
  · rw [hbody.nestedNodes (hsize ▸ Nat.lt_succ_of_lt ha), if_neg (Nat.ne_of_lt ha),
      List.append_nil, hsame.nestedNodes, hb.nestedNodes_openScope kind hparent statement ha]
    simp only [Option.some.injEq, eq_comm]
  · by_cases hself : a = b.scopes.size
    · subst hself
      have hlt : b.scopes.size < b₁.scopes.size := hsize ▸ Nat.lt_succ_self _
      refine ⟨kind, body, ?_, ?_⟩
      · rw [hbody.nodeOf hlt, hsame.nodeOf, nodeOf_openScope b kind hparent, if_pos rfl, hdef]
      · rw [hbody.nestedNodes hlt, if_pos rfl, hsame.nestedNodes,
          nestedNodes_openScope_self b kind hparent, List.nil_append]
    · exact hbody.complete (hsize ▸ Nat.lt_of_le_of_ne ha (Ne.symm hself)) ha'

theorem Opens.foldl_bindStatement {t : Tree} {fuel : Nat} {s : ScopeId}
    (hf : ∀ {b : Binding}, Framed b → s < b.scopes.size → ∀ statement,
      t.height statement ≤ fuel →
      Opens t s (t.definitions statement) b (Binding.bindStatement t fuel s b statement))
    {b : Binding} (hb : Framed b) (hs : s < b.scopes.size) (body : List NodeRef)
    (hbody : ∀ r ∈ body, t.height r ≤ fuel) :
    Opens t s (body.flatMap t.definitions) b (body.foldl (Binding.bindStatement t fuel s) b) := by
  induction body generalizing b with
  | nil => exact .refl b
  | cons statement body ih =>
      have hstep := hf hb hs statement (hbody _ List.mem_cons_self)
      exact hstep.trans (ih (hb.bindStatement t fuel hs statement)
        (Nat.lt_of_lt_of_le hs hstep.size_le) fun r hr => hbody r (List.mem_cons_of_mem _ hr)) hs

theorem opens_bindStatement {t : Tree} (ht : t.Descending) (fuel : Nat) {s : ScopeId} {b : Binding}
    (hb : Framed b) (hs : s < b.scopes.size) (statement : NodeRef)
    (hfuel : t.height statement ≤ fuel) :
    Opens t s (t.definitions statement) b (bindStatement t fuel s b statement) := by
  have hpos := t.height_pos statement
  induction fuel generalizing s b statement with
  | zero => omega
  | succ fuel ih =>
      have hdefinitions : t.definitions statement = t.definitionsWithin (fuel + 1) statement :=
        Tree.definitionsWithin_eq ht (t.height_le statement) hfuel
      have ih' : ∀ {s : ScopeId} {b : Binding}, Framed b → s < b.scopes.size → ∀ statement,
          t.height statement ≤ fuel →
          Opens t s (t.definitions statement) b (bindStatement t fuel s b statement) :=
        fun hb hs statement h => ih hb hs statement h (t.height_pos statement)
      rcases bindStatement_succ t fuel s b statement with
        ⟨kind, body, b₁, hdef, hsame, heq⟩ | ⟨b₁, hdef, hsame, heq⟩
      · have hparent : ∀ outer ∈ some s, outer < b.scopes.size := by
          rintro outer ⟨⟩
          exact hs
        have hb₁ := (hb.openScope hparent nofun kind statement).sameFrames hsame
        have hinner : b.scopes.size < b₁.scopes.size := by
          rw [hsame.size_eq, size_openScope]
          exact Nat.lt_succ_self _
        have hbody := Opens.foldl_bindStatement ih' hb₁ hinner body fun r hr => by
          have := Tree.height_lt_of_mem_body ht hdef hr
          omega
        rw [heq, hdefinitions]
        simp only [Tree.definitionsWithin, hdef]
        exact hb.opens_definition hs hdef hsame hbody
      · have hblock : ∀ r ∈ t.block statement, t.height r ≤ fuel := by
          intro r hr
          have := Tree.height_lt_of_mem_block ht hr
          omega
        have hrest := Opens.foldl_bindStatement ih' (hb.sameFrames hsame) (hsame.size_eq ▸ hs)
          (t.block statement) hblock
        rw [heq, hdefinitions]
        simp only [Tree.definitionsWithin, hdef]
        rw [Tree.flatMap_definitionsWithin ht hblock]
        exact (hsame.opens t s).trans hrest hs

end Binding

/-! ### The scopes of a bound program -/

namespace Program

/-- The first scope is that of the module, every other one is that of a definition, and
the scopes nested in a scope are those of the definitions of its body. -/
structure Nested (p : Program) : Prop where
  module : p.objects.get p.module = .module 0
  root : p.nodeOf 0 = p.root
  definition {s : ScopeId} (hs : 0 < s) (hs' : s < p.scopes.size) :
    (p.tree.definition? (p.nodeOf s)).isSome
  nested {s : ScopeId} (hs : s < p.scopes.size) : (p.nestedScopes s).map p.nodeOf =
    (Binding.moduleBody p.tree (p.nodeOf s)).flatMap p.tree.definitions

theorem moduleBody_of_definition? {t : Tree} {statement : NodeRef} {kind : ScopeKind}
    {body : List NodeRef} (h : t.definition? statement = some (kind, body)) :
    Binding.moduleBody t statement = body := by
  unfold Tree.definition? at h
  split at h
  · rename_i hn
    cases h
    simp only [Binding.moduleBody, hn]
  · rename_i hn
    cases h
    simp only [Binding.moduleBody, hn]
  · cases h

theorem nested_bind {tree : Tree} (ht : tree.Descending) (atoms : Interner) (root : NodeRef) :
    (Program.bind tree atoms root).Nested := by
  have hnone : ∀ outer ∈ (none : Option ScopeId), outer < ({} : Binding).scopes.size := by
    rintro outer ⟨⟩
  have hopen := Binding.framed_empty.openScope hnone (fun _ => rfl) .module root
  have hbody := Binding.Opens.foldl_bindStatement
    (fun hb hs statement => Binding.opens_bindStatement ht (tree.size + 1) hb hs statement)
    hopen (Nat.lt_succ_self 0) (Binding.moduleBody tree root) fun r _ => tree.height_le r
  have hkeeps := (Binding.step_foldl (fun b statement hs =>
    Binding.step_bindStatement tree (tree.size + 1) hs statement) (Binding.moduleBody tree root)
    (b := (Binding.openScope {} .module none root).2.2) (Nat.lt_succ_self 0)).objects
  have hroot := Binding.nodeOf_openScope {} .module hnone root 0
  have hempty : (Binding.openScope {} .module none root).2.2.nestedNodes 0 = [] :=
    Binding.nestedNodes_openScope_self {} .module hnone root
  refine ⟨?_, ?_, fun {s} hs hs' => ?_, fun {s} hs => ?_⟩
  · have hget := ObjectStore.get_intern .initial (Binding.ownerObject .module 0)
    exact (hkeeps.get_eq (ObjectStore.intern_lt _ _)).trans hget
  · exact (hbody.nodeOf (Nat.lt_succ_self 0)).trans hroot
  · obtain ⟨kind, body, hdef, _⟩ := hbody.complete hs hs'
    exact Option.isSome_iff_exists.2 ⟨_, hdef⟩
  · by_cases h : s = 0
    · subst h
      have hnested := hbody.nestedNodes (Nat.lt_succ_self 0)
      rw [if_pos rfl, hempty, List.nil_append] at hnested
      have hnode := (hbody.nodeOf (Nat.lt_succ_self 0)).trans hroot
      exact hnested.trans (congrArg (fun r => (Binding.moduleBody tree r).flatMap tree.definitions)
        hnode.symm)
    · obtain ⟨kind, body, hdef, hnested⟩ := hbody.complete (Nat.pos_of_ne_zero h) hs
      exact hnested.trans (congrArg (fun b => b.flatMap tree.definitions)
        (moduleBody_of_definition? hdef).symm)

end Program

end ObjectInference
