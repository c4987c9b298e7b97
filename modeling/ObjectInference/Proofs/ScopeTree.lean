import ObjectInference.Proofs.Agenda
import ObjectInference.Proofs.Noting

/-!
The tree of scopes.

A scope is settled when it is opened, and from then on names, children and sites are
added to it at most: `Scope.Grows`. So what a definition writes down when it opens its
scope holds of that scope and of the one around it ever after, and is proved where it is
written.

Scopes get their numbers in the order in which they are opened, and a body is read before
anything that follows it. So a scope is always opened inside a scope that is around the
one opened last, which is `Preordered`, and what is nested in a scope at any depth comes
in one run of numbers.
-/

namespace ObjectInference

open Relation

/-! ### Declarations -/

theorem Scope.mem_definitions {d : Scope} {name : Atom} {definition : Definition} :
    definition ∈ d.definitions name ↔ (name, definition) ∈ d.bindings := by
  simp [definitions]

theorem Binding.mem_parameterNames {params : List ParamDecl} {i : Nat} {param : ParamDecl}
    (h : params[i]? = some param) : (param.name, .parameter i) ∈ parameterNames params :=
  List.mem_map.2 ⟨(param, i), List.mk_mem_zipIdx_iff_getElem?.2 h, rfl⟩

/-- A scope is as the header of its definition has it, and the scope around it defines its
owner under the name of the definition. -/
structure Scope.DeclaredBy (d : Scope) (h : Header) (outer : Scope) : Prop where
  kind : d.kind = h.kind
  defined : (h.name, .object d.owner) ∈ outer.bindings
  params : d.params = h.params.map Param.ofDecl
  parameters : Binding.parameterNames h.params <+: d.bindings
  methodOf : d.methodOf =
    if h.kind = .function ∧ outer.kind = .cls then some outer.owner else none

theorem Scope.DeclaredBy.grows {h : Header} {outer outer' d d' : Scope}
    (hd : d.DeclaredBy h outer) (hg : d.Grows d') (hg' : outer.Grows outer') :
    d'.DeclaredBy h outer' where
  kind := hg.kind.trans hd.kind
  defined := by
    rw [hg.owner]
    exact hg'.bindings.subset hd.defined
  params := hg.params.trans hd.params
  parameters := hd.parameters.trans hg.bindings
  methodOf := by rw [hg.methodOf, hd.methodOf, hg'.kind, hg'.owner]

namespace Binding

variable {t : Tree} {s c : ScopeId} {body : List NodeRef} {b b₁ b₂ : Binding}

/-! ### What definitions declare -/

def Declared (t : Tree) (b : Binding) : Prop :=
  ∀ (c : ScopeId) (d : Scope), b.scopes[c]? = some d → c ≠ 0 →
    ∃ outer o h, d.parent = some outer ∧ b.scopes[outer]? = some o ∧
      t.header? d.node = some h ∧ d.DeclaredBy h o

/-- What is declared stays so, and only new scopes have to be looked at. -/
theorem Declared.grows (hb : b.Declared t) (hg : b.Grows b₁)
    (hnew : ∀ c d, b₁.scopes[c]? = some d → b.scopes.size ≤ c → c ≠ 0 →
      ∃ outer o h, d.parent = some outer ∧ b₁.scopes[outer]? = some o ∧
        t.header? d.node = some h ∧ d.DeclaredBy h o) : b₁.Declared t := by
  intro c d' hd' hc
  rcases Nat.lt_or_ge c b.scopes.size with hlt | hge
  · have hd := Array.getElem?_eq_getElem hlt
    obtain ⟨outer, o, h, hparent, ho, hh, hdeclared⟩ := hb c _ hd hc
    obtain ⟨d'', hd'', hgrows⟩ := hg c _ hd
    obtain rfl := Option.some.inj (hd''.symm.trans hd')
    obtain ⟨o', ho', hgrows'⟩ := hg outer o ho
    exact ⟨outer, o', h, hgrows.parent.trans hparent, ho', by rwa [hgrows.node],
      hdeclared.grows hgrows hgrows'⟩
  · exact hnew c d' hd' hge hc

theorem Declared.openDefinition (hb : b.Declared t) (hs : s < b.scopes.size) {statement : NodeRef}
    {h : Header} (hh : t.header? statement = some h) :
    (b.openDefinition s statement h).Declared t := by
  refine hb.grows (.openDefinition hs hh) fun c d hd hge _ => ?_
  have hlt := (Array.getElem?_eq_some_iff.1 hd).1
  rw [size_openDefinition] at hlt
  obtain rfl : c = b.scopes.size := Nat.le_antisymm (Nat.lt_succ_iff.1 hlt) hge
  have hget := getElem?_openDefinition b statement hs (Tree.params_of_header? hh)
  rw [hget, if_pos rfl] at hd
  obtain rfl := Option.some.inj hd
  have ho := hget s
  rw [if_neg (Nat.ne_of_lt hs), if_pos rfl, Array.getElem?_eq_getElem hs] at ho
  refine ⟨s, _, h, rfl, ho, hh, rfl, ?_, rfl, List.prefix_refl _, ?_⟩
  · exact List.mem_append_right _ (List.mem_singleton.2 rfl)
  · simp [methodOf?, kindOf?, ownerOf, Array.getElem?_eq_getElem hs]

theorem Binds.declared (h : Binds t s body b b₁) (hs : s < b.scopes.size) (hb : b.Declared t) :
    b₁.Declared t := by
  induction h with
  | nil s b => exact hb
  | append hbody _ ih ih' => exact ih' (hbody.lt_size hs) (ih hs hb)
  | @definition s statement h b _ hh _ ih =>
      exact ih (b.lt_size_openDefinition statement) (hb.openDefinition hs hh)
  | other hh _ ih =>
      refine ih (by rwa [size_note]) (hb.grows (.note _ _ _) fun c d hd hge _ => ?_)
      have hlt := (Array.getElem?_eq_some_iff.1 hd).1
      rw [size_note] at hlt
      exact absurd hlt (Nat.not_lt.2 hge)

/-! ### The order of scopes -/

def parentOf (b : Binding) (s : ScopeId) : Option ScopeId := (b.scopes[s]?).bind Scope.parent

/-- A scope is around itself, and around every scope that is nested in it at some depth. -/
abbrev Above (b : Binding) : ScopeId → ScopeId → Prop :=
  ReflTransGen fun s c => b.parentOf c = some s

/-- Every scope but the first is nested in a scope that is around the one before it, and
so will be the next, if it is opened in the scope that is being read. -/
structure Preordered (b : Binding) (s : ScopeId) : Prop where
  lt_size : s < b.scopes.size
  next : b.Above s (b.scopes.size - 1)
  opened {c : ScopeId} (hc : c + 1 < b.scopes.size) :
    ∃ outer, b.parentOf (c + 1) = some outer ∧ b.Above outer c

theorem Grows.parentOf (h : b.Grows b₁) {a : ScopeId} (ha : b.parentOf c = some a) :
    b₁.parentOf c = some a := by
  obtain ⟨d, hd, hparent⟩ := Option.bind_eq_some_iff.1 ha
  obtain ⟨d', hd', hgrows⟩ := h c d hd
  exact Option.bind_eq_some_iff.2 ⟨d', hd', hgrows.parent.trans hparent⟩

theorem Grows.above (h : b.Grows b₁) {a : ScopeId} (ha : b.Above a c) : b₁.Above a c :=
  ReflTransGen.mono (fun _ _ => h.parentOf) _ _ ha

theorem Preordered.openDefinition (hb : b.Preordered s) {statement : NodeRef} {h : Header}
    (hh : t.header? statement = some h) :
    (b.openDefinition s statement h).Preordered b.scopes.size ∧
      (b.openDefinition s statement h).parentOf b.scopes.size = some s := by
  have hg := Grows.openDefinition hb.lt_size hh
  have hsize := b.size_openDefinition (s := s) statement (h := h)
  have hparent : (b.openDefinition s statement h).parentOf b.scopes.size = some s := by
    unfold Binding.parentOf
    rw [getElem?_openDefinition b statement hb.lt_size (Tree.params_of_header? hh), if_pos rfl]
    rfl
  refine ⟨⟨b.lt_size_openDefinition statement, ?_, fun {c} hc => ?_⟩, hparent⟩
  · rw [hsize]
    exact .refl
  · rw [hsize] at hc
    rcases Nat.lt_or_ge (c + 1) b.scopes.size with hlt | hge
    · obtain ⟨outer, hparent, habove⟩ := hb.opened hlt
      exact ⟨outer, hg.parentOf hparent, hg.above habove⟩
    · obtain hlast : c + 1 = b.scopes.size := Nat.le_antisymm (Nat.lt_succ_iff.1 hc) hge
      refine ⟨s, by rw [hlast, hparent], hg.above ?_⟩
      have hnext := hb.next
      rwa [← hlast, Nat.add_sub_cancel] at hnext

theorem Binds.preordered (h : Binds t s body b b₁) (hb : b.Preordered s) : b₁.Preordered s := by
  induction h with
  | nil s b => exact hb
  | append _ _ ih ih' => exact ih' (ih hb)
  | definition hh hbody ih =>
      obtain ⟨hopened, hparent⟩ := hb.openDefinition hh
      have hb₁ := ih hopened
      have hg := hbody.grows hopened.lt_size
      -- The scope that was opened is around the last one, and the one being read around it.
      exact ⟨Nat.lt_trans hb.lt_size hb₁.lt_size, .head (hg.parentOf hparent) hb₁.next,
        hb₁.opened⟩
  | @other s statement b _ _ _ ih =>
      have hg := Grows.note b s (t.notes statement)
      refine ih ⟨by rw [size_note]; exact hb.lt_size, ?_, fun hc => ?_⟩
      · rw [size_note]
        exact hg.above hb.next
      · rw [size_note] at hc
        obtain ⟨outer, hparent, habove⟩ := hb.opened hc
        exact ⟨outer, hg.parentOf hparent, hg.above habove⟩

end Binding

/-! ### The scopes of a bound program -/

namespace Program

variable {p : Program} {s c d : ScopeId}

theorem nestedScopes_eq {x : Scope} (hx : p.scope? s = some x) :
    p.nestedScopes s = x.children := by
  rw [nestedScopes, hx, Option.map_some, Option.getD_some]

theorem le_of_nestedIn (hp : p.binding.Framed) (h : ReflTransGen p.NestedIn s c) : s ≤ c := by
  induction h with
  | refl => exact Nat.le_refl _
  | tail _ hlast ih => exact Nat.le_trans ih (Nat.le_of_lt (hlast.lt hp).1)

/-- A scope is nested in a scope that is around the one before it. -/
def Preordered (p : Program) : Prop :=
  ∀ c, c + 1 < p.scopes.size → ∃ outer, p.NestedIn outer (c + 1) ∧ ReflTransGen p.NestedIn outer c

/-- What comes between a scope and one nested in it is nested in it as well. -/
theorem Preordered.between (hp : p.Preordered) (hframed : p.binding.Framed)
    (h : ReflTransGen p.NestedIn s d) (hsc : s ≤ c) (hcd : c ≤ d) :
    ReflTransGen p.NestedIn s c := by
  induction d using Nat.strongRecOn generalizing c with
  | ind d ih =>
      rcases Nat.eq_or_lt_of_le hcd with rfl | hlt
      · exact h
      have hsd : s < d := Nat.lt_of_le_of_lt hsc hlt
      cases d with
      | zero => exact absurd hsd (Nat.not_lt_zero _)
      | succ d =>
          -- One step back from a scope stays below whatever is around the scope.
          have hsize : d + 1 < p.scopes.size := by
            cases h with
            | refl => exact absurd hsd (Nat.lt_irrefl _)
            | tail _ hlast => exact (hlast.lt hframed).2
          obtain ⟨outer, hnested, habove⟩ := hp d hsize
          have houter := ((forest_nestedIn hframed).above_child h hnested).resolve_left
            (Nat.ne_of_lt hsd)
          exact ih d (Nat.lt_succ_self d) (houter.trans habove) hsc (Nat.lt_succ_iff.1 hlt)

theorem mem_subtreeWithin (hp : p.binding.Framed) {fuel : Nat} (hs : s < p.scopes.size)
    (hfuel : p.scopes.size ≤ s + fuel) :
    c ∈ p.subtreeWithin fuel s ↔ ReflTransGen p.NestedIn s c := by
  induction fuel generalizing s with
  | zero => exact absurd hs (Nat.not_lt.2 hfuel)
  | succ fuel ih =>
      have hd := Array.getElem?_eq_getElem hs
      have hnested : p.nestedScopes s = p.scopes[s].children := nestedScopes_eq hd
      have hchild : ∀ d, p.NestedIn s d →
          (c ∈ p.subtreeWithin fuel d ↔ ReflTransGen p.NestedIn d c) :=
        fun d hd => ih (hd.lt hp).2 (hd.room hp hfuel).1
      unfold subtreeWithin
      simp only [scope?, hd, List.mem_cons, List.mem_flatMap, ← hnested]
      rw [ReflTransGen.cases_head_iff]
      refine or_congr eq_comm (exists_congr fun d => and_congr_right fun hd => hchild d hd)

/-- The scopes below a scope are gone through in the order of their numbers. -/
theorem pairwise_subtreeWithin (hp : p.binding.Framed) (hpre : p.Preordered) {fuel : Nat}
    (hfuel : p.scopes.size ≤ s + fuel) : (p.subtreeWithin fuel s).Pairwise (· < ·) := by
  induction fuel generalizing s with
  | zero => exact .nil
  | succ fuel ih =>
      unfold subtreeWithin
      cases hd : p.scope? s with
      | none => exact .nil
      | some d =>
          have hnested : ∀ c ∈ d.children, p.NestedIn s c := by
            intro c hc
            rwa [NestedIn, nestedScopes_eq hd]
          have hchildren : d.children.Pairwise (· < ·) := by
            rw [hp.children hd]
            exact List.pairwise_lt_range.filter _
          have hbelow : ∀ c ∈ d.children, ∀ i ∈ p.subtreeWithin fuel c,
              ReflTransGen p.NestedIn c i := by
            intro c hc i hi
            have hsc := hnested c hc
            exact (mem_subtreeWithin hp (hsc.lt hp).2 (hsc.room hp hfuel).1).1 hi
          simp only
          refine .cons (fun i hi => ?_) (List.pairwise_flatMap.2 ⟨fun c hc => ?_, ?_⟩)
          · obtain ⟨c, hc, hi⟩ := List.mem_flatMap.1 hi
            exact Nat.lt_of_lt_of_le ((hnested c hc).lt hp).1 (le_of_nestedIn hp (hbelow c hc i hi))
          · exact ih ((hnested c hc).room hp hfuel).1
          · refine hchildren.imp_of_mem fun {c c'} hc hc' hlt i hi j hj => ?_
            -- If the first subtree reached the second child, that child would be in it.
            have hj' := le_of_nestedIn hp (hbelow c' hc' j hj)
            refine Nat.lt_of_lt_of_le (Nat.lt_of_not_le fun hge => ?_) hj'
            have hcc' := hpre.between hp (hbelow c hc i hi) (Nat.le_of_lt hlt) hge
            exact (forest_nestedIn hp).apart (hnested c hc) (hnested c' hc') (Nat.ne_of_lt hlt)
              .refl .refl hcc'

/-- A list of numbers in order that starts at a number and leaves none out. -/
theorem eq_range'_of_pairwise {xs : List Nat} {n : Nat} (hxs : xs.Pairwise (· < ·))
    (hle : ∀ i ∈ xs, n ≤ i) (hbetween : ∀ j ∈ xs, ∀ i, n ≤ i → i ≤ j → i ∈ xs) :
    xs = List.range' n xs.length := by
  induction xs generalizing n with
  | nil => rfl
  | cons x xs ih =>
      obtain ⟨hx, hrest⟩ := List.pairwise_cons.1 hxs
      have hn := hbetween x List.mem_cons_self n (Nat.le_refl n) (hle x List.mem_cons_self)
      -- The first number is the least one, so it is where the list starts.
      obtain rfl : n = x := by
        rcases List.mem_cons.1 hn with h | h
        · exact h
        · exact absurd (hx n h) (Nat.not_lt.2 (hle x List.mem_cons_self))
      rw [List.length_cons, List.range'_succ]
      refine congrArg (n :: ·) (ih hrest (fun i hi => hx i hi) fun j hj i hni hij => ?_)
      have hi := hbetween j (List.mem_cons_of_mem n hj) i (Nat.le_of_lt hni) hij
      exact (List.mem_cons.1 hi).resolve_left (Nat.ne_of_gt hni)

theorem mem_subtree (hp : p.binding.Framed) (hs : s < p.scopes.size) :
    c ∈ p.subtree s ↔ ReflTransGen p.NestedIn s c :=
  mem_subtreeWithin hp hs (Nat.le_add_left _ _)

/-- The scopes below a scope come in one run of numbers. -/
theorem subtree_eq_range' (hp : p.binding.Framed) (hpre : p.Preordered) (hs : s < p.scopes.size) :
    p.subtree s = List.range' s (p.subtree s).length := by
  refine eq_range'_of_pairwise (pairwise_subtreeWithin hp hpre (Nat.le_add_left _ _))
    (fun c hc => le_of_nestedIn hp ((mem_subtree hp hs).1 hc)) fun d hd c hsc hcd => ?_
  exact (mem_subtree hp hs).2 (hpre.between hp ((mem_subtree hp hs).1 hd) hsc hcd)

/-- How the scopes of a program hang together. -/
structure ScopeTree (p : Program) : Prop where
  /-- The first scope is that of the module. -/
  module : ∃ d, p.scope? 0 = some d ∧ d.kind = .module ∧ d.owner = p.module ∧ d.parent = none ∧
    d.node = p.root ∧ d.methodOf = none
  /-- Every other scope has a parent with a smaller number, which lists it once. -/
  parent {s : ScopeId} {d : Scope} (hd : p.scope? s = some d) (hs : s ≠ 0) :
    ∃ outer o, d.parent = some outer ∧ outer < s ∧ p.scope? outer = some o ∧
      o.children.count s = 1
  /-- The scopes that a scope lists have it as their parent. -/
  listed {s c : ScopeId} {d : Scope} (hd : p.scope? s = some d) (hc : c ∈ d.children) :
    ∃ o, p.scope? c = some o ∧ o.parent = some s
  children {s : ScopeId} {d : Scope} (hd : p.scope? s = some d) : d.children.Pairwise (· < ·)
  /-- The scopes nested in a scope at any depth, with itself, are those from it up to some
  number, in their order. -/
  subtree {s : ScopeId} (hs : s < p.scopes.size) :
    ∃ n, p.subtree s = List.range' s n ∧
      ∀ c, ReflTransGen p.NestedIn s c ↔ s ≤ c ∧ c < s + n
  owner {s : ScopeId} {d : Scope} (hd : p.scope? s = some d) :
    p.objects.scopeOf? d.owner = some s
  owner_inj {s s' : ScopeId} {d d' : Scope} (hd : p.scope? s = some d)
    (hd' : p.scope? s' = some d') (h : d.owner = d'.owner) : s = s'
  /-- Every scope but the first is that of a definition, whose name the scope around it
  defines as the owner. -/
  definition {s : ScopeId} {d : Scope} (hd : p.scope? s = some d) (hs : s ≠ 0) :
    ∃ outer o, d.parent = some outer ∧ p.scope? outer = some o ∧
      ((∃ name params decorators body,
          p.tree.node? d.node = some (.functionDef name params decorators body) ∧
          d.kind = .function ∧ .object d.owner ∈ o.definitions name ∧
          d.params = params.map Param.ofDecl ∧
          (∀ i param, params[i]? = some param → .parameter i ∈ d.definitions param.name) ∧
          d.methodOf = if o.kind = .cls then some o.owner else none) ∨
        ∃ name bases body, p.tree.node? d.node = some (.classDef name bases body) ∧
          d.kind = .cls ∧ .object d.owner ∈ o.definitions name ∧ d.methodOf = none)

section ScopeTree

variable (hp : p.binding.Framed) {x : Scope}

include hp

theorem scopeOf?_owner (hx : p.scope? s = some x) : p.objects.scopeOf? x.owner = some s := by
  have hget : p.objects.get x.owner = _ := hp.owner hx
  rw [ObjectStore.scopeOf?, hget]
  cases x.kind <;> rfl

theorem nestedIn_of_parent (hx : p.scope? c = some x) (hparent : x.parent = some s) :
    p.NestedIn s c := by
  refine (nestedIn_iff hp).2 ?_
  rw [show p.scopes[c]? = some x from hx, Option.map_some, hparent]

theorem scopeTree (hpre : p.Preordered) (hdeclared : p.binding.Declared p.tree)
    (hmodule : ∃ d, p.scope? 0 = some d ∧ d.kind = .module ∧ d.owner = p.module ∧
      d.parent = none ∧ d.node = p.root ∧ d.methodOf = none) : p.ScopeTree where
  module := hmodule
  parent {s d} hd hs := by
    obtain ⟨outer, o, h, hparent, ho, _⟩ := hdeclared s d hd hs
    refine ⟨outer, o, hparent, hp.parent hd outer hparent, ho, ?_⟩
    have hnodup := nodup_nestedScopes hp outer
    have hmem : p.NestedIn outer s := nestedIn_of_parent hp hd hparent
    rw [nestedScopes_eq ho] at hnodup
    rw [NestedIn, nestedScopes_eq ho] at hmem
    exact List.count_eq_one_of_mem hnodup hmem
  listed {s c d} hd hc := by
    have hnested : p.NestedIn s c := by rwa [NestedIn, nestedScopes_eq hd]
    exact Option.map_eq_some_iff.1 ((nestedIn_iff hp).1 hnested)
  children {s d} hd := by
    rw [hp.children hd]
    exact List.pairwise_lt_range.filter _
  subtree {s} hs := by
    have heq := subtree_eq_range' hp hpre hs
    refine ⟨_, heq, fun c => ?_⟩
    rw [← mem_subtreeWithin hp hs (Nat.le_add_left _ _), show p.subtreeWithin _ s = _ from heq,
      List.mem_range'_1]
  owner hd := scopeOf?_owner hp hd
  owner_inj hd hd' h :=
    Option.some.inj ((scopeOf?_owner hp hd).symm.trans (h ▸ scopeOf?_owner hp hd'))
  definition {s d} hd hs := by
    obtain ⟨outer, o, h, hparent, ho, hh, hdecl⟩ := hdeclared s d hd hs
    refine ⟨outer, o, hparent, ho, ?_⟩
    have hdefined : .object d.owner ∈ o.definitions h.name :=
      Scope.mem_definitions.2 hdecl.defined
    have hmethod := hdecl.methodOf
    unfold Tree.header? at hh
    split at hh <;> cases hh
    · rename_i name params decorators body hn
      refine .inl ⟨name, params, decorators, body, hn, hdecl.kind, hdefined, hdecl.params,
        fun i param hi => ?_, by simpa using hmethod⟩
      exact Scope.mem_definitions.2 (hdecl.parameters.subset (Binding.mem_parameterNames hi))
    · rename_i name bases body hn
      exact .inr ⟨name, bases, body, hn, hdecl.kind, hdefined, by simpa using hmethod⟩

end ScopeTree

end Program

/-! ### Bound programs -/

section Bind

variable {tree : Tree} (ht : tree.Descending) (atoms : Interner) (root : NodeRef)

theorem Binding.scopes_start : (Binding.start root).scopes =
    #[{ kind := .module, owner := (ObjectStore.initial.intern (.module 0)).1, parent := none
        node := root }] := rfl

include ht

theorem Program.grows_bind : (Binding.start root).Grows (Program.bind tree atoms root).binding :=
  (binds_bind ht atoms root).grows (Nat.lt_succ_self 0)

theorem Program.declared_bind : (Program.bind tree atoms root).binding.Declared tree := by
  refine (binds_bind ht atoms root).declared (Nat.lt_succ_self 0) fun c d hd hc => ?_
  have hlt : c < 1 := (Array.getElem?_eq_some_iff.1 hd).1
  exact absurd (Nat.lt_one_iff.1 hlt) hc

theorem Program.preordered_bind : (Program.bind tree atoms root).Preordered := by
  have hframed := Program.framed_bind tree atoms root
  have hpre := (binds_bind ht atoms root).preordered
    ⟨Nat.lt_succ_self 0, .refl, fun hc => absurd hc (by simp [Binding.scopes_start])⟩
  have hnested : ∀ s c, (Program.bind tree atoms root).binding.parentOf c = some s →
      (Program.bind tree atoms root).NestedIn s c := by
    intro s c hc
    obtain ⟨d, hd, hparent⟩ := Option.bind_eq_some_iff.1 hc
    exact nestedIn_of_parent hframed hd hparent
  intro c hc
  obtain ⟨outer, hparent, habove⟩ := hpre.opened hc
  exact ⟨outer, hnested outer (c + 1) hparent, ReflTransGen.mono hnested _ _ habove⟩

/-- Binding yields a tree of scopes: the scope of the module is the first one, and every
other scope is nested in exactly one scope, which comes before it, in the order of the
text. A scope and its owner belong to each other alone. The definition that opens a scope
is named in the scope around it, and its parameters and the class whose method it is are
what the scope keeps of it. -/
theorem scopeTree_bind : (Program.bind tree atoms root).ScopeTree := by
  refine Program.scopeTree (Program.framed_bind tree atoms root)
    (Program.preordered_bind ht atoms root) (Program.declared_bind ht atoms root) ?_
  obtain ⟨d, hd, hgrows⟩ := Program.grows_bind ht atoms root 0 _ rfl
  exact ⟨d, hd, hgrows.kind, hgrows.owner, hgrows.parent, hgrows.node, hgrows.methodOf⟩

end Bind

/-- A function that is defined in a class, in another function and in the module, all from
one node. -/
def Tree.sharing : Tree :=
  ⟨#[.pass, .functionDef 1 [⟨2, .positional, none⟩] [] [some 0], .classDef 3 [] [some 1],
    .functionDef 4 [] [] [some 1], .module [some 2, some 3, some 1]]⟩

/-- Each of the three has a scope of its own, and the first one is a method. -/
theorem scopeTree_bind_sharing :
    let p := Program.bind Tree.sharing ⟨#["", "m", "self", "C", "f"]⟩ (some 4)
    Tree.sharing.Descending ∧ p.ScopeTree ∧ p.subtree 0 = [0, 1, 2, 3, 4, 5] ∧
      p.subtree 1 = [1, 2] ∧ p.subtree 3 = [3, 4] ∧
      [2, 4, 5].map p.nodeOf = [some 1, some 1, some 1] ∧
      [2, 4, 5].map (fun s => (p.scope? s).bind Scope.methodOf) =
        [some (p.ownerOf 1), none, none] := by
  intro p
  have ht : Tree.sharing.Descending := by decide
  have hp : p.ScopeTree := scopeTree_bind ht _ _
  exact ⟨ht, hp, by decide +kernel, by decide +kernel, by decide +kernel, by decide +kernel,
    by decide +kernel⟩

end ObjectInference
