import ObjectInference.Proofs.Ancestry
import ObjectInference.Proofs.Unpacking

/-!
Walks in pre-order.

A tree may share nodes, so what a walk goes through is the tree unfolded: its nodes are the
paths from the start, each step of which goes to the child at some place of a node. `Tree.along`
follows a path, through nodes that the visitor goes below. Paths are compared like words, and
that order is pre-order: a path comes before all that go on from it, and what is at one place
comes before what is at the next. The places of a node stand in the order of its text, field by
field, which is `Node.inOrder`.

`Tree.pathsWithin` lists the paths together with the nodes they lead to. A walk visits these
nodes and no others, for any bound on its depth. On a descending tree the bound is not met: the
list has all paths, and the recursion without a bound, `Tree.Walked`, comes to the same end.
-/

namespace ObjectInference

open Relation

namespace Node

/-- The fields of nodes that hold places for children. -/
inductive Field where
  | decorators
  /-- The default values of parameters. -/
  | defaults
  | bases | targets | target | iter | test | func | value | slice | lower | upper | step
  | args | keywords | elements
  /-- The entries of a dict display, each a key and then its value. -/
  | entries
  | body | orelse
deriving DecidableEq, Repr

/-- All fields. Those of one node are written one after the other in this order. -/
def Field.all : List Field :=
  [.decorators, .defaults, .bases, .targets, .target, .iter, .test, .func, .value, .slice, .lower,
    .upper, .step, .args, .keywords, .elements, .entries, .body, .orelse]

def field : Node → Field → List NodeRef
  | .module body, .body => body
  | .functionDef _ _ decorators _, .decorators => decorators
  | .functionDef _ params _ _, .defaults => params.map ParamDecl.default
  | .functionDef _ _ _ body, .body => body
  | .classDef _ bases _, .bases => bases
  | .classDef _ _ body, .body => body
  | .returnStatement value, .value => [value]
  | .assign targets _, .targets => targets
  | .assign _ value, .value => [value]
  | .exprStatement value, .value => [value]
  | .ifStatement test _ _, .test => [test]
  | .ifStatement _ body _, .body => body
  | .ifStatement _ _ orelse, .orelse => orelse
  | .whileLoop test _ _, .test => [test]
  | .whileLoop _ body _, .body => body
  | .whileLoop _ _ orelse, .orelse => orelse
  | .forLoop target _ _ _, .target => [target]
  | .forLoop _ iter _ _, .iter => [iter]
  | .forLoop _ _ body _, .body => body
  | .forLoop _ _ _ orelse, .orelse => orelse
  | .call func _ _, .func => [func]
  | .call _ args _, .args => args
  | .call _ _ keywords, .keywords => keywords
  | .keyword _ value, .value => [value]
  | .attr value _, .value => [value]
  | .subscript value _, .value => [value]
  | .subscript _ part, .slice => [part]
  | .index value, .value => [value]
  | .slice lower _ _, .lower => [lower]
  | .slice _ upper _, .upper => [upper]
  | .slice _ _ step, .step => [step]
  | .tuple elements, .elements => elements
  | .list elements, .elements => elements
  | .dict keys values, .entries => (keys.zip values).flatMap fun e => [e.1, e.2]
  | .yield value, .value => [value]
  | _, _ => []

/-- The places of a node in the order of its text. -/
def inOrder (node : Node) : List NodeRef :=
  Field.all.flatMap node.field

theorem places_eq (node : Node) : node.places = node.inOrder := by
  cases node <;> simp [places, inOrder, Field.all, field]

end Node

namespace Tree

variable {σ : Type} {t : Tree} {choice : NodeId → WalkAction} {i j : NodeId}

/-- The places of the node at a position in the order of its text. -/
def placesAt (t : Tree) (i : NodeId) : List NodeRef :=
  ((t.get? i).map Node.inOrder).getD []

theorem children_eq_filterMap (t : Tree) (i : NodeId) :
    t.children i = (t.placesAt i).filterMap id := by
  unfold children placesAt
  cases t.get? i with
  | none => rfl
  | some node => exact congrArg (List.filterMap id) node.places_eq

/-- A child is found at its place. -/
theorem mem_children_of_placesAt {c : NodeId} {k : Nat} (h : (t.placesAt i)[k]? = some (some c)) :
    c ∈ t.children i := by
  rw [children_eq_filterMap]
  exact List.mem_filterMap.2 ⟨_, List.mem_of_getElem? h, rfl⟩

/-- What is found at the end of a path from a place. Each step goes to the child with that
number among the places of the node, if the choice is to go below that node. -/
def along (t : Tree) (choice : NodeId → WalkAction) : NodeRef → List Nat → NodeRef
  | r, [] => r
  | none, _ :: _ => none
  | some i, k :: path =>
    match choice i with
    | .skip => none
    | .descend => t.along choice ((t.placesAt i)[k]?.join) path

theorem along_none (path : List Nat) : t.along choice none path = none := by
  cases path <;> rfl

theorem along_cons_eq_some {k : Nat} {path : List Nat} :
    t.along choice (some i) (k :: path) = some j ↔ choice i = .descend ∧
      ∃ c, (t.placesAt i)[k]? = some (some c) ∧ t.along choice (some c) path = some j := by
  rw [along]
  cases choice i with
  | skip => simp
  | descend =>
      rcases (t.placesAt i)[k]? with _ | _ | c <;> simp [along_none]

theorem exists_succ_of_height_le {r : NodeRef} {n : Nat} (h : t.height r ≤ n) :
    ∃ k, n = k + 1 := by
  have hpos := t.height_pos r
  exact ⟨n - 1, by omega⟩

theorem height_le_of_mem_children (ht : t.Descending) {n : Nat} (h : t.height (some i) ≤ n + 1)
    {c : NodeId} (hc : c ∈ t.children i) : t.height (some c) ≤ n := by
  have hlt := height_lt_of_mem_children ht hc
  omega

/-! ### Finding the paths -/

/-- What is found from each of a list of places, with the number of the place put in front of
the paths. -/
def fromPlaces (find : NodeId → List (List Nat × NodeId)) (places : List NodeRef) :
    List (List Nat × NodeId) :=
  places.zipIdx.flatMap fun (r, k) => r.toList.flatMap fun c =>
    (find c).map fun (path, i) => (k :: path, i)

/-- The paths from a node that take less than so many steps, in pre-order, with the nodes they
lead to. -/
def pathsWithin (t : Tree) (choice : NodeId → WalkAction) : Nat → NodeId → List (List Nat × NodeId)
  | 0, _ => []
  | fuel + 1, i =>
    match choice i with
    | .skip => [([], i)]
    | .descend => ([], i) :: fromPlaces (pathsWithin t choice fuel) (t.placesAt i)

section

variable {find : NodeId → List (List Nat × NodeId)} {places : List NodeRef}

theorem mem_fromPlaces {found : List Nat × NodeId} :
    found ∈ fromPlaces find places ↔
      ∃ k c path, places[k]? = some (some c) ∧ (path, found.2) ∈ find c ∧ found.1 = k :: path := by
  unfold fromPlaces
  rw [List.mem_flatMap]
  constructor
  · rintro ⟨⟨r, k⟩, hr, h⟩
    obtain ⟨c, hc, h⟩ := List.mem_flatMap.1 h
    obtain ⟨⟨path, i⟩, hpath, rfl⟩ := List.mem_map.1 h
    obtain rfl := Option.mem_toList.1 hc
    exact ⟨k, c, path, List.mem_zipIdx_iff_getElem?.1 hr, hpath, rfl⟩
  · rintro ⟨k, c, path, hc, hpath, hfound⟩
    refine ⟨(some c, k), List.mem_zipIdx_iff_getElem?.2 hc, ?_⟩
    exact List.mem_flatMap.2 ⟨c, Option.mem_toList.2 rfl,
      List.mem_map.2 ⟨(path, found.2), hpath, Prod.ext hfound.symm rfl⟩⟩

theorem map_snd_fromPlaces :
    (fromPlaces find places).map Prod.snd =
      (places.filterMap id).flatMap fun c => (find c).map Prod.snd := by
  unfold fromPlaces
  generalize 0 = n
  induction places generalizing n with
  | nil => rfl
  | cons r places ih => cases r <;> simp [ih, Function.comp_def]

/-- What is found from one place comes before what is found from the next. -/
theorem pairwise_fromPlaces (h : ∀ c, (find c).Pairwise fun x y => x.1 < y.1) :
    (fromPlaces find places).Pairwise fun x y => x.1 < y.1 := by
  refine List.pairwise_flatMap.2 ⟨fun ⟨r, k⟩ _ => ?_, (pairwise_snd_zipIdx places).imp ?_⟩
  · cases r with
    | none => exact .nil
    | some c =>
        simp only [Option.toList_some, List.flatMap_cons, List.flatMap_nil, List.append_nil]
        exact List.pairwise_map.2 ((h c).imp fun hlt => List.cons_lt_cons_iff.2 (.inr ⟨rfl, hlt⟩))
  · intro e e' hlt x hx y hy
    obtain ⟨c, -, hx⟩ := List.mem_flatMap.1 hx
    obtain ⟨c', -, hy⟩ := List.mem_flatMap.1 hy
    obtain ⟨x, -, rfl⟩ := List.mem_map.1 hx
    obtain ⟨y, -, rfl⟩ := List.mem_map.1 hy
    exact List.cons_lt_cons_iff.2 (.inl hlt)

end

/-- The paths are listed in their order. -/
theorem pairwise_pathsWithin (t : Tree) (choice : NodeId → WalkAction) (fuel : Nat) (i : NodeId) :
    (t.pathsWithin choice fuel i).Pairwise fun x y => x.1 < y.1 := by
  induction fuel generalizing i with
  | zero => exact .nil
  | succ fuel ih =>
      unfold pathsWithin
      cases choice i with
      | skip => exact List.pairwise_singleton _ _
      | descend =>
          refine .cons (fun found hfound => ?_) (pairwise_fromPlaces ih)
          obtain ⟨k, c, path, -, -, heq⟩ := mem_fromPlaces.1 hfound
          rw [heq]
          exact List.nil_lt_cons _ _

/-- With a bound that is high enough for the tree, no path is left out. -/
theorem mem_pathsWithin (ht : t.Descending) {fuel : Nat} (hfuel : t.height (some i) ≤ fuel)
    {path : List Nat} :
    (path, j) ∈ t.pathsWithin choice fuel i ↔ t.along choice (some i) path = some j := by
  induction fuel generalizing i path with
  | zero =>
      obtain ⟨n, hn⟩ := exists_succ_of_height_le hfuel
      cases hn
  | succ fuel ih =>
      have hchild {k c : Nat} (h : (t.placesAt i)[k]? = some (some c)) (path : List Nat) :
          (path, j) ∈ t.pathsWithin choice fuel c ↔ t.along choice (some c) path = some j :=
        ih (height_le_of_mem_children ht hfuel (mem_children_of_placesAt h))
      unfold pathsWithin
      cases path with
      | nil => cases choice i <;> simp [along, mem_fromPlaces, eq_comm]
      | cons k path =>
          rw [along_cons_eq_some]
          cases choice i with
          | skip => simp
          | descend =>
              simp only [List.mem_cons, Prod.mk.injEq, reduceCtorEq, false_and, false_or,
                mem_fromPlaces, List.cons.injEq, true_and]
              constructor
              · rintro ⟨k, c, path, hc, hpath, rfl, rfl⟩
                exact ⟨c, hc, (hchild hc _).1 hpath⟩
              · rintro ⟨c, hc, hpath⟩
                exact ⟨k, c, path, hc, (hchild hc path).2 hpath, rfl, rfl⟩

/-- The nodes that are found: the first one, and what is found below each child. -/
theorem map_snd_pathsWithin (t : Tree) (choice : NodeId → WalkAction) (fuel : Nat) (i : NodeId) :
    (t.pathsWithin choice (fuel + 1) i).map Prod.snd =
      match choice i with
      | .skip => [i]
      | .descend =>
        i :: (t.children i).flatMap fun c => (t.pathsWithin choice fuel c).map Prod.snd := by
  rw [pathsWithin]
  cases choice i with
  | skip => rfl
  | descend =>
      simp only
      rw [List.map_cons, map_snd_fromPlaces, ← children_eq_filterMap]

/-! ### What a walk visits -/

variable {visit : Visitor σ}

/-- A walk visits what is found along the paths, for any bound on its depth. -/
theorem walkWithin_eq (hvisit : ∀ i s, (visit i s).1 = choice i) (fuel : Nat) (i : NodeId) (s : σ) :
    t.walkWithin visit fuel i s =
      ((t.pathsWithin choice fuel i).map Prod.snd).foldl (fun s j => (visit j s).2) s := by
  induction fuel generalizing i s with
  | zero => rfl
  | succ fuel ih =>
      have hstep : visit i s = (choice i, (visit i s).2) := Prod.ext (hvisit i s) rfl
      rw [map_snd_pathsWithin, walkWithin, hstep]
      cases choice i with
      | skip => rfl
      | descend => simp only [List.foldl_cons, List.foldl_flatMap, ih]

/-! ### The walk without a bound -/

/-- The nodes of a list are walked one after the other. Each is visited, and unless it is to be
skipped its children are walked before the next one. -/
inductive Walked (t : Tree) (visit : Visitor σ) : List NodeId → σ → σ → Prop where
  | done (s : σ) : Walked t visit [] s s
  | skipped {i : NodeId} {rest : List NodeId} {s s₁ s' : σ} (hvisit : visit i s = (.skip, s₁))
    (hrest : Walked t visit rest s₁ s') : Walked t visit (i :: rest) s s'
  | entered {i : NodeId} {rest : List NodeId} {s s₁ s₂ s' : σ}
    (hvisit : visit i s = (.descend, s₁)) (hbelow : Walked t visit (t.children i) s₁ s₂)
    (hrest : Walked t visit rest s₂ s') : Walked t visit (i :: rest) s s'

theorem Walked.eq (ht : t.Descending) {nodes : List NodeId} {s s' : σ}
    (h : t.Walked visit nodes s s') (fuel : Nat) (hfuel : ∀ i ∈ nodes, t.height (some i) ≤ fuel) :
    s' = nodes.foldl (fun s i => t.walkWithin visit fuel i s) s := by
  induction h generalizing fuel with
  | done s => rfl
  | skipped hvisit _ ih =>
      obtain ⟨hi, hrest⟩ := List.forall_mem_cons.1 hfuel
      obtain ⟨n, rfl⟩ := exists_succ_of_height_le hi
      rw [ih _ hrest, List.foldl_cons, walkWithin, hvisit]
  | entered hvisit _ _ ih ih' =>
      obtain ⟨hi, hrest⟩ := List.forall_mem_cons.1 hfuel
      obtain ⟨n, rfl⟩ := exists_succ_of_height_le hi
      have hbelow := ih n fun c hc => height_le_of_mem_children ht hi hc
      rw [ih' _ hrest, hbelow, List.foldl_cons, walkWithin, hvisit]

/-- Children are less high than their parents, so the recursion ends. -/
theorem exists_walked_of_height_le (ht : t.Descending) (visit : Visitor σ) (n : Nat)
    (nodes : List NodeId) (hnodes : ∀ i ∈ nodes, t.height (some i) ≤ n) (s : σ) :
    ∃ s', t.Walked visit nodes s s' := by
  -- First by the height, then along the nodes that are walked one after the other.
  induction n generalizing nodes s with
  | zero =>
      cases nodes with
      | nil => exact ⟨s, .done s⟩
      | cons i nodes =>
          obtain ⟨n, hn⟩ := exists_succ_of_height_le (hnodes i List.mem_cons_self)
          cases hn
  | succ n ih =>
      induction nodes generalizing s with
      | nil => exact ⟨s, .done s⟩
      | cons i nodes ihrest =>
          obtain ⟨hi, hrest⟩ := List.forall_mem_cons.1 hnodes
          cases hvisit : visit i s with
          | mk action s₁ =>
              cases action with
              | skip =>
                  obtain ⟨s', h⟩ := ihrest hrest s₁
                  exact ⟨s', .skipped hvisit h⟩
              | descend =>
                  obtain ⟨s₂, h₂⟩ :=
                    ih (t.children i) (fun c hc => height_le_of_mem_children ht hi hc) s₁
                  obtain ⟨s', h⟩ := ihrest hrest s₂
                  exact ⟨s', .entered hvisit h₂ h⟩

theorem exists_walked (ht : t.Descending) (visit : Visitor σ) (nodes : List NodeId) (s : σ) :
    ∃ s', t.Walked visit nodes s s' :=
  exists_walked_of_height_le ht visit (t.size + 1) nodes (fun i _ => t.height_le (some i)) s

theorem walked_iff (ht : t.Descending) (r : NodeRef) {s s' : σ} :
    t.Walked visit r.toList s s' ↔ s' = t.walk visit r s := by
  have heq {s' : σ} (h : t.Walked visit r.toList s s') : s' = t.walk visit r s := by
    have h := h.eq ht (t.size + 1) fun i _ => t.height_le (some i)
    cases r <;> exact h
  refine ⟨heq, fun h => ?_⟩
  obtain ⟨s₁, h₁⟩ := exists_walked ht visit r.toList s
  rwa [h, ← heq h₁]

/-! ### Trees without sharing -/

/-- A node with something below it that exists does so itself. -/
theorem lt_size_of_below (h : t.Below i j) (hj : j < t.size) : i < t.size := by
  rcases ReflTransGen.cases_head h with rfl | ⟨c, hc, -⟩
  · exact hj
  · exact hc.lt_size

theorem below_of_mem_pathsWithin {fuel : Nat} {path : List Nat}
    (h : (path, j) ∈ t.pathsWithin choice fuel i) (hj : j < t.size) : t.Below i j := by
  induction fuel generalizing i path with
  | zero => cases h
  | succ fuel ih =>
      unfold pathsWithin at h
      cases hchoice : choice i with
      | skip =>
          rw [hchoice] at h
          obtain ⟨-, rfl⟩ := Prod.mk.inj (List.mem_singleton.1 h)
          exact .refl
      | descend =>
          rw [hchoice] at h
          rcases List.mem_cons.1 h with h | h
          · obtain ⟨-, rfl⟩ := Prod.mk.inj h
            exact .refl
          · obtain ⟨k, c, rest, hc, hrest, -⟩ := mem_fromPlaces.1 h
            have hbelow : t.Below c j := ih hrest
            have hchild := child_iff.2 ⟨mem_children_of_placesAt hc, lt_size_of_below hbelow hj⟩
            exact .head hchild hbelow

/-- If no node is a child twice, no node that exists is found twice. -/
theorem nodup_pathsWithin (hu : t.Unshared) (ht : t.Descending) (fuel : Nat) (i : NodeId) :
    (((t.pathsWithin choice fuel i).map Prod.snd).filter fun j => decide (j < t.size)).Nodup := by
  have F := hu.forest ht
  have hbelow {fuel : Nat} {i j : NodeId} (hj : j ∈ ((t.pathsWithin choice fuel i).map
      Prod.snd).filter fun j => decide (j < t.size)) : t.Below i j ∧ j < t.size := by
    obtain ⟨hj, hlt⟩ := List.mem_filter.1 hj
    obtain ⟨⟨path, j⟩, hfound, rfl⟩ := List.mem_map.1 hj
    exact ⟨below_of_mem_pathsWithin hfound (of_decide_eq_true hlt), of_decide_eq_true hlt⟩
  induction fuel generalizing i with
  | zero => exact .nil
  | succ fuel ih =>
      rw [map_snd_pathsWithin]
      cases choice i with
      | skip => exact (List.nodup_singleton i).filter _
      | descend =>
          simp only [List.filter_cons, List.filter_flatMap]
          -- What is below two children has nothing in common, and is lower than the node.
          have hapart : ((t.children i).flatMap fun c =>
              ((t.pathsWithin choice fuel c).map Prod.snd).filter
                fun j => decide (j < t.size)).Nodup := by
            refine List.nodup_flatMap.2 ⟨fun c _ => ih c, ?_⟩
            have hinner := List.pairwise_filter.1 (hu.nodup_inner i)
            refine hinner.imp_of_mem fun {c c'} hc hc' hne j hj hj' => ?_
            obtain ⟨hcj, hlt⟩ := hbelow hj
            obtain ⟨hcj', -⟩ := hbelow hj'
            have hsize := lt_size_of_below hcj hlt
            have hsize' := lt_size_of_below hcj' hlt
            exact F.apart (child_iff.2 ⟨hc, hsize⟩) (child_iff.2 ⟨hc', hsize'⟩)
              (hne (decide_eq_true hsize) (decide_eq_true hsize')) hcj hcj' .refl
          split
          · refine List.nodup_cons.2 ⟨fun hi => ?_, hapart⟩
            obtain ⟨c, hc, hi⟩ := List.mem_flatMap.1 hi
            obtain ⟨hci, hlt⟩ := hbelow hi
            have hchild := child_iff.2 ⟨hc, lt_size_of_below hci hlt⟩
            exact absurd (F.rank_le hci) (Nat.not_le.2 (F.lower hchild))
          · exact hapart

/-! ### Main result -/

/-- A walk over a descending tree, with a visitor that decides by the node alone whether to go
below it. The nodes visited, from the first to the last, are those at the ends of the paths from
the start that go through nodes with children to be visited, one for each path and in the order
of the paths. So a walk comes to an end, for the recursion without a bound as well, and a node
is visited as often as there are paths to it: at most once if no node is a child twice. -/
theorem walk_in_preorder (ht : t.Descending) (hvisit : ∀ i s, (visit i s).1 = choice i)
    (r : NodeRef) :
    ∃ (paths : List (List Nat)) (visited : List NodeId),
      paths.Pairwise (· < ·) ∧ (∀ path, path ∈ paths ↔ (t.along choice r path).isSome) ∧
      visited.map some = paths.map (t.along choice r) ∧
      (∀ s s', t.Walked visit r.toList s s' ↔ s' = visited.foldl (fun s i => (visit i s).2) s) ∧
      (∀ s, t.walk visit r s = visited.foldl (fun s i => (visit i s).2) s) ∧
      (∀ i, visited.count i = paths.countP fun path => t.along choice r path = some i) ∧
      (t.Unshared → ∀ i < t.size, visited.count i ≤ 1) := by
  have hfound : ∃ found : List (List Nat × NodeId),
      found.Pairwise (fun x y => x.1 < y.1) ∧
      (∀ path j, (path, j) ∈ found ↔ t.along choice r path = some j) ∧
      (∀ s, t.walk visit r s = (found.map Prod.snd).foldl (fun s i => (visit i s).2) s) ∧
      (t.Unshared → ((found.map Prod.snd).filter fun j => decide (j < t.size)).Nodup) := by
    cases r with
    | none => exact ⟨[], .nil, by simp [along_none], fun s => rfl, fun _ => .nil⟩
    | some i =>
        exact ⟨t.pathsWithin choice (t.size + 1) i, t.pairwise_pathsWithin choice _ i,
          fun path j => mem_pathsWithin ht (t.height_le (some i)), walkWithin_eq hvisit _ i,
          fun hu => nodup_pathsWithin hu ht _ i⟩
  obtain ⟨found, hsorted, hmem, hwalk, hnodup⟩ := hfound
  have halong : (found.map Prod.snd).map some = (found.map Prod.fst).map (t.along choice r) := by
    rw [List.map_map, List.map_map]
    exact List.map_congr_left fun e he => ((hmem e.1 e.2).1 he).symm
  refine ⟨found.map Prod.fst, found.map Prod.snd, List.pairwise_map.2 hsorted, fun path => ?_,
    halong, fun s s' => ?_, hwalk, fun i => ?_, fun hu i hi => ?_⟩
  · rw [Option.isSome_iff_exists, List.mem_map]
    refine ⟨fun ⟨e, he, h⟩ => ⟨e.2, h ▸ (hmem e.1 e.2).1 he⟩, fun ⟨j, h⟩ => ?_⟩
    exact ⟨(path, j), (hmem path j).2 h, rfl⟩
  · rw [walked_iff ht, hwalk]
  · rw [List.count, List.countP_map, List.countP_map]
    refine List.countP_congr fun e he => ?_
    simp [(hmem e.1 e.2).1 he]
  · rw [← List.count_filter (p := fun j => decide (j < t.size)) (decide_eq_true hi)]
    exact List.nodup_iff_count_le_one.1 (hnodup hu) i

/-- A tuple display that holds a name twice, with an empty place and a missing node, is at two
places of a module and in a function. A dict display has a key too many. -/
def overlapping : Tree :=
  ⟨#[.name 1, .tuple [some 0, none, some 0, some 9], .dict [some 0, some 1] [some 1],
    .functionDef 2 [] [] [some 1], .module [some 2, some 3, some 1]]⟩

/-- What is visited when definitions are not entered. -/
theorem walk_in_preorder_overlapping :
    let choice := fun i => if overlapping.isDefinition i then WalkAction.skip else .descend
    let visit : Visitor (List NodeId) := fun i visited => (choice i, visited ++ [i])
    overlapping.Descending ∧ (∀ i s, (visit i s).1 = choice i) ∧
      ∃ paths : List (List Nat), paths.Pairwise (· < ·) ∧
        (∀ path, path ∈ paths ↔ (overlapping.along choice (some 4) path).isSome) ∧
        [4, 2, 0, 1, 0, 0, 9, 3, 1, 0, 0, 9].map some =
          paths.map (overlapping.along choice (some 4)) := by
  intro choice visit
  have ht : overlapping.Descending := by decide
  have hvisit : ∀ i s, (visit i s).1 = choice i := fun _ _ => rfl
  obtain ⟨paths, visited, hsorted, hpaths, hvisited, -, hwalk, -⟩ :=
    walk_in_preorder ht hvisit (some 4)
  have hrecord (xs found : List NodeId) :
      xs.foldl (fun s i => (visit i s).2) found = found ++ xs := by
    simp [visit, ← List.flatMap_def]
  have hwalk := hwalk []
  rw [hrecord, List.nil_append] at hwalk
  obtain rfl : [4, 2, 0, 1, 0, 0, 9, 3, 1, 0, 0, 9] = visited := hwalk ▸ by decide
  exact ⟨ht, hvisit, paths, hsorted, hpaths, hvisited⟩

end Tree

end ObjectInference
