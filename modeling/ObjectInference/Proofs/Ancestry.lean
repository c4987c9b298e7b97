import Mathlib.Data.List.Nodup
import Mathlib.Data.List.Pairwise
import Mathlib.Logic.Relation
import ObjectInference.Proofs.Balance
import ObjectInference.Proofs.Walks

/-!
Ancestors in a tree, and the order of the calls that are met.

In a tree where no node is a child twice the ancestors of a node form a chain. So
what is below two children of one node has nothing in common, and a list that goes
through the children one after the other, each before its parent, meets every node
once and after all that is inside it. The same holds of the scopes of a program,
and `Forest` is what both have in common.
-/

namespace ObjectInference

open Relation

/-- Every element has at most one parent, and goes down in rank from it. -/
structure Forest {α : Type} (Child : α → α → Prop) (rank : α → Nat) : Prop where
  lower {a c : α} (h : Child a c) : rank c < rank a
  parent {a b c : α} (h : Child a c) (h' : Child b c) : a = b

namespace Forest

variable {α : Type} {Child : α → α → Prop} {rank : α → Nat} {a b c c' i j : α}

theorem rank_le (F : Forest Child rank) (h : ReflTransGen Child a b) : rank b ≤ rank a := by
  induction h with
  | refl => exact Nat.le_refl _
  | tail _ hc ih => exact Nat.le_trans (Nat.le_of_lt (F.lower hc)) ih

/-- Of two ancestors of one element one is an ancestor of the other. -/
theorem chain (F : Forest Child rank) (ha : ReflTransGen Child a c)
    (hb : ReflTransGen Child b c) : ReflTransGen Child a b ∨ ReflTransGen Child b a := by
  have hunique : Relator.RightUnique (Function.swap Child) := fun _ _ _ h h' => F.parent h h'
  have hchain := ReflTransGen.total_of_right_unique hunique (reflTransGen_swap.2 ha)
    (reflTransGen_swap.2 hb)
  exact hchain.symm.imp reflTransGen_swap.1 reflTransGen_swap.1

/-- An ancestor of a child is the child itself or an ancestor of its parent. -/
theorem above_child (F : Forest Child rank) (h : ReflTransGen Child b c) (hc : Child a c) :
    b = c ∨ ReflTransGen Child b a := by
  cases h with
  | refl => exact .inl rfl
  | tail hbd hdc =>
      obtain rfl := F.parent hdc hc
      exact .inr hbd

theorem antisymm (F : Forest Child rank) (h : ReflTransGen Child a b)
    (h' : ReflTransGen Child b a) : a = b := by
  cases h with
  | refl => rfl
  | tail hac hcb =>
      have hlt := Nat.lt_of_lt_of_le (F.lower hcb) (F.rank_le hac)
      exact absurd (F.rank_le h') (Nat.not_le.2 hlt)

/-- What is below two children of one parent has no order. -/
theorem apart (F : Forest Child rank) (hc : Child a c) (hc' : Child a c') (hne : c ≠ c')
    (hi : ReflTransGen Child c i) (hj : ReflTransGen Child c' j) : ¬ ReflTransGen Child i j := by
  intro hij
  have hcross : ∀ {c c' : α}, Child a c → Child a c' → ReflTransGen Child c c' → c = c' := by
    intro c c' hc hc' h
    rcases F.above_child h hc' with h | h
    · exact h
    · exact absurd (F.rank_le h) (Nat.not_le.2 (F.lower hc))
  rcases F.chain (hi.trans hij) hj with h | h
  · exact hne (hcross hc hc' h)
  · exact hne (hcross hc' hc h).symm

/-- A list in which every element comes after all that is below it, and once. -/
def InsideOut (Child : α → α → Prop) (xs : List α) : Prop :=
  xs.Pairwise fun i j => ¬ ReflTransGen Child i j

theorem InsideOut.nodup {xs : List α} (h : InsideOut Child xs) : xs.Nodup := by
  refine h.imp fun {i j} hij heq => hij ?_
  subst heq
  exact .refl

/-- What is gathered child by child is in order if each part is. -/
theorem insideOut_flatMap (F : Forest Child rank) {cs : List α} {f : α → List α}
    (hcs : cs.Nodup) (hchild : ∀ c ∈ cs, Child a c)
    (hbelow : ∀ c ∈ cs, ∀ i ∈ f c, ReflTransGen Child c i)
    (hf : ∀ c ∈ cs, InsideOut Child (f c)) : InsideOut Child (cs.flatMap f) := by
  refine List.pairwise_flatMap.2 ⟨hf, hcs.imp_of_mem fun {c c'} hc hc' hne i hi j hj => ?_⟩
  exact F.apart (hchild c hc) (hchild c' hc') hne (hbelow c hc i hi) (hbelow c' hc' j hj)

/-- A parent may follow what is gathered below it. -/
theorem insideOut_concat (F : Forest Child rank) {xs : List α} (hxs : InsideOut Child xs)
    (hbelow : ∀ i ∈ xs, ∃ c, Child a c ∧ ReflTransGen Child c i) :
    InsideOut Child (xs ++ [a]) := by
  refine List.pairwise_append.2 ⟨hxs, List.pairwise_singleton _ _, fun i hi j hj hij => ?_⟩
  obtain rfl := List.mem_singleton.1 hj
  obtain ⟨c, hc, hci⟩ := hbelow i hi
  exact absurd (F.rank_le (hci.trans hij)) (Nat.not_le.2 (F.lower hc))

end Forest

/-! ### Nodes -/

namespace Tree

def inner (t : Tree) (i : NodeId) : List NodeId :=
  (t.children i).filter fun c => decide (c < t.size)

def Child (t : Tree) (i c : NodeId) : Prop := c ∈ t.inner i

/-- A node is below itself, and below every node that has it somewhere inside. -/
abbrev Below (t : Tree) : NodeId → NodeId → Prop := ReflTransGen t.Child

/-- No node is a child twice. -/
def Unshared (t : Tree) : Prop := ((List.range t.size).flatMap t.inner).Nodup

instance (t : Tree) (i c : NodeId) : Decidable (t.Child i c) :=
  inferInstanceAs (Decidable (c ∈ t.inner i))

instance (t : Tree) : Decidable t.Unshared :=
  inferInstanceAs (Decidable (List.Nodup _))

variable {t : Tree} {i j c n m : NodeId}

theorem child_iff : t.Child i c ↔ c ∈ t.children i ∧ c < t.size := by
  simp [Child, inner]

theorem Child.lt_size (h : t.Child i c) : i < t.size := by
  refine Nat.lt_of_not_le fun hi => ?_
  have hget : t.get? i = none := Array.getElem?_eq_none hi
  simp [child_iff, children, hget] at h

theorem Unshared.nodup_inner (hu : t.Unshared) (i : NodeId) : (t.inner i).Nodup := by
  by_cases hi : i < t.size
  · exact (List.nodup_flatMap.1 hu).1 i (List.mem_range.2 hi)
  · have hget : t.get? i = none := Array.getElem?_eq_none (Nat.not_lt.1 hi)
    simp [inner, children, hget]

theorem Unshared.forest (hu : t.Unshared) (hd : t.Descending) : Forest t.Child id where
  lower h := hd _ _ (child_iff.1 h).1 (child_iff.1 h).2
  parent {a b c} h h' := by
    by_contra hne
    have hsymm : Std.Symm (Function.onFun List.Disjoint t.inner) :=
      ⟨fun _ _ h _ hi hi' => h hi' hi⟩
    have hdisjoint := (List.nodup_flatMap.1 hu).2.forall (List.mem_range.2 h.lt_size)
      (List.mem_range.2 h'.lt_size) hne
    exact hdisjoint h h'

/-! ### What an analysis meets -/

/-- A node inside another that is reached without going through a definition. -/
inductive Met (t : Tree) (n : NodeId) : NodeId → Prop where
  | child {c : NodeId} (h : t.Child n c) : Met t n c
  | inside {i c : NodeId} (h : Met t n i) (hi : t.isDefinition i = false) (hc : t.Child i c) :
    Met t n c

theorem below_of_met (h : t.Met n i) : t.Below n i := by
  induction h with
  | child h => exact .single h
  | inside _ _ hc ih => exact ih.tail hc

/-- What is met under a child that is no definition is met under its parent. -/
theorem Met.head (hc : t.Child n c) (hdef : t.isDefinition c = false) (h : t.Met c i) :
    t.Met n i := by
  induction h with
  | child h => exact (Met.child hc).inside hdef h
  | inside _ hi hc' ih => exact ih.inside hi hc'

/-- What is met is a child, or is met under a child that is no definition. -/
theorem met_iff : t.Met n i ↔
    ∃ c, t.Child n c ∧ (i = c ∨ t.isDefinition c = false ∧ t.Met c i) := by
  refine ⟨fun h => ?_, ?_⟩
  · induction h with
    | child h => exact ⟨_, h, .inl rfl⟩
    | inside h hi hc ih =>
        obtain ⟨c, hchild, rfl | ⟨hdef, hmet⟩⟩ := ih
        · exact ⟨_, hchild, .inr ⟨hi, .child hc⟩⟩
        · exact ⟨c, hchild, .inr ⟨hdef, hmet.inside hi hc⟩⟩
  · rintro ⟨c, hchild, rfl | ⟨hdef, hmet⟩⟩
    · exact .child hchild
    · exact hmet.head hchild hdef

/-- Any other ancestor of what is met is above the node or no definition. -/
theorem Met.above (F : Forest t.Child id) (h : t.Met n i) (hm : t.Below m i) :
    m = i ∨ t.Below m n ∨ t.isDefinition m = false := by
  induction h with
  | child h => exact (F.above_child hm h).imp_right .inl
  | inside _ hi hc ih =>
      rcases F.above_child hm hc with rfl | hm
      · exact .inl rfl
      · rcases ih hm with rfl | h
        · exact .inr (.inr hi)
        · exact .inr h

theorem Met.lt (F : Forest t.Child id) (h : t.Met n i) : i < n := by
  induction h with
  | child h => exact F.lower h
  | inside _ _ hc ih => exact Nat.lt_trans (F.lower hc) ih

def isSite (t : Tree) (i : NodeId) : Bool :=
  match t.get? i with
  | some (.call ..) => true
  | some (.assign ..) => true
  | _ => false

theorem isDefinition_of_isSite (h : t.isSite i = true) : t.isDefinition i = false := by
  unfold isSite at h
  unfold isDefinition
  split at h
  · rename_i hget
    rw [hget]
    rfl
  · rename_i hget
    rw [hget]
    rfl
  · cases h

/-- There are no sites at children that do not exist. -/
theorem flatMap_sitesWithin (fuel : Nat) (i : NodeId) :
    (t.children i).flatMap (t.sitesWithin fuel) = (t.inner i).flatMap (t.sitesWithin fuel) := by
  unfold inner
  induction t.children i with
  | nil => rfl
  | cons c cs ih =>
      by_cases hc : c < t.size
      · simp [hc, ih]
      · simp [hc, ih, sitesWithin_of_size_le (Nat.not_lt.1 hc)]

/-- The sites at a node, from those of its children. -/
theorem sitesWithin_succ (fuel : Nat) (i : NodeId) :
    t.sitesWithin (fuel + 1) i =
      if t.isDefinition i then []
      else (t.inner i).flatMap (t.sitesWithin fuel) ++ if t.isSite i then [i] else [] := by
  unfold sitesWithin isSite
  rw [flatMap_sitesWithin]
  split
  · rfl
  · split <;> simp_all

theorem mem_sitesWithin (hd : t.Descending) {fuel : Nat} (hfuel : i < fuel) :
    j ∈ t.sitesWithin fuel i ↔
      t.isDefinition i = false ∧ t.isSite j = true ∧ (j = i ∨ t.Met i j) := by
  induction fuel generalizing i with
  | zero => exact absurd hfuel (Nat.not_lt_zero i)
  | succ fuel ih =>
      have hchild : ∀ c ∈ t.inner i, (j ∈ t.sitesWithin fuel c ↔
          t.isDefinition c = false ∧ t.isSite j = true ∧ (j = c ∨ t.Met c j)) := by
        intro c hc
        have hlt := hd i c (child_iff.1 hc).1 (child_iff.1 hc).2
        exact ih (Nat.lt_of_lt_of_le hlt (Nat.lt_succ_iff.1 hfuel))
      rw [sitesWithin_succ]
      cases hdef : t.isDefinition i with
      | true => simp
      | false =>
          simp only [Bool.false_eq_true, if_false, true_and, List.mem_append, List.mem_flatMap]
          constructor
          · rintro (⟨c, hc, hj⟩ | hj)
            · obtain ⟨hdef', hsite, rfl | hmet⟩ := (hchild c hc).1 hj
              · exact ⟨hsite, .inr (.child hc)⟩
              · exact ⟨hsite, .inr (hmet.head hc hdef')⟩
            · split at hj
              · rename_i hsite
                obtain rfl := List.mem_singleton.1 hj
                exact ⟨hsite, .inl rfl⟩
              · cases hj
          · rintro ⟨hsite, rfl | hmet⟩
            · right
              simp [hsite]
            · left
              obtain ⟨c, hc, rfl | ⟨hdef', hmet⟩⟩ := met_iff.1 hmet
              · exact ⟨j, hc, (hchild j hc).2 ⟨isDefinition_of_isSite hsite, hsite, .inl rfl⟩⟩
              · exact ⟨c, hc, (hchild c hc).2 ⟨hdef', hsite, .inr hmet⟩⟩

theorem below_of_mem_sitesWithin (hd : t.Descending) {fuel : Nat} (hfuel : i < fuel)
    (h : j ∈ t.sitesWithin fuel i) : t.Below i j := by
  obtain ⟨_, _, rfl | hmet⟩ := (mem_sitesWithin hd hfuel).1 h
  · exact .refl
  · exact below_of_met hmet

theorem insideOut_sitesWithin (F : Forest t.Child id) (hu : t.Unshared) (hd : t.Descending)
    {fuel : Nat} (hfuel : i < fuel) : Forest.InsideOut t.Child (t.sitesWithin fuel i) := by
  induction fuel generalizing i with
  | zero => exact absurd hfuel (Nat.not_lt_zero i)
  | succ fuel ih =>
      have hlower : ∀ c ∈ t.inner i, c < fuel := by
        intro c hc
        have hlt := hd i c (child_iff.1 hc).1 (child_iff.1 hc).2
        exact Nat.lt_of_lt_of_le hlt (Nat.lt_succ_iff.1 hfuel)
      have hbelow : ∀ c ∈ t.inner i, ∀ j ∈ t.sitesWithin fuel c, t.Below c j :=
        fun c hc j hj => below_of_mem_sitesWithin hd (hlower c hc) hj
      have hchildren : Forest.InsideOut t.Child ((t.inner i).flatMap (t.sitesWithin fuel)) :=
        F.insideOut_flatMap (hu.nodup_inner i) (fun c hc => hc) hbelow
          fun c hc => ih (hlower c hc)
      rw [sitesWithin_succ]
      split
      · exact .nil
      · split
        · refine F.insideOut_concat hchildren fun j hj => ?_
          obtain ⟨c, hc, hj⟩ := List.mem_flatMap.1 hj
          exact ⟨c, hc, hbelow c hc j hj⟩
        · rwa [List.append_nil]

end Tree

/-! ### Sites and calls of a scope -/

namespace Program

variable {p : Program} {s : ScopeId} {i n : NodeId}

theorem sites_eq (p : Program) {s : ScopeId} {n : NodeId} (hn : p.nodeOf s = some n) :
    p.sites s = (p.tree.inner n).flatMap p.tree.sites := by
  simp only [sites, hn]
  exact Tree.flatMap_sitesWithin _ n

theorem lt_size_of_mem_inner {t : Tree} {c : NodeId} (hc : c ∈ t.inner n) : c < t.size + 1 :=
  Nat.lt_succ_of_lt (Tree.child_iff.1 hc).2

/-- The sites of a scope are what its node meets. -/
theorem mem_sites (hd : p.tree.Descending) (hn : p.nodeOf s = some n) :
    i ∈ p.sites s ↔ p.tree.isSite i = true ∧ p.tree.Met n i := by
  rw [p.sites_eq hn, List.mem_flatMap, Tree.met_iff]
  constructor
  · rintro ⟨c, hc, hi⟩
    obtain ⟨hdef, hsite, h⟩ := (Tree.mem_sitesWithin hd (lt_size_of_mem_inner hc)).1 hi
    exact ⟨hsite, c, hc, h.imp_right fun hmet => ⟨hdef, hmet⟩⟩
  · rintro ⟨hsite, c, hc, rfl | ⟨hdef, hmet⟩⟩
    · exact ⟨i, hc, (Tree.mem_sitesWithin hd (lt_size_of_mem_inner hc)).2
        ⟨Tree.isDefinition_of_isSite hsite, hsite, .inl rfl⟩⟩
    · exact ⟨c, hc, (Tree.mem_sitesWithin hd (lt_size_of_mem_inner hc)).2
        ⟨hdef, hsite, .inr hmet⟩⟩

/-- The sites of a scope come one after the other, each after those inside it. -/
theorem insideOut_sites (hu : p.tree.Unshared) (hd : p.tree.Descending)
    (hn : p.nodeOf s = some n) : Forest.InsideOut p.tree.Child (p.sites s) := by
  have F := hu.forest hd
  rw [p.sites_eq hn]
  refine F.insideOut_flatMap (hu.nodup_inner n) (fun c hc => hc) (fun c hc j hj => ?_)
    fun c hc => Tree.insideOut_sitesWithin F hu hd (lt_size_of_mem_inner hc)
  exact Tree.below_of_mem_sitesWithin hd (lt_size_of_mem_inner hc) hj

end Program

end ObjectInference
