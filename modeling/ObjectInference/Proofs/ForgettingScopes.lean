import ObjectInference.Proofs.Forgetting
import ObjectInference.Proofs.ScopeTree

/-!
What is forgotten with a scope.

Forgetting goes down the scopes by recursion: it forgets what one scope has led to, and then
goes through the scopes nested in it, one after the other. `Memory.Forgets` is this recursion
with no bound on its depth. Nested scopes come later in the program, so it always comes to an
end, and what it comes to is `Memory.forgetTree`.

Nothing but entries about the scopes inside the given one is lost. So it makes no difference
whether one of these scopes has been forgotten before.
-/

namespace ObjectInference

open Relation

namespace Program

variable {p : Program} {scope inner s : ScopeId}

/-- A scope of the program that is the given one or is nested in it at some depth. -/
def Inside (p : Program) (scope inner : ScopeId) : Prop :=
  inner < p.scopes.size ∧ ReflTransGen p.NestedIn scope inner

theorem mem_subtree_iff (hp : p.binding.Framed) :
    inner ∈ p.subtree scope ↔ p.Inside scope inner := by
  rcases Nat.lt_or_ge scope p.scopes.size with hlt | hge
  · rw [mem_subtree hp hlt]
    refine ⟨fun h => ⟨?_, h⟩, And.right⟩
    cases h with
    | refl => exact hlt
    | tail _ hlast => exact (hlast.lt hp).2
  · rw [subtree, subtreeWithin_of_size_le hge]
    refine ⟨fun h => absurd h List.not_mem_nil, fun h => ?_⟩
    exact absurd (Nat.le_trans hge (le_of_nestedIn hp h.2)) (Nat.not_le.2 h.1)

theorem subtree_subset (hp : p.binding.Framed) (h : p.Inside scope inner) :
    p.subtree inner ⊆ p.subtree scope := by
  intro s hs
  have hs := (mem_subtree_iff hp).1 hs
  exact (mem_subtree_iff hp).2 ⟨hs.1, h.2.trans hs.2⟩

/-- A scope, and then what is inside each of the scopes nested in it. -/
theorem subtree_eq (hp : p.WellBound) {d : Scope} (hd : p.scope? s = some d) :
    p.subtree s = s :: d.children.flatMap p.subtree := by
  have hsize : p.subtree s = p.subtreeWithin (p.scopes.size + 1) s :=
    subtreeWithin_eq hp (Nat.le_add_left _ _) (Nat.le_trans (Nat.le_succ _) (Nat.le_add_left _ _))
  rw [hsize, subtreeWithin, hd]
  rfl

end Program

namespace Memory

variable {p : Program} {m m' : Memory} {s : ScopeId} {scopes : List ScopeId}

/-- The memory after the scopes of a list have been forgotten one after the other, each of
them together with the scopes nested in it. -/
inductive Forgets (p : Program) : List ScopeId → Memory → Memory → Prop where
  | done (m : Memory) : Forgets p [] m m
  | missing {s : ScopeId} {scopes : List ScopeId} {m m' : Memory} (hs : p.scope? s = none)
    (hrest : Forgets p scopes m m') : Forgets p (s :: scopes) m m'
  | scope {s : ScopeId} {d : Scope} {scopes : List ScopeId} {m m₁ m' : Memory}
    (hs : p.scope? s = some d) (hbelow : Forgets p d.children (m.forgetScope p s) m₁)
    (hrest : Forgets p scopes m₁ m') : Forgets p (s :: scopes) m m'

theorem forgetTree_of_scope?_eq_none (m : Memory) (hs : p.scope? s = none) :
    m.forgetTree p s = m := by
  have hsize : p.scopes.size ≤ s := Array.getElem?_eq_none_iff.1 hs
  rw [forgetTree, Program.subtree, Program.subtreeWithin_of_size_le hsize]
  rfl

theorem forgetTree_of_scope? (hp : p.WellBound) (m : Memory) {d : Scope}
    (hs : p.scope? s = some d) :
    m.forgetTree p s = d.children.foldl (forgetTree p) (m.forgetScope p s) := by
  rw [forgetTree, Program.subtree_eq hp hs, List.foldl_cons, List.foldl_flatMap]
  rfl

theorem Forgets.eq (hp : p.WellBound) (h : Forgets p scopes m m') :
    m' = scopes.foldl (forgetTree p) m := by
  induction h with
  | done m => rfl
  | missing hs _ ih => rw [ih, List.foldl_cons, forgetTree_of_scope?_eq_none _ hs]
  | scope hs _ _ ih ih' => rw [ih', ih, List.foldl_cons, forgetTree_of_scope? hp _ hs]

/-- The scopes that are nested in a scope have larger numbers, so the recursion ends. -/
theorem exists_forgets_of_size_le (hp : p.WellBound) (n : Nat) (scopes : List ScopeId)
    (hscopes : ∀ s ∈ scopes, p.scopes.size ≤ s + n) (m : Memory) : ∃ m', Forgets p scopes m m' := by
  -- First by the scopes left behind the given ones, then along these.
  induction n generalizing scopes m with
  | zero =>
      refine ⟨m, ?_⟩
      induction scopes with
      | nil => exact .done m
      | cons s scopes ih =>
          obtain ⟨hs, hrest⟩ := List.forall_mem_cons.1 hscopes
          exact .missing (Program.scope?_of_size_le hs) (ih hrest)
  | succ n ih =>
      induction scopes generalizing m with
      | nil => exact ⟨m, .done m⟩
      | cons s scopes ihrest =>
          obtain ⟨hs, hrest⟩ := List.forall_mem_cons.1 hscopes
          cases hd : p.scope? s with
          | none =>
              obtain ⟨m', h⟩ := ihrest hrest m
              exact ⟨m', .missing hd h⟩
          | some d =>
              have hchildren : ∀ c ∈ d.children, p.scopes.size ≤ c + n := fun c hc => by
                have hlt : @LT.lt Nat _ s c := ((hp.scope hd).children c hc).1
                omega
              obtain ⟨m₁, hm₁⟩ := ih d.children hchildren (m.forgetScope p s)
              obtain ⟨m', h⟩ := ihrest hrest m₁
              exact ⟨m', .scope hd hm₁ h⟩

theorem exists_forgets (hp : p.WellBound) (scopes : List ScopeId) (m : Memory) :
    ∃ m', Forgets p scopes m m' :=
  exists_forgets_of_size_le hp p.scopes.size scopes (fun s _ => Nat.le_add_left _ s) m

theorem forgets_iff (hp : p.WellBound) : Forgets p [s] m m' ↔ m' = m.forgetTree p s := by
  refine ⟨fun h => h.eq hp, fun h => ?_⟩
  obtain ⟨m₁, hm₁⟩ := exists_forgets hp [s] m
  rwa [h, ← show m₁ = m.forgetTree p s from hm₁.eq hp]

end Memory

/-- Forget, in the midst of a run, what a scope and those nested in it have led to. -/
def State.forget (p : Program) (scope : ScopeId) (s : State) : State :=
  { s with toMemory := s.toMemory.forgetTree p scope }

section

variable (tree : Tree) (atoms : Interner) (root : NodeRef)

/-- Forgetting a scope of a bound program, in any state. The recursion over nested scopes
ends, and in one memory. Nothing is left in the containers that were made in the scope or
inside it, and no parameters of the owners of these scopes; all other containers and functions
keep what they have, and nothing else changes. Forgetting once more changes nothing, and it
makes no difference whether a scope inside has been forgotten before. -/
theorem subtree_forgotten (scope : ScopeId) (s : State) :
    let p := Program.bind tree atoms root
    let s' := s.forget p scope
    (∀ m, Memory.Forgets p [scope] s.toMemory m ↔ m = s'.toMemory) ∧
    (∀ inner, p.Inside scope inner →
      (∀ c ∈ s.allocated inner, ∀ slot, s'.evidence.get? c slot = none) ∧
      s'.parameterCache.get? (p.ownerOf inner) = none) ∧
    (∀ c, (∀ inner, p.Inside scope inner → c ∉ s.allocated inner) →
      ∀ slot, s'.evidence.get? c slot = s.evidence.get? c slot) ∧
    (∀ f, (∀ inner, p.Inside scope inner → p.ownerOf inner ≠ f) →
      s'.parameterCache.get? f = s.parameterCache.get? f) ∧
    s'.objects = s.objects ∧ s'.allocations = s.allocations ∧ s'.calls = s.calls ∧
    s' = { s with evidence := s'.evidence, parameterCache := s'.parameterCache } ∧
    s'.forget p scope = s' ∧
    ∀ inner, p.Inside scope inner → (s.forget p inner).forget p scope = s' := by
  intro p s'
  have hp : p.WellBound := (Program.wellBound_bind tree atoms root).1
  have hframed : p.binding.Framed := Program.framed_bind tree atoms root
  have hforget (scope : ScopeId) (s : State) :
      s.forget p scope = { s with toMemory := s.toMemory.without p (p.subtree scope) } := by
    rw [State.forget, Memory.forgetTree_eq]
  have hs' : s' = { s with toMemory := s.toMemory.without p (p.subtree scope) } := hforget scope s
  have hagain {inner : ScopeId} (h : p.subtree inner ⊆ p.subtree scope) :
      (s.forget p inner).forget p scope = s' := by
    rw [hs', hforget, hforget]
    exact congrArg (fun m => { s with toMemory := m }) (s.toMemory.without_without_of_subset p h)
  have hslot (c : ObjectId) (slot : Slot) : s'.evidence.get? c slot =
      if ∀ inner ∈ p.subtree scope, c ∉ s.allocated inner then s.evidence.get? c slot
      else none := by
    rw [hs']
    exact s.toMemory.get?_without p _ c slot
  have hcached (f : ObjectId) : s'.parameterCache.get? f =
      if ∀ inner ∈ p.subtree scope, p.ownerOf inner ≠ f then s.parameterCache.get? f
      else none := by
    rw [hs']
    simp only [Memory.without, Table.get?_restrict, decide_eq_true_eq]
  refine ⟨fun m => Memory.forgets_iff hp, fun inner hinner => ⟨fun c hc slot => ?_, ?_⟩,
    fun c hc slot => ?_, fun f hf => ?_, ?_, ?_, ?_, ?_, hagain (List.Subset.refl _),
    fun inner hinner => hagain (Program.subtree_subset hframed hinner)⟩
  · have hmem := (Program.mem_subtree_iff hframed).2 hinner
    rw [hslot, if_neg fun h => h inner hmem hc]
  · have hmem := (Program.mem_subtree_iff hframed).2 hinner
    rw [hcached, if_neg fun h => h inner hmem rfl]
  · rw [hslot, if_pos fun inner h => hc inner ((Program.mem_subtree_iff hframed).1 h)]
  · rw [hcached, if_pos fun inner h => hf inner ((Program.mem_subtree_iff hframed).1 h)]
  · exact congrArg (·.objects) hs'
  · exact congrArg (·.allocations) hs'
  · exact congrArg (·.calls) hs'
  · rw [hs']
    rfl

end

/-- A function with another one inside is forgotten. A container that was made in the inner one
and elsewhere too is lost, what was made only elsewhere is kept. -/
theorem subtree_forgotten_sharing :
    let p := Program.bind Tree.sharing ⟨#["", "m", "self", "C", "f"]⟩ (some 4)
    let m : Memory :=
      { objects := p.objects
        evidence := ⟨⟨[((20, .element), 9), ((21, .item 1), 9), ((22, .value), 9)]⟩⟩
        parameterCache := ⟨[(p.ownerOf 4, [9]), (p.ownerOf 5, [9])]⟩
        allocations := ⟨[(3, [20]), (4, [21]), (5, [21, 22])]⟩ }
    let s := State.start m {} {}
    let s' := s.forget p 3
    p.Inside 3 4 ∧ (∀ slot, s'.evidence.get? 21 slot = none) ∧
      s'.evidence.get? 22 .value = some 9 ∧ s'.parameterCache.get? (p.ownerOf 4) = none ∧
      s'.parameterCache.get? (p.ownerOf 5) = some [9] ∧ (s.forget p 4).forget p 3 = s' := by
  intro p m s s'
  have hmem (inner : ScopeId) : inner ∈ p.subtree 3 ↔ p.Inside 3 inner :=
    Program.mem_subtree_iff (Program.framed_bind _ _ _)
  have hsubtree : p.subtree 3 = [3, 4] := by decide +kernel
  have hinner : p.Inside 3 4 := (hmem 4).1 (by rw [hsubtree]; decide)
  obtain ⟨-, hlost, hkept, hcached, -, -, -, -, -, habove⟩ :=
    subtree_forgotten Tree.sharing ⟨#["", "m", "self", "C", "f"]⟩ (some 4) 3 s
  refine ⟨hinner, (hlost 4 hinner).1 21 (by decide), ?_, (hlost 4 hinner).2, ?_, habove 4 hinner⟩
  · refine hkept 22 (fun inner h => ?_) .value
    have h := hsubtree ▸ (hmem inner).2 h
    rcases List.mem_pair.1 h with rfl | rfl <;> decide
  · refine (hcached (p.ownerOf 5) fun inner h => ?_).trans (by decide +kernel)
    have h := hsubtree ▸ (hmem inner).2 h
    rcases List.mem_pair.1 h with rfl | rfl <;> decide +kernel

end ObjectInference
