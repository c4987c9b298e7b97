import ObjectInference.Proofs.Ancestry
import ObjectInference.Proofs.Scopes

/-!
The scopes that an analysis goes through.

They are those whose owner is to be analysed, among those that are reached through
scopes whose owner is to be searched. Nested scopes form a forest, so each of them
stands on the agenda once, after all that is nested in it.
-/

namespace ObjectInference

open Relation

namespace Program

variable {p : Program} {s c : ScopeId} {analyzes searches : ObjectId → Bool}

/-! ### Scopes in scopes -/

def NestedIn (p : Program) (s c : ScopeId) : Prop := c ∈ p.nestedScopes s

theorem nestedIn_iff (hp : p.binding.Framed) :
    p.NestedIn s c ↔ (p.scopes[c]?).map Scope.parent = some (some s) := by
  unfold NestedIn nestedScopes scope?
  constructor
  · intro hc
    cases hd : p.scopes[s]? with
    | none => simp [hd] at hc
    | some d =>
        rw [hd, Option.map_some, Option.getD_some, hp.children hd, List.mem_filter] at hc
        exact of_decide_eq_true hc.2
  · intro hc
    obtain ⟨d, hd, hparent⟩ := Option.map_eq_some_iff.1 hc
    have hlt : s < c := hp.parent hd s hparent
    have hc' : c < p.scopes.size := (Array.getElem?_eq_some_iff.1 hd).1
    have hlt' : s < p.scopes.size := Nat.lt_trans hlt hc'
    have hs := Array.getElem?_eq_getElem hlt'
    rw [hs, Option.map_some, Option.getD_some, hp.children hs, List.mem_filter]
    exact ⟨List.mem_range.2 hc', decide_eq_true hc⟩

theorem NestedIn.lt (hp : p.binding.Framed) (h : p.NestedIn s c) : s < c ∧ c < p.scopes.size := by
  obtain ⟨d, hd, hparent⟩ := Option.map_eq_some_iff.1 ((nestedIn_iff hp).1 h)
  exact ⟨hp.parent hd s hparent, (Array.getElem?_eq_some_iff.1 hd).1⟩

/-- A bound that is enough for a scope leaves enough for what is nested in it. -/
theorem NestedIn.room (hp : p.binding.Framed) (h : p.NestedIn s c) {fuel : Nat}
    (hfuel : p.scopes.size ≤ s + (fuel + 1)) : p.scopes.size ≤ c + fuel ∧ 0 < fuel := by
  have hlt : @LT.lt Nat _ s c := (h.lt hp).1
  have hsize : @LT.lt Nat _ c p.scopes.size := (h.lt hp).2
  omega

theorem nodup_nestedScopes (hp : p.binding.Framed) (s : ScopeId) : (p.nestedScopes s).Nodup := by
  unfold nestedScopes scope?
  cases hd : p.scopes[s]? with
  | none => exact List.nodup_nil
  | some d =>
      rw [Option.map_some, Option.getD_some, hp.children hd]
      exact List.nodup_range.filter _

/-- Later scopes have less room left after them. -/
theorem forest_nestedIn (hp : p.binding.Framed) :
    Forest p.NestedIn (fun s => p.scopes.size - s) where
  lower h := Nat.sub_lt_sub_left (Nat.lt_trans (h.lt hp).1 (h.lt hp).2) (h.lt hp).1
  parent {a b c} h h' := by
    have ha := (nestedIn_iff hp).1 h
    have hb := (nestedIn_iff hp).1 h'
    rw [ha] at hb
    cases hb
    rfl

/-- Every scope is nested in the first one at some depth. -/
theorem nested_zero (hp : p.binding.Framed) (hs : s < p.scopes.size) :
    ReflTransGen p.NestedIn 0 s := by
  induction s using Nat.strongRecOn with
  | ind s ih =>
      have hd := Array.getElem?_eq_getElem hs
      cases hparent : p.scopes[s].parent with
      | none =>
          obtain rfl := hp.first hd hparent
          exact .refl
      | some outer =>
          have hlt : outer < s := hp.parent hd outer hparent
          refine (ih outer hlt (Nat.lt_trans hlt hs)).tail ((nestedIn_iff hp).2 ?_)
          rw [hd, Option.map_some, hparent]

/-! ### The agenda -/

/-- A scope that an analysis of another comes to: that scope itself, and what is nested
in a scope whose owner is to be searched. -/
inductive Searched (p : Program) (searches : ObjectId → Bool) (top : ScopeId) : ScopeId → Prop where
  | top : Searched p searches top top
  | nested {s c : ScopeId} (h : Searched p searches top s) (hs : searches (p.ownerOf s) = true)
    (hc : p.NestedIn s c) : Searched p searches top c

theorem Searched.lt_size (hp : p.binding.Framed) {top : ScopeId}
    (h : p.Searched searches top s) (htop : top < p.scopes.size) : s < p.scopes.size := by
  cases h with
  | top => exact htop
  | nested _ _ hc => exact (hc.lt hp).2

theorem Searched.head {top : ScopeId} (hs : searches (p.ownerOf top) = true)
    (hc : p.NestedIn top c) (h : p.Searched searches c s) : p.Searched searches top s := by
  induction h with
  | top => exact Searched.top.nested hs hc
  | nested _ hs' hc' ih => exact ih.nested hs' hc'

/-- An object that an analysis of another comes to: that object itself, if it owns a
scope, and the owners of what is nested in an object that is to be searched. -/
inductive Leads (p : Program) (searches : ObjectId → Bool) (entity : ObjectId) :
    ObjectId → Prop where
  | entity (h : (p.objects.scopeOf? entity).isSome) : Leads p searches entity entity
  | nested {o : ObjectId} {s c : ScopeId} (h : Leads p searches entity o)
    (hs : searches o = true) (hscope : p.objects.scopeOf? o = some s) (hc : p.NestedIn s c) :
    Leads p searches entity (p.ownerOf c)

end Program

end ObjectInference
