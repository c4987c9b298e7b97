import Mathlib.Data.List.Basic
import ObjectInference.Memory

/-!
Forgetting at one stroke.

A memory forgets scope by scope, and container by container within a scope.
Since only entries are dropped, the order is of no account: what is left is
what belongs to none of the scopes, and forgetting again changes nothing.
-/

namespace ObjectInference

namespace Table

variable {κ α : Type}

theorem restrict_restrict (t : Table κ α) (keep keep' : κ → Bool) :
    (t.restrict keep).restrict keep' = t.restrict fun k => keep k && keep' k := by
  simp only [restrict, List.filter_filter, Bool.and_comm]

theorem restrict_restrict_of_imp (t : Table κ α) (keep keep' : κ → Bool)
    (h : ∀ k, keep' k = true → keep k = true) :
    (t.restrict keep).restrict keep' = t.restrict keep' := by
  rw [restrict_restrict]
  congr
  funext k
  cases hk : keep' k with
  | false => exact Bool.and_false _
  | true => rw [h k hk, Bool.and_true]

theorem restrict_true {t : Table κ α} {keep : κ → Bool} (h : ∀ k, keep k = true) :
    t.restrict keep = t := by
  simp [restrict, h]

theorem restrict_eq_self {t : Table κ α} {keep : κ → Bool} (h : ∀ k ∈ t.keys, keep k = true) :
    t.restrict keep = t := by
  have hentries : t.entries.filter (fun e => keep e.1) = t.entries :=
    List.filter_eq_self.2 fun e he => h e.1 (List.mem_map_of_mem he)
  exact congrArg Table.mk hentries

end Table

theorem Evidence.forgetAll_eq (e : Evidence) (containers : List ObjectId) :
    e.forgetAll containers = ⟨e.slots.restrict fun k => decide (k.1 ∉ containers)⟩ := by
  unfold forgetAll
  induction containers generalizing e with
  | nil => simp [Table.restrict_true]
  | cons c cs ih =>
      rw [List.foldl_cons, ih, forget, Table.restrict_restrict]
      congr 2
      funext k
      by_cases hc : k.1 = c <;> simp [hc]

namespace Memory

variable (p : Program)

def without (m : Memory) (scopes : List ScopeId) : Memory :=
  { m with
    parameterCache := m.parameterCache.restrict fun f => decide (∀ s ∈ scopes, p.ownerOf s ≠ f)
    evidence := ⟨m.evidence.slots.restrict fun k => decide (∀ s ∈ scopes, k.1 ∉ m.allocated s)⟩ }

theorem forgetTree_eq (m : Memory) (scope : ScopeId) :
    m.forgetTree p scope = m.without p (p.subtree scope) := by
  unfold forgetTree
  generalize p.subtree scope = scopes
  induction scopes generalizing m with
  | nil => simp [without, Table.restrict_true]
  | cons s ss ih =>
      rw [List.foldl_cons, ih]
      simp only [without, forgetScope, Table.erase, Evidence.forgetAll_eq,
        Table.restrict_restrict, allocated, List.forall_mem_cons, Bool.decide_and]
      congr 3
      funext f
      simp [eq_comm]

theorem get?_without (m : Memory) (scopes : List ScopeId) (c : ObjectId) (slot : Slot) :
    (m.without p scopes).evidence.get? c slot =
      if ∀ s ∈ scopes, c ∉ m.allocated s then m.evidence.get? c slot else none := by
  simp only [without, Evidence.get?, Table.get?_restrict, decide_eq_true_eq]

/-- Forgetting some scopes first makes no difference when they are forgotten later on. -/
theorem without_without_of_subset (m : Memory) {scopes scopes' : List ScopeId}
    (h : scopes ⊆ scopes') : (m.without p scopes).without p scopes' = m.without p scopes' := by
  have hcache := m.parameterCache.restrict_restrict_of_imp
    (fun f => decide (∀ s ∈ scopes, p.ownerOf s ≠ f))
    (fun f => decide (∀ s ∈ scopes', p.ownerOf s ≠ f)) fun f hf =>
      decide_eq_true fun s hs => of_decide_eq_true hf s (h hs)
  have hslots := m.evidence.slots.restrict_restrict_of_imp
    (fun k => decide (∀ s ∈ scopes, k.1 ∉ m.allocated s))
    (fun k => decide (∀ s ∈ scopes', k.1 ∉ m.allocated s)) fun k hk =>
      decide_eq_true fun s hs => of_decide_eq_true hk s (h hs)
  exact congrArg₂ (fun c e => { m with parameterCache := c, evidence := ⟨e⟩ }) hcache hslots

theorem without_without (m : Memory) (scopes : List ScopeId) :
    (m.without p scopes).without p scopes = m.without p scopes :=
  m.without_without_of_subset p (List.Subset.refl scopes)

end Memory

end ObjectInference
