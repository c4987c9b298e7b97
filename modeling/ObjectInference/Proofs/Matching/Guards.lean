import Mathlib.Data.List.Forall2
import ObjectInference.Proofs.Guard

/-!
Guards that do the same.

Two guards are alike when they count the same and visit corresponding keys, in
the same order. As long as a key has one counterpart at most, on either side,
attempts to enter corresponding keys have the same outcome and keep the guards
alike, and so does leaving them.
-/

namespace ObjectInference

/-- No two objects have the same counterpart, and none has two. -/
structure OneToOne {κ : Type} (r : κ → κ → Prop) : Prop where
  right {a b b' : κ} (h : r a b) (h' : r a b') : b = b'
  left {a a' b : κ} (h : r a b) (h' : r a' b) : a = a'

section OneToOne

variable {κ : Type} {r : κ → κ → Prop} {ks ks' : List κ} {k k' : κ}

theorem OneToOne.eq_iff (hr : OneToOne r) {a a' : κ} (h : r a a') (hk : r k k') :
    a = k ↔ a' = k' :=
  ⟨fun heq => hr.right (heq ▸ h) hk, fun heq => hr.left (heq ▸ h) hk⟩

theorem OneToOne.mem_iff (hr : OneToOne r) (h : List.Forall₂ r ks ks') (hk : r k k') :
    k ∈ ks ↔ k' ∈ ks' := by
  induction h with
  | nil => simp
  | cons ha _ ih =>
      rw [List.mem_cons, List.mem_cons, ih, eq_comm, hr.eq_iff ha hk, eq_comm]

theorem OneToOne.erase [DecidableEq κ] (hr : OneToOne r) (h : List.Forall₂ r ks ks')
    (hk : r k k') : List.Forall₂ r (ks.erase k) (ks'.erase k') := by
  induction h with
  | nil => exact .nil
  | cons ha hks ih =>
      rw [List.erase_cons, List.erase_cons]
      simp only [beq_iff_eq, hr.eq_iff ha hk]
      split
      · exact hks
      · exact .cons ha ih

end OneToOne

namespace Guard

variable {κ : Type}

/-- Inside a bracket a guard does not start anew. -/
theorem refresh_of_entered [DecidableEq κ] {g g₁ g₂ : Guard κ} {k : κ}
    (h : g.enter k = (.entered, g₁)) (h₁ : g₁.Settles g₂) : g₂.refresh = g₂ := by
  obtain ⟨rfl, _, _, _⟩ := enter_eq_entered h
  refine refresh_of_active ?_
  rw [h₁.depth]
  exact Nat.succ_pos _

/-- Two guards count the same and visit corresponding keys. -/
structure Alike (r : κ → κ → Prop) (g g' : Guard κ) : Prop where
  visiting : List.Forall₂ r g.visiting g'.visiting
  depth : g'.depth = g.depth
  iterations : g'.iterations = g.iterations
  maxDepth : g'.maxDepth = g.maxDepth
  maxIterations : g'.maxIterations = g.maxIterations
  maxVisiting : g'.maxVisiting = g.maxVisiting

namespace Alike

variable {r r' : κ → κ → Prop} {g g' : Guard κ} {k k' : κ}

theorem imp (h : g.Alike r g') (hr : ∀ a b, r a b → r' a b) : g.Alike r' g' :=
  { h with visiting := h.visiting.imp hr }

theorem refresh (h : g.Alike r g') : g.refresh.Alike r g'.refresh := by
  rcases Nat.eq_zero_or_pos g.depth with h₀ | h₀
  · rw [refresh_of_inactive h₀, refresh_of_inactive (h.depth.trans h₀)]
    exact ⟨.nil, rfl, rfl, h.maxDepth, h.maxIterations, h.maxVisiting⟩
  · rw [refresh_of_active h₀, refresh_of_active (by rw [h.depth]; exact h₀)]
    exact h

theorem of_inactive (h : g.Settles g') (h₀ : g.depth = 0) : g.refresh.Alike r g'.refresh := by
  rw [h.refresh_eq h₀, refresh_of_inactive h₀]
  exact ⟨.nil, rfl, rfl, rfl, rfl, rfl⟩

theorem length_eq (h : g.Alike r g') : g'.visiting.length = g.visiting.length :=
  h.visiting.length_eq.symm

theorem room_eq (h : g.refresh.Alike r g'.refresh) : g'.room = g.room := by
  have hmax := h.maxDepth
  have hvisiting := h.maxVisiting
  rw [(settles_refresh g').maxDepth, (settles_refresh g).maxDepth] at hmax
  rw [(settles_refresh g').maxVisiting, (settles_refresh g).maxVisiting] at hvisiting
  rw [room, room, h.depth, h.length_eq, hmax, hvisiting]

variable [DecidableEq κ]

/-- Corresponding keys are entered, or denied, in the same way. -/
theorem enter (hr : OneToOne r) (h : g.Alike r g') (hk : r k k') :
    (g'.enter k').1 = (g.enter k).1 ∧ (g.enter k).2.Alike r (g'.enter k').2 := by
  have htried : g.tried.Alike r g'.tried :=
    ⟨h.visiting, h.depth, by rw [tried, tried, h.iterations], h.maxDepth, h.maxIterations,
      h.maxVisiting⟩
  have hmarked : g.tried.markExceeded.Alike r g'.tried.markExceeded :=
    ⟨htried.visiting, htried.depth, htried.iterations, htried.maxDepth, htried.maxIterations,
      htried.maxVisiting⟩
  have hvisit : (g.tried.visit k).Alike r (g'.tried.visit k') :=
    ⟨.cons hk htried.visiting, congrArg (· + 1) htried.depth, htried.iterations, htried.maxDepth,
      htried.maxIterations, htried.maxVisiting⟩
  have hcycle : g'.tried.isVisiting k' = g.tried.isVisiting k :=
    decide_eq_decide.2 (hr.mem_iff htried.visiting hk).symm
  -- The tests are made in the same order, on equal numbers.
  unfold Guard.enter
  simp only [htried.maxIterations, htried.iterations, htried.maxDepth, htried.depth, hcycle,
    htried.maxVisiting, htried.length_eq]
  split
  · exact ⟨rfl, hmarked⟩
  · split
    · exact ⟨rfl, hmarked⟩
    · split
      · exact ⟨rfl, htried⟩
      · split
        · exact ⟨rfl, hmarked⟩
        · exact ⟨rfl, hvisit⟩

theorem leave (hr : OneToOne r) (h : g.Alike r g') (hk : r k k') {g₁ g₁' : Guard κ}
    (hg : g.leave k = .ok g₁) (hg' : g'.leave k' = .ok g₁') : g₁.Alike r g₁' := by
  unfold Guard.leave at hg hg'
  split at hg
  · split at hg'
    · cases hg
      cases hg'
      refine ⟨hr.erase h.visiting hk, ?_, h.iterations, h.maxDepth, h.maxIterations,
        h.maxVisiting⟩
      exact congrArg (· - 1) h.depth
    · cases hg'
  · cases hg

end Alike

end Guard

end ObjectInference
