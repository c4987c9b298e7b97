import ObjectInference.Guard

/-!
Guards as brackets.

A computation may enter and leave keys as it likes, as long as it leaves what
it entered. `Settles` says what such a computation makes of a guard: the limits
and the depth are those it found, and so are the keys visited, unless the guard
counted none, in which case the first attempt has emptied it. Attempts are
counted and forgotten on the way, so nothing is said of their number.

The one fact about brackets is `leave_of_settles`: a key that was entered can be
left after any computation that settles, and the guard has settled then.
-/

namespace ObjectInference.Guard

variable {κ : Type}

/-- The depth is the number of keys visited, none of them twice. -/
structure Balanced (g : Guard κ) : Prop where
  depth_eq : g.depth = g.visiting.length
  nodup : g.visiting.Nodup

/-- What a computation that leaves every key it enters makes of a guard. -/
structure Settles (g g' : Guard κ) : Prop where
  maxDepth : g'.maxDepth = g.maxDepth
  maxIterations : g'.maxIterations = g.maxIterations
  maxVisiting : g'.maxVisiting = g.maxVisiting
  depth : g'.depth = g.depth
  visiting : g'.visiting = g.visiting ∨ g.depth = 0 ∧ g'.visiting = []

namespace Settles

theorem refl (g : Guard κ) : g.Settles g := ⟨rfl, rfl, rfl, rfl, .inl rfl⟩

theorem trans {g₁ g₂ g₃ : Guard κ} (h : g₁.Settles g₂) (h' : g₂.Settles g₃) :
    g₁.Settles g₃ := by
  refine ⟨h'.maxDepth.trans h.maxDepth, h'.maxIterations.trans h.maxIterations,
    h'.maxVisiting.trans h.maxVisiting, h'.depth.trans h.depth, ?_⟩
  rcases h'.visiting with h₃ | ⟨h₀, h₃⟩
  · rw [h₃]
    exact h.visiting
  · exact .inr ⟨h.depth ▸ h₀, h₃⟩

/-- Nothing is visited that was not visited before. -/
theorem subset {g g' : Guard κ} (h : g.Settles g') : g'.visiting ⊆ g.visiting := by
  rcases h.visiting with h | ⟨_, h⟩ <;> simp [h]

/-- A guard that visits nothing still visits nothing. -/
theorem visiting_eq_nil {g g' : Guard κ} (h : g.Settles g') (hg : g.visiting = []) :
    g'.visiting = [] :=
  List.subset_nil.1 (hg ▸ h.subset)

/-- A guard that counts what it visits comes back exactly. -/
theorem visiting_eq {g g' : Guard κ} (h : g.Settles g') (hg : g.Balanced) :
    g'.visiting = g.visiting := by
  rcases h.visiting with h | ⟨h₀, h⟩
  · exact h
  · rw [hg.depth_eq] at h₀
    rw [h, List.eq_nil_of_length_eq_zero h₀]

theorem balanced {g g' : Guard κ} (h : g.Settles g') (hg : g.Balanced) : g'.Balanced := by
  refine ⟨?_, ?_⟩
  · rw [h.depth, h.visiting_eq hg, hg.depth_eq]
  · rw [h.visiting_eq hg]
    exact hg.nodup

end Settles

/-! ### Starting anew -/

theorem refresh_of_active {g : Guard κ} (h : 0 < g.depth) : g.refresh = g := by
  simp [refresh, isActive, h]

theorem refresh_of_inactive {g : Guard κ} (h : g.depth = 0) : g.refresh = g.reset := by
  simp [refresh, isActive, h]

@[simp] theorem depth_refresh (g : Guard κ) : g.refresh.depth = g.depth := by
  rcases Nat.eq_zero_or_pos g.depth with h | h
  · simp [refresh_of_inactive h, reset, h]
  · rw [refresh_of_active h]

theorem settles_refresh (g : Guard κ) : g.Settles g.refresh := by
  rcases Nat.eq_zero_or_pos g.depth with h | h
  · rw [refresh_of_inactive h]
    exact ⟨rfl, rfl, rfl, h.symm, .inr ⟨h, rfl⟩⟩
  · rw [refresh_of_active h]
    exact .refl g

theorem balanced_refresh {g : Guard κ} (h : g.Balanced) : g.refresh.Balanced :=
  (settles_refresh g).balanced h

/-- The keys visited after a fresh start depend on the depth alone. -/
theorem Settles.visiting_refresh {g g' : Guard κ} (h : g.Settles g') :
    g'.refresh.visiting = g.refresh.visiting := by
  rcases Nat.eq_zero_or_pos g.depth with h₀ | h₀
  · rw [refresh_of_inactive h₀, refresh_of_inactive (h.depth.trans h₀)]
    rfl
  · rw [refresh_of_active h₀, refresh_of_active (h.depth ▸ h₀)]
    rcases h.visiting with hv | ⟨hd, _⟩
    · exact hv
    · omega

/-- A guard that visits nothing starts anew as it did, whatever has been visited in between. -/
theorem Settles.refresh_eq {g g' : Guard κ} (h : g.Settles g') (h₀ : g.depth = 0) :
    g'.refresh = g.refresh := by
  rw [refresh_of_inactive h₀, refresh_of_inactive (h.depth.trans h₀)]
  simp only [reset, h.maxDepth, h.maxIterations, h.maxVisiting]

theorem Settles.room_eq {g g' : Guard κ} (h : g.Settles g') : g'.room = g.room := by
  simp only [room, depth_refresh, h.visiting_refresh, h.maxDepth, h.maxVisiting, h.depth]

/-! ### Entering and leaving -/

@[simp] theorem visiting_tried (g : Guard κ) : g.tried.visiting = g.visiting := rfl

@[simp] theorem depth_tried (g : Guard κ) : g.tried.depth = g.depth := rfl

@[simp] theorem maxDepth_tried (g : Guard κ) : g.tried.maxDepth = g.maxDepth := rfl

@[simp] theorem maxVisiting_tried (g : Guard κ) : g.tried.maxVisiting = g.maxVisiting := rfl

variable [DecidableEq κ]

@[simp] theorem isVisiting_iff {g : Guard κ} {k : κ} : g.isVisiting k = true ↔ k ∈ g.visiting :=
  decide_eq_true_iff

/-- What an attempt that succeeds does, and when it does. -/
theorem enter_eq_entered {g g' : Guard κ} {k : κ} (h : g.enter k = (.entered, g')) :
    g' = g.tried.visit k ∧ k ∉ g.visiting ∧ g.depth < g.maxDepth ∧
      g.visiting.length < g.maxVisiting := by
  unfold enter at h
  simp only at h
  split at h
  · simp at h
  · split at h
    · simp at h
    · split at h
      · simp at h
      · split at h
        · simp at h
        · rename_i _ hdepth hcycle hroom
          simp only [isVisiting_iff, visiting_tried, Nat.not_le] at hdepth hcycle hroom
          simp only [Prod.mk.injEq, true_and] at h
          exact ⟨h.symm, hcycle, hdepth, hroom⟩

/-- A guard with nothing being visited lets any key in, if its limits let anything in. -/
theorem enter_of_inactive {g : Guard κ} (h : g.depth = 0) (hdepth : 0 < g.maxDepth)
    (hiterations : 0 < g.maxIterations) (hvisiting : 0 < g.maxVisiting) (k : κ) :
    g.refresh.enter k = (.entered, g.reset.tried.visit k) := by
  have htried : ¬ g.reset.tried.maxIterations < g.reset.tried.iterations := by
    have hmin : g.reset.tried.iterations ≤ 1 := Nat.min_le_left _ _
    have hmax : g.reset.tried.maxIterations = g.maxIterations := rfl
    omega
  have hroom : ¬ g.reset.tried.maxVisiting ≤ g.reset.tried.visiting.length := Nat.not_le.2 hvisiting
  rw [refresh_of_inactive h]
  unfold enter
  simp only
  rw [if_neg htried, if_neg (show ¬ g.reset.tried.maxDepth ≤ g.reset.tried.depth from
    Nat.not_le.2 hdepth), if_neg (by simp [reset]), if_neg hroom]

/-- A cycle is reported of keys being visited only. -/
theorem mem_of_enter_cycle {g g' : Guard κ} {k : κ} (h : g.enter k = (.cycle, g')) :
    k ∈ g.visiting := by
  unfold enter at h
  simp only at h
  split at h
  · simp at h
  · split at h
    · simp at h
    · split at h
      · rename_i hcycle
        exact isVisiting_iff.1 hcycle
      · split at h <;> simp at h

/-- A guard that visits nothing reports no cycle. -/
theorem ne_cycle_of_enter_refresh {g g' : Guard κ} {k : κ} {e : Entry} (h₀ : g.depth = 0)
    (h : g.refresh.enter k = (e, g')) : e ≠ .cycle := by
  rintro rfl
  have hmem := mem_of_enter_cycle h
  rw [refresh_of_inactive h₀] at hmem
  cases hmem

/-- An attempt that is denied settles. -/
theorem settles_of_enter {g g' : Guard κ} {k : κ} {e : Entry} (h : g.enter k = (e, g'))
    (he : e ≠ .entered) : g.Settles g' := by
  unfold enter at h
  simp only at h
  repeat' split at h
  all_goals
    obtain ⟨rfl, rfl⟩ := Prod.mk.inj h
    first
      | exact ⟨rfl, rfl, rfl, rfl, .inl rfl⟩
      | exact absurd rfl he

/-- A balanced guard stays balanced when a key is entered. -/
theorem balanced_of_enter {g g' : Guard κ} {k : κ} (h : g.enter k = (.entered, g'))
    (hg : g.Balanced) : g'.Balanced := by
  obtain ⟨rfl, hk, _, _⟩ := enter_eq_entered h
  exact ⟨by simp [visit, tried, hg.depth_eq], List.nodup_cons.2 ⟨hk, hg.nodup⟩⟩

/-- Every key entered takes up room. -/
theorem room_lt_of_enter {g g' : Guard κ} {k : κ} (h : g.refresh.enter k = (.entered, g')) :
    g'.room < g.room := by
  obtain ⟨rfl, _, hdepth, hvisiting⟩ := enter_eq_entered h
  have hs := settles_refresh g
  have hactive : 0 < (g.refresh.tried.visit k).depth := by simp [visit]
  simp only [room, refresh_of_active hactive]
  simp only [visit, tried, depth_refresh, List.length_cons, hs.maxDepth, hs.maxVisiting] at *
  omega

/-- A key entered can be left after any computation that settles. -/
theorem leave_of_settles {g g₁ g₂ : Guard κ} {k : κ} (h : g.refresh.enter k = (.entered, g₁))
    (h₁ : g₁.Settles g₂) : ∃ g₃, g₂.leave k = .ok g₃ ∧ g.Settles g₃ := by
  obtain ⟨rfl, hk, _, _⟩ := enter_eq_entered h
  -- At least `k` is counted now, so the keys come back exactly.
  have hvisiting : g₂.visiting = k :: g.refresh.visiting := by
    rcases h₁.visiting with hv | ⟨hd, _⟩
    · exact hv
    · simp [visit] at hd
  have hdepth : g₂.depth = g.refresh.depth + 1 := h₁.depth
  refine ⟨{ g₂ with visiting := g₂.visiting.erase k, depth := g₂.depth - 1 }, ?_, ?_⟩
  · simp [leave, isVisiting, hvisiting]
  · refine (settles_refresh g).trans ⟨h₁.maxDepth, h₁.maxIterations, h₁.maxVisiting, ?_, ?_⟩
    · simp [hdepth]
    · exact .inl (by simp [hvisiting])

end ObjectInference.Guard
