import ObjectInference.Proofs.Guard

/-!
A guard and its history.

A guard keeps a set of keys, two counts and a flag, and five operations change them in any
order. All four can be told from what has been done to the guard and what it answered:
`openKeys` are the keys that were entered and not left, `attempts` the number of times that
anything tried to enter, and `Limited` says that a limit was met or given out as met, each
since the guard was last reset. `Told` is this relation between a history and a guard. Every
single operation keeps it, so it holds after every sequence of operations, and what the next
operation answers is a question about the history alone.
-/

namespace ObjectInference.Guard

variable {κ α : Type}

inductive Action (κ α : Type) where
  | enter (k : κ)
  | leave (k : κ)
  /-- Run a computation between entering and leaving a key. -/
  | scope (k : κ) (run : Unit → α)
  | markExceeded
  | reset

inductive Answer (α : Type) where
  | entry (e : Entry)
  /-- The computation of a scope was run. -/
  | ran (result : α)
  | done
  | fault (fault : GuardFault)

/-- What was done and what was answered, latest first. -/
abbrev History (κ α : Type) := List (Action κ α × Answer α)

/-- Do something to a guard. A fault leaves the guard as it was found. -/
def act [DecidableEq κ] (g : Guard κ) : Action κ α → Answer α × Guard κ
  | .enter k => (.entry (g.enter k).1, (g.enter k).2)
  | .leave k =>
    match g.leave k with
    | .ok g => (.done, g)
    | .error fault => (.fault fault, g)
  | .scope k run =>
    match g.within k run with
    | .ok (.ok result, g) => (.ran result, g)
    | .ok (.error denied, g) => (.entry denied, g)
    | .error fault => (.fault fault, g)
  | .markExceeded => (.done, g.markExceeded)
  | .reset => (.done, g.reset)

def actOn [DecidableEq κ] (r : History κ α × Guard κ) (a : Action κ α) :
    History κ α × Guard κ :=
  ((a, (r.2.act a).1) :: r.1, (r.2.act a).2)

/-- Do one thing after the other to a guard: the history and the guard at the end. -/
def play [DecidableEq κ] (g : Guard κ) (actions : List (Action κ α)) :
    History κ α × Guard κ :=
  actions.foldl actOn ([], g)

namespace History

/-- What has happened since the last reset, or in all. -/
def sinceReset : History κ α → History κ α
  | [] => []
  | (.reset, _) :: _ => []
  | event :: earlier => event :: sinceReset earlier

def isAttempt : Action κ α × Answer α → Bool
  | (.enter _, _) => true
  | (.scope .., _) => true
  | _ => false

def attempts (h : History κ α) : Nat :=
  (sinceReset h).countP isAttempt

theorem attempts_cons {h : History κ α} {event : Action κ α × Answer α}
    (hsince : sinceReset (event :: h) = event :: sinceReset h) (hattempt : isAttempt event = true) :
    attempts (event :: h) = attempts h + 1 := by
  unfold attempts
  rw [hsince, List.countP_cons_of_pos hattempt]

/-- The keys that events entered and did not leave, latest first. -/
def unclosed [DecidableEq κ] : History κ α → List κ
  | [] => []
  | (.enter k, .entry .entered) :: earlier => k :: unclosed earlier
  | (.leave k, .done) :: earlier => (unclosed earlier).erase k
  | _ :: earlier => unclosed earlier

def openKeys [DecidableEq κ] (h : History κ α) : List κ :=
  unclosed (sinceReset h)

/-- An attempt was denied by a limit, or the guard was marked as if one had been. -/
def IsLimited : Action κ α × Answer α → Prop
  | (.markExceeded, _) => True
  | (_, .entry e) => e.isExceeded = true
  | _ => False

/-- A limit was met, or given out as met, since the last reset. -/
def Limited (h : History κ α) : Prop :=
  ∃ event ∈ sinceReset h, IsLimited event

end History

open History

variable [DecidableEq κ]

/-! ### What the operations do -/

/-- The answer of an attempt to enter, with the conditions in the order in which they are
looked at, and what it makes of the guard. -/
theorem enter_cases (g : Guard κ) (k : κ) :
    (g.maxIterations < g.tried.iterations ∧
      g.enter k = (.iterationExceeded, g.tried.markExceeded)) ∨
    g.tried.iterations ≤ g.maxIterations ∧
      (g.maxDepth ≤ g.depth ∧ g.enter k = (.depthExceeded, g.tried.markExceeded) ∨
        g.depth < g.maxDepth ∧
          (k ∈ g.visiting ∧ g.enter k = (.cycle, g.tried) ∨
            k ∉ g.visiting ∧
              (g.maxVisiting ≤ g.visiting.length ∧
                  g.enter k = (.depthExceeded, g.tried.markExceeded) ∨
                g.visiting.length < g.maxVisiting ∧ g.enter k = (.entered, g.tried.visit k)))) := by
  have hi : g.tried.maxIterations = g.maxIterations := rfl
  have hk : g.tried.isVisiting k = true ↔ k ∈ g.visiting := isVisiting_iff
  unfold enter
  simp only [hi, hk, maxDepth_tried, depth_tried, maxVisiting_tried, visiting_tried]
  by_cases h₁ : g.maxIterations < g.tried.iterations
  · exact .inl ⟨h₁, if_pos h₁⟩
  · rw [if_neg h₁]
    refine .inr ⟨Nat.not_lt.1 h₁, ?_⟩
    by_cases h₂ : g.maxDepth ≤ g.depth
    · exact .inl ⟨h₂, if_pos h₂⟩
    · rw [if_neg h₂]
      refine .inr ⟨Nat.not_le.1 h₂, ?_⟩
      by_cases h₃ : k ∈ g.visiting
      · exact .inl ⟨h₃, if_pos h₃⟩
      · rw [if_neg h₃]
        refine .inr ⟨h₃, ?_⟩
        by_cases h₄ : g.maxVisiting ≤ g.visiting.length
        · exact .inl ⟨h₄, if_pos h₄⟩
        · exact .inr ⟨Nat.not_le.1 h₄, if_neg h₄⟩

theorem leave_of_mem {g : Guard κ} {k : κ} (h : k ∈ g.visiting) :
    g.leave k = .ok { g with visiting := g.visiting.erase k, depth := g.depth - 1 } :=
  if_pos (isVisiting_iff.2 h)

theorem leave_of_not_mem {g : Guard κ} {k : κ} (h : k ∉ g.visiting) :
    g.leave k = .error .notVisiting :=
  if_neg (by rwa [isVisiting_iff])

/-- A scope that is entered runs its computation, and all that is left of it is that an
attempt was made. -/
theorem within_of_entered {g : Guard κ} {k : κ} {g' : Guard κ} (h : g.enter k = (.entered, g'))
    (run : Unit → α) : g.within k run = .ok (.ok (run ()), g.tried) := by
  obtain ⟨rfl, _, _, _⟩ := enter_eq_entered h
  have hleave : (g.tried.visit k).leave k = .ok g.tried := by
    rw [leave_of_mem List.mem_cons_self]
    simp only [visit, List.erase_cons_head, Nat.add_sub_cancel]
  simp [within, h, hleave, Except.map]

/-- A scope that is denied runs nothing. -/
theorem within_of_denied {g : Guard κ} {k : κ} {e : Entry} {g' : Guard κ}
    (h : g.enter k = (e, g')) (he : e ≠ .entered) (run : Unit → α) :
    g.within k run = .ok (.error e, g') := by
  unfold within
  rw [h]
  cases e with
  | entered => exact absurd rfl he
  | _ => rfl

omit [DecidableEq κ] in
theorem drop_eq (g : Guard κ) :
    g.drop = if g.visiting = [] then .ok () else .error (.stillVisiting g.visiting.length) := by
  unfold drop
  simp only [List.isEmpty_iff]

/-! ### The relation of a history to a guard -/

/-- All that a guard keeps is what its history tells, and its limits are as they were. -/
structure Told (start : Guard κ) (h : History κ α) (g : Guard κ) : Prop where
  maxDepth : g.maxDepth = start.maxDepth
  maxIterations : g.maxIterations = start.maxIterations
  maxVisiting : g.maxVisiting = start.maxVisiting
  visiting : g.visiting = h.openKeys
  depth : g.depth = h.openKeys.length
  iterations : g.iterations = min h.attempts maxCount
  exceeded : g.exceeded = true ↔ h.Limited
  nodup : h.openKeys.Nodup
  length_le : h.openKeys.length ≤ min start.maxDepth start.maxVisiting

/-- The answer that an attempt to enter a key gets, told from the history and the limits. -/
inductive Due (start : Guard κ) (h : History κ α) (k : κ) : Entry → Prop where
  | iterationExceeded (hi : start.maxIterations < min (h.attempts + 1) maxCount) :
      Due start h k .iterationExceeded
  | depthExceeded (hi : min (h.attempts + 1) maxCount ≤ start.maxIterations)
      (hd : start.maxDepth ≤ h.openKeys.length) : Due start h k .depthExceeded
  | cycle (hi : min (h.attempts + 1) maxCount ≤ start.maxIterations)
      (hd : h.openKeys.length < start.maxDepth) (hk : k ∈ h.openKeys) : Due start h k .cycle
  | full (hi : min (h.attempts + 1) maxCount ≤ start.maxIterations)
      (hd : h.openKeys.length < start.maxDepth) (hk : k ∉ h.openKeys)
      (hv : start.maxVisiting ≤ h.openKeys.length) : Due start h k .depthExceeded
  | entered (hi : min (h.attempts + 1) maxCount ≤ start.maxIterations)
      (hd : h.openKeys.length < start.maxDepth) (hk : k ∉ h.openKeys)
      (hv : h.openKeys.length < start.maxVisiting) : Due start h k .entered

namespace Due

variable {start : Guard κ} {h : History κ α} {k : κ} {e e' : Entry}

/-- The conditions leave no choice. -/
theorem unique (d : Due start h k e) (d' : Due start h k e') : e = e' := by
  cases d <;> cases d' <;> first | rfl | omega | contradiction

end Due

namespace Told

variable {start g : Guard κ} {h : History κ α} {k : κ}

theorem of_new (maxDepth maxIterations maxVisiting : Nat) :
    Told (α := α) ({ maxDepth, maxIterations, maxVisiting } : Guard κ) []
      { maxDepth, maxIterations, maxVisiting } :=
  ⟨rfl, rfl, rfl, rfl, rfl, rfl, by simp [Limited, sinceReset], .nil, Nat.zero_le _⟩

theorem iterations_tried (t : Told start h g) :
    g.tried.iterations = min (h.attempts + 1) maxCount := by
  have hi := t.iterations
  change min (g.iterations + 1) maxCount = _
  omega

/-- An attempt gets the answer that is due. -/
theorem due_enter (t : Told start h g) (k : κ) : Due start h k (g.enter k).1 := by
  have hc := g.enter_cases k
  rw [t.iterations_tried, t.maxIterations, t.maxDepth, t.maxVisiting, t.depth, t.visiting] at hc
  rcases hc with ⟨hi, he⟩ | ⟨hi, ⟨hd, he⟩ | ⟨hd, ⟨hk, he⟩ | ⟨hk, ⟨hv, he⟩ | ⟨hv, he⟩⟩⟩⟩ <;> rw [he]
  · exact .iterationExceeded hi
  · exact .depthExceeded hi hd
  · exact .cycle hi hd hk
  · exact .full hi hd hk hv
  · exact .entered hi hd hk hv

/-! #### One more event -/

/-- An attempt that enters nothing, or leaves what it enters, is counted and no more. -/
theorem tried (t : Told start h g) {event : Action κ α × Answer α}
    (hsince : sinceReset (event :: h) = event :: sinceReset h) (hattempt : isAttempt event = true)
    (hopen : openKeys (event :: h) = h.openKeys) (hlimited : ¬ IsLimited event) :
    Told start (event :: h) g.tried := by
  refine ⟨t.maxDepth, t.maxIterations, t.maxVisiting, ?_, ?_, ?_, ?_, ?_, ?_⟩
  · rw [hopen]
    exact t.visiting
  · rw [hopen]
    exact t.depth
  · rw [attempts_cons hsince hattempt, t.iterations_tried]
  · refine t.exceeded.trans ?_
    simp [Limited, hsince, hlimited]
  · rw [hopen]
    exact t.nodup
  · rw [hopen]
    exact t.length_le

/-- An attempt that a limit denies is counted, and the guard is marked. -/
theorem denied (t : Told start h g) {event : Action κ α × Answer α}
    (hsince : sinceReset (event :: h) = event :: sinceReset h) (hattempt : isAttempt event = true)
    (hopen : openKeys (event :: h) = h.openKeys) (hlimited : IsLimited event) :
    Told start (event :: h) g.tried.markExceeded := by
  refine ⟨t.maxDepth, t.maxIterations, t.maxVisiting, ?_, ?_, ?_, ?_, ?_, ?_⟩
  · rw [hopen]
    exact t.visiting
  · rw [hopen]
    exact t.depth
  · rw [attempts_cons hsince hattempt]
    exact t.iterations_tried
  · refine iff_of_true rfl ⟨event, ?_, hlimited⟩
    rw [hsince]
    exact List.mem_cons_self
  · rw [hopen]
    exact t.nodup
  · rw [hopen]
    exact t.length_le

theorem enter (t : Told start h g) (k : κ) :
    Told start ((.enter k, .entry (g.enter k).1) :: h : History κ α) (g.enter k).2 := by
  rcases g.enter_cases k with ⟨_, he⟩ | ⟨_, ⟨_, he⟩ | ⟨hd, ⟨_, he⟩ | ⟨hk, ⟨_, he⟩ | ⟨hv, he⟩⟩⟩⟩ <;>
    rw [he]
  · exact t.denied rfl rfl rfl rfl
  · exact t.denied rfl rfl rfl rfl
  · exact t.tried rfl rfl rfl (by simp [IsLimited, Entry.isExceeded])
  · exact t.denied rfl rfl rfl rfl
  · have hopen : openKeys ((.enter k, .entry .entered) :: h : History κ α) = k :: h.openKeys := rfl
    have hle := t.length_le
    rw [t.visiting] at hk hv
    rw [t.depth] at hd
    rw [t.maxDepth] at hd
    rw [t.maxVisiting] at hv
    refine ⟨t.maxDepth, t.maxIterations, t.maxVisiting, ?_, ?_, ?_, ?_, ?_, ?_⟩
    · exact congrArg (k :: ·) t.visiting
    · exact congrArg (· + 1) t.depth
    · rw [attempts_cons rfl rfl]
      exact t.iterations_tried
    · refine t.exceeded.trans ?_
      simp [Limited, sinceReset, IsLimited, Entry.isExceeded]
    · exact List.nodup_cons.2 ⟨hk, t.nodup⟩
    · rw [hopen, List.length_cons]
      omega

theorem scope (t : Told start h g) (k : κ) (run : Unit → α) :
    Told start ((.scope k run, (g.act (.scope k run)).1) :: h) (g.act (.scope k run)).2 := by
  have hact (e : Entry) (g' : Guard κ) (he : g.enter k = (e, g')) (hne : e ≠ .entered) :
      g.act (.scope k run) = (.entry e, g') := by
    unfold act
    simp only [within_of_denied he hne]
  rcases g.enter_cases k with ⟨_, he⟩ | ⟨_, ⟨_, he⟩ | ⟨_, ⟨_, he⟩ | ⟨_, ⟨_, he⟩ | ⟨_, he⟩⟩⟩⟩
  · rw [hact _ _ he (by decide)]
    exact t.denied rfl rfl rfl rfl
  · rw [hact _ _ he (by decide)]
    exact t.denied rfl rfl rfl rfl
  · rw [hact _ _ he (by decide)]
    exact t.tried rfl rfl rfl (by simp [IsLimited, Entry.isExceeded])
  · rw [hact _ _ he (by decide)]
    exact t.denied rfl rfl rfl rfl
  · have hran : g.act (.scope k run) = (.ran (run ()), g.tried) := by
      unfold act
      simp only [within_of_entered he]
    rw [hran]
    exact t.tried rfl rfl rfl (by simp [IsLimited])

theorem leave (t : Told start h g) (k : κ) :
    Told start ((.leave k, (g.act (.leave k : Action κ α)).1) :: h)
      (g.act (.leave k : Action κ α)).2 := by
  by_cases hk : k ∈ g.visiting
  · have hact : g.act (.leave k : Action κ α) =
        (.done, { g with visiting := g.visiting.erase k, depth := g.depth - 1 }) := by
      unfold act
      simp only [leave_of_mem hk]
    have hopen : openKeys ((.leave k, .done) :: h : History κ α) = h.openKeys.erase k := rfl
    have hlength : (h.openKeys.erase k).length = h.openKeys.length - 1 :=
      List.length_erase_of_mem (t.visiting ▸ hk)
    have hle := t.length_le
    rw [hact]
    refine ⟨t.maxDepth, t.maxIterations, t.maxVisiting, ?_, ?_, t.iterations, ?_, ?_, ?_⟩
    · exact congrArg (·.erase k) t.visiting
    · rw [hopen, hlength]
      exact congrArg (· - 1) t.depth
    · refine t.exceeded.trans ?_
      simp [Limited, sinceReset, IsLimited]
    · rw [hopen]
      exact t.nodup.erase k
    · rw [hopen, hlength]
      omega
  · have hact : g.act (.leave k : Action κ α) = (.fault .notVisiting, g) := by
      unfold act
      simp only [leave_of_not_mem hk]
    rw [hact]
    refine ⟨t.maxDepth, t.maxIterations, t.maxVisiting, t.visiting, t.depth, t.iterations, ?_,
      t.nodup, t.length_le⟩
    refine t.exceeded.trans ?_
    simp [Limited, sinceReset, IsLimited]

/-- Whatever is done to the guard goes into the history. -/
theorem act (t : Told start h g) (a : Action κ α) :
    Told start ((a, (g.act a).1) :: h) (g.act a).2 := by
  cases a with
  | enter k => exact t.enter k
  | leave k => exact t.leave k
  | scope k run => exact t.scope k run
  | markExceeded =>
      refine ⟨t.maxDepth, t.maxIterations, t.maxVisiting, t.visiting, t.depth, t.iterations, ?_,
        t.nodup, t.length_le⟩
      exact iff_of_true rfl ⟨_, List.mem_cons_self, True.intro⟩
  | reset =>
      refine ⟨t.maxDepth, t.maxIterations, t.maxVisiting, rfl, rfl, rfl, ?_, .nil, Nat.zero_le _⟩
      exact iff_of_false (by simp [Guard.act, reset]) (by simp [Limited, sinceReset])

theorem foldl (t : Told start h g) (actions : List (Action κ α)) :
    Told start (actions.foldl actOn (h, g)).1 (actions.foldl actOn (h, g)).2 := by
  induction actions generalizing h g with
  | nil => exact t
  | cons a actions ih => exact ih (t.act a)

end Told

/-- Every sequence of operations tells what the guard keeps. -/
theorem told_play (maxDepth maxIterations maxVisiting : Nat) (actions : List (Action κ α)) :
    Told { maxDepth, maxIterations, maxVisiting }
      (play { maxDepth, maxIterations, maxVisiting } actions).1
      (play { maxDepth, maxIterations, maxVisiting } actions).2 :=
  (Told.of_new maxDepth maxIterations maxVisiting).foldl actions

/-- A guard with any limits, after any operations. Its keys, its depth and its flag are told by
the history, the depth is within the limits, and every attempt to enter gets the answer that is
due, where the order of the conditions matters. An attempt that is denied enters nothing, and a
scope runs its computation if and only if it is entered. Leaving a key that is not being visited
is a fault that changes nothing, and so is giving up a guard that visits anything. -/
theorem guard_told_by_history (maxDepth maxIterations maxVisiting : Nat)
    (actions : List (Action κ α)) :
    let start : Guard κ := { maxDepth, maxIterations, maxVisiting }
    let h := (play start actions).1
    let g := (play start actions).2
    (g.depth = h.openKeys.length ∧ h.openKeys.Nodup ∧ g.visiting.length = h.openKeys.length ∧
      (∀ k, g.isVisiting k = true ↔ k ∈ h.openKeys) ∧ g.depth ≤ min maxDepth maxVisiting ∧
      (g.isActive = true ↔ g.visiting ≠ [])) ∧
    (∀ k e, (g.enter k).1 = e ↔ Due start h k e) ∧
    (∀ k, (g.enter k).1.isDenied = true →
      (g.enter k).2.visiting = g.visiting ∧ (g.enter k).2.depth = g.depth) ∧
    (g.exceeded = true ↔ h.Limited) ∧
    (∀ k (run : Unit → α), Due start h k .entered →
      g.within k run = .ok (.ok (run ()), g.tried)) ∧
    (∀ k (run : Unit → α) e, Due start h k e → e ≠ .entered →
      g.within k run = .ok (.error e, (g.enter k).2)) ∧
    (∀ k, k ∈ h.openKeys → ∃ g', g.leave k = .ok g' ∧ g'.visiting = g.visiting.erase k) ∧
    (∀ k, k ∉ h.openKeys → g.act (.leave k : Action κ α) = (.fault .notVisiting, g)) ∧
    g.drop = if g.visiting = [] then .ok () else .error (.stillVisiting g.visiting.length) := by
  intro start h g
  have t : Told start h g := told_play maxDepth maxIterations maxVisiting actions
  have hdue (k : κ) (e : Entry) : (g.enter k).1 = e ↔ Due start h k e :=
    ⟨fun he => he ▸ t.due_enter k, fun d => (t.due_enter k).unique d⟩
  refine ⟨⟨t.depth, t.nodup, by rw [t.visiting], fun k => ?_, ?_, ?_⟩, hdue, fun k hk => ?_,
    t.exceeded, fun k run d => ?_, fun k run e d he => ?_, fun k hk => ?_, fun k hk => ?_,
    g.drop_eq⟩
  · rw [isVisiting_iff, t.visiting]
  · rw [t.depth]
    exact t.length_le
  · simp [isActive, t.depth, t.visiting, List.length_pos_iff]
  · have hne : (g.enter k).1 ≠ .entered := by simpa [Entry.isDenied, Entry.isEntered] using hk
    rcases g.enter_cases k with ⟨_, he⟩ | ⟨_, ⟨_, he⟩ | ⟨_, ⟨_, he⟩ | ⟨_, ⟨_, he⟩ | ⟨_, he⟩⟩⟩⟩ <;>
      rw [he] at hne ⊢ <;> first | exact ⟨rfl, rfl⟩ | exact absurd rfl hne
  · exact within_of_entered (Prod.ext ((hdue k _).2 d) rfl) run
  · exact within_of_denied (Prod.ext ((hdue k e).2 d) rfl) he run
  · exact ⟨_, leave_of_mem (t.visiting ▸ hk), rfl⟩
  · unfold Guard.act
    simp only [leave_of_not_mem (t.visiting ▸ hk)]

end ObjectInference.Guard
