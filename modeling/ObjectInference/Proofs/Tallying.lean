import ObjectInference.Proofs.Beside

/-!
Counters are never read.

An analysis counts a call site before it evaluates what is called. What it finds is what
would have been found without counting: an operation from a state with other counts has the
same result, and the counts differ alike to the end. All that matters is that the change of the
counts comes to the same before and after an evaluation counts what it gives up.
-/

namespace ObjectInference

/-- A change of the counts comes to the same before and after something is given up. -/
def Stats.Aside (change : Stats → Stats) : Prop :=
  ∀ {giveUp : Stats → Stats}, GivesUp giveUp → ∀ c, giveUp (change c) = change (giveUp c)

def State.tallied (s : State) (change : Stats → Stats) : State :=
  { s with stats := change s.stats }

variable {α β : Type} {p : Program} {change : Stats → Stats} {s s' : State}

namespace Infer

/-- A computation that does the same from other counts, and changes them alike. -/
def Unread (change : Stats → Stats) (x : Infer α) : Prop :=
  ∀ s a s', x s = .ok a s' → x (s.tallied change) = .ok a (s'.tallied change)

namespace Unread

theorem pure (a : α) : Unread change (Pure.pure a : Infer α) := by
  intro s b s' h
  cases h
  rfl

theorem bind {x : Infer α} {f : α → Infer β} (hx : Unread change x)
    (hf : ∀ a, Unread change (f a)) : Unread change (x >>= f) := by
  intro s b s' h
  obtain ⟨a, s₁, hs₁, h⟩ := bind_eq_ok.1 h
  exact bind_eq_ok.2 ⟨a, _, hx s a s₁ hs₁, hf a s₁ b s' h⟩

theorem get_bind {f : State → Infer α} (hsame : ∀ s : State, f (s.tallied change) = f s)
    (hf : ∀ s, Unread change (f s)) : Unread change (get >>= f) := by
  intro s a s' h
  have hrun := hf s s a s' h
  rwa [← hsame s] at hrun

theorem modify {f : State → State} (h : ∀ s : State, f (s.tallied change) = (f s).tallied change) :
    Unread change (modifyGet fun s => ((), f s) : Infer Unit) := by
  intro s _ s' hrun
  cases hrun
  exact congrArg (EStateM.Result.ok ()) (h s)

end Unread

theorem unread_intern (object : Object) : Unread change (intern object) := by
  intro s o s' h
  cases h
  rfl

theorem unread_changeMemory (m : Memory → Memory) : Unread change (changeMemory m) :=
  .modify fun _ => rfl

theorem unread_newInstance (c : ObjectId) (site : NodeRef) :
    Unread change (newInstance c site) := by
  refine .get_bind (fun _ => rfl) fun s => ?_
  split <;> exact unread_intern _

end Infer

/-! ### Slack in the counts -/

def Slack.ofCounts (change : Stats → Stats) : Slack where
  counts c c' := c' = change c
  names := Eq

theorem State.beside_ofCounts {t : State} :
    s.Beside (.ofCounts change) t ↔ t = s.tallied change := by
  constructor
  · rintro ⟨_, _, rfl, rfl, rfl⟩
    rfl
  · rintro rfl
    exact ⟨_, _, rfl, rfl, rfl⟩

theorem Slack.unnoticed_ofCounts (hc : Stats.Aside change) : (ofCounts change).Unnoticed where
  counts {_} h {_ _} hcounts := (congrArg _ hcounts).trans (hc h _)
  same _ := rfl
  refresh {_ _} h := congrArg Guard.refresh (Eq.symm h)

/-- An operation other than an analysis has the same result from other counts, and changes
them alike. -/
theorem Operation.perform_tallied (hc : Stats.Aside change) (op : Operation α)
    (hop : ¬ op.IsAnalysis) {a : α} (h : op.perform p s = .ok a s') :
    op.perform p (s.tallied change) = .ok a (s'.tallied change) := by
  obtain ⟨t', ht', h'⟩ := op.perform_beside (Slack.unnoticed_ofCounts hc) hop
    (State.beside_ofCounts.2 rfl) h
  rw [ht', State.beside_ofCounts.1 h']

end ObjectInference
