import ObjectInference.Proofs.Bracketing
import ObjectInference.Proofs.Pairing.Analysis

/-!
Counting side by side.

A pairing says nothing of counters and of the lengths of the log. Evaluation touches
them in one way only, it counts what it gives up, and an analysis counts besides and
enters calls. Two paired runs do these things at the same points. So if two states have
counted alike, they still have after a paired run: `Pairing.counting` adds this to a
pairing, and stays lawful.
-/

namespace ObjectInference

/-- The counters of two states are the same, and so are the numbers of recorded calls
for every function with a number below a bound. -/
structure State.CountsAlike (n : Nat) (s t : State) : Prop where
  stats : s.stats = t.stats
  calls {f : ObjectId} (hf : f < n) : (s.calls.calls f).length = (t.calls.calls f).length

namespace Infer

/-- A computation that neither counts nor enters calls in the log. -/
def Uncounted {α : Type} (x : Infer α) : Prop :=
  ∀ s a s', x s = .ok a s' → s'.stats = s.stats ∧ s'.calls = s.calls

variable {α β : Type} {p : Program}

namespace Uncounted

theorem pure (a : α) : Uncounted (Pure.pure a : Infer α) := by
  rintro s _ _ ⟨⟩
  exact ⟨rfl, rfl⟩

theorem bind {x : Infer α} {f : α → Infer β} (hx : Uncounted x) (hf : ∀ a, Uncounted (f a)) :
    Uncounted (x >>= f) := by
  intro s b s' h
  obtain ⟨a, s₁, hs₁, h⟩ := bind_eq_ok.1 h
  obtain ⟨hstats, hcalls⟩ := hx s a s₁ hs₁
  obtain ⟨hstats', hcalls'⟩ := hf a s₁ b s' h
  exact ⟨hstats'.trans hstats, hcalls'.trans hcalls⟩

theorem get_bind {f : State → Infer α} (hf : ∀ s, Uncounted (f s)) : Uncounted (get >>= f) :=
  fun s => hf s s

theorem modify {f : State → State}
    (h : ∀ s : State, (f s).stats = s.stats ∧ (f s).calls = s.calls) :
    Uncounted (modifyGet fun s => ((), f s) : Infer Unit) := by
  rintro s _ _ ⟨⟩
  exact h s

end Uncounted

theorem uncounted_intern (object : Object) : Uncounted (intern object) := by
  rintro s _ _ ⟨⟩
  exact ⟨rfl, rfl⟩

theorem uncounted_changeMemory (change : Memory → Memory) : Uncounted (changeMemory change) :=
  .modify fun _ => ⟨rfl, rfl⟩

theorem uncounted_newInstance (c : ObjectId) (site : NodeRef) :
    Uncounted (newInstance c site) := by
  apply Uncounted.get_bind
  intro s
  split <;> exact uncounted_intern _

theorem uncounted_newContainer (scope : ScopeId) (c : BuiltinClass) (site : NodeRef) :
    Uncounted (newContainer scope c site) :=
  .bind (uncounted_intern _) fun _ => .bind (uncounted_changeMemory _) fun _ => .pure _

theorem uncounted_supplyReceiver (f : ObjectId) (os : List ObjectId) :
    Uncounted (supplyReceiver p f os) := by
  apply Uncounted.get_bind
  intro s
  split
  · split
    · exact .pure _
    · exact .bind (uncounted_newInstance _ _) fun _ => .pure _
  · exact .pure _

theorem uncounted_evidenceParameters (f : ObjectId) : Uncounted (evidenceParameters p f) := by
  apply Uncounted.get_bind
  intro s
  split
  · exact .pure _
  · apply Uncounted.get_bind
    intro s
    exact .bind (uncounted_supplyReceiver f _) fun _ =>
      .bind (uncounted_changeMemory _) fun _ => .pure _

theorem uncounted_currentParameters (f : ObjectId) : Uncounted (currentParameters p f) := by
  apply Uncounted.get_bind
  intro s
  split
  · exact .pure _
  · exact uncounted_evidenceParameters f

theorem uncounted_enterName (key : ScopeId × Atom) : Uncounted (enterName key) := by
  rintro s _ _ ⟨⟩
  exact ⟨rfl, rfl⟩

theorem uncounted_leaveName (key : ScopeId × Atom) : Uncounted (leaveName key) := by
  intro s _ s' h
  obtain ⟨g, rfl⟩ := leaveName_eq_ok h
  exact ⟨rfl, rfl⟩

theorem uncounted_enterFunction (f : ObjectId) : Uncounted (enterFunction f) := by
  rintro s _ _ ⟨⟩
  exact ⟨rfl, rfl⟩

theorem uncounted_leaveFunction (f : ObjectId) : Uncounted (leaveFunction f) := by
  intro s _ s' h
  obtain ⟨g, rfl⟩ := leaveFunction_eq_ok h
  exact ⟨rfl, rfl⟩

theorem uncounted_openCall (f : ObjectId) (scope : ScopeId) (parameters : Option (List ObjectId)) :
    Uncounted (openCall p f scope parameters) := by
  cases parameters with
  | none => exact .pure ()
  | some parameters => exact .bind (uncounted_changeMemory _) fun _ => .modify fun _ => ⟨rfl, rfl⟩

theorem uncounted_closeCall (f : ObjectId) (parameters : Option (List ObjectId)) :
    Uncounted (closeCall f parameters) := by
  cases parameters with
  | none => exact uncounted_leaveFunction f
  | some parameters =>
      exact .bind (.modify fun _ => ⟨rfl, rfl⟩) fun _ => uncounted_leaveFunction f

end Infer

namespace State.CountsAlike

variable {n : Nat} {s t s' t' : State}

theorem uncounted (h : s.CountsAlike n t) {α β : Type} {x : Infer α} {y : Infer β}
    (hx : Infer.Uncounted x) (hy : Infer.Uncounted y) {a : α} {b : β} (hs : x s = .ok a s')
    (ht : y t = .ok b t') : s'.CountsAlike n t' := by
  obtain ⟨hstats, hcalls⟩ := hx s a s' hs
  obtain ⟨hstats', hcalls'⟩ := hy t b t' ht
  constructor
  · rw [hstats, hstats', h.stats]
  · intro f hf
    rw [hcalls, hcalls', h.calls hf]

theorem count (h : s.CountsAlike n t) (change : Stats → Stats) {a b : Unit}
    (hs : Infer.count change s = .ok a s') (ht : Infer.count change t = .ok b t') :
    s'.CountsAlike n t' := by
  cases hs
  cases ht
  exact ⟨congrArg change h.stats, h.calls⟩

theorem recordCall (h : s.CountsAlike n t) {f f' : ObjectId} (hf : ∀ g < n, f = g ↔ f' = g)
    {os os' : List ObjectId} {a b : Unit} (hs : Infer.recordCall f os s = .ok a s')
    (ht : Infer.recordCall f' os' t = .ok b t') : s'.CountsAlike n t' := by
  cases hs
  cases ht
  constructor
  · exact congrArg (fun c : Stats => { c with recordedCalls := c.recordedCalls + 1 }) h.stats
  · intro g hg
    show ((s.calls.record f os).calls g).length = ((t.calls.record f' os').calls g).length
    by_cases hfg : f = g
    · obtain rfl : f' = g := (hf g hg).1 hfg
      subst hfg
      simp [h.calls hg]
    · have hfg' : f' ≠ g := mt (hf g hg).2 hfg
      simp [hfg, hfg', h.calls hg]

end State.CountsAlike

namespace Pairing

def counting (R : Pairing) (n : Nat) : Pairing :=
  { R with rel := fun w s t => R.rel w s t ∧ s.CountsAlike n t }

/-- The first run never takes a way of its own, and a function with a number below a
bound stands for itself alone. -/
structure ExactBelow (R : Pairing) (n : Nat) : Prop where
  straight (s : State) : ¬ R.astray s
  same {w : R.World} {s t : State} (h : R.rel w s t) {f f' : ObjectId} (hf : R.same s t f f')
    (g : ObjectId) (hg : g < n) : f = g ↔ f' = g

variable {R : Pairing} {p : Program} {n : Nat} {w w' : R.World} {s t s' t' : State}
  {α β : Type}

theorem Reaches.counting (h : R.Reaches w s t s' t') (hc : s'.CountsAlike n t') :
    (R.counting n).Reaches w s t s' t' :=
  ⟨⟨h.rel, hc⟩, h.same, h.keeps, h.astray⟩

/-- Computations that have a result in any case, and leave the counts alike. -/
theorem Pairs.counting {Q : State → State → α → β → Prop} {x : Infer α} {y : Infer β}
    (hR : R.ExactBelow n) (h : R.Pairs .none w s t Q x y)
    (hxy : ∀ a b s' t', x s = .ok a s' → y t = .ok b t' → s'.CountsAlike n t') :
    (R.counting n).Pairs .none w s t Q x y := by
  unfold Pairs at h ⊢
  generalize hr : x s = r, hr' : y t = r' at h ⊢
  cases h with
  | ok h hab => exact .ok (h.counting (hxy _ _ _ _ hr hr')) hab
  | reentrant _ hfg => exact hfg.elim
  | exhausted he => exact he.elim
  | strayed _ _ hs => exact absurd hs (hR.straight _)
  | strayedReentrant _ _ hs => exact absurd hs (hR.straight _)

theorem Pairs.uncounted {Q : State → State → α → β → Prop} {x : Infer α} {y : Infer β}
    (hR : R.ExactBelow n) (h : R.Pairs .none w s t Q x y) (hc : s.CountsAlike n t)
    (hx : Infer.Uncounted x) (hy : Infer.Uncounted y) :
    (R.counting n).Pairs .none w s t Q x y :=
  h.counting hR fun _ _ _ _ => hc.uncounted hx hy

theorem Opens.counting {close close' : Infer Unit} (hR : R.ExactBelow n)
    (h : R.Opens w w' s t s' t' close close') (hc : s'.CountsAlike n t')
    (hx : Infer.Uncounted close) (hy : Infer.Uncounted close') :
    (R.counting n).Opens w w' s t s' t' close close' :=
  ⟨h.inside, h.reaches.counting hc, fun h' => (h.closes h'.1).uncounted hR h'.2 hx hy⟩

theorem Lawful.counting (L : R.Lawful p) (hR : R.ExactBelow n) : (R.counting n).Lawful p where
  unknown {_ _ _} h := L.unknown h.1
  isKnown_eq {_ _ _} h {_ _} hab := L.isKnown_eq h.1 hab
  get {_ _ _} h {_ _} hab := L.get h.1 hab
  lookup {_ _ _} h {_ _} hab name := L.lookup h.1 hab name
  evidence {_ _ _} h {_ _} hab slot := L.evidence h.1 hab slot
  defined {_ _ _} h {_ _} hread {_} ho := L.defined h.1 hread ho
  global {_ _ _} h {_} hread {_} ho := L.global h.1 hread ho
  count {_ _ _} h {change} hchange :=
    (L.count h.1 hchange).counting hR fun _ _ _ _ => h.2.count change
  builtinInstance {_ _ _} h {_} hc :=
    (L.builtinInstance h.1 hc).uncounted hR h.2 (Infer.uncounted_intern _)
      (Infer.uncounted_intern _)
  newInstance {_ _ _} h {_ _} hc hk hb site :=
    (L.newInstance h.1 hc hk hb site).uncounted hR h.2 (Infer.uncounted_newInstance _ _)
      (Infer.uncounted_newInstance _ _)
  newContainer {_ _ _} h {_ _} hmay hsite {_} hc :=
    (L.newContainer h.1 hmay hsite hc).uncounted hR h.2 (Infer.uncounted_newContainer _ _ _)
      (Infer.uncounted_newContainer _ _ _)
  generatorOf {_ _ _} h {_ _} he hk :=
    (L.generatorOf h.1 he hk).uncounted hR h.2 (Infer.uncounted_intern _)
      (Infer.uncounted_intern _)
  observe {_ _ _} h {_ _ _ _} hc ho {_} hslot :=
    (L.observe h.1 hc ho hslot).uncounted hR h.2 (Infer.uncounted_changeMemory _)
      (Infer.uncounted_changeMemory _)
  currentParameters {_ _ _} h {_ _} hread {_} hd :=
    (L.currentParameters h.1 hread hd).uncounted hR h.2 (Infer.uncounted_currentParameters _)
      (Infer.uncounted_currentParameters _)
  enterName {_ s t} h key hmay := by
    have hkeep := Infer.uncounted_enterName key
    have hleave := Infer.uncounted_leaveName key
    rcases L.enterName h.1 key hmay with
      ⟨e, s', t', he, hs', ht', hr⟩ | ⟨w', s', t', hs', ht', o, hsig⟩
    · exact .inl ⟨e, s', t', he, hs', ht', hr.counting (h.2.uncounted hkeep hkeep hs' ht')⟩
    · exact .inr ⟨w', s', t', hs', ht',
        o.counting hR (h.2.uncounted hkeep hkeep hs' ht') hleave hleave, hsig⟩
  enterFunction {_ s t} h {f f'} hf {scope} hscope {parameters parameters'} hp := by
    have hkeep := Infer.uncounted_enterFunction
    rcases L.enterFunction h.1 hf hscope hp with
      ⟨e, s', t', he, hs', ht', hr, hcycle⟩ | ⟨w', s₁, t₁, s', t', hs₁, ht₁, hs', ht', o⟩ |
        ⟨_, _, _, _, _, _, _, hastray⟩
    · exact .inl ⟨e, s', t', he, hs', ht',
        hr.counting (h.2.uncounted (hkeep f) (hkeep f') hs' ht'), hcycle⟩
    · have h₁ := h.2.uncounted (hkeep f) (hkeep f') hs₁ ht₁
      have h' := h₁.uncounted (Infer.uncounted_openCall f scope parameters)
        (Infer.uncounted_openCall f' scope parameters') hs' ht'
      exact .inr (.inl ⟨w', s₁, t₁, s', t', hs₁, ht₁, hs', ht',
        o.counting hR h' (Infer.uncounted_closeCall f parameters)
          (Infer.uncounted_closeCall f' parameters')⟩)
    · exact absurd hastray (hR.straight _)

theorem Records.counting (hlog : R.Records p) (hR : R.ExactBelow n) :
    (R.counting n).Records p where
  record {_ _ _} h {_ _} hf {_ _} hos hlength :=
    (hlog.record h.1 hf hos hlength).counting hR fun _ _ _ _ =>
      h.2.recordCall (hR.same h.1 hf)
  count {_ _ _} h {change} hchange :=
    (hlog.count h.1 hchange).counting hR fun _ _ _ _ => h.2.count change

end Pairing

end ObjectInference
