import ObjectInference.Proofs.Runs

/-!
What evaluation does not notice.

Counts are written and never read, and a guard of names with nothing in it starts anew
before it is asked anything. A `Slack` says how far the counts of two states and their
guards of names may be apart, and `State.Beside` that two states are apart no further and
not at all otherwise. If evaluation does not notice the slack, `Pairing.beside` is lawful:
from states with the slack between them an operation has one result, and ends in states
with the slack between them.
-/

namespace ObjectInference

/-- How far apart the counts and the guards of names of two states may be. -/
structure Slack where
  counts : Stats → Stats → Prop
  names : Guard (ScopeId × Atom) → Guard (ScopeId × Atom) → Prop

/-- Evaluation counts only what it gives up, and looks at names only after the guard had its
chance to start anew. -/
structure Slack.Unnoticed (d : Slack) : Prop where
  counts {giveUp : Stats → Stats} (h : Stats.GivesUp giveUp) {c c' : Stats} :
    d.counts c c' → d.counts (giveUp c) (giveUp c')
  same (g : Guard (ScopeId × Atom)) : d.names g g
  refresh {g g' : Guard (ScopeId × Atom)} : d.names g g' → g'.refresh = g.refresh

def State.besides (s : State) (g : Guard (ScopeId × Atom)) (c : Stats) : State :=
  { s with resolving := g, stats := c }

def State.Beside (d : Slack) (s t : State) : Prop :=
  ∃ g c, d.names s.resolving g ∧ d.counts s.stats c ∧ t = s.besides g c

variable {α β : Type} {p : Program} {d : Slack} {s t s' : State}

/-- Guards that start anew alike are the same while something is in them. -/
theorem Guard.eq_of_refresh_eq {κ : Type} {g g' : Guard κ} (h : g'.refresh = g.refresh)
    (hg : 0 < g.depth) : g' = g := by
  rw [refresh_of_active hg] at h
  rcases Nat.eq_zero_or_pos g'.depth with h₀ | h₀
  · rw [refresh_of_inactive h₀] at h
    rw [← h] at hg
    exact absurd hg (Nat.lt_irrefl 0)
  · rwa [refresh_of_active h₀] at h

theorem Guard.room_eq_of_refresh_eq {κ : Type} {g g' : Guard κ} (h : g'.refresh = g.refresh) :
    g'.room = g.room := by
  have hdepth : g'.maxDepth = g.maxDepth := by
    rw [← (settles_refresh g').maxDepth, h, (settles_refresh g).maxDepth]
  have hvisiting : g'.maxVisiting = g.maxVisiting := by
    rw [← (settles_refresh g').maxVisiting, h, (settles_refresh g).maxVisiting]
  rw [room, room, h, hdepth, hvisiting]

namespace Infer

/-- A computation that has one result with and without the slack. -/
def Carries (d : Slack) (x : Infer α) : Prop :=
  ∀ s t a s', s.Beside d t → x s = .ok a s' → ∃ t', x t = .ok a t' ∧ s'.Beside d t'

namespace Carries

theorem pure (a : α) : Carries d (Pure.pure a : Infer α) := by
  intro s t b s' h hrun
  cases hrun
  exact ⟨t, rfl, h⟩

theorem bind {x : Infer α} {f : α → Infer β} (hx : Carries d x) (hf : ∀ a, Carries d (f a)) :
    Carries d (x >>= f) := by
  intro s t b s' h hrun
  obtain ⟨a, s₁, hs₁, hrun⟩ := bind_eq_ok.1 hrun
  obtain ⟨t₁, ht₁, h₁⟩ := hx s t a s₁ h hs₁
  obtain ⟨t', ht', h'⟩ := hf a s₁ t₁ b s' h₁ hrun
  exact ⟨t', bind_eq_ok.2 ⟨a, t₁, ht₁, ht'⟩, h'⟩

theorem get_bind {f : State → Infer α}
    (hsame : ∀ (s : State) (g : Guard (ScopeId × Atom)) (c : Stats), f (s.besides g c) = f s)
    (hf : ∀ s, Carries d (f s)) : Carries d (get >>= f) := by
  rintro s t a s' ⟨g, c, hg, hc, rfl⟩ hrun
  have hcarried := hf s s (s.besides g c) a s' ⟨g, c, hg, hc, rfl⟩ hrun
  rwa [← hsame s g c] at hcarried

/-- A change that does not look at what there is slack in, and does not touch it. -/
theorem modify {f : State → State}
    (h : ∀ (s : State) (g : Guard (ScopeId × Atom)) (c : Stats),
      f (s.besides g c) = (f s).besides g c) :
    Carries d (modifyGet fun s => ((), f s) : Infer Unit) := by
  rintro s t a s' ⟨g, c, hg, hc, rfl⟩ hrun
  cases hrun
  have hself : f s = (f s).besides s.resolving s.stats := h s s.resolving s.stats
  refine ⟨_, rfl, g, c, ?_, ?_, h s g c⟩
  · rw [hself]
    exact hg
  · rw [hself]
    exact hc

end Carries

theorem carries_intern (object : Object) : Carries d (intern object) := by
  rintro s t o s' ⟨g, c, hg, hc, rfl⟩ hrun
  cases hrun
  exact ⟨_, rfl, g, c, hg, hc, rfl⟩

theorem carries_changeMemory {f : Memory → Memory}
    (h : ∀ (m : Memory) (g : Guard (ScopeId × Atom)),
      f { m with resolving := g } = { f m with resolving := g }) :
    Carries d (changeMemory f) := by
  refine .modify fun s g c => ?_
  change ({ s.besides g c with toMemory := f { s.toMemory with resolving := g } } : State) = _
  rw [h]
  rfl

theorem carries_count (hd : d.Unnoticed) {giveUp : Stats → Stats}
    (h : Stats.GivesUp giveUp) : Carries d (count giveUp) := by
  rintro s t a s' ⟨g, c, hg, hc, rfl⟩ hrun
  cases hrun
  exact ⟨_, rfl, g, giveUp c, hg, hd.counts h hc, rfl⟩

theorem carries_newInstance (c : ObjectId) (site : NodeRef) :
    Carries d (newInstance c site) := by
  refine .get_bind (fun _ _ _ => rfl) fun s => ?_
  split <;> exact carries_intern _

theorem carries_newContainer (scope : ScopeId) (c : BuiltinClass) (site : NodeRef) :
    Carries d (newContainer scope c site) := by
  refine .bind (carries_intern _) fun o => .bind (carries_changeMemory fun m g => ?_)
    fun _ => .pure _
  have hallocated : ({ m with resolving := g } : Memory).allocated scope = m.allocated scope := rfl
  rw [hallocated]
  split <;> rfl

theorem carries_currentParameters (f : ObjectId) : Carries d (currentParameters p f) := by
  have hsupply : ∀ os, Carries d (supplyReceiver p f os) := by
    intro os
    refine .get_bind (fun _ _ _ => rfl) fun s => ?_
    split
    · split
      · exact .pure _
      · exact .bind (carries_newInstance _ _) fun _ => .pure _
    · exact .pure _
  have hevidence : Carries d (evidenceParameters p f) := by
    refine .get_bind (fun _ _ _ => rfl) fun s => ?_
    split
    · exact .pure _
    · refine .get_bind (fun _ _ _ => rfl) fun s => ?_
      exact .bind (hsupply _) fun _ => .bind (carries_changeMemory fun _ _ => rfl) fun _ => .pure _
  refine .get_bind (fun _ _ _ => rfl) fun s => ?_
  split
  · exact .pure _
  · exact hevidence

theorem carries_enterName (hd : d.Unnoticed) (key : ScopeId × Atom) :
    Carries d (enterName key) := by
  rintro s t e s' ⟨g, c, hg, hc, rfl⟩ hrun
  rw [enterName_run] at hrun
  cases hrun
  have hrefresh : (s.besides g c).resolving.refresh = s.resolving.refresh := hd.refresh hg
  rw [enterName_run, hrefresh]
  exact ⟨_, rfl, _, c, hd.same _, hc, rfl⟩

/-- While a name is being resolved there is no slack in the guard of names. -/
theorem leaveName_beside (hd : d.Unnoticed) {key : ScopeId × Atom} {a : Unit}
    (hdepth : 0 < s.resolving.depth) (h : s.Beside d t) (hrun : leaveName key s = .ok a s') :
    ∃ t', leaveName key t = .ok a t' ∧ s'.Beside d t' := by
  obtain ⟨g, c, hg, hc, rfl⟩ := h
  obtain rfl := Guard.eq_of_refresh_eq (hd.refresh hg) hdepth
  unfold leaveName at hrun
  rw [get_bind_run] at hrun
  cases hleave : s.resolving.leave key <;> rw [hleave] at hrun <;> cases hrun
  refine ⟨_, ?_, _, c, hd.same _, hc, rfl⟩
  unfold leaveName
  rw [get_bind_run, show (s.besides s.resolving c).resolving = s.resolving from rfl, hleave]
  rfl

theorem carries_enterFunction (f : ObjectId) : Carries d (enterFunction f) := by
  rintro s t e s' ⟨g, c, hg, hc, rfl⟩ hrun
  cases hrun
  exact ⟨_, rfl, g, c, hg, hc, rfl⟩

theorem carries_leaveFunction (f : ObjectId) : Carries d (leaveFunction f) := by
  rintro s t a s' ⟨g, c, hg, hc, rfl⟩ hrun
  unfold leaveFunction at hrun
  rw [get_bind_run] at hrun
  cases hleave : s.inFlight.leave f <;> rw [hleave] at hrun <;> cases hrun
  refine ⟨_, ?_, g, c, hg, hc, rfl⟩
  unfold leaveFunction
  rw [get_bind_run, show (s.besides g c).inFlight = s.inFlight from rfl, hleave]
  rfl

theorem carries_openCall (f : ObjectId) (scope : ScopeId) (parameters : Option (List ObjectId)) :
    Carries d (openCall p f scope parameters) := by
  cases parameters with
  | none => exact .pure ()
  | some ps =>
      refine .bind (carries_changeMemory fun m g => ?_) fun _ => .modify fun _ _ _ => rfl
      rw [Memory.forgetTree_eq, Memory.forgetTree_eq]
      rfl

theorem carries_closeCall (f : ObjectId) (parameters : Option (List ObjectId)) :
    Carries d (closeCall f parameters) := by
  cases parameters with
  | none => exact carries_leaveFunction f
  | some ps => exact .bind (.modify fun _ _ _ => rfl) fun _ => carries_leaveFunction f

end Infer

namespace Pairing

/-- A run beside the same run from a state with some slack, in the world of the state that
its innermost bracket was opened in. -/
def beside (d : Slack) : Pairing where
  World := State
  rel w s t := s.Beside d t ∧ w.Settles s
  same _ _ a b := a = b
  signal w f g := f = g ∧ f ∈ w.inFlight.visiting
  inside w w' := w'.room < w.room
  may _ _ := True

namespace beside

variable {E : Exits} {w w' : State}

theorem diagonal : (beside d).Diagonal := ⟨Iff.rfl⟩

theorem objects_eq (h : s.Beside d t) : t.objects = s.objects := by
  obtain ⟨_, _, _, _, rfl⟩ := h
  rfl

theorem evidence_eq (h : s.Beside d t) : t.evidence = s.evidence := by
  obtain ⟨_, _, _, _, rfl⟩ := h
  rfl

theorem room_eq (hd : d.Unnoticed) (h : s.Beside d t) : t.room = s.room := by
  obtain ⟨g, c, hg, _, rfl⟩ := h
  rw [State.room, State.room, show (s.besides g c).inFlight = s.inFlight from rfl,
    show (s.besides g c).resolving = g from rfl, Guard.room_eq_of_refresh_eq (hd.refresh hg)]

/-- Whatever settles reaches states with the same slack between them. -/
theorem reaches {t' : State} (hw : w.Settles s') (hkeeps : s.objects.Keeps s'.objects)
    (h : s'.Beside d t') : (beside d).Reaches w s t s' t' :=
  ⟨⟨h, hw⟩, id, hkeeps, id⟩

/-- What always has a result, and settles, has the same result with the slack. -/
theorem pairs_of_settling (h : (beside d).rel w s t) {x : Infer α} (hx : Infer.Settling x)
    (hcarries : Infer.Carries d x) {Q : State → State → α → α → Prop} (hQ : ∀ s t a, Q s t a a) :
    (beside d).Pairs E w s t Q x x := by
  obtain ⟨h, hw⟩ := h
  obtain ⟨a, s', hs', hsettles⟩ := hx s
  obtain ⟨t', ht', h'⟩ := hcarries s t a s' h hs'
  unfold Pairs
  rw [hs', ht']
  exact .ok (reaches (hw.trans hsettles) hsettles.objects.keeps h') (hQ s' t' a)

/-- A name that was marked is left with the same slack. -/
theorem closesName (hd : d.Unnoticed) (hw : w.Settles s) {key : ScopeId × Atom}
    {g : Guard (ScopeId × Atom)} (hg : s.resolving.refresh.enter key = (.entered, g))
    {s'' t'' : State} (h : (beside d).rel { s with resolving := g } s'' t'') :
    (beside d).Ends .none w s'' t'' (Infer.leaveName key) (Infer.leaveName key) := by
  obtain ⟨h, hsettles⟩ := h
  have hdepth : 0 < s''.resolving.depth := by
    obtain ⟨rfl, _⟩ := Guard.enter_eq_entered hg
    rw [hsettles.resolving.depth]
    exact Nat.succ_pos _
  obtain ⟨g₃, _, hs₃, hsettles⟩ := Infer.leaveName_of_settles hg hsettles
  obtain ⟨t₃, ht₃, h₃⟩ := Infer.leaveName_beside hd hdepth h hs₃
  unfold Ends Pairs
  rw [hs₃, ht₃]
  exact .ok (reaches (hw.trans hsettles) (.refl _) h₃) trivial

/-- A call that was opened is closed with the same slack. -/
theorem closesCall (hw : w.Settles s) {f : ObjectId} {g : Guard ObjectId}
    (hg : s.inFlight.refresh.enter f = (.entered, g)) {scope : ScopeId}
    {parameters : Option (List ObjectId)} {s'' t'' : State}
    (h : (beside d).rel (Infer.opened p f scope parameters { s with inFlight := g }) s'' t'') :
    (beside d).Ends .none w s'' t'' (Infer.closeCall f parameters)
      (Infer.closeCall f parameters) := by
  obtain ⟨h, hsettles⟩ := h
  obtain ⟨g₃, _, hs₃, hsettles⟩ := Infer.closeCall_of_settles hg hsettles
  obtain ⟨t₃, ht₃, h₃⟩ := Infer.carries_closeCall f parameters _ _ _ _ h hs₃
  unfold Ends Pairs
  rw [hs₃, ht₃]
  refine .ok (reaches (hw.trans hsettles) ?_ h₃) trivial
  rw [Infer.objects_closed]
  exact .refl _

theorem lawful (hd : d.Unnoticed) : (beside d).Lawful p where
  unknown _ := rfl
  isKnown_eq {_ _ _} _ {a b} hab := by rw [show a = b from hab]
  get {_ _ _} h {a b} hab := by
    obtain rfl : a = b := hab
    rw [objects_eq h.1]
    exact Object.Alike.of_eq _
  lookup {_ _ _} h {a b} hab name := by
    obtain rfl : a = b := hab
    rw [objects_eq h.1]
    exact diagonal.sameOption_iff.2 rfl
  evidence {_ _ _} h {a b} hab slot := by
    obtain rfl : a = b := hab
    rw [evidence_eq h.1]
    exact diagonal.sameOption_iff.2 rfl
  defined {_ _ _} _ {_ _} _ {_} _ := rfl
  global {_ _ _} _ {_} _ {_} _ := rfl
  count {_ _ _} h {giveUp} hgiveUp :=
    pairs_of_settling h (Infer.settling_count giveUp) (Infer.carries_count hd hgiveUp)
      fun _ _ _ => trivial
  builtinInstance {_ _ _} h {c} _ :=
    pairs_of_settling h (Infer.settling_builtinInstance c) (Infer.carries_intern _)
      fun _ _ _ => rfl
  newInstance {_ _ _} h {c c'} ho _ _ site := by
    obtain rfl : c = c' := ho
    exact pairs_of_settling h (Infer.settling_newInstance c site)
      (Infer.carries_newInstance c site) fun _ _ _ => rfl
  newContainer {_ _ _} h {scope site} _ _ {c} _ :=
    pairs_of_settling h (Infer.settling_newContainer scope c site)
      (Infer.carries_newContainer scope c site) fun _ _ _ => rfl
  generatorOf {_ _ _} h {e e'} he _ := by
    obtain rfl : e = e' := he
    exact pairs_of_settling h (Infer.settling_generatorOf e) (Infer.carries_intern _)
      fun _ _ _ => rfl
  observe {_ _ _} h {c c' o o'} hc ho {slot} _ := by
    obtain rfl : c = c' := hc
    obtain rfl : o = o' := ho
    exact pairs_of_settling h (Infer.settling_observe c slot o)
      (Infer.carries_changeMemory fun _ _ => rfl) fun _ _ _ => trivial
  currentParameters {_ _ _} h {_ _} _ {e} _ :=
    pairs_of_settling h (Infer.settling_currentParameters p e.owner)
      (Infer.carries_currentParameters e.owner) fun _ _ _ => diagonal.sameList_iff.2 rfl
  enterName {w s t} h key _ := by
    obtain ⟨h, hw⟩ := h
    rcases Infer.enterName_cases key s with ⟨e, s', he, hs', hsettles⟩ | ⟨g, hg, hs'⟩
    · obtain ⟨t', ht', h'⟩ := Infer.carries_enterName hd key s t e s' h hs'
      exact .inl ⟨e, s', t', he, hs', ht',
        reaches (hw.trans hsettles) hsettles.objects.keeps h'⟩
    · obtain ⟨t', ht', h'⟩ := Infer.carries_enterName hd key s t _ _ h hs'
      refine .inr ⟨{ s with resolving := g }, _, t', hs', ht',
        ⟨?_, reaches (.refl _) (.refl _) h', closesName hd hw hg⟩,
        fun _ _ hff => ⟨hff.1, hw.inFlight.subset hff.2⟩⟩
      change State.room _ < w.room
      rw [← hw.room_eq, State.room, State.room]
      exact Nat.add_lt_add_left (Guard.room_lt_of_enter hg) _
  enterFunction {w s t} h {f f'} hf {scope} _ {parameters parameters'} hp := by
    obtain ⟨h, hw⟩ := h
    obtain rfl : f = f' := hf
    obtain rfl : parameters = parameters' := by
      cases hp with
      | none => rfl
      | some hos => rw [diagonal.sameList_iff.1 hos.1]
    rcases Infer.enterFunction_cases f s with ⟨e, s', he, hs', hsettles, hcycle⟩ | ⟨g, hg, hs'⟩
    · obtain ⟨t', ht', h'⟩ := Infer.carries_enterFunction f s t e s' h hs'
      exact .inl ⟨e, s', t', he, hs', ht', reaches (hw.trans hsettles) hsettles.objects.keeps h',
        fun hc => ⟨rfl, hw.inFlight.subset (hcycle hc)⟩⟩
    · obtain ⟨t₁, ht₁, h₁⟩ := Infer.carries_enterFunction f s t _ _ h hs'
      obtain ⟨t', ht', h'⟩ := Infer.carries_openCall (p := p) f scope parameters _ _ _ _ h₁
        (Infer.openCall_eq _)
      refine .inr (.inl ⟨Infer.opened p f scope parameters { s with inFlight := g }, _, t₁, _, t',
        hs', ht₁, Infer.openCall_eq _, ht', ?_, reaches (.refl _) ?_ h', closesCall hw hg⟩)
      · change State.room _ < w.room
        rw [← hw.room_eq, State.room, State.room, Infer.inFlight_opened, Infer.resolving_opened]
        exact Nat.add_lt_add_right (Guard.room_lt_of_enter hg) _
      · rw [Infer.objects_opened]
        exact .refl _

theorem pairsOn_evaluate (hd : d.Unnoticed) (expr : NodeRef) :
    (beside d).PairsOn (fun _ => ¬ p.tree.Descending) p.evaluate p.evaluate expr := by
  refine (lawful hd).pairsOn_evaluateBy State.room id (fun {w s t} h => ⟨h.2.room_eq, ?_⟩)
    (fun _ _ => rfl) (fun _ _ _ _ h scope => h scope trivial) expr
  unfold Program.budget
  rw [show _ + _ = _ + _ from room_eq hd h.1]

end beside

end Pairing

/-- An operation other than an analysis has the same result with slack, and leaves it. -/
theorem Operation.perform_beside (hd : d.Unnoticed) (op : Operation α) (hop : ¬ op.IsAnalysis)
    (h : s.Beside d t) {a : α} (hrun : op.perform p s = .ok a s') :
    ∃ t', op.perform p t = .ok a t' ∧ s'.Beside d t' := by
  have L : (Pairing.beside d).Lawful p := Pairing.beside.lawful hd
  have H : ∀ e, (Pairing.beside d).PairsOn (fun _ => ¬ p.tree.Descending) p.evaluate p.evaluate e :=
    Pairing.beside.pairsOn_evaluate hd
  have hpairs := L.operation_eq Pairing.beside.diagonal H (fun _ => id)
    (show (Pairing.beside d).rel s s t from ⟨h, .refl s⟩) op fun h => absurd h hop
  unfold Pairing.Pairs at hpairs
  change Pairing.Outcome _ _ _ _ _ _ (op.perform p s) (op.perform p t) at hpairs
  rw [hrun] at hpairs
  generalize op.perform p t = r at hpairs ⊢
  cases hpairs with
  | @ok _ b _ t' hr hab =>
      obtain rfl : a = b := hab
      exact ⟨t', rfl, hr.rel.1⟩
  | strayed _ _ hs => exact hs.elim

end ObjectInference
