import ObjectInference.Program.Bind
import ObjectInference.Proofs.Runs

/-!
The limits of the guard of functions in flight.

Two engines that differ in these limits only go the same way until one of them
meets a limit that the other does not. `Guard.Roomier` compares their guards: the
same functions are in flight, after the same number of attempts, and the limits
of the second guard are at least as large. `Pairing.roomier` runs both side by
side. The first run goes astray where it bails out at a limit, and shows this from
then on by the count of such bail-outs. So as long as that count stands still,
larger limits change nothing.
-/

namespace ObjectInference

namespace Guard

variable {κ : Type} [DecidableEq κ] {g g' g₁ : Guard κ} {k : κ}

/-- A guard in the same position as another, with limits at least as large. -/
structure Roomier (g g' : Guard κ) : Prop where
  maxDepth : g.maxDepth ≤ g'.maxDepth
  maxIterations : g.maxIterations ≤ g'.maxIterations
  maxVisiting : g'.maxVisiting = g.maxVisiting
  depth : g'.depth = g.depth
  /-- What an idle guard remembers does not count. -/
  active : 0 < g.depth → g'.visiting = g.visiting ∧ g'.iterations = g.iterations

namespace Roomier

omit [DecidableEq κ] in
theorem refl (g : Guard κ) : g.Roomier g :=
  ⟨Nat.le_refl _, Nat.le_refl _, rfl, rfl, fun _ => ⟨rfl, rfl⟩⟩

omit [DecidableEq κ] in
theorem refresh (h : g.Roomier g') : g.refresh.Roomier g'.refresh ∧
    g'.refresh.visiting = g.refresh.visiting ∧ g'.refresh.iterations = g.refresh.iterations := by
  rcases Nat.eq_zero_or_pos g.depth with h₀ | h₀
  · rw [refresh_of_inactive h₀, refresh_of_inactive (h.depth.trans h₀)]
    exact ⟨⟨h.maxDepth, h.maxIterations, h.maxVisiting, rfl, fun _ => ⟨rfl, rfl⟩⟩, rfl, rfl⟩
  · rw [refresh_of_active h₀, refresh_of_active (h.depth ▸ h₀)]
    exact ⟨h, h.active h₀⟩

omit [DecidableEq κ] in
theorem room_le (h : g.Roomier g') : g.room ≤ g'.room := by
  unfold room
  rw [depth_refresh, depth_refresh, h.refresh.2.1, h.maxVisiting, h.depth]
  have := h.maxDepth
  omega

/-- An attempt that meets no limit of the smaller guard goes the same way in the roomier
one. -/
theorem enter (h : g.Roomier g') {e : Entry} (he : g.refresh.enter k = (e, g₁))
    (hlimit : e.isExceeded = false) :
    ∃ g₁', g'.refresh.enter k = (e, g₁') ∧ g₁.Roomier g₁' := by
  obtain ⟨hr, hvisiting, hiterations⟩ := h.refresh
  generalize g.refresh = a, g'.refresh = b at he hr hvisiting hiterations
  have htried : b.tried.iterations = a.tried.iterations := by simp only [tried, hiterations]
  have hafter : a.tried.Roomier b.tried :=
    ⟨hr.maxDepth, hr.maxIterations, hr.maxVisiting, hr.depth, fun _ => ⟨hvisiting, htried⟩⟩
  unfold Guard.enter at he ⊢
  simp only at he ⊢
  split at he
  · cases he
    cases hlimit
  split at he
  · cases he
    cases hlimit
  rename_i hi hd
  rw [if_neg (show ¬ b.tried.maxIterations < b.tried.iterations by
      have := hafter.maxIterations
      omega),
    if_neg (show ¬ b.tried.maxDepth ≤ b.tried.depth by
      have := hafter.maxDepth
      have := hafter.depth
      omega)]
  have hsame : b.tried.isVisiting k = a.tried.isVisiting k := by
    unfold isVisiting
    rw [visiting_tried, visiting_tried, hvisiting]
  rw [hsame]
  split at he
  · rename_i hk
    cases he
    rw [if_pos hk]
    exact ⟨_, rfl, hafter⟩
  · rename_i hk
    rw [if_neg hk]
    split at he
    · cases he
      cases hlimit
    · rename_i hroom
      cases he
      rw [if_neg (show ¬ b.tried.maxVisiting ≤ b.tried.visiting.length by
        simpa only [visiting_tried, hvisiting, maxVisiting_tried, hr.maxVisiting] using hroom)]
      refine ⟨_, rfl, hr.maxDepth, hr.maxIterations, hr.maxVisiting, ?_, fun _ => ⟨?_, htried⟩⟩
      · exact congrArg (· + 1) hr.depth
      · exact congrArg (k :: ·) hvisiting

theorem leave (h : g.Roomier g') (hactive : 0 < g.depth) (hl : g.leave k = .ok g₁) :
    ∃ g₁', g'.leave k = .ok g₁' ∧ g₁.Roomier g₁' := by
  obtain ⟨hvisiting, hiterations⟩ := h.active hactive
  unfold Guard.leave at hl ⊢
  unfold isVisiting at hl ⊢
  rw [hvisiting]
  split at hl
  · rename_i hk
    cases hl
    rw [if_pos hk]
    exact ⟨_, rfl, h.maxDepth, h.maxIterations, h.maxVisiting, congrArg (· - 1) h.depth,
      fun _ => ⟨rfl, hiterations⟩⟩
  · cases hl

end Roomier

end Guard

namespace Infer

variable {α β : Type}

/-! ### Computations that do not look at the guard -/

/-- A computation that goes the same way whatever is in flight, and takes back no
bail-out. -/
def Blind (x : Infer α) : Prop :=
  ∀ s a s', x s = .ok a s' → s.stats.limitBailouts ≤ s'.stats.limitBailouts ∧
    ∀ g, x { s with inFlight := g } = .ok a { s' with inFlight := g }

namespace Blind

theorem pure (a : α) : Blind (Pure.pure a : Infer α) := by
  intro s b s' h
  cases h
  exact ⟨Nat.le_refl _, fun _ => rfl⟩

theorem bind {x : Infer α} {f : α → Infer β} (hx : Blind x) (hf : ∀ a, Blind (f a)) :
    Blind (x >>= f) := by
  intro s b s' h
  obtain ⟨a, s₁, hs₁, h⟩ := bind_eq_ok.1 h
  obtain ⟨hle, hg⟩ := hx s a s₁ hs₁
  obtain ⟨hle', hg'⟩ := hf a s₁ b s' h
  exact ⟨Nat.le_trans hle hle', fun g => (bind_of_ok (hg g)).trans (hg' g)⟩

theorem get_bind {f : State → Infer α} (hf : ∀ s, Blind (f s))
    (hsame : ∀ (s : State) (g : Guard ObjectId), f { s with inFlight := g } = f s) :
    Blind (get >>= f) := by
  intro s b s' h
  obtain ⟨hle, hg⟩ := hf s s b s' h
  refine ⟨hle, fun g => ?_⟩
  change f { s with inFlight := g } { s with inFlight := g } = _
  rw [hsame s g]
  exact hg g

theorem modify {f : State → State}
    (hle : ∀ s : State, s.stats.limitBailouts ≤ (f s).stats.limitBailouts)
    (hsame : ∀ (s : State) (g : Guard ObjectId),
      f { s with inFlight := g } = { f s with inFlight := g }) :
    Blind (modifyGet fun s => ((), f s) : Infer Unit) := by
  intro s _ s' h
  cases h
  refine ⟨hle s, fun g => ?_⟩
  change EStateM.Result.ok () (f { s with inFlight := g }) = _
  rw [hsame s g]

/-- What is in flight is left alone. -/
theorem inFlight_eq {x : Infer α} (hx : Blind x) {s s' : State} {a : α} (h : x s = .ok a s') :
    s'.inFlight = s.inFlight := by
  have hsame : x s = .ok a { s' with inFlight := s.inFlight } := (hx s a s' h).2 s.inFlight
  rw [h] at hsame
  have hs' := (EStateM.Result.ok.inj hsame).2
  rw [hs']

end Blind

theorem blind_intern (object : Object) : Blind (intern object) := by
  intro s o s' h
  cases h
  exact ⟨Nat.le_refl _, fun _ => rfl⟩

theorem blind_changeMemory (change : Memory → Memory) : Blind (changeMemory change) :=
  .modify (fun _ => Nat.le_refl _) fun _ _ => rfl

theorem blind_newInstance (c : ObjectId) (site : NodeRef) : Blind (newInstance c site) := by
  refine .get_bind (fun s => ?_) fun _ _ => rfl
  split <;> exact blind_intern _

theorem blind_newContainer (scope : ScopeId) (c : BuiltinClass) (site : NodeRef) :
    Blind (newContainer scope c site) :=
  .bind (blind_intern _) fun _ => .bind (blind_changeMemory _) fun _ => .pure _

theorem blind_observe (container : ObjectId) (slot : Slot) (o : ObjectId) :
    Blind (observe container slot o) :=
  blind_changeMemory _

theorem blind_supplyReceiver (p : Program) (f : ObjectId) (os : List ObjectId) :
    Blind (supplyReceiver p f os) := by
  refine .get_bind (fun s => ?_) fun _ _ => rfl
  split
  · split
    · exact .pure _
    · exact .bind (blind_newInstance _ _) fun _ => .pure _
  · exact .pure _

theorem blind_currentParameters (p : Program) (f : ObjectId) : Blind (currentParameters p f) := by
  have hevidence : Blind (evidenceParameters p f) := by
    refine .get_bind (fun s => ?_) fun _ _ => rfl
    split
    · exact .pure _
    · refine .get_bind (fun s => ?_) fun _ _ => rfl
      refine .bind (blind_supplyReceiver p f _) fun _ => ?_
      exact .bind (blind_changeMemory _) fun _ => .pure _
  refine .get_bind (fun s => ?_) fun _ _ => rfl
  split
  · exact .pure _
  · exact hevidence

theorem blind_count {change : Stats → Stats}
    (hchange : ∀ c, c.limitBailouts ≤ (change c).limitBailouts) : Blind (count change) :=
  .modify (fun s => hchange s.stats) fun _ _ => rfl

theorem blind_recordCall (f : ObjectId) (os : CallRecord) : Blind (recordCall f os) :=
  .bind (.modify (fun _ => Nat.le_refl _) fun _ _ => rfl) fun _ =>
    .bind (blind_count fun _ => Nat.le_refl _) fun _ => blind_changeMemory _

theorem blind_enterName (key : ScopeId × Atom) : Blind (enterName key) := by
  intro s e s' h
  cases h
  exact ⟨Nat.le_refl _, fun _ => rfl⟩

theorem blind_leaveName (key : ScopeId × Atom) : Blind (leaveName key) := by
  intro s _ s' h
  unfold leaveName at h
  rw [get_bind_run] at h
  cases hleave : s.resolving.leave key <;> rw [hleave] at h <;> cases h
  refine ⟨Nat.le_refl _, fun g => ?_⟩
  unfold leaveName
  rw [get_bind_run, hleave]
  rfl

/-! ### Calls -/

section Calls

variable {p : Program} {f : ObjectId} {scope : ScopeId} {parameters : Option (List ObjectId)}

theorem opened_inFlight (s : State) (g g' : Guard ObjectId) :
    opened p f scope parameters { s with inFlight := g' } =
      { opened p f scope parameters { s with inFlight := g } with inFlight := g' } := by
  cases parameters <;> rfl

theorem stats_opened (s : State) : (opened p f scope parameters s).stats = s.stats := by
  cases parameters <;> rfl

theorem closed_inFlight (s : State) (g g' g'' : Guard ObjectId) :
    closed parameters g' { s with inFlight := g'' } =
      { closed parameters g s with inFlight := g' } := by
  cases parameters <;> rfl

theorem stats_closed (s : State) (g : Guard ObjectId) :
    (closed parameters g s).stats = s.stats := by
  cases parameters <;> rfl

theorem inFlight_closed (s : State) (g : Guard ObjectId) :
    (closed parameters g s).inFlight = g := by
  cases parameters <;> rfl

/-- While a call is open, something is in flight. -/
theorem depth_pos_of_opened {s s'' : State} {g : Guard ObjectId}
    (h : s.inFlight.refresh.enter f = (.entered, g))
    (h' : (opened p f scope parameters { s with inFlight := g }).Settles s'') :
    0 < s''.inFlight.depth := by
  obtain ⟨rfl, -⟩ := Guard.enter_eq_entered h
  rw [h'.inFlight.depth, inFlight_opened]
  exact Nat.succ_pos _

end Calls

end Infer

/-! ### Two engines side by side -/

/-- A run beside one with a roomier guard, in the world of the state that its innermost
bracket was opened in. The first run is astray once it has bailed out more often than at
the start. -/
def Pairing.roomier (bailouts : Nat) : Pairing where
  World := State
  rel w s t := w.Settles s ∧ bailouts ≤ s.stats.limitBailouts ∧
    ∃ g, s.inFlight.Roomier g ∧ t = { s with inFlight := g }
  same _ _ a b := a = b
  signal _ f g := f = g
  inside _ _ := True
  may _ _ := True
  astray s := bailouts < s.stats.limitBailouts

namespace Pairing.roomier

variable {p : Program} {bailouts : Nat} {E : Exits} {w s t : State} {α : Type}

theorem diagonal : (roomier bailouts).Diagonal := ⟨Iff.rfl⟩

/-- What always has a result, settles and does not look at the guard pairs with itself. -/
theorem pairs_of_blind (h : (roomier bailouts).rel w s t) {x : Infer α} (hx : Infer.Settling x)
    (hblind : Infer.Blind x) {Q : State → State → α → α → Prop} (hQ : ∀ s t a, Q s t a a) :
    (roomier bailouts).Pairs E w s t Q x x := by
  obtain ⟨hw, hb, g, hg, rfl⟩ := h
  obtain ⟨a, s', hs', hsettles⟩ := hx s
  obtain ⟨hle, hsame⟩ := hblind s a s' hs'
  unfold Pairs
  rw [hs', hsame g]
  refine .ok ⟨⟨hw.trans hsettles, Nat.le_trans hb hle, g, ?_, rfl⟩, id, hsettles.objects.keeps,
    fun hs => Nat.lt_of_lt_of_le hs hle⟩ (hQ _ _ a)
  rw [hblind.inFlight_eq hs']
  exact hg

/-! #### Brackets -/

section Brackets

variable (hws : w.Settles s) (hb : bailouts ≤ s.stats.limitBailouts) {g : Guard ObjectId}

include hws hb

/-- A name that was marked in both runs is left in both. -/
theorem opensName (hg : s.inFlight.Roomier g) {key : ScopeId × Atom}
    {names : Guard (ScopeId × Atom)} (hnames : s.resolving.refresh.enter key = (.entered, names)) :
    (roomier bailouts).Opens w { s with resolving := names } s { s with inFlight := g }
      { s with resolving := names } { s with inFlight := g, resolving := names }
      (Infer.leaveName key) (Infer.leaveName key) := by
  refine ⟨trivial, ⟨⟨.refl _, hb, g, hg, rfl⟩, id, .refl _, id⟩, fun {s'' t''} h'' => ?_⟩
  obtain ⟨hsettles, hb'', g'', hg'', rfl⟩ := h''
  obtain ⟨names₃, _, hs₃, hsettles⟩ := Infer.leaveName_of_settles hnames hsettles
  have hsame₃ := (Infer.blind_leaveName key s'' () _ hs₃).2 g''
  unfold Ends Pairs
  rw [hs₃, hsame₃]
  exact .ok ⟨⟨hws.trans hsettles, hb'', g'', hg'', rfl⟩, id, .refl _, id⟩ trivial

/-- A call that was opened in both runs is closed in both. -/
theorem opensCall {f : ObjectId} {g₁ g₁' : Guard ObjectId}
    (henter : s.inFlight.refresh.enter f = (.entered, g₁)) (hg₁ : g₁.Roomier g₁')
    (scope : ScopeId) (parameters : Option (List ObjectId)) :
    (roomier bailouts).Opens w (Infer.opened p f scope parameters { s with inFlight := g₁ }) s
      { s with inFlight := g } (Infer.opened p f scope parameters { s with inFlight := g₁ })
      (Infer.opened p f scope parameters { s with inFlight := g₁' })
      (Infer.closeCall f parameters) (Infer.closeCall f parameters) := by
  refine ⟨trivial, ⟨⟨.refl _, ?_, g₁', ?_, Infer.opened_inFlight s g₁ g₁'⟩, id, ?_, ?_⟩,
    fun {s'' _} h'' => ?_⟩
  · rw [Infer.stats_opened]
    exact hb
  · rw [Infer.inFlight_opened]
    exact hg₁
  · rw [Infer.objects_opened]
    exact .refl _
  · change bailouts < _ → bailouts < _
    rw [Infer.stats_opened]
    exact id
  · obtain ⟨hsettles, hb'', g'', hg'', rfl⟩ := h''
    obtain ⟨g₃, hleave, hs₃, hsettles₃⟩ := Infer.closeCall_of_settles henter hsettles
    obtain ⟨g₃', hleave', hg₃⟩ := hg''.leave (Infer.depth_pos_of_opened henter hsettles) hleave
    unfold Ends Pairs
    rw [hs₃, Infer.closeCall_eq hleave']
    refine .ok ⟨⟨hws.trans hsettles₃, ?_, g₃', ?_, Infer.closed_inFlight s'' g₃ g₃' g''⟩, id, ?_,
      ?_⟩ trivial
    · rw [Infer.stats_closed]
      exact hb''
    · rw [Infer.inFlight_closed]
      exact hg₃
    · rw [Infer.objects_closed]
      exact .refl _
    · change bailouts < _ → bailouts < _
      rw [Infer.stats_closed]
      exact id

end Brackets

theorem lawful : (roomier bailouts).Lawful p where
  unknown _ := rfl
  isKnown_eq {_ _ _} _ {a b} hab := by rw [show a = b from hab]
  get {_ _ _} h {a b} hab := by
    obtain ⟨_, _, _, _, rfl⟩ := h
    obtain rfl : a = b := hab
    exact Object.Alike.of_eq _
  lookup {_ _ _} h {a b} hab name := by
    obtain ⟨_, _, _, _, rfl⟩ := h
    obtain rfl : a = b := hab
    exact diagonal.sameOption_iff.2 rfl
  evidence {_ _ _} h {a b} hab slot := by
    obtain ⟨_, _, _, _, rfl⟩ := h
    obtain rfl : a = b := hab
    exact diagonal.sameOption_iff.2 rfl
  defined {_ _ _} _ {_ _} _ {_} _ := rfl
  global {_ _ _} _ {_} _ {_} _ := rfl
  count {_ _ _} h {change} hchange := by
    refine pairs_of_blind h (Infer.settling_count change) (Infer.blind_count fun c => ?_)
      fun _ _ _ => trivial
    cases hchange with
    | reentrantSite => exact Nat.le_refl _
    | limitBailout => exact Nat.le_succ _
  builtinInstance {_ _ _} h {c} _ :=
    pairs_of_blind h (Infer.settling_builtinInstance c) (Infer.blind_intern _) fun _ _ _ => rfl
  newInstance {_ _ _} h {c c'} hc _ _ site := by
    obtain rfl : c = c' := hc
    exact pairs_of_blind h (Infer.settling_newInstance c site) (Infer.blind_newInstance c site)
      fun _ _ _ => rfl
  newContainer {_ _ _} h {scope site} _ _ {_} _ :=
    pairs_of_blind h (Infer.settling_newContainer scope _ site)
      (Infer.blind_newContainer scope _ site) fun _ _ _ => rfl
  generatorOf {_ _ _} h {e e'} he _ := by
    obtain rfl : e = e' := he
    exact pairs_of_blind h (Infer.settling_generatorOf e) (Infer.blind_intern _) fun _ _ _ => rfl
  observe {_ _ _} h {c c' o o'} hc ho {slot} _ := by
    obtain rfl : c = c' := hc
    obtain rfl : o = o' := ho
    exact pairs_of_blind h (Infer.settling_observe c slot o) (Infer.blind_observe c slot o)
      fun _ _ _ => trivial
  currentParameters {_ _ _} h {_ _} _ {d} _ :=
    pairs_of_blind h (Infer.settling_currentParameters p d.owner)
      (Infer.blind_currentParameters p d.owner) fun _ _ _ => diagonal.sameList_iff.2 rfl
  enterName {w s t} h key _ := by
    obtain ⟨hws, hb, g, hg, rfl⟩ := h
    rcases Infer.enterName_cases key s with ⟨e, s', he, hs', hsettles⟩ | ⟨names, hnames, hs'⟩
    · obtain ⟨hle, hsame⟩ := Infer.blind_enterName key s e s' hs'
      refine .inl ⟨e, s', _, he, hs', hsame g,
        ⟨hws.trans hsettles, Nat.le_trans hb hle, g, ?_, rfl⟩, id, hsettles.objects.keeps,
        fun hs => Nat.lt_of_lt_of_le hs hle⟩
      rw [(Infer.blind_enterName key).inFlight_eq hs']
      exact hg
    · have hsame := (Infer.blind_enterName key s .entered _ hs').2 g
      exact .inr ⟨_, _, _, hs', hsame, opensName hws hb hg hnames, fun _ _ => id⟩
  enterFunction {w s t} h {f f'} hf {scope} _ {parameters parameters'} hp := by
    obtain ⟨hws, hb, g, hg, rfl⟩ := h
    obtain rfl : f = f' := hf
    obtain rfl : parameters = parameters' := by
      cases hp with
      | none => rfl
      | some hos => rw [diagonal.sameList_iff.1 hos.1]
    cases henter : s.inFlight.refresh.enter f with
    | mk e g₁ =>
    have hrun : Infer.enterFunction f s = .ok e { s with inFlight := g₁ } := by
      rw [Infer.enterFunction_run, henter]
    have hdenied : e ≠ .entered → State.Settles s { s with inFlight := g₁ } := fun he =>
      ⟨(Guard.settles_refresh _).trans (Guard.settles_of_enter henter he), .refl _, rfl, .refl _,
        fun _ _ => id⟩
    cases hlimit : e.isExceeded with
    | true =>
        have he : e ≠ .entered := by
          rintro rfl
          cases hlimit
        -- Any state will do as the second one, as the first run is about to bail out.
        refine .inr (.inr ⟨e, _, _, he, ?_, hrun, ⟨⟨hws.trans (hdenied he), hb, g₁, .refl _, rfl⟩,
          id, .refl _, id⟩, Nat.lt_succ_of_le hb⟩)
        rintro rfl
        cases hlimit
    | false =>
        obtain ⟨g₁', henter', hg₁⟩ := hg.enter henter hlimit
        have hrun' : Infer.enterFunction f { s with inFlight := g } =
            .ok e { s with inFlight := g₁' } := by
          rw [Infer.enterFunction_run, henter']
        by_cases he : e = .entered
        · subst he
          exact .inr (.inl ⟨_, _, _, _, _, hrun, hrun', Infer.openCall_eq _, Infer.openCall_eq _,
            opensCall hws hb henter hg₁ scope parameters⟩)
        · exact .inl ⟨e, _, _, he, hrun, hrun', ⟨⟨hws.trans (hdenied he), hb, g₁', hg₁, rfl⟩, id,
            .refl _, id⟩, fun _ => rfl⟩

theorem records : (roomier bailouts).Records p where
  record {_ _ _} h {f f'} hf {os os'} hos _ := by
    obtain rfl : f = f' := hf
    obtain rfl : os = os' := diagonal.sameList_iff.1 hos
    exact pairs_of_blind h (Infer.settling_recordCall f os) (Infer.blind_recordCall f os)
      fun _ _ _ => trivial
  count {_ _ _} h {change} hchange :=
    pairs_of_blind h (Infer.settling_count change)
      (Infer.blind_count fun c => Nat.le_of_eq (hchange c).symm) fun _ _ _ => trivial

theorem budget_le (h : (roomier bailouts).rel w s t) : p.budget s ≤ p.budget t := by
  obtain ⟨_, _, g, hg, rfl⟩ := h
  exact Nat.mul_le_mul_right _ (Nat.succ_le_succ (Nat.add_le_add_right hg.room_le _))

/-- The second evaluation has the larger budget, so the first may run out of it. -/
theorem pairsOn_evaluate (expr : NodeRef) :
    (roomier bailouts).PairsOn (fun _ => True) p.evaluate p.evaluate expr := by
  intro scope w s t h
  have hbudget : (roomier bailouts).PairsOn (fun _ => True) (Infer.evaluateWithin p (p.budget s))
      (Infer.evaluateWithin p (p.budget t)) expr :=
    lawful.pairsAnyhow (Infer.evaluateWithin p) (Infer.evaluateWithin p) (fun _ _ => rfl)
      (fun _ _ _ hstep scope => hstep scope trivial) (budget_le h) expr
  exact hbudget scope w s t h

theorem operation (h : (roomier bailouts).rel w s t) (op : Operation α) :
    (roomier bailouts).Pairs ((roomier bailouts).exits (fun _ => True) w) w s t (fun _ _ => Eq)
      (op.perform p) (op.perform p) :=
  lawful.operation_eq diagonal pairsOn_evaluate (fun _ => id) h op fun _ => records

end Pairing.roomier

/-! ### Engines under options -/

structure Options.Roomier (o o' : Options) : Prop where
  eagerBuiltinCalls : o'.eagerBuiltinCalls = o.eagerBuiltinCalls
  analyzeSubscriptAssignments : o'.analyzeSubscriptAssignments = o.analyzeSubscriptAssignments
  maxInferenceDepth : o.maxInferenceDepth ≤ o'.maxInferenceDepth
  maxInferenceIterations : o.maxInferenceIterations ≤ o'.maxInferenceIterations

def Operation.under (o : Options) {α : Type} : Operation α → Operation α
  | .analyze _ entity analyzes searches => .analyze o entity analyzes searches
  | op => op

/-- Only the limits of the options may make a difference to an operation, and those are
kept in the state. -/
theorem Operation.perform_under {o o' : Options} (h : o.Roomier o') (p : Program) {α : Type}
    (op : Operation α) : (op.under o').perform p = (op.under o).perform p := by
  obtain ⟨eager, items, depth, iterations⟩ := o
  obtain ⟨eager', items', depth', iterations'⟩ := o'
  obtain rfl : eager' = eager := h.eagerBuiltinCalls
  obtain rfl : items' = items := h.analyzeSubscriptAssignments
  cases op <;> rfl

namespace State

variable {p : Program} {o o' : Options} {s s' t : State} {α : Type}

structure IdleUnder (o : Options) (s : State) : Prop where
  maxDepth : s.inFlight.maxDepth = o.maxInferenceDepth
  maxIterations : s.inFlight.maxIterations = o.maxInferenceIterations
  maxVisiting : s.inFlight.maxVisiting = Guard.defaultRoom
  depth : s.inFlight.depth = 0
  visiting : s.inFlight.visiting = []
  contexts : s.contexts = []

/-- Two engines know the same, of the program, of its calls and of their runs. -/
structure AgreesWith (s t : State) : Prop where
  memory : t.toMemory = s.toMemory
  calls : t.calls = s.calls
  stats : t.stats = s.stats

theorem idleUnder_start (m : Memory) (calls : CallLog) (o : Options) :
    (State.start m calls o).IdleUnder o := by
  refine ⟨?_, ?_, rfl, rfl, rfl, rfl⟩
  · change o.profile.maxDepth = _
    unfold Options.profile
    split
    · rename_i h
      exact h.1.symm
    · rfl
  · change o.profile.maxIterations = _
    unfold Options.profile
    split
    · rename_i h
      exact h.2.symm
    · rfl

theorem IdleUnder.settles (hs : s.IdleUnder o) (h : s.Settles s') : s'.IdleUnder o where
  maxDepth := h.inFlight.maxDepth.trans hs.maxDepth
  maxIterations := h.inFlight.maxIterations.trans hs.maxIterations
  maxVisiting := h.inFlight.maxVisiting.trans hs.maxVisiting
  depth := h.inFlight.depth.trans hs.depth
  visiting := h.inFlight.visiting_eq_nil hs.visiting
  contexts := h.contexts.trans hs.contexts

theorem IdleUnder.perform_ok (hd : p.tree.Descending) (hs : s.IdleUnder o) (op : Operation α) :
    ∃ a s', op.perform p s = .ok a s' := by
  obtain ⟨a, s', hrun, _⟩ := op.perform_ok hd hs.visiting
  exact ⟨a, s', hrun⟩

/-- Engines that agree are at the start of a run beside a roomier one. -/
theorem AgreesWith.roomier (h : s.AgreesWith t) (ho : o.Roomier o') (hs : s.IdleUnder o)
    (ht : t.IdleUnder o') : (Pairing.roomier s.stats.limitBailouts).rel s s t := by
  refine ⟨.refl s, Nat.le_refl _, t.inFlight, ⟨?_, ?_, ?_, ?_, fun hpos => ?_⟩, ?_⟩
  · rw [hs.maxDepth, ht.maxDepth]
    exact ho.maxInferenceDepth
  · rw [hs.maxIterations, ht.maxIterations]
    exact ho.maxInferenceIterations
  · rw [hs.maxVisiting, ht.maxVisiting]
  · rw [hs.depth, ht.depth]
  · rw [hs.depth] at hpos
    exact absurd hpos (Nat.lt_irrefl 0)
  · have hc : t.contexts = s.contexts := ht.contexts.trans hs.contexts.symm
    obtain ⟨m, calls, inFlight, contexts, stats⟩ := t
    obtain rfl : m = s.toMemory := h.memory
    obtain rfl : calls = s.calls := h.calls
    obtain rfl : contexts = s.contexts := hc
    obtain rfl : stats = s.stats := h.stats
    rfl

end State

/-- Limits matter only where they are met. Take two engines with nothing in flight that
agree, the second one under options that differ in the limits alone, which are at least
as large. Every operation that has not bailed out in the first has the same result in
the second, and they agree afterwards, with nothing in flight again. In the first it has
a result, if the tree lets it end. -/
theorem limits_matter_where_met (p : Program) {o o' : Options} (ho : o.Roomier o') {s t : State}
    (hs : s.IdleUnder o) (ht : t.IdleUnder o') (hst : s.AgreesWith t) {α : Type}
    (op : Operation α) :
    (p.tree.Descending → ∃ a s', (op.under o).perform p s = .ok a s') ∧
    ∀ a s', (op.under o).perform p s = .ok a s' →
      s'.stats.limitBailouts = s.stats.limitBailouts →
      ∃ t', (op.under o').perform p t = .ok a t' ∧ s'.AgreesWith t' ∧ s'.IdleUnder o ∧
        t'.IdleUnder o' := by
  refine ⟨fun hd => hs.perform_ok hd _, fun a s' hrun hbailouts => ?_⟩
  have h := Pairing.roomier.operation (p := p) (hst.roomier ho hs ht) (op.under o)
  rw [Operation.perform_under ho]
  have hends : ∀ {u u' : State}, (op.under o).perform p u = .ok a u' → u.Settles u' := by
    intro u u' hrun
    have hend := (op.under o).ended (p := p) u
    rw [hrun] at hend
    cases hend with
    | ok h => exact h
  unfold Pairing.Pairs at h
  rw [hrun] at h
  generalize hrun' : (op.under o).perform p t = r at h
  cases h with
  | @ok _ b _ t' h hab =>
      obtain rfl : a = b := hab
      obtain ⟨_, _, g, _, rfl⟩ := h.rel
      exact ⟨_, rfl, ⟨rfl, rfl, rfl⟩, hs.settles (hends hrun), ht.settles (hends hrun')⟩
  | strayed _ _ hastray => exact absurd hbailouts (Nat.ne_of_gt hastray)

/-- A function that returns its argument, and a call of it. -/
def Tree.echoing : Tree :=
  ⟨#[.name 1, .returnStatement (some 0), .functionDef 2 [⟨1, .positional, none⟩] [] [some 1],
    .name 2, .literal (.int 1), .call (some 3) [some 4] [], .module [some 2]]⟩

/-- One function in flight at a time and one attempt are enough for the call. -/
theorem limits_matter_where_met_echoing :
    let p := Program.bind Tree.echoing ⟨#["", "a", "f"]⟩ (some 6)
    let tight : Options := { maxInferenceDepth := 1, maxInferenceIterations := 1 }
    let s := State.start (.fresh p) {} tight
    let t := State.start (.fresh p) {} {}
    let op := Operation.evaluate 0 (some 5)
    tight.Roomier {} ∧ s.IdleUnder tight ∧ t.IdleUnder {} ∧ s.AgreesWith t ∧
      p.tree.Descending ∧
      ∃ a s', (op.under tight).perform p s = .ok a s' ∧
        s'.stats.limitBailouts = s.stats.limitBailouts ∧ (Name.objectOf a).isKnown = true ∧
        ∃ t', (op.under {}).perform p t = .ok a t' ∧ s'.AgreesWith t' ∧ s'.IdleUnder tight ∧
          t'.IdleUnder {} := by
  intro p tight s t op
  have ho : tight.Roomier {} := ⟨rfl, rfl, by decide, by decide⟩
  have hs : s.IdleUnder tight := State.idleUnder_start _ _ _
  have ht : t.IdleUnder {} := State.idleUnder_start _ _ _
  have hst : s.AgreesWith t := ⟨rfl, rfl, rfl⟩
  have hd : p.tree.Descending := (by decide : Tree.echoing.Descending)
  obtain ⟨hruns, hsame⟩ := limits_matter_where_met p ho hs ht hst op
  obtain ⟨a, s', hrun⟩ := hruns hd
  have hends : (match (op.under tight).perform p s with
      | .ok a s' => decide (s'.stats.limitBailouts = s.stats.limitBailouts) &&
          (Name.objectOf a).isKnown
      | .error _ _ => false) = true := by decide +kernel
  rw [hrun, Bool.and_eq_true, decide_eq_true_iff] at hends
  exact ⟨ho, hs, ht, hst, hd, a, s', hrun, hends.1, hends.2, hsame a s' hrun hends.1⟩

end ObjectInference
