import ObjectInference.Proofs.Matching.Laws
import ObjectInference.Proofs.Operation

/-!
Brackets in matching states.

An attempt to enter has the same outcome in both runs, since their guards are
alike. What a call opens is the same in both as well: the evidence that it
forgets belongs to containers that were made in the same scopes.
-/

namespace ObjectInference

open ObjectStore

namespace Infer

variable {p : Program} {f : ObjectId} {scope : ScopeId} {parameters : Option (List ObjectId)}
  {g : Guard ObjectId}

@[simp] theorem calls_opened (s : State) : (opened p f scope parameters s).calls = s.calls := by
  cases parameters <;> rfl

@[simp] theorem calls_closed (s : State) : (closed parameters g s).calls = s.calls := by
  cases parameters <;> rfl

end Infer

namespace State

variable {p : Program} {extra : Places} {s t : State}

theorem Sound.withResolving (h : s.Sound p) (g : Guard (ScopeId × Atom)) :
    Sound p { s with resolving := g } :=
  h.grow h.grown (.refl _) rfl fun hf => .inl ⟨hf, rfl⟩

theorem Matches.withResolving (h : s.Matches extra t) {g g' : Guard (ScopeId × Atom)}
    (hg : g.Alike Eq g') : Matches extra { s with resolving := g } { t with resolving := g' } :=
  ⟨⟨h.forth.evidence, h.forth.allocated, h.forth.latest⟩,
    ⟨h.back.evidence, h.back.allocated, h.back.latest⟩, h.contexts, h.inFlight, hg.refresh⟩

theorem Sound.withInFlight (h : s.Sound p) (g : Guard ObjectId) :
    Sound p { s with inFlight := g } :=
  h.grow h.grown (.refl _) rfl fun hf => .inl ⟨hf, rfl⟩

theorem Matches.withInFlight (h : s.Matches extra t) {g g' : Guard ObjectId}
    (hg : g.Alike (s.SameShape t) g') :
    Matches extra { s with inFlight := g } { t with inFlight := g' } :=
  ⟨⟨h.forth.evidence, h.forth.allocated, h.forth.latest⟩,
    ⟨h.back.evidence, h.back.allocated, h.back.latest⟩, h.contexts, hg.refresh, h.resolving⟩

theorem Sound.without (h : s.Sound p) (scopes : List ScopeId) : (s.without p scopes).Sound p :=
  h.grow h.grown (.refl _) rfl fun hf => .inl ⟨Table.of_get?_restrict hf, rfl⟩

theorem Matches.without (h : s.Matches extra t) (hp : p.WellBound) (hs : s.Sound p)
    (ht : t.Sound p) (scopes : List ScopeId) :
    (s.without p scopes).Matches extra (t.without p scopes) :=
  ⟨h.forth.without hp h.back hs ht scopes, h.back.without hp h.forth ht hs scopes, h.contexts,
    h.inFlight, h.resolving⟩

theorem opened_some (p : Program) (f : ObjectId) (scope : ScopeId) (parameters : List ObjectId)
    (s : State) : Infer.opened p f scope (some parameters) s =
      { s.without p (p.subtree scope) with contexts := ⟨f, parameters⟩ :: s.contexts } := by
  simp only [Infer.opened, Memory.forgetTree_eq, State.without]

theorem Sound.opened (h : s.Sound p) (f : ObjectId) (scope : ScopeId)
    (parameters : Option (List ObjectId)) : (Infer.opened p f scope parameters s).Sound p := by
  cases parameters with
  | none => exact h
  | some parameters =>
      rw [opened_some]
      exact (h.without (p.subtree scope)).grow h.grown (.refl _) rfl fun hf => .inl ⟨hf, rfl⟩

theorem Matches.opened (h : s.Matches extra t) (hp : p.WellBound) (hs : s.Sound p)
    (ht : t.Sound p) {f f' : ObjectId} (hf : s.SameShape t f f') (scope : ScopeId)
    {parameters parameters' : Option (List ObjectId)}
    (hos : Option.Rel (List.Forall₂ (s.SameShape t)) parameters parameters') :
    (Infer.opened p f scope parameters s).Matches extra
      (Infer.opened p f' scope parameters' t) := by
  cases hos with
  | none => exact h
  | some hos =>
      have hw := h.without hp hs ht (p.subtree scope)
      rw [opened_some, opened_some]
      exact ⟨⟨hw.forth.evidence, hw.forth.allocated, hw.forth.latest⟩,
        ⟨hw.back.evidence, hw.back.allocated, hw.back.latest⟩, .cons ⟨hf, hos⟩ h.contexts,
        h.inFlight, h.resolving⟩

theorem Sound.closed (h : s.Sound p) (parameters : Option (List ObjectId)) (g : Guard ObjectId) :
    (Infer.closed parameters g s).Sound p := by
  cases parameters <;> exact h.grow h.grown (.refl _) rfl fun hf => .inl ⟨hf, rfl⟩

theorem Matches.closed (h : s.Matches extra t) {parameters parameters' : Option (List ObjectId)}
    (hp : parameters.isSome = parameters'.isSome) {g g' : Guard ObjectId}
    (hg : g.Alike (s.SameShape t) g') :
    (Infer.closed parameters g s).Matches extra (Infer.closed parameters' g' t) := by
  have hm := h.withInFlight hg
  have htail : List.Forall₂ (s.SameContext t) s.contexts.tail t.contexts.tail := by
    have hc := h.contexts
    generalize s.contexts = cs, t.contexts = cs' at hc ⊢
    cases hc with
    | nil => exact .nil
    | cons _ hcs => exact hcs
  cases parameters with
  | none =>
      cases parameters' with
      | none => exact hm
      | some _ => cases hp
  | some _ =>
      cases parameters' with
      | none => cases hp
      | some _ =>
          exact ⟨⟨h.forth.evidence, h.forth.allocated, h.forth.latest⟩,
            ⟨h.back.evidence, h.back.allocated, h.back.latest⟩, htail, hg.refresh, h.resolving⟩

end State

namespace Pairing

namespace matching

variable {p : Program} {fixed : Prop} {extra : Places} {w : State × State}
  {s t : State}

/-! ### Names -/

theorem oneToOne_eq {κ : Type} : OneToOne (Eq : κ → κ → Prop) :=
  ⟨fun h h' => h.symm.trans h', fun h h' => h.trans h'.symm⟩

/-- A name that was marked in both runs is left in both. -/
theorem opensName (h : InMatch p fixed extra w s t) {key : ScopeId × Atom}
    {g g' : Guard (ScopeId × Atom)}
    (hs : s.resolving.refresh.enter key = (.entered, g))
    (ht : t.resolving.refresh.enter key = (.entered, g')) (hg : g.Alike Eq g') :
    (matching p fixed extra).Opens w ({ s with resolving := g }, { t with resolving := g' }) s t
      { s with resolving := g } { t with resolving := g' } (Infer.leaveName key)
      (Infer.leaveName key) := by
  refine ⟨?_, ?_, fun {s'' t''} h'' => ?_⟩
  · change State.room _ < w.1.room
    rw [← h.left.room_eq, State.room, State.room]
    exact Nat.add_lt_add_left (Guard.room_lt_of_enter hs) _
  · exact ⟨⟨.refl _, .refl _, fun _ => ⟨rfl, rfl⟩, h.soundLeft.withResolving g,
      h.soundRight.withResolving g', h.agree.withResolving hg⟩, fun hab => hab, .refl _, id⟩
  · obtain ⟨g₃, hleave, hs₃, hsettles⟩ := Infer.leaveName_of_settles hs h''.left
    obtain ⟨g₃', hleave', ht₃, hsettles'⟩ := Infer.leaveName_of_settles ht h''.right
    have halike := h''.agree.resolving
    rw [Guard.refresh_of_entered hs h''.left.resolving,
      Guard.refresh_of_entered ht h''.right.resolving] at halike
    have hm := h''.agree.withResolving (halike.leave oneToOne_eq rfl hleave hleave')
    unfold Ends Pairs
    rw [hs₃, ht₃]
    refine .ok ⟨⟨h.left.trans hsettles, h.right.trans hsettles', fun hfixed => ?_,
      h''.soundLeft.withResolving g₃, h''.soundRight.withResolving g₃', hm⟩, fun hab => hab,
      .refl _, id⟩ trivial
    exact ⟨(h''.calls hfixed).1.trans (h.calls hfixed).1,
      (h''.calls hfixed).2.trans (h.calls hfixed).2⟩

theorem enterName (h : InMatch p fixed extra w s t) (key : ScopeId × Atom) :
    (∃ e s' t', e ≠ .entered ∧ Infer.enterName key s = .ok e s' ∧
      Infer.enterName key t = .ok e t' ∧ (matching p fixed extra).Reaches w s t s' t') ∨
    ∃ w' s' t', Infer.enterName key s = .ok .entered s' ∧
      Infer.enterName key t = .ok .entered t' ∧
      (matching p fixed extra).Opens w w' s t s' t' (Infer.leaveName key)
        (Infer.leaveName key) := by
  have hentry := h.agree.resolving.enter oneToOne_eq (k := key) rfl
  rw [Infer.enterName_run, Infer.enterName_run]
  cases hs : s.resolving.refresh.enter key with
  | mk e g =>
      cases ht : t.resolving.refresh.enter key with
      | mk e' g' =>
          rw [hs, ht] at hentry
          obtain ⟨rfl, hg⟩ : e' = e ∧ g.Alike Eq g' := hentry
          by_cases he : e' = .entered
          · subst he
            exact .inr ⟨_, _, _, rfl, rfl, opensName h hs ht hg⟩
          · refine .inl ⟨e', _, _, he, rfl, rfl, h.reaches ?_ ?_ (fun _ => ⟨rfl, rfl⟩)
              (h.soundLeft.withResolving g) (h.soundRight.withResolving g')
              (h.agree.withResolving hg)⟩
            · exact ⟨.refl _, (Guard.settles_refresh _).trans (Guard.settles_of_enter hs he), rfl,
                .refl _, fun _ _ => id⟩
            · exact ⟨.refl _, (Guard.settles_refresh _).trans (Guard.settles_of_enter ht he), rfl,
                .refl _, fun _ _ => id⟩

/-! ### Functions -/

section Calls

variable (hp : p.WellBound) (h : InMatch p fixed extra w s t) {f f' : ObjectId}
  (hf : s.SameShape t f f') (scope : ScopeId) {parameters parameters' : Option (List ObjectId)}
  (hos : Option.Rel (List.Forall₂ (s.SameShape t)) parameters parameters')

include hp h hf hos

/-- A call that was opened in both runs is closed in both. -/
theorem opensCall {g g' : Guard ObjectId} (hs : s.inFlight.refresh.enter f = (.entered, g))
    (ht : t.inFlight.refresh.enter f' = (.entered, g')) (hg : g.Alike (s.SameShape t) g') :
    (matching p fixed extra).Opens w
      (Infer.opened p f scope parameters { s with inFlight := g },
        Infer.opened p f' scope parameters' { t with inFlight := g' }) s t
      (Infer.opened p f scope parameters { s with inFlight := g })
      (Infer.opened p f' scope parameters' { t with inFlight := g' })
      (Infer.closeCall f parameters) (Infer.closeCall f' parameters') := by
  have hsame : parameters.isSome = parameters'.isSome := by cases hos <;> rfl
  have hm : (Infer.opened p f scope parameters { s with inFlight := g }).Matches extra
      (Infer.opened p f' scope parameters' { t with inFlight := g' }) :=
    (h.agree.withInFlight hg).opened hp (h.soundLeft.withInFlight g) (h.soundRight.withInFlight g')
      hf scope hos
  have hsound := (h.soundLeft.withInFlight g).opened f scope parameters
  have hsound' := (h.soundRight.withInFlight g').opened f' scope parameters'
  refine ⟨?_, ⟨⟨.refl _, .refl _, fun _ => ⟨rfl, rfl⟩, hsound, hsound', hm⟩, fun hab => ?_, ?_, id⟩,
    fun {s'' t''} h'' => ?_⟩
  · change State.room _ < w.1.room
    rw [← h.left.room_eq, State.room, State.room, Infer.inFlight_opened, Infer.resolving_opened]
    exact Nat.add_lt_add_right (Guard.room_lt_of_enter hs) _
  · change ObjectStore.SameShape _ _ _ _
    rw [Infer.objects_opened, Infer.objects_opened]
    exact hab
  · rw [Infer.objects_opened]
    exact .refl _
  · obtain ⟨g₃, hleave, hs₃, hsettles⟩ := Infer.closeCall_of_settles hs h''.left
    obtain ⟨g₃', hleave', ht₃, hsettles'⟩ := Infer.closeCall_of_settles ht h''.right
    have hkeeps := h''.left.objects.keeps
    have hkeeps' := h''.right.objects.keeps
    have hinFlight := h''.left.inFlight
    have hinFlight' := h''.right.inFlight
    simp only [Infer.objects_opened, Infer.inFlight_opened] at hkeeps hkeeps' hinFlight hinFlight'
    -- Inside a bracket the guards do not start anew, so it is these that are alike.
    have halike := h''.agree.inFlight
    rw [Guard.refresh_of_entered hs hinFlight, Guard.refresh_of_entered ht hinFlight'] at halike
    have hleft := halike.leave h''.oneToOne (hf.mono hkeeps hkeeps') hleave hleave'
    have hcalls := fun hfixed => h''.calls hfixed
    simp only [Infer.calls_opened] at hcalls
    unfold Ends Pairs
    rw [hs₃, ht₃]
    refine .ok ⟨⟨h.left.trans hsettles, h.right.trans hsettles', fun hfixed => ?_,
      h''.soundLeft.closed _ g₃, h''.soundRight.closed _ g₃', h''.agree.closed hsame hleft⟩,
      fun hab => ?_, ?_, id⟩ trivial
    · rw [Infer.calls_closed, Infer.calls_closed]
      exact ⟨(hcalls hfixed).1.trans (h.calls hfixed).1,
        (hcalls hfixed).2.trans (h.calls hfixed).2⟩
    · change ObjectStore.SameShape _ _ _ _
      rw [Infer.objects_closed, Infer.objects_closed]
      exact hab
    · rw [Infer.objects_closed]
      exact .refl _

theorem enterFunction :
    (∃ e s' t', e ≠ .entered ∧ Infer.enterFunction f s = .ok e s' ∧
      Infer.enterFunction f' t = .ok e t' ∧ (matching p fixed extra).Reaches w s t s' t') ∨
    ∃ w' s₁ t₁ s' t', Infer.enterFunction f s = .ok .entered s₁ ∧
      Infer.enterFunction f' t = .ok .entered t₁ ∧
      Infer.openCall p f scope parameters s₁ = .ok () s' ∧
      Infer.openCall p f' scope parameters' t₁ = .ok () t' ∧
      (matching p fixed extra).Opens w w' s t s' t' (Infer.closeCall f parameters)
        (Infer.closeCall f' parameters') := by
  have hentry := h.agree.inFlight.enter h.oneToOne hf
  rw [Infer.enterFunction_run, Infer.enterFunction_run]
  cases hs : s.inFlight.refresh.enter f with
  | mk e g =>
      cases ht : t.inFlight.refresh.enter f' with
      | mk e' g' =>
          rw [hs, ht] at hentry
          obtain ⟨rfl, hg⟩ : e' = e ∧ g.Alike (s.SameShape t) g' := hentry
          by_cases he : e' = .entered
          · subst he
            exact .inr ⟨_, _, _, _, _, rfl, rfl, Infer.openCall_eq _, Infer.openCall_eq _,
              opensCall hp h hf scope hos hs ht hg⟩
          · refine .inl ⟨e', _, _, he, rfl, rfl, h.reaches ?_ ?_ (fun _ => ⟨rfl, rfl⟩)
              (h.soundLeft.withInFlight g) (h.soundRight.withInFlight g') (h.agree.withInFlight hg)⟩
            · exact ⟨(Guard.settles_refresh _).trans (Guard.settles_of_enter hs he), .refl _, rfl,
                .refl _, fun _ _ => id⟩
            · exact ⟨(Guard.settles_refresh _).trans (Guard.settles_of_enter ht he), .refl _, rfl,
                .refl _, fun _ _ => id⟩

end Calls

/-! ### All of it -/

theorem boundParameters? (h : InMatch p fixed extra w s t) {f : ObjectId} (hf : s.SameShape t f f) :
    Option.Rel (List.Forall₂ (s.SameShape t)) (s.boundParameters? f) (t.boundParameters? f) := by
  have hc := h.agree.contexts
  unfold State.boundParameters?
  generalize s.contexts = cs, t.contexts = cs' at hc ⊢
  induction hc with
  | nil => exact .none
  | @cons c c' _ _ hcc _ ih =>
      have hiff := h.oneToOne.eq_iff hcc.1 hf
      by_cases hcf : c.function = f
      · simp only [List.find?_cons, beq_iff_eq.2 hcf, beq_iff_eq.2 (hiff.1 hcf), Option.map_some]
        exact .some hcc.2
      · simp only [List.find?_cons, beq_eq_false_iff_ne.2 hcf,
          beq_eq_false_iff_ne.2 (mt hiff.2 hcf)]
        exact ih

theorem currentParameters (hp : p.WellBound) (h : InMatch p fixed extra w s t) {f : ObjectId}
    (hf : f < p.objects.size) :
    (matching p fixed extra).Pairs .none w s t (matching p fixed extra).SameList
      (Infer.currentParameters p f) (Infer.currentParameters p f) := by
  have hshape := h.sameShape hp hf
  have hbound := boundParameters? h hshape
  refine Pairs.get_bind ?_
  generalize s.boundParameters? f = x, t.boundParameters? f = y at hbound
  cases hbound with
  | some hos => exact .pure h hos
  | none =>
      obtain ⟨os, s', hs, hquiet, hsound, hsupplied⟩ :=
        Program.evidenceParameters_run hp h.soundLeft f
      obtain ⟨os', t', ht, hquiet', hsound', hsupplied'⟩ :=
        Program.evidenceParameters_run hp h.soundRight f
      have hr := h.reaches_of_quiet hquiet hquiet' hsound hsound'
      change (matching p fixed extra).Outcome .none w s t (matching p fixed extra).SameList
        (Infer.evidenceParameters p f s) (Infer.evidenceParameters p f t)
      rw [hs, ht]
      exact .ok hr (Program.Supplied.related hr.rel.agree hp hsound hsound' hf hsupplied
        hsupplied')

theorem lawful (hp : p.WellBound) (fixed : Prop) (extra : Places) :
    (matching p fixed extra).Lawful p where
  unknown {_ _ _} h := h.sameShape hp hp.unknown_lt
  isKnown_eq {_ _ _} h {_ _} hab := hp.isKnown_eq h.soundLeft h.soundRight hab
  get {_ _ _} _ {_ _} hab := hab.alike
  lookup {_ _ _} h {_ _} hab name := hp.attribute?_related h.soundLeft h.soundRight hab name
  evidence {_ _ _} h {_ _} hab slot :=
    h.agree.forth.evidence_rel hp h.agree.back h.soundLeft h.soundRight hab slot
  defined {_ _ _} h {_ _} _ {_} ho := h.sameShape hp (hp.definitions_lt _ _ ho)
  global {_ _ _} h {_} _ {_} ho := h.sameShape hp (hp.global?_lt ho)
  count {_ _ _} h {change} _ := count h change
  builtinInstance {_ _ _} h {_} hc := builtinInstance hp h hc
  newInstance {_ _ _} h {_ _} hc hk hb site := newInstance hp h hc hk hb site
  newContainer {_ _ _} h {_ _} hmay hsite {_} hc := newContainer hp h (hmay hsite) hc
  generatorOf {_ _ _} h {e e'} he _ := by
    refine intern h (.generator he) rfl ?_ ?_ ?_ ?_
    · exact fun _ _ _ heq => by cases heq
    · exact fun _ _ _ heq => by cases heq
    · exact fun _ _ heq => by cases heq
    · exact fun _ _ heq => by cases heq
  observe {_ _ _} h {_ _ _ _} hc ho {slot} _ := observe hp h hc ho slot
  currentParameters {_ _ _} h {_ _} _ {_} hd := currentParameters hp h (hp.scope hd).owner
  enterName {_ _ _} h key _ := by
    rcases enterName h key with h | ⟨w', s', t', hs, ht, ho⟩
    · exact .inl h
    · exact .inr ⟨w', s', t', hs, ht, ho, fun _ _ _ => trivial⟩
  enterFunction {_ s t} h {_ _} hf {scope} _ {parameters parameters'} hos := by
    have hparameters : Option.Rel (List.Forall₂ (s.SameShape t)) parameters parameters' := by
      cases hos with
      | none => exact .none
      | some hos => exact .some hos.1
    rcases enterFunction hp h hf scope hparameters with ⟨e, s', t', he, hs, ht, hr⟩ | h
    · exact .inl ⟨e, s', t', he, hs, ht, hr, fun _ => trivial⟩
    · exact .inr (.inl h)

end matching

end Pairing

end ObjectInference
