import ObjectInference.Proofs.Lexical
import ObjectInference.Proofs.Reentry

/-!
How a name is looked up.

Two loops stand inside each other. The outer one goes up the scopes from where the name
is seen to the first scope that binds it, and passes over the class bodies on its way.
`Sees` is this way, and `binder?_eq_some` that the loop finds its end. The inner one tries
the definitions there from the last to the first, each in the state that the one before it
in this order has left, until one gives a known object. `Gives` says what comes of it
without the loop: that object, or else the latest outcome that was not simply nothing.

The inner loop runs inside the guard of names, so a definition that leads back to the name
is met as such. `names_looked_up` puts both together for the evaluation of a name from any
state.
-/

namespace ObjectInference

/-! ### When a key is denied -/

namespace Guard

variable {κ : Type} {g : Guard κ} {k : κ}

/-- A limit is in the way of one more key. -/
def AtLimit (g : Guard κ) : Prop :=
  g.maxIterations < g.tried.iterations ∨ g.maxDepth ≤ g.depth ∨ g.maxVisiting ≤ g.visiting.length

instance (g : Guard κ) : Decidable g.AtLimit :=
  inferInstanceAs (Decidable (_ ∨ _ ∨ _))

variable [DecidableEq κ]

/-- A key is denied if it is being visited, or at a limit, and for no other reason. -/
theorem enter_ne_entered : (g.enter k).1 ≠ .entered ↔ k ∈ g.visiting ∨ g.AtLimit := by
  have hvisiting : g.tried.isVisiting k = true ↔ k ∈ g.visiting := isVisiting_iff
  have hdepth : g.tried.maxDepth ≤ g.tried.depth ↔ g.maxDepth ≤ g.depth := Iff.rfl
  have hroom : g.tried.maxVisiting ≤ g.tried.visiting.length ↔
      g.maxVisiting ≤ g.visiting.length := Iff.rfl
  have hcount : g.tried.maxIterations < g.tried.iterations ↔
      g.maxIterations < g.tried.iterations := Iff.rfl
  unfold enter AtLimit
  simp only [hvisiting, hdepth, hroom, hcount]
  split
  · simp [*]
  · split
    · simp [*]
    · split
      · simp [*]
      · split <;> simp [*]

end Guard

/-- A name of a scope is being resolved, or a limit is in the way. A guard that visits
nothing starts its counts anew. -/
def State.DeniesName (s : State) (key : ScopeId × Atom) : Prop :=
  key ∈ s.resolving.refresh.visiting ∨ s.resolving.refresh.AtLimit

instance (s : State) (key : ScopeId × Atom) : Decidable (s.DeniesName key) :=
  inferInstanceAs (Decidable (_ ∨ _))

theorem State.Disciplined.deniesName_iff {p : Program} {s : State} (hs : s.Disciplined p)
    (key : ScopeId × Atom) :
    s.DeniesName key ↔ key ∈ s.resolving.visiting ∨ s.resolving.refresh.AtLimit := by
  rw [State.DeniesName, (Guard.settles_refresh s.resolving).visiting_eq hs.resolving]

/-! ### The scope that binds a name -/

namespace Program

variable {p : Program} {start s t outer : ScopeId} {name : Atom} {d : Scope}

/-- A scope binds a name for what is seen from a start. Class bodies do so for themselves
only. -/
def BindsFor (p : Program) (start : ScopeId) (name : Atom) (s : ScopeId) : Prop :=
  ∃ d, p.scope? s = some d ∧ (d.kind ≠ .cls ∨ s = start) ∧ d.binds name = true

/-- The first scope on the way from a scope up its parents that binds a name for what is
seen from a start. -/
inductive Sees (p : Program) (start : ScopeId) (name : Atom) : ScopeId → ScopeId → Prop where
  | here {s : ScopeId} (h : p.BindsFor start name s) : Sees p start name s s
  | further {s outer t : ScopeId} {d : Scope} (h : ¬ p.BindsFor start name s)
      (hd : p.scope? s = some d) (hparent : d.parent = some outer)
      (hsees : Sees p start name outer t) : Sees p start name s t

theorem bindsFor_iff (hd : p.scope? s = some d) :
    p.BindsFor start name s ↔
      ((d.kind != .cls || s == start) && d.binds name) = true := by
  simp [BindsFor, hd]

theorem not_bindsFor (hd : p.scope? s = none) : ¬ p.BindsFor start name s := by
  rintro ⟨d, hd', _⟩
  rw [hd] at hd'
  cases hd'

theorem not_sees (hd : p.scope? s = none) : ¬ p.Sees start name s t := by
  intro h
  cases h with
  | here h => exact not_bindsFor hd h
  | further _ hd' _ _ =>
      rw [hd] at hd'
      cases hd'

theorem sees_of_bindsFor (h : p.BindsFor start name s) : p.Sees start name s t ↔ t = s := by
  constructor
  · intro hsees
    cases hsees with
    | here _ => rfl
    | further hnot _ _ _ => exact absurd h hnot
  · rintro rfl
    exact .here h

theorem sees_of_not_bindsFor (h : ¬ p.BindsFor start name s) (hd : p.scope? s = some d) :
    p.Sees start name s t ↔ ∃ outer, d.parent = some outer ∧ p.Sees start name outer t := by
  constructor
  · intro hsees
    cases hsees with
    | here h' => exact absurd h' h
    | further _ hd' hparent hsees =>
        obtain rfl := Option.some.inj (hd.symm.trans hd')
        exact ⟨_, hparent, hsees⟩
  · rintro ⟨outer, hparent, hsees⟩
    exact .further h hd hparent hsees

/-- The walk up the scopes ends where the name is bound. -/
theorem binderWithin_eq_some (hp : p.WellBound) {n : Nat} (hn : s < n) :
    p.binderWithin start name n s = some t ↔ p.Sees start name s t := by
  induction n generalizing s with
  | zero => exact absurd hn (Nat.not_lt_zero s)
  | succ n ih =>
      rw [binderWithin]
      cases hd : p.scope? s with
      | none => exact iff_of_false (Option.some_ne_none t).symm (not_sees hd)
      | some d =>
          simp only
          by_cases hbinds : p.BindsFor start name s
          · rw [if_pos ((bindsFor_iff hd).1 hbinds), sees_of_bindsFor hbinds, Option.some.injEq,
              eq_comm]
          · rw [if_neg (mt (bindsFor_iff hd).2 hbinds), sees_of_not_bindsFor hbinds hd,
              Option.bind_eq_some_iff]
            refine exists_congr fun outer => and_congr_right fun hparent => ?_
            -- Outer scopes come earlier, so the bound is never met.
            have houter : outer < s := (hp.scope hd).parent outer hparent
            exact ih (Nat.lt_of_lt_of_le houter (Nat.lt_succ_iff.1 hn))

theorem binder?_eq_some (hp : p.WellBound) :
    p.binder? start name = some t ↔ p.Sees start name start t := by
  rw [← p.binderWithin_eq_binder? hp start name (Nat.le_max_left _ (start + 1))]
  exact binderWithin_eq_some hp (Nat.lt_of_lt_of_le (Nat.lt_succ_self _) (Nat.le_max_right _ _))

/-- The names that a scope binds are those that it has definitions of. -/
theorem binds_iff (hd : p.scope? s = some d) :
    d.binds name = true ↔ p.definitions s name ≠ [] := by
  simp [definitions, hd, Scope.definitions, Scope.binds, List.filter_eq_nil_iff]

theorem Sees.definitions_ne_nil (h : p.Sees start name s t) : p.definitions t name ≠ [] := by
  induction h with
  | here h =>
      obtain ⟨d, hd, _, hbinds⟩ := h
      exact (binds_iff hd).1 hbinds
  | further _ _ _ _ ih => exact ih

end Program

namespace Infer

variable {p : Program} {eval : Evaluator} {scope start : ScopeId} {name : Atom}
  {ds : List Definition} {outcome : Except ObjectId (Option Name)}
  {outcomes : List (Except ObjectId (Option Name))} {s s₁ s' : State}

/-! ### The definition that answers -/

/-- Definitions that do not give a known object when they are tried one after the other,
with their outcomes and the state after them. -/
inductive TriedInVain (p : Program) (eval : Evaluator) (scope : ScopeId) (name : Atom) :
    List Definition → State → List (Except ObjectId (Option Name)) → State → Prop where
  | nil (s : State) : TriedInVain p eval scope name [] s [] s
  | cons {d : Definition} {ds : List Definition} {outcome : Except ObjectId (Option Name)}
      {outcomes : List (Except ObjectId (Option Name))} {s s₁ s' : State}
      (hd : attempt (resolveDefinition p eval scope name d) s = .ok outcome s₁)
      (hvain : isKnownOutcome outcome = false)
      (hds : TriedInVain p eval scope name ds s₁ outcomes s') :
      TriedInVain p eval scope name (d :: ds) s (outcome :: outcomes) s'

/-- An outcome that is more than nothing: an object, known or not, or a function in
flight. -/
def isAnswer : Except ObjectId (Option Name) → Bool
  | .ok none => false
  | _ => true

def firstAnswer (outcomes : List (Except ObjectId (Option Name))) :
    Except ObjectId (Option Name) :=
  (outcomes.find? isAnswer).getD (.ok none)

/-- What definitions give when they are tried in the given order, and the state that they
leave. -/
def Gives (p : Program) (eval : Evaluator) (scope : ScopeId) (name : Atom)
    (ds : List Definition) (s : State) (outcome : Except ObjectId (Option Name)) (s' : State) :
    Prop :=
  (∃ tried d rest outcomes s₁, ds = tried ++ d :: rest ∧
    TriedInVain p eval scope name tried s outcomes s₁ ∧
    attempt (resolveDefinition p eval scope name d) s₁ = .ok outcome s' ∧
    isKnownOutcome outcome = true) ∨
  ∃ outcomes, TriedInVain p eval scope name ds s outcomes s' ∧ outcome = firstAnswer outcomes

theorem firstAnswer_heldBack (fallback outcome : Except ObjectId (Option Name))
    (outcomes : List (Except ObjectId (Option Name))) :
    firstAnswer (heldBack fallback outcome :: outcomes) =
      firstAnswer (fallback :: outcome :: outcomes) := by
  rcases fallback with g | _ | found <;> rfl

/-- Definitions tried in vain leave their first answer as the fallback, unless there is one
already. -/
theorem firstKnown_append_of_vain (h : TriedInVain p eval scope name ds s outcomes s₁)
    (fallback : Except ObjectId (Option Name)) (rest : List Definition) :
    firstKnown p eval scope name fallback (ds ++ rest) s =
      firstKnown p eval scope name (firstAnswer (fallback :: outcomes)) rest s₁ := by
  induction h generalizing fallback with
  | nil s => rcases fallback with g | _ | found <;> rfl
  | cons hd hvain _ ih =>
      rw [List.cons_append, firstKnown_cons, bind_of_ok hd, if_neg (by simp [hvain]), ih,
        firstAnswer_heldBack]

theorem firstKnown_of_gives (h : Gives p eval scope name ds s outcome s') :
    firstKnown p eval scope name (.ok none) ds s = .ok outcome s' := by
  rcases h with ⟨tried, d, rest, outcomes, s₁, rfl, hvain, hd, hknown⟩ | ⟨outcomes, hvain, rfl⟩
  · rw [firstKnown_append_of_vain hvain, firstKnown_cons, bind_of_ok hd, if_pos hknown]
    rfl
  · have hrun := firstKnown_append_of_vain hvain (.ok none) []
    rw [List.append_nil] at hrun
    exact hrun

/-- A definition of a name always has an outcome when it is tried. -/
theorem exists_attempt (hd : p.tree.Descending) (scope : ScopeId) (name : Atom) (d : Definition)
    (s : State) :
    ∃ outcome s', attempt (resolveDefinition p p.evaluate scope name d) s = .ok outcome s' ∧
      s.Settles s' := by
  have hI := Inherited.trivial p
  have L := Pairing.bracketing.lawful hI
  have H := Pairing.bracketing.pairsOn_evaluate hI
  have hrel : (Pairing.bracketing fun _ => True).rel s s s := ⟨rfl, .refl s, trivial⟩
  -- What is done with the object of a definition cannot fail.
  have hnamed : ∀ {E : Exits} {x : Infer (Option ObjectId)} {k : Option ObjectId → Option Name},
      (Pairing.bracketing fun _ => True).Pairs E s s s
        ((Pairing.bracketing fun _ => True).SameOption) x x →
      (Pairing.bracketing fun _ => True).Ends E s s s (do return k (← x)) (do return k (← x)) :=
    fun hx => .bind hx fun _ _ _ _ hr _ => .pure hr.rel trivial
  have hend : Operation.Ended p s (resolveDefinition p p.evaluate scope name d s) := by
    cases d with
    | object o => exact .ok (.refl s)
    | parameter index =>
        obtain ⟨o, s', hrun, hsettles⟩ := settling_parameterObject p scope index s
        unfold resolveDefinition
        simp only
        rw [bind_of_ok hrun]
        exact .ok hsettles
    | assigned value path =>
        exact Operation.ended_of_pairs (hnamed (L.assignedObject (H _ scope) hrel))
          (fun f g hfg => hfg.1 ▸ hfg.2) id
    | iterated iter path =>
        exact Operation.ended_of_pairs (hnamed (L.iteratedObject (H _ scope) hrel path))
          (fun f g hfg => hfg.1 ▸ hfg.2) id
  generalize hrun : resolveDefinition p p.evaluate scope name d s = r at hend
  unfold attempt
  rw [hrun]
  cases hend with
  | ok h => exact ⟨_, _, rfl, h⟩
  | reentrant h _ => exact ⟨_, _, rfl, h⟩
  | exhausted hnot => exact absurd hd hnot

/-- So definitions of a name always give something. -/
theorem exists_gives (hd : p.tree.Descending) (scope : ScopeId) (name : Atom)
    (ds : List Definition) (s : State) :
    ∃ outcome s', Gives p p.evaluate scope name ds s outcome s' ∧ s.Settles s' := by
  induction ds generalizing s with
  | nil => exact ⟨_, s, .inr ⟨[], .nil s, rfl⟩, .refl s⟩
  | cons d ds ih =>
      obtain ⟨first, s₁, hfirst, hsettles⟩ := exists_attempt hd scope name d s
      cases hknown : isKnownOutcome first with
      | true => exact ⟨first, s₁, .inl ⟨[], d, ds, [], s, rfl, .nil s, hfirst, hknown⟩, hsettles⟩
      | false =>
          obtain ⟨outcome, s', hgives, hsettles'⟩ := ih s₁
          rcases hgives with ⟨tried, d', rest, outcomes, s₂, rfl, hvain, hd', hlast⟩ |
            ⟨outcomes, hvain, rfl⟩
          · exact ⟨outcome, s', .inl ⟨d :: tried, d', rest, first :: outcomes, s₂, rfl,
              .cons hfirst hknown hvain, hd', hlast⟩, hsettles.trans hsettles'⟩
          · exact ⟨_, s', .inr ⟨first :: outcomes, .cons hfirst hknown hvain, rfl⟩,
              hsettles.trans hsettles'⟩

/-! ### Names in the scope that binds them -/

section Local

variable {t : ScopeId} {g g' : Guard (ScopeId × Atom)}

/-- A name that is entered is what its definitions give, from the last to the first. -/
theorem resolveLocal_of_gives (hne : p.definitions t name ≠ [])
    (henter : s.resolving.refresh.enter (t, name) = (.entered, g))
    (hgives : Gives p eval t name (p.definitions t name).reverse { s with resolving := g }
      outcome s')
    (hleave : leaveName (t, name) s' = .ok () { s' with resolving := g' }) :
    resolveLocal p eval t name s = settle outcome { s' with resolving := g' } := by
  have hentered : enterName (t, name) s = .ok .entered { s with resolving := g } := by
    rw [enterName_run, henter]
  have hfirst := firstKnown_of_gives hgives
  obtain ⟨d, ds, hds⟩ := List.exists_cons_of_ne_nil hne
  unfold resolveLocal
  rw [hds] at hfirst ⊢
  simp only
  rw [bind_of_ok hentered]
  simp only
  rw [bind_of_ok hfirst, bind_of_ok hleave]

/-- A name that is denied is not resolved, and nothing is tried. -/
theorem resolveLocal_of_denied (hne : p.definitions t name ≠ [])
    (hdenied : s.DeniesName (t, name)) :
    resolveLocal p eval t name s =
      .ok none { s with resolving := (s.resolving.refresh.enter (t, name)).2 } := by
  have he := Guard.enter_ne_entered.2 hdenied
  obtain ⟨d, ds, hds⟩ := List.exists_cons_of_ne_nil hne
  unfold resolveLocal
  rw [hds]
  simp only
  rw [bind_of_ok (enterName_run (t, name) s)]
  generalize (s.resolving.refresh.enter (t, name)).1 = e at he ⊢
  cases e with
  | entered => exact absurd rfl he
  | _ => rfl

/-- What the definitions of a name give is determined, and the name can be left then. -/
theorem resolveLocal_of_entered (hd : p.tree.Descending) (hne : p.definitions t name ≠ [])
    (henter : s.resolving.refresh.enter (t, name) = (.entered, g)) :
    ∃ outcome s' g', (∀ outcome' s'', Gives p p.evaluate t name (p.definitions t name).reverse
        { s with resolving := g } outcome' s'' ↔ outcome' = outcome ∧ s'' = s') ∧
      s'.resolving.leave (t, name) = .ok g' ∧
      resolveLocal p p.evaluate t name s = settle outcome { s' with resolving := g' } := by
  obtain ⟨outcome, s', hgives, hsettles⟩ :=
    exists_gives hd t name (p.definitions t name).reverse { s with resolving := g }
  obtain ⟨g', hleave, hleft, _⟩ := leaveName_of_settles henter hsettles
  refine ⟨outcome, s', g', fun outcome' s'' => ⟨fun h => ?_, ?_⟩, hleave,
    resolveLocal_of_gives hne henter hgives hleft⟩
  · have hrun := (firstKnown_of_gives h).symm.trans (firstKnown_of_gives hgives)
    cases hrun
    exact ⟨rfl, rfl⟩
  · rintro ⟨rfl, rfl⟩
    exact hgives

end Local

/-- A name resolves as in the first scope that binds it. -/
theorem evaluate_of_sees (hp : p.WellBound) (hd : p.tree.Descending) {expr : NodeRef}
    {t : ScopeId} (hexpr : p.tree.node? expr = some (.name name))
    (hsees : p.Sees start name start t) :
    p.evaluate start expr = resolveLocal p p.evaluate t name := by
  rw [p.evaluate_name hd hexpr, resolveName, (Program.binder?_eq_some hp).2 hsees]

end Infer

/-- A name is looked up in the first scope on the way up that binds it, past all class
bodies but the one that it stands in. What it resolves to is what the definitions there
give, the last one first. If the name is denied, since it is being resolved already or a
limit is in the way, it resolves to nothing and no definition is tried. Either way nothing
further out is asked, and a built-in object is meant only by a name that no such scope
binds. -/
theorem names_looked_up {tree : Tree} (hd : tree.Descending) (atoms : Interner)
    (root : NodeRef) :
    let p := Program.bind tree atoms root
    ∀ (s : State) (start : ScopeId) (name : Atom) (expr : NodeRef),
      tree.node? expr = some (.name name) →
      (∀ t, p.Sees start name start t → ¬ s.DeniesName (t, name) →
        ∃ g outcome s' g', s.resolving.refresh.enter (t, name) = (.entered, g) ∧
          (∀ outcome' s'', Infer.Gives p p.evaluate t name (p.definitions t name).reverse
            { s with resolving := g } outcome' s'' ↔ outcome' = outcome ∧ s'' = s') ∧
          s'.resolving.leave (t, name) = .ok g' ∧
          p.evaluate start expr s = Infer.settle outcome { s' with resolving := g' }) ∧
      (∀ t, p.Sees start name start t → s.DeniesName (t, name) →
        p.evaluate start expr s =
          .ok none { s with resolving := (s.resolving.refresh.enter (t, name)).2 }) ∧
      (s.Disciplined p → ∀ t, s.DeniesName (t, name) ↔
        (t, name) ∈ s.resolving.visiting ∨ s.resolving.refresh.AtLimit) ∧
      ((∀ t, ¬ p.Sees start name start t) →
        p.evaluate start expr s = .ok ((p.global? name).map (⟨·, .defined name⟩)) s) := by
  intro p s start name expr hexpr
  have hp : p.WellBound := (Program.wellBound_bind tree atoms root).1
  have hpd : p.tree.Descending := hd
  refine ⟨fun t hsees hentered => ?_, fun t hsees hdenied => ?_,
    fun hs t => hs.deniesName_iff (t, name), fun hnone => ?_⟩
  · rw [Infer.evaluate_of_sees hp hpd hexpr hsees]
    cases henter : s.resolving.refresh.enter (t, name) with
    | mk e g =>
        have he : e = .entered := by
          have hnot := mt Guard.enter_ne_entered.1 hentered
          rw [henter] at hnot
          exact not_not.1 hnot
        subst he
        obtain ⟨outcome, s', g', h⟩ :=
          Infer.resolveLocal_of_entered hpd hsees.definitions_ne_nil henter
        exact ⟨g, outcome, s', g', rfl, h⟩
  · rw [Infer.evaluate_of_sees hp hpd hexpr hsees]
    exact Infer.resolveLocal_of_denied hsees.definitions_ne_nil hdenied
  · have hbinder : p.binder? start name = none := by
      cases hbinder : p.binder? start name with
      | none => rfl
      | some t => exact absurd ((Program.binder?_eq_some hp).1 hbinder) (hnone t)
    rw [Program.evaluate_name hpd hexpr, Infer.resolveName, hbinder]
    rfl

/-- A class between a module and a method that bind names of their own. The method hides
the name of a built-in function behind one that does not resolve. -/
def Tree.hiding : Tree :=
  ⟨#[.name 1, .literal (.int 1), .assign [some 0] (some 1), .name 1, .literal (.str "a"),
    .assign [some 3] (some 4), .name 3, .name 4, .assign [some 6] (some 7), .name 1,
    .returnStatement (some 9), .name 3, .returnStatement (some 11),
    .functionDef 2 [] [] [some 8, some 10, some 12], .classDef 5 [] [some 5, some 13],
    .module [some 2, some 14]]⟩

/-- From the method the first name is that of the module, not that of the class. The second
one resolves to nothing, both when its definition is tried and when it is denied, and from
the module it is the built-in function. -/
theorem names_looked_up_hiding :
    let p := Program.bind Tree.hiding ⟨#["", "x", "m", "len", "y", "C"]⟩ (some 15)
    let s := State.start (.fresh p) {} {}
    let t := { s with resolving := (s.resolving.refresh.enter (2, 3)).2 }
    Tree.hiding.Descending ∧ p.BindsFor 1 1 1 ∧ p.Sees 2 1 2 0 ∧ ¬ s.DeniesName (0, 1) ∧
      (∃ g outcome s' g', Infer.Gives p p.evaluate 0 1 [.assigned (some 1) []]
          { s with resolving := g } outcome s' ∧ Infer.isKnownOutcome outcome = true ∧
        p.evaluate 2 (some 9) s = Infer.settle outcome { s' with resolving := g' }) ∧
      p.Sees 2 3 2 2 ∧ t.Disciplined p ∧ (2, 3) ∈ t.resolving.visiting ∧
      (∃ g, p.evaluate 2 (some 11) t = .ok none { t with resolving := g }) ∧
      (∀ b, ¬ p.Sees 0 3 0 b) ∧
      p.evaluate 0 (some 11) s = .ok (some ⟨BuiltinFunction.len.object, .defined 3⟩) s := by
  intro p s t
  have hd : Tree.hiding.Descending := by decide
  have hp : p.WellBound := (Program.wellBound_bind _ _ _).1
  have hcls : p.BindsFor 1 1 1 :=
    ⟨_, rfl, .inr rfl, by decide +kernel⟩
  have hmodule : p.Sees 2 1 2 0 := (Program.binder?_eq_some hp).1 (by decide +kernel)
  have hself : p.Sees 2 3 2 2 := (Program.binder?_eq_some hp).1 (by decide +kernel)
  have hfree : ∀ b, ¬ p.Sees 0 3 0 b := by
    intro b hsees
    have hnone : p.binder? 0 3 = none := by decide +kernel
    rw [(Program.binder?_eq_some hp).2 hsees] at hnone
    cases hnone
  have hentered : ¬ s.DeniesName (0, 1) := by decide +kernel
  have hdisciplined : t.Disciplined p := by decide +kernel
  have hvisiting : (2, 3) ∈ t.resolving.visiting := by decide +kernel
  have hlooked := names_looked_up hd ⟨#["", "x", "m", "len", "y", "C"]⟩ (some 15)
  obtain ⟨hgiven, _, _⟩ := hlooked s 2 1 (some 9) rfl
  obtain ⟨_, hnothing, hdenies, _⟩ := hlooked t 2 3 (some 11) rfl
  obtain ⟨_, _, _, hglobal⟩ := hlooked s 0 3 (some 11) rfl
  obtain ⟨g, outcome, s', g', _, hgives, _, hrun⟩ := hgiven 0 hmodule hentered
  have hdefinitions : (p.definitions 0 1).reverse = [.assigned (some 1) []] := by decide +kernel
  obtain ⟨s₁, hvalue⟩ := Infer.value?_eq_some.1
    (by decide +kernel : (p.evaluate 2 (some 9)).value? s = some (some ⟨18, .assigned 1⟩))
  refine ⟨hd, hcls, hmodule, hentered, ⟨g, outcome, s', g', ?_, ?_, hrun⟩, hself,
    hdisciplined, hvisiting, ⟨_, hnothing 2 hself ((hdenies hdisciplined 2).2 (.inl hvisiting))⟩,
    hfree, ?_⟩
  · rw [← hdefinitions]
    exact (hgives outcome s').2 ⟨rfl, rfl⟩
  · rw [hrun] at hvalue
    cases outcome with
    | ok found =>
        cases hvalue
        rfl
    | error f => cases hvalue
  · have hlen : p.global? 3 = some BuiltinFunction.len.object := by decide +kernel
    rw [hglobal hfree, hlen]
    rfl

end ObjectInference
