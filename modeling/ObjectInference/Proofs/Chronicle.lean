import ObjectInference.Proofs.Logging.Operation
import ObjectInference.Proofs.Queries

/-!
What containers hold, told from what has happened to them.

What a slot holds can be read off the log of a run alone: it is the first known object put
there since the container was last forgotten. The log is the one that the operations
themselves write, and writing it changes nothing that they do.
-/

namespace ObjectInference

/-- The first known evidence wins, over whole runs. An operation with a log is the operation,
and the states that are reached are those that are reached with a log. The moments between
operations and those at which an expression is evaluated are kept. At every moment of a run,
the log tells where containers were made; a slot holds the first known object put there
since its container was last forgotten, and nothing without one; and what it holds is known,
and stays there until the container is forgotten. Only instances of the classes that have a
slot hold something in it. -/
theorem first_known_evidence_wins (tree : Tree) (atoms : Interner) (root : NodeRef) :
    let p := Program.bind tree atoms root
    (∀ (α : Type) (op : Operation α) (l : Logged),
      Logging.erase (op.performLogging p l) = op.perform p l.toState ∧
      l.moments <:+ (Logging.finish (op.performLogging p l)).past) ∧
    (∀ (fuel : Nat) (scope : ScopeId) (expr : NodeRef) (l : Logged),
      l.moments <:+ (Logging.finish (Logging.evaluateWithin p (fuel + 1) scope expr l)).past) ∧
    (∀ s : State, s.Reached p ↔ ∃ l : Logged, l.Reached p ∧ l.toState = s) ∧
    ∀ l : Logged, l.Reached p →
      l.moments.Pairwise (fun m earlier => earlier.log <:+ m.log) ∧
      ∀ m ∈ l.moments,
        (∀ (scope : ScopeId) (c : ObjectId),
          c ∈ m.allocated scope ↔ .allocated scope c ∈ m.log) ∧
        ∀ (c : ObjectId) (slot : Slot),
          m.evidence.get? c slot = Event.firstKnown c slot (Event.sinceForgotten p c m.log) ∧
          ∀ o : ObjectId, m.evidence.get? c slot = some o →
            o.isKnown = true ∧
            (∃ b, m.objects.builtinClassOf? c = some b ∧ slot.isOf b = true) ∧
            ∀ m' ∈ l.moments, ∀ later : List Event, m'.log = later ++ m.log →
              ¬ Event.ForgottenIn p c m.log later → m'.evidence.get? c slot = some o := by
  intro p
  have hp : p.WellBound := (Program.wellBound_bind tree atoms root).1
  refine ⟨fun α op l => ⟨op.erase_performLogging p l, ?_⟩, fun fuel scope expr l => ?_,
    fun s => ⟨State.Reached.logged, ?_⟩, fun l hl => ?_⟩
  · exact (op.traces_runLogging p.tracesAll_evaluate).suffix_past l
  · have H := Logging.tracesAll_evaluateWithin p fuel
    exact (Logging.traces_evaluateStep H scope expr).suffix_past l
  · rintro ⟨l, hl, rfl⟩
    exact hl.plain
  obtain ⟨htold, hordered⟩ := hl.truthful
  refine ⟨hordered, fun m hm => ?_⟩
  have h := htold m hm
  refine ⟨h.allocated, fun c slot => ⟨h.evidence c slot, fun o ho => ?_⟩⟩
  have hfirst := (h.evidence c slot).symm.trans ho
  refine ⟨Event.isKnown_of_firstKnown hfirst, h.inSlots.builtinClassOf? hp ho, ?_⟩
  intro m' hm' later hlog hlater
  rw [(htold m' hm').evidence c slot, hlog]
  exact Event.firstKnown_of_not_forgotten hlater hfirst

/-- Three inferences that come to the same list. The first puts the function into it. The
second has no argument, and what it puts there is not known, so that the function stays. The
third forgets the list, and puts the module into it. -/
theorem first_known_evidence_wins_collecting :
    let p := Program.bind Tree.collecting ⟨#["", "a", "x", "f"]⟩ (some 10)
    ∃ l₁ l₂ l₃ : Logged,
      (Operation.returned 16 (some (.objects [16]))).performLogging p (.start p {} {}) =
        .ok (some 16) l₁ ∧
      (Operation.returned 16 none).performLogging p l₁ = .ok (some 16) l₂ ∧
      (Operation.returned 16 (some (.objects [15]))).performLogging p l₂ = .ok (some 15) l₃ ∧
      l₃.log = [.added 17 .element 15, .allocated 1 17, .invalidated 1] ++
        ([.added 17 .element .unknown, .allocated 1 17] ++
          [.added 17 .element 16, .allocated 1 17, .invalidated 1]) ∧
      l₁.toMoment ∈ l₃.moments ∧ l₂.toMoment ∈ l₃.moments ∧
      l₁.evidence.get? 17 .element = some 16 ∧ l₂.evidence.get? 17 .element = some 16 ∧
      l₃.evidence.get? 17 .element = some 15 := by
  intro p
  let op₁ : Operation (Option ObjectId) := .returned 16 (some (.objects [16]))
  let op₂ : Operation (Option ObjectId) := .returned 16 none
  let op₃ : Operation (Option ObjectId) := .returned 16 (some (.objects [15]))
  let l₁ : Logged := Logging.finish (op₁.performLogging p (.start p {} {}))
  let l₂ : Logged := Logging.finish (op₂.performLogging p l₁)
  let l₃ : Logged := Logging.finish (op₃.performLogging p l₂)
  have h₁ : op₁.performLogging p (.start p {} {}) = .ok (some 16) l₁ :=
    Operation.performLogging_of_value? (by decide +kernel)
  have h₂ : op₂.performLogging p l₁ = .ok (some 16) l₂ :=
    Operation.performLogging_of_value? (by decide +kernel)
  have h₃ : op₃.performLogging p l₂ = .ok (some 15) l₃ :=
    Operation.performLogging_of_value? (by decide +kernel)
  have hreached : l₃.Reached p :=
    (((Logged.Reached.start {} {}).ok op₁ h₁).ok op₂ h₂).ok op₃ h₃
  have hlogs : l₁.log = [.added 17 .element 16, .allocated 1 17, .invalidated 1] ∧
      l₂.log = [.added 17 .element .unknown, .allocated 1 17] ++ l₁.log ∧
      l₃.log = [.added 17 .element 15, .allocated 1 17, .invalidated 1] ++ l₂.log := by
    decide +kernel
  have hmem : l₁.toMoment ∈ l₃.moments ∧ l₂.toMoment ∈ l₃.moments := by decide +kernel
  obtain ⟨hlog₁, hlog₂, hlog₃⟩ := hlogs
  obtain ⟨-, -, -, htold⟩ :=
    first_known_evidence_wins Tree.collecting ⟨#["", "a", "x", "f"]⟩ (some 10)
  obtain ⟨-, hmoments⟩ := htold l₃ hreached
  obtain ⟨-, hslots₁⟩ := hmoments _ hmem.1
  obtain ⟨hfirst₁, hstays₁⟩ := hslots₁ 17 .element
  have hevidence₁ : l₁.evidence.get? 17 .element = some 16 := by
    rw [hfirst₁, hlog₁]
    decide +kernel
  have hkept : ¬ Event.ForgottenIn p 17 l₁.log
      [.added 17 .element .unknown, .allocated 1 17] := by
    rintro ⟨after, e, before, hsplit, he⟩
    have hmem : e ∈ [Event.added 17 .element .unknown, .allocated 1 17] := by
      rw [hsplit]
      simp
    simp only [List.mem_cons, List.not_mem_nil, or_false] at hmem
    rcases hmem with rfl | rfl <;> exact he
  obtain ⟨-, -, hstays⟩ := hstays₁ 16 hevidence₁
  have hevidence₂ := hstays l₂.toMoment hmem.2 _ hlog₂ hkept
  obtain ⟨-, hslots₃⟩ := hmoments l₃.toMoment List.mem_cons_self
  have hevidence₃ : l₃.evidence.get? 17 .element = some 15 := by
    rw [(hslots₃ 17 .element).1, hlog₃, hlog₂, hlog₁]
    decide +kernel
  refine ⟨l₁, l₂, l₃, h₁, h₂, h₃, ?_, hmem.1, hmem.2, hevidence₁, hevidence₂, hevidence₃⟩
  rw [hlog₃, hlog₂, hlog₁]

end ObjectInference
