import ObjectInference.Proofs.Pairing.Operation

/-!
A run beside itself.

In a rigid pairing no object stands for another. Then neither do names, lists and
whatever else is made of objects, and results of operations that stand for each
other are equal. A pairing is diagonal when, besides, every object stands for itself.
-/

namespace ObjectInference

namespace Pairing

/-- No object stands for another. -/
structure Rigid (R : Pairing) : Prop where
  eq_of_same {s t : State} {a b : ObjectId} (h : R.same s t a b) : a = b

namespace Rigid

variable {R : Pairing} {s t : State} (hR : R.Rigid)

include hR

theorem eq_of_sameOption {x y : Option ObjectId} (h : R.SameOption s t x y) : x = y := by
  cases h with
  | none => rfl
  | some hab => rw [hR.eq_of_same hab]

theorem eq_of_sameList {os os' : List ObjectId} (h : R.SameList s t os os') : os = os' := by
  induction h with
  | nil => rfl
  | cons hab _ ih => rw [ih, hR.eq_of_same hab]

theorem eq_of_sameFound {x y : Option Name} (h : R.SameFound s t x y) : x = y := by
  cases h with
  | none => rfl
  | @some n n' hn =>
      obtain ⟨o, origin⟩ := n
      obtain ⟨o', origin'⟩ := n'
      obtain rfl : o = o' := hR.eq_of_same hn.1
      obtain rfl : origin = origin' := hn.2
      rfl

theorem eq_of_sameResolved {a a' : ResolvedArguments} (h : R.SameResolved s t a a') : a = a' := by
  obtain ⟨positional, keywords⟩ := a
  obtain ⟨positional', keywords'⟩ := a'
  obtain rfl : positional = positional' := hR.eq_of_sameList h.positional
  have hkeywords : keywords = keywords' := by
    have hk := h.keywords
    clear h
    dsimp only at hk
    induction hk with
    | nil => rfl
    | cons hk _ ih => rw [ih, Prod.ext hk.1 (hR.eq_of_same hk.2)]
  rw [hkeywords]

theorem eq_of_sameResult {α : Type} {op : Operation α} {a b : α}
    (h : op.SameResult R s t a b) : a = b := by
  cases op with
  | evaluate => exact hR.eq_of_sameFound h
  | primaryAndResult => exact Prod.ext (hR.eq_of_sameFound h.1) (hR.eq_of_sameFound h.2)
  | assignedObject => exact hR.eq_of_sameOption h
  | resolveArguments => exact hR.eq_of_sameResolved h
  | bindArguments => exact hR.eq_of_sameList h
  | tryReturned => exact hR.eq_of_sameOption h
  | returned => exact hR.eq_of_sameOption h
  | analyze => rfl

end Rigid

/-- Every object stands for itself and for no other. -/
structure Diagonal (R : Pairing) : Prop where
  same_iff {s t : State} {a b : ObjectId} : R.same s t a b ↔ a = b

namespace Diagonal

variable {R : Pairing} {s t : State}

theorem rigid (hR : R.Diagonal) : R.Rigid := ⟨hR.same_iff.1⟩

theorem sameOption_iff (hR : R.Diagonal) {x y : Option ObjectId} :
    R.SameOption s t x y ↔ x = y := by
  refine ⟨hR.rigid.eq_of_sameOption, ?_⟩
  rintro rfl
  cases x with
  | none => exact .none
  | some => exact .some (hR.same_iff.2 rfl)

theorem sameList_iff (hR : R.Diagonal) {os os' : List ObjectId} :
    R.SameList s t os os' ↔ os = os' := by
  refine ⟨hR.rigid.eq_of_sameList, ?_⟩
  rintro rfl
  exact List.forall₂_same.2 fun _ _ => hR.same_iff.2 rfl

theorem sameFound_iff (hR : R.Diagonal) {x y : Option Name} :
    R.SameFound s t x y ↔ x = y := by
  refine ⟨hR.rigid.eq_of_sameFound, ?_⟩
  rintro rfl
  cases x with
  | none => exact .none
  | some => exact .some ⟨hR.same_iff.2 rfl, rfl⟩

theorem sameArguments_refl (hR : R.Diagonal) (s t : State) (a : Arguments) :
    R.SameArguments s t a a := by
  cases a with
  | callSite call scope receiver => exact .callSite call scope (hR.sameOption_iff.2 rfl)
  | objects os => exact .objects (hR.sameList_iff.2 rfl)

theorem given (hR : R.Diagonal) {α : Type} (op : Operation α) : op.Given R s t := by
  have hargs : ∀ a, R.SameArguments s t a a := hR.sameArguments_refl s t
  have hargs? : ∀ a, Option.Rel (R.SameArguments s t) a a := by
    intro a
    cases a with
    | none => exact .none
    | some a => exact .some (hargs a)
  cases op with
  | evaluate => trivial
  | primaryAndResult => trivial
  | assignedObject => trivial
  | resolveArguments a => exact hargs a
  | bindArguments f a => exact ⟨hR.same_iff.2 rfl, hargs a⟩
  | tryReturned f a => exact ⟨hR.same_iff.2 rfl, hargs? a⟩
  | returned f a => exact ⟨hR.same_iff.2 rfl, hargs? a⟩
  | analyze => exact hR.same_iff.2 rfl

end Diagonal

/-- Where corresponding states are equal, computations that pair without an excuse and
with equal results are equal on the state. -/
theorem Pairs.eq_run {R : Pairing} {E : Exits} {w : R.World} {s : State} {α : Type}
    {Q : State → State → α → α → Prop} {x y : Infer α} (h : R.Pairs E w s s Q x y)
    (hrel : ∀ {w : R.World} {s t : State}, R.rel w s t → s = t) (hastray : ∀ s, ¬ R.astray s)
    (hQ : ∀ {s t : State} {a b : α}, Q s t a b → a = b)
    (hsignal : ∀ f g, E.signal f g → f = g) (hE : ¬ E.excused) : x s = y s := by
  unfold Pairs at h
  generalize x s = r, y s = r' at h ⊢
  cases h with
  | ok h hab => rw [hrel h.rel, hQ hab]
  | reentrant h hfg => rw [hrel h.rel, hsignal _ _ hfg]
  | exhausted he => exact absurd he hE
  | strayed _ _ hs => exact absurd hs (hastray _)
  | strayedReentrant _ _ hs => exact absurd hs (hastray _)

/-- In a diagonal pairing the results of an operation are equal. -/
theorem Lawful.operation_eq {R : Pairing} {p : Program} {excused : R.World → Prop}
    {eval eval' : Evaluator} {w : R.World} {s t : State} {α : Type} (L : R.Lawful p)
    (hR : R.Diagonal) (H : ∀ e, R.PairsOn excused eval eval' e)
    (hmono : ∀ {w w' : R.World}, R.inside w w' → excused w' → excused w) (h : R.rel w s t)
    (op : Operation α) (hlog : op.IsAnalysis → R.Records p) :
    R.Pairs (R.exits excused w) w s t (fun _ _ => Eq) (op.run p eval) (op.run p eval') :=
  (L.operation H hmono h op (hR.given op) hlog).mono fun _ _ _ _ _ => hR.rigid.eq_of_sameResult

end Pairing

end ObjectInference
