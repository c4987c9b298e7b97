import ObjectInference.Proofs.Operation
import ObjectInference.Proofs.Pairing.Analysis

/-!
Operations side by side.

Evaluators that pair everywhere make operations pair. `Lawful.operation` goes
through the operations once, for all pairings: what an operation is about has to
stand for itself, and then its results stand for each other.
-/

namespace ObjectInference

namespace Operation

def Given (R : Pairing) (s t : State) {α : Type} : Operation α → Prop
  | evaluate .. => True
  | primaryAndResult .. => True
  | assignedObject .. => True
  | resolveArguments a => R.SameArguments s t a a
  | bindArguments f a => R.same s t f f ∧ R.SameArguments s t a a
  | tryReturned f a => R.same s t f f ∧ Option.Rel (R.SameArguments s t) a a
  | returned f a => R.same s t f f ∧ Option.Rel (R.SameArguments s t) a a
  | analyze _ entity _ _ => R.same s t entity entity

def SameResult (R : Pairing) (s t : State) : {α : Type} → Operation α → α → α → Prop
  | _, evaluate .. => R.SameFound s t
  | _, primaryAndResult .. => fun x y => R.SameFound s t x.1 y.1 ∧ R.SameFound s t x.2 y.2
  | _, assignedObject .. => R.SameOption s t
  | _, resolveArguments _ => R.SameResolved s t
  | _, bindArguments .. => R.SameList s t
  | _, tryReturned .. => R.SameOption s t
  | _, returned .. => R.SameOption s t
  | _, analyze .. => fun _ _ => True

end Operation

namespace Pairing

variable {R : Pairing} {p : Program} {excused inner : R.World → Prop} {eval eval' : Evaluator}
  {On : ScopeId → NodeRef → Prop}
  {w : R.World} {s t : State} {α : Type}

/-! ### Objects in the store -/

theorem sameArguments_of_inRange {n : Nat} (hrefl : ∀ o < n, R.same s t o o) {a : Arguments}
    (ha : a.InRange n) : R.SameArguments s t a a := by
  cases a with
  | objects os => exact .objects (List.forall₂_same.2 fun o ho => hrefl o (ha o ho))
  | callSite call scope receiver =>
      refine .callSite call scope ?_
      cases receiver with
      | none => exact .none
      | some o => exact .some (hrefl o (ha o rfl))

theorem sameArguments?_of_inRange {n : Nat} (hrefl : ∀ o < n, R.same s t o o)
    {a : Option Arguments} (ha : ∀ x ∈ a, x.InRange n) :
    Option.Rel (R.SameArguments s t) a a := by
  cases a with
  | none => exact .none
  | some a => exact .some (sameArguments_of_inRange hrefl (ha a rfl))

theorem given_of_inRange {n : Nat} (hrefl : ∀ o < n, R.same s t o o) {op : Operation α}
    (hop : op.InRange n) : op.Given R s t := by
  cases op with
  | evaluate => trivial
  | primaryAndResult => trivial
  | assignedObject => trivial
  | resolveArguments a => exact sameArguments_of_inRange hrefl hop
  | bindArguments f a => exact ⟨hrefl f hop.1, sameArguments_of_inRange hrefl hop.2⟩
  | tryReturned f a => exact ⟨hrefl f hop.1, sameArguments?_of_inRange hrefl hop.2⟩
  | returned f a => exact ⟨hrefl f hop.1, sameArguments?_of_inRange hrefl hop.2⟩
  | analyze _ entity => exact hrefl entity hop

/-! ### All operations -/

/-- Inference of functions that stand for each other, for arguments that do. -/
theorem Lawful.returned (L : R.Lawful p) (A : R.Agree p excused eval eval' On)
    (D : R.Within p excused inner eval eval') (h : R.rel w s t) {f f' : ObjectId}
    (hf : R.same s t f f') {a a' : Option Arguments}
    (ha : Option.Rel (R.SameArguments s t) a a') (hon : ∀ x ∈ a, ArgumentsOn p On x) :
    R.Pairs (R.exits excused w).silent w s t R.SameOption (Infer.returned p eval f a)
      (Infer.returned p eval' f' a') := by
  refine .bind (L.tryReturned A D h hf ha hon).attempt fun x y s' t' hr hxy => ?_
  cases hxy with
  | ok hxy => exact .pure hr.rel hxy
  | error _ => exact .pure hr.rel .none

/-- An operation about objects that stand for themselves pairs with itself under evaluators
that pair everywhere. Only an analysis enters calls in the log. -/
theorem Lawful.operation (L : R.Lawful p) (H : ∀ e, R.PairsOn excused eval eval' e)
    (hmono : ∀ {w w' : R.World}, R.inside w w' → excused w' → excused w) (h : R.rel w s t)
    (op : Operation α) (hop : op.Given R s t) (hlog : op.IsAnalysis → R.Records p) :
    R.Pairs (R.exits excused w) w s t (fun s' t' => op.SameResult R s' t') (op.run p eval)
      (op.run p eval') := by
  have A := Agree.of_forall (p := p) H
  have D : R.Within p excused excused eval eval' := .of_forall H hmono
  cases op with
  | evaluate scope expr => exact H expr scope w s t h
  | primaryAndResult scope expr => exact L.primaryAndResult A h trivial
  | assignedObject scope value path => exact L.assignedObject (H _ scope) h
  | resolveArguments a => exact L.resolveArguments A h hop (argumentsOn_true a)
  | bindArguments f a =>
      exact (L.bindArguments A h hop.1 hop.2 (argumentsOn_true a)).mono
        fun _ _ _ _ _ hos => hos.2.1
  | tryReturned f a => exact L.tryReturned A D h hop.1 hop.2 fun _ _ => argumentsOn_true _
  | returned f a =>
      exact (L.returned A D h hop.1 hop.2 fun _ _ => argumentsOn_true _).of_silent
  | analyze options entity analyzes searches =>
      exact (L.analyzeWith (hlog trivial) A (fun _ _ _ => trivial) options h hop analyzes
        searches).of_silent

end Pairing

end ObjectInference
