import ObjectInference.Guard

/-!
Settings of an inference run.
-/

namespace ObjectInference

structure Options where
  /-- Let built-in functions compute their result where a call is analysed. -/
  eagerBuiltinCalls : Bool := true
  /-- Learn what containers hold from assignments to their items. -/
  analyzeSubscriptAssignments : Bool := true
  maxInferenceDepth : Nat := 50
  maxInferenceIterations : Nat := 100000
deriving DecidableEq, Repr

/-- The limits of return inference. The default ones go by their name. -/
def Options.profile (o : Options) : Profile :=
  if o.maxInferenceDepth = Profile.returnInference.maxDepth ∧
      o.maxInferenceIterations = Profile.returnInference.maxIterations then
    .returnInference
  else .custom o.maxInferenceDepth o.maxInferenceIterations

end ObjectInference
