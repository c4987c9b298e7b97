import ObjectInference.Options.Basic

/-!
What an options file says: which file it extends, and which settings it gives.

A setting that a file leaves out is taken from the file it extends, and from
the defaults at the end of that chain. Limits are checked only then, so a file
may mend a limit of a file that it extends.
-/

namespace ObjectInference

/-- Why options cannot be had from a text. -/
inductive OptionsError where
  /-- The text is not JSON, or not of the form of an options file. -/
  | malformed
  /-- A text stands in the place of a truth value and spells none. -/
  | invalidBoolean (text : String)
  | depthBelowOne
  | iterationsBelowOne
deriving DecidableEq, Repr

/-- What to tell the user, from the general to the particular. -/
def OptionsError.messages : OptionsError → List String
  | malformed => ["failed to parse options JSON"]
  | invalidBoolean text =>
    ["failed to parse options JSON",
     "invalid boolean value: '" ++ text ++ "'. Expected true, false, 'true', or 'false'"]
  | depthBelowOne => ["inferenceOptions.maxInferenceDepth must be at least 1"]
  | iterationsBelowOne => ["inferenceOptions.maxInferenceIterations must be at least 1"]

/-- The settings that a file gives. -/
structure Overrides where
  eagerBuiltinCalls : Option Bool := none
  analyzeSubscriptAssignments : Option Bool := none
  maxInferenceDepth : Option Nat := none
  maxInferenceIterations : Option Nat := none
deriving DecidableEq, Repr

namespace Overrides

/-- Settings of a file, with those that it leaves out taken from another. -/
def orElse (child base : Overrides) : Overrides where
  eagerBuiltinCalls := child.eagerBuiltinCalls.or base.eagerBuiltinCalls
  analyzeSubscriptAssignments :=
    child.analyzeSubscriptAssignments.or base.analyzeSubscriptAssignments
  maxInferenceDepth := child.maxInferenceDepth.or base.maxInferenceDepth
  maxInferenceIterations := child.maxInferenceIterations.or base.maxInferenceIterations

/-- Settings with those that are left out taken from the defaults. -/
def apply (o : Overrides) (defaults : Options) : Options where
  eagerBuiltinCalls := o.eagerBuiltinCalls.getD defaults.eagerBuiltinCalls
  analyzeSubscriptAssignments :=
    o.analyzeSubscriptAssignments.getD defaults.analyzeSubscriptAssignments
  maxInferenceDepth := o.maxInferenceDepth.getD defaults.maxInferenceDepth
  maxInferenceIterations := o.maxInferenceIterations.getD defaults.maxInferenceIterations

end Overrides

structure OptionsFile where
  /-- The file that this one extends, from its own directory. -/
  extended : Option String := none
  inferenceOptions : Option Overrides := none
deriving DecidableEq, Repr

namespace OptionsFile

/-- What two files say together, where the first extends the second. -/
def extending (child base : OptionsFile) : OptionsFile where
  extended := none
  inferenceOptions :=
    match child.inferenceOptions, base.inferenceOptions with
    | some c, some b => some (c.orElse b)
    | c, b => c.or b

/-- The options that a file comes to. Both limits must be at least one. -/
def resolve (f : OptionsFile) : Except OptionsError Options :=
  let o := (f.inferenceOptions.getD {}).apply {}
  if o.maxInferenceDepth = 0 then .error .depthBelowOne
  else if o.maxInferenceIterations = 0 then .error .iterationsBelowOne
  else .ok o

end OptionsFile

end ObjectInference
