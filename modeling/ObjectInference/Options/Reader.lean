import ObjectInference.Json.Record
import ObjectInference.Options.File
import ObjectInference.Text.Word

/-!
Reading options from JSON text.

In a file every setting may be null, which leaves it out, and a truth value may
be spelled as a word. Options by themselves are read strictly: no nulls, no
words, and any setting that is missing has its default.
-/

namespace ObjectInference

open Json

/-- Reading that ends in an options error. -/
abbrev OptionsReader (α : Type) := Json.Reader OptionsError α

/-- The largest limit that can be written. -/
def maxLimit : Nat := 4294967295

def digitsValue (ds : List Char) : Nat :=
  ds.foldl (fun n d => n * 10 + (d.toNat - '0'.toNat)) 0

/-- The number of a spelling without sign, point and exponent, if it is within
the bounds of a limit. -/
def limitOfSpelling (spelling : List Char) : Option Nat :=
  if spelling.all Char.isDigit && digitsValue spelling ≤ maxLimit then
    some (digitsValue spelling)
  else none

def boolOfWord : String → Option Bool
  | "true" => some true
  | "1" => some true
  | "yes" => some true
  | "on" => some true
  | "false" => some false
  | "0" => some false
  | "no" => some false
  | "off" => some false
  | _ => none

/-! ### Values -/

def readBool : OptionsReader Bool
  | .bool b :: ts => .ok (b, ts)
  | _ => .error .malformed

def readLimit : OptionsReader Nat
  | .number spelling :: ts =>
    match limitOfSpelling spelling with
    | some n => .ok (n, ts)
    | none => .error .malformed
  | _ => .error .malformed

def readText : OptionsReader String
  | .string (some text) :: ts => .ok (text, ts)
  | _ => .error .malformed

def readWord : OptionsReader Bool
  | .string (some text) :: ts =>
    match boolOfWord (Text.word text) with
    | some b => .ok (b, ts)
    | none => .error (.invalidBoolean text)
  | ts => readBool ts

def readOptional {α : Type} (read : OptionsReader α) : OptionsReader (Option α)
  | .null :: ts => .ok (none, ts)
  | ts => (read ts).map fun (a, ts) => (some a, ts)

/-- A field that is read by itself and then put in its place. -/
def fieldOf {α β : Type} (name : String) (read : OptionsReader β) (put : α → β → α) :
    Field OptionsError α where
  name := name
  read := fun a ts => (read ts).map fun (b, ts) => (put a b, ts)

/-! ### Records -/

def overrideFields : List (Field OptionsError Overrides) :=
  [fieldOf "eagerBuiltinCalls" (readOptional readWord)
      fun o b => { o with eagerBuiltinCalls := b },
   fieldOf "analyzeSubscriptAssignments" (readOptional readWord)
      fun o b => { o with analyzeSubscriptAssignments := b },
   fieldOf "maxInferenceDepth" (readOptional readLimit)
      fun o n => { o with maxInferenceDepth := n },
   fieldOf "maxInferenceIterations" (readOptional readLimit)
      fun o n => { o with maxInferenceIterations := n }]

def fileFields : List (Field OptionsError OptionsFile) :=
  [fieldOf "extends" (readOptional readText)
      fun f text => { f with extended := text },
   fieldOf "inferenceOptions" (readOptional (readRecord .malformed overrideFields {}))
      fun f o => { f with inferenceOptions := o }]

def optionFields : List (Field OptionsError Options) :=
  [fieldOf "eagerBuiltinCalls" readBool fun o b => { o with eagerBuiltinCalls := b },
   fieldOf "analyzeSubscriptAssignments" readBool
      fun o b => { o with analyzeSubscriptAssignments := b },
   fieldOf "maxInferenceDepth" readLimit fun o n => { o with maxInferenceDepth := n },
   fieldOf "maxInferenceIterations" readLimit fun o n => { o with maxInferenceIterations := n }]

/-- Read a whole text as one value. -/
def readWhole {α : Type} (read : OptionsReader α) (text : String) : Except OptionsError α :=
  match read (Token.scan text) with
  | .ok (a, []) => .ok a
  | .ok (_, _ :: _) => .error .malformed
  | .error e => .error e

/-- Read an options file. -/
def OptionsFile.parse (text : String) : Except OptionsError OptionsFile :=
  readWhole (readRecord .malformed fileFields {}) text

/-- Read options from the text of a file, with no regard to what it extends. -/
def Options.parse (text : String) : Except OptionsError Options := do
  (← OptionsFile.parse text).resolve

/-- Read options by themselves. -/
def Options.parseStrict (text : String) : Except OptionsError Options :=
  readWhole (readRecord .malformed optionFields {}) text

end ObjectInference
