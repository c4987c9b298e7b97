import ObjectInference.Json.Token

/-!
Reading records from JSON tokens.

A record is an object with named fields, or an array of the same fields in
order, of which the last ones may be missing. A field must not be given twice.
Members of other names are passed over, whatever their values are, as long as
they are JSON. A reader takes tokens from the front and gives the rest back, so
the first fault of a text in reading order decides how reading fails.
-/

namespace ObjectInference.Json

/-- What may come next in a value that is passed over. Right after an opening
bracket, where an item or a key is the first, the closing one may come too. -/
inductive Expect where
  | value (first : Bool)
  | key (first : Bool)
  | colon
  /-- What follows a value. -/
  | next
deriving DecidableEq, Repr

/-- A bracket that is open. -/
inductive Frame where
  | array
  | object
deriving DecidableEq, Repr

/-- Pass over tokens up to the end of a value, inside the given brackets. -/
def passOver : List Frame → Expect → List Token → Option (List Token)
  | [], .next, ts => some ts
  | .array :: frames, .value true, .closeBracket :: ts => passOver frames .next ts
  | frames, .value _, .openBrace :: ts => passOver (.object :: frames) (.key true) ts
  | frames, .value _, .openBracket :: ts => passOver (.array :: frames) (.value true) ts
  | frames, .value _, .null :: ts => passOver frames .next ts
  | frames, .value _, .bool _ :: ts => passOver frames .next ts
  | frames, .value _, .number _ :: ts => passOver frames .next ts
  | frames, .value _, .string _ :: ts => passOver frames .next ts
  | .object :: frames, .key true, .closeBrace :: ts => passOver frames .next ts
  | frames, .key _, .string _ :: ts => passOver frames .colon ts
  | frames, .colon, .colon :: ts => passOver frames (.value false) ts
  | .array :: frames, .next, .closeBracket :: ts => passOver frames .next ts
  | .array :: frames, .next, .comma :: ts => passOver (.array :: frames) (.value false) ts
  | .object :: frames, .next, .closeBrace :: ts => passOver frames .next ts
  | .object :: frames, .next, .comma :: ts => passOver (.object :: frames) (.key false) ts
  | _, _, _ => none

def passValue (ts : List Token) : Option (List Token) :=
  passOver [] (.value false) ts

/-- Reading a value from the front of tokens. -/
abbrev Reader (ε α : Type) := List Token → Except ε (α × List Token)

/-- A field of a record: its name, and how its value changes what has been read
of the record. -/
structure Field (ε α : Type) where
  name : String
  read : α → Reader ε α

section Record

variable {ε α : Type}

/-- Read the members of an object from a key on, where fields that have been
read already must not come again. The fault is given to malformed objects. -/
def readMembers (fault : ε) (fields : List (Field ε α)) :
    Nat → List String → α → Reader ε α
  | fuel + 1, seen, a, .string (some key) :: .colon :: ts => do
    let (a, ts) ← match fields.find? fun f => f.name == key with
      | some field => if key ∈ seen then .error fault else field.read a ts
      | none =>
        match passValue ts with
        | some ts => .ok (a, ts)
        | none => .error fault
    match ts with
    | .closeBrace :: ts => .ok (a, ts)
    | .comma :: ts => readMembers fault fields fuel (key :: seen) a ts
    | _ => .error fault
  | _, _, _, _ => .error fault

/-- Read the items of an array as the fields of a record. -/
def readItems (fault : ε) : List (Field ε α) → α → Reader ε α
  | [], _, _ => .error fault
  | field :: fields, a, ts => do
    let (a, ts) ← field.read a ts
    match ts, fields with
    | .closeBracket :: ts, _ => .ok (a, ts)
    | .comma :: ts, next :: rest => readItems fault (next :: rest) a ts
    | _, _ => .error fault

/-- Read a record, starting from what it is when every field is missing. -/
def readRecord (fault : ε) (fields : List (Field ε α)) (start : α) : Reader ε α
  | .openBrace :: .closeBrace :: ts => .ok (start, ts)
  | .openBrace :: ts => readMembers fault fields ts.length [] start ts
  | .openBracket :: .closeBracket :: ts => .ok (start, ts)
  | .openBracket :: ts => readItems fault fields start ts
  | _ => .error fault

end Record

end ObjectInference.Json
