/-!
The tokens of JSON text, by the grammar of RFC 8259 and nothing beside it.

`Token.scan` cuts a text into tokens. Where the text stops being JSON the scan
ends with the token `bad`, so a reader that takes the tokens one by one meets
the first fault of the text where it stands. Numbers keep their spelling. A
string whose escapes contain half a surrogate pair alone has no text, but it is
a token: only a reader that wants the text has to refuse it.
-/

namespace ObjectInference.Json

inductive Token where
  | openBrace
  | closeBrace
  | openBracket
  | closeBracket
  | colon
  | comma
  | null
  | bool (value : Bool)
  | number (spelling : List Char)
  | string (text : Option String)
  | bad
deriving DecidableEq, Repr

def isSpace (c : Char) : Bool :=
  c == ' ' || c == '\t' || c == '\n' || c == '\r'

/-! ### Numbers -/

/-- Split off the digits at the front. -/
def digits (cs : List Char) : List Char × List Char :=
  (cs.takeWhile Char.isDigit, cs.dropWhile Char.isDigit)

/-- The integer part: a zero, or digits that start with another one. -/
def integerPart : List Char → Option (List Char × List Char)
  | '0' :: cs => some (['0'], cs)
  | cs =>
    match digits cs with
    | ([], _) => none
    | found => some found

/-- A point and digits, or nothing. -/
def fractionPart : List Char → Option (List Char × List Char)
  | '.' :: cs =>
    match digits cs with
    | ([], _) => none
    | (ds, rest) => some ('.' :: ds, rest)
  | cs => some ([], cs)

/-- The sign of an exponent, or nothing. -/
def signPart : List Char → List Char × List Char
  | '+' :: cs => (['+'], cs)
  | '-' :: cs => (['-'], cs)
  | cs => ([], cs)

/-- A mark, a sign and digits, or nothing. -/
def exponentPart : List Char → Option (List Char × List Char)
  | [] => some ([], [])
  | c :: cs =>
    if c == 'e' || c == 'E' then
      let (sign, cs) := signPart cs
      match digits cs with
      | ([], _) => none
      | (ds, rest) => some (c :: (sign ++ ds), rest)
    else some ([], c :: cs)

def unsignedNumber (cs : List Char) : Option (List Char × List Char) := do
  let (whole, cs) ← integerPart cs
  let (fraction, cs) ← fractionPart cs
  let (exponent, cs) ← exponentPart cs
  return (whole ++ fraction ++ exponent, cs)

def number : List Char → Option (List Char × List Char)
  | '-' :: cs => (unsignedNumber cs).map fun (spelling, rest) => ('-' :: spelling, rest)
  | cs => unsignedNumber cs

/-! ### Strings -/

def hexValue (c : Char) : Option Nat :=
  if '0' ≤ c ∧ c ≤ '9' then some (c.toNat - '0'.toNat)
  else if 'a' ≤ c ∧ c ≤ 'f' then some (c.toNat - 'a'.toNat + 10)
  else if 'A' ≤ c ∧ c ≤ 'F' then some (c.toNat - 'A'.toNat + 10)
  else none

/-- The unit that four hexadecimal digits spell. -/
def hexUnit (a b c d : Char) : Option Nat := do
  let high := (← hexValue a) * 16 + (← hexValue b)
  let low := (← hexValue c) * 16 + (← hexValue d)
  return high * 256 + low

/-- The character of an escape of one letter. -/
def shortEscape : Char → Option Char
  | '"' => some '"'
  | '\\' => some '\\'
  | '/' => some '/'
  | 'b' => some '\x08'
  | 'f' => some '\x0c'
  | 'n' => some '\n'
  | 'r' => some '\r'
  | 't' => some '\t'
  | _ => none

/-- A part of a string: a character, or a sixteen-bit unit from an escape. -/
inductive Part where
  | char (c : Char)
  | unit (n : Nat)
deriving DecidableEq, Repr

/-- The parts of a string after its opening quote, and what follows the
closing one. -/
def parts : List Char → Option (List Part × List Char)
  | [] => none
  | '"' :: cs => some ([], cs)
  | '\\' :: 'u' :: a :: b :: c :: d :: cs => do
    let n ← hexUnit a b c d
    let (ps, rest) ← parts cs
    return (.unit n :: ps, rest)
  | '\\' :: e :: cs => do
    let c ← shortEscape e
    let (ps, rest) ← parts cs
    return (.char c :: ps, rest)
  | c :: cs =>
    if c == '\\' || c.toNat < 0x20 then none
    else do
      let (ps, rest) ← parts cs
      return (.char c :: ps, rest)

def isHighSurrogate (n : Nat) : Bool := 0xD800 ≤ n && n < 0xDC00

def isLowSurrogate (n : Nat) : Bool := 0xDC00 ≤ n && n < 0xE000

/-- The characters that parts stand for. A surrogate outside a pair stands for
none. -/
def charsOfParts : List Part → Option (List Char)
  | [] => some []
  | .char c :: ps => (charsOfParts ps).map (c :: ·)
  | .unit n :: .unit m :: ps =>
    if isHighSurrogate n && isLowSurrogate m then
      (charsOfParts ps).map (Char.ofNat (0x10000 + (n - 0xD800) * 0x400 + (m - 0xDC00)) :: ·)
    else if isHighSurrogate n || isLowSurrogate n then none
    else (charsOfParts (.unit m :: ps)).map (Char.ofNat n :: ·)
  | .unit n :: ps =>
    if isHighSurrogate n || isLowSurrogate n then none
    else (charsOfParts ps).map (Char.ofNat n :: ·)

/-! ### Texts -/

namespace Token

/-- The token that starts with a character, and what follows it. -/
def first (c : Char) (cs : List Char) : Option (Token × List Char) :=
  match c, cs with
  | '{', cs => some (openBrace, cs)
  | '}', cs => some (closeBrace, cs)
  | '[', cs => some (openBracket, cs)
  | ']', cs => some (closeBracket, cs)
  | ':', cs => some (colon, cs)
  | ',', cs => some (comma, cs)
  | 'n', 'u' :: 'l' :: 'l' :: cs => some (null, cs)
  | 't', 'r' :: 'u' :: 'e' :: cs => some (bool true, cs)
  | 'f', 'a' :: 'l' :: 's' :: 'e' :: cs => some (bool false, cs)
  | '"', cs => (parts cs).map fun (ps, rest) => (string ((charsOfParts ps).map String.ofList), rest)
  | c, cs => (Json.number (c :: cs)).map fun (spelling, rest) => (number spelling, rest)

/-- The tokens of a text, of which a scan looks at no more than so many
characters. -/
def scanWithin : Nat → List Char → List Token
  | 0, _ => []
  | _, [] => []
  | fuel + 1, c :: cs =>
    if isSpace c then scanWithin fuel cs
    else
      match first c cs with
      | some (token, rest) => token :: scanWithin fuel rest
      | none => [bad]

/-- The tokens of a text. Every token is a character long at least, so the
length of the text bounds the scan. -/
def scan (text : String) : List Token :=
  scanWithin text.toList.length text.toList

end Token

end ObjectInference.Json
