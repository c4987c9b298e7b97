/-!
File paths as they are spelled.

A path is a text whose names are divided by slashes. Empty names and single
dots do not count, but for a dot that opens a relative path. What is taken from
a path, its parent or its last name, keeps the spelling of the rest.
-/

namespace ObjectInference

abbrev Path := List Char

namespace Path

def isAbsolute (p : Path) : Bool := p.head? == some '/'

/-- The names in a text between slashes, each with the length of the text up to
its end. The length is that of the text before, and the name so far is given in
reverse. -/
def segmentsFrom (before : Nat) (name : List Char) : List Char → List (List Char × Nat)
  | [] => [(name.reverse, before)]
  | c :: cs =>
    if c == '/' then (name.reverse, before) :: segmentsFrom (before + 1) [] cs
    else segmentsFrom (before + 1) (c :: name) cs

/-- All names of a path, the empty ones included. -/
def segments (p : Path) : List (List Char × Nat) :=
  segmentsFrom 0 [] p

/-- A name that does not count where it is not the first. -/
def isIdle (name : List Char) : Bool :=
  name == [] || name == ['.']

/-- The names that count, each with the length of the path up to its end. -/
def parts (p : Path) : List (List Char × Nat) :=
  match p.segments with
  | [] => []
  | first :: rest =>
    let rest := rest.filter fun s => !isIdle s.1
    if first.1 == [] then rest else first :: rest

def parent? (p : Path) : Option Path :=
  match p.parts.reverse with
  | [] => none
  | [_] => some (if p.isAbsolute then ['/'] else [])
  | _ :: (_, length) :: _ => some (p.take length)

/-- The last name, with the length of the path up to its end. A dot and two
dots are no file's name. -/
def lastName? (p : Path) : Option (List Char × Nat) :=
  match p.parts.getLast? with
  | some (name, length) =>
    if name == ['.'] || name == ['.', '.'] then none else some (name, length)
  | none => none

/-- A name has an extension if there is a dot in it after its first character. -/
def hasExtension (p : Path) : Bool :=
  match p.lastName? with
  | some (name, _) => name.tail.contains '.'
  | none => false

/-- The path with an extension after its last name, if it has one and if that
has no extension. What follows the name is dropped. -/
def withExtension (p : Path) (extension : List Char) : Path :=
  if p.hasExtension then p
  else
    match p.lastName? with
    | some (_, length) => p.take length ++ '.' :: extension
    | none => p

def joined (base p : Path) : Path :=
  if p.isAbsolute || base == [] || base.getLast? == some '/' then
    if p.isAbsolute then p else base ++ p
  else base ++ '/' :: p

end Path

end ObjectInference
