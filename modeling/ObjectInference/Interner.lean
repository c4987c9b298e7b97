/-!
Interned texts. An atom is the position of a text in the sequence of texts
met so far, so names are compared by number. The sequence opens with the
empty text, only ever grows at its end, and holds no text twice: the last is
`Interner.Distinct`, and `intern` is the only operation that writes.
-/

namespace ObjectInference

/-- The number of an interned text. -/
abbrev Atom := Nat

/-- The empty text stands for no name. -/
def Atom.isNone (a : Atom) : Bool := a == 0

structure Interner where
  texts : Array String
deriving DecidableEq, Repr

namespace Interner

def new : Interner := ⟨#[""]⟩

def size (t : Interner) : Nat := t.texts.size

/-- Nothing but the empty text has been met. -/
def isEmpty (t : Interner) : Bool := t.size ≤ 1

def find? (t : Interner) (s : String) : Option Atom :=
  t.texts.findIdx? (· == s)

/-- The text of an atom, and the empty text for a number never handed out. -/
def resolve (t : Interner) (a : Atom) : String :=
  (t.texts[a]?).getD ""

/-- The atom of a text, new texts getting the next number. -/
def intern (t : Interner) (s : String) : Atom × Interner :=
  match t.find? s with
  | some a => (a, t)
  | none => (t.size, ⟨t.texts.push s⟩)

def internAll (t : Interner) (ss : List String) : Interner :=
  ss.foldl (fun t s => (t.intern s).2) t

/-- Special methods, receiver and parameter names, and the names of built-in
classes and functions. -/
def commonTexts : List String :=
  ["__init__", "__call__", "__setitem__", "__getitem__",
   "self", "cls", "args", "kwargs", "key", "value", "index", "item",
   "int", "float", "str", "bool", "list", "dict", "tuple", "len", "append"]

def internCommon (t : Interner) : Interner :=
  t.internAll commonTexts

/-- No text has two atoms. -/
def Distinct (t : Interner) : Prop :=
  t.texts.toList.Nodup

end Interner

end ObjectInference
