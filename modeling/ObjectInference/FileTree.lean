import ObjectInference.Path
import ObjectInference.Table

/-!
A tree of files, as it is seen from a working directory.

Files and directories are kept by the names that lead to them from the root. A
path is followed name by name, every step of which must start in a directory. An
absolute path starts at the root, and any other one at the working directory.
-/

namespace ObjectInference

/-- Where a file or directory is: the names that lead to it from the root. -/
abbrev Place := List (List Char)

/-- Names that files and directories may have. -/
def Place.Proper (place : Place) : Prop := ∀ name ∈ place, name ≠ [] ∧ '/' ∉ name

instance (place : Place) : Decidable place.Proper :=
  inferInstanceAs (Decidable (∀ name ∈ place, name ≠ [] ∧ '/' ∉ name))

inductive FileEntry where
  | directory
  | file (content : ByteArray)

structure FileTree where
  /-- The working directory. -/
  working : Place
  entries : Table Place FileEntry := .empty
  proper : working.Proper := by decide

namespace FileTree

/-- How many bytes a path may have to be opened. -/
def maxPathBytes : Nat := 4095

/-- What is at a place. The root is a directory. -/
def entry? (t : FileTree) (place : Place) : Option FileEntry :=
  match place with
  | [] => some .directory
  | _ => t.entries.get? place

def isDirectory (t : FileTree) (place : Place) : Bool :=
  match t.entry? place with
  | some .directory => true
  | _ => false

/-- Follow names from a place. The root is its own parent. -/
def follow (t : FileTree) (place : Place) : List (List Char) → Option Place
  | [] => some place
  | name :: names =>
    if !t.isDirectory place then none
    else if Path.isIdle name then t.follow place names
    else if name == ['.', '.'] then t.follow place.dropLast names
    else if t.entries.contains (place ++ [name]) then t.follow (place ++ [name]) names
    else none

/-- Where a path starts. -/
def origin (t : FileTree) (p : Path) : Place :=
  if p.isAbsolute then [] else t.working

/-- The place that a path leads to. -/
def locate? (t : FileTree) (p : Path) : Option Place :=
  if p.isEmpty then none else t.follow (t.origin p) (p.segments.map Prod.fst)

def fullPath : Place → Path
  | [] => ['/']
  | place => place.flatMap fun name => '/' :: name

/-- The text of a file, if it can be opened and is text. -/
def read? (t : FileTree) (p : Path) : Option String :=
  if maxPathBytes < (String.ofList p).utf8ByteSize then none
  else
    match (t.locate? p).bind t.entry? with
    | some (.file content) => String.fromUTF8? content
    | _ => none

/-- Make the directories that names lead through, from a place on. -/
def makeFrom (t : FileTree) (place : Place) : List (List Char) → FileTree
  | [] => t
  | name :: names =>
    if Path.isIdle name then t.makeFrom place names
    else if name == ['.', '.'] then t.makeFrom place.dropLast names
    else
      let next := place ++ [name]
      makeFrom { t with entries := t.entries.insertNew next .directory } next names

def makeDirectory (t : FileTree) (p : Path) : FileTree :=
  t.makeFrom (t.origin p) (p.segments.map Prod.fst)

/-- Write a file into a directory that is there. -/
def write (t : FileTree) (p : Path) (content : ByteArray) : FileTree :=
  let names := p.segments.map Prod.fst
  match t.follow (t.origin p) names.dropLast, names.getLast? with
  | some place, some name =>
    if t.isDirectory place then
      { t with entries := t.entries.insert (place ++ [name]) (.file content) }
    else t
  | _, _ => t

end FileTree

end ObjectInference
