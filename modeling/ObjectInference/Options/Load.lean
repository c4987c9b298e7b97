import ObjectInference.FileTree
import ObjectInference.Options.Reader

/-!
Loading options from files.

A file may extend another one, which is looked for from the directory of the
first, and that one may extend a third. Each setting comes from the first file
in this chain that gives it. A chain that comes back to a file is an error.
-/

namespace ObjectInference

/-- Why options cannot be had from a file. -/
inductive LoadError where
  /-- The chain comes back to the file of this full path. -/
  | cycle (path : Path)
  | unreadable (path : Path)
  | unparsable (path : Path) (cause : OptionsError)
  /-- A file stands in no directory. -/
  | noDirectory
  /-- What the chain comes to is not valid. -/
  | invalid (path : Path) (cause : OptionsError)
deriving DecidableEq, Repr

/-- What to tell the user, from the general to the particular. -/
def LoadError.messages : LoadError → List String
  | cycle path => ["options extends cycle detected at " ++ String.ofList path]
  | unreadable path => ["failed to read options file: " ++ String.ofList path]
  | unparsable path cause =>
    ("failed to parse options file: " ++ String.ofList path) :: cause.messages
  | noDirectory => ["options file has no parent directory"]
  | invalid path cause => ("invalid options in " ++ String.ofList path) :: cause.messages

namespace OptionsFile

/-- The path of a file that another one extends. A name without an extension
is that of a JSON file. -/
def extendedPath (path : Path) (extended : String) : Except LoadError Path :=
  match path.parent? with
  | some directory =>
    .ok (directory.joined (Path.withExtension extended.toList ['j', 's', 'o', 'n']))
  | none => .error .noDirectory

/-- The full path by which a file is known: the one it stands at, or else the
path as it is spelled. -/
def identity (t : FileTree) (path : Path) : Path :=
  match t.locate? path with
  | some place => FileTree.fullPath place
  | none => path

def readFrom (t : FileTree) (path : Path) : Except LoadError OptionsFile :=
  match t.read? path with
  | none => .error (.unreadable path)
  | some text =>
    match OptionsFile.parse text with
    | .ok file => .ok file
    | .error cause => .error (.unparsable path cause)

/-- Load a file and what it extends, of which at most so many files are read.
The identities of the files that lead here must not come again. -/
def loadWithin (t : FileTree) : Nat → List Path → Path → Except LoadError OptionsFile
  | 0, _, path => .error (.cycle (identity t path))
  | fuel + 1, visited, path =>
    if identity t path ∈ visited then .error (.cycle (identity t path))
    else do
      let file ← readFrom t path
      match file.extended with
      | none => .ok file
      | some extended =>
        let base ← loadWithin t fuel (identity t path :: visited) (← extendedPath path extended)
        .ok (file.extending base)

/-- Load a file and what it extends. A chain that reads more files than there
are comes back to one of them. -/
def load (t : FileTree) (path : Path) : Except LoadError OptionsFile :=
  loadWithin t (t.entries.entries.length + 1) [] path

end OptionsFile

def Options.load (t : FileTree) (path : Path) : Except LoadError Options := do
  let file ← OptionsFile.load t path
  match file.resolve with
  | .ok options => .ok options
  | .error cause => .error (.invalid path cause)

end ObjectInference
