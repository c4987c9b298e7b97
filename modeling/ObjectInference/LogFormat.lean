import ObjectInference.Text.Word

/-!
The layout of log output: flat text lines, an indented tree, or one JSON
object a line.
-/

namespace ObjectInference

inductive LogFormat where
  | text
  | tree
  | json
deriving DecidableEq, Repr

/-- Read a layout by its name. A name that is not known means flat text. -/
def LogFormat.ofName (name : String) : LogFormat :=
  match Text.word name with
  | "tree" => .tree
  | "json" => .json
  | _ => .text

end ObjectInference
