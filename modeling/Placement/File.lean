/-!
# Files as they are found

What the outer layer hands over of a file: its bytes, or nothing if there is no such file. Text is
UTF-8 and is taken whole or not at all.
-/

namespace Placement

/-- Why a file gave no text. -/
inductive FileFault where
  | missing
  | notText
  deriving Repr, DecidableEq

namespace FileFault

def message : FileFault → String
  | missing => "No such file or directory (os error 2)"
  | notText => "stream did not contain valid UTF-8"

end FileFault

def fileText (found : Option ByteArray) : Except FileFault String :=
  match found with
  | none => .error .missing
  | some bytes =>
    match String.fromUTF8? bytes with
    | some text => .ok text
    | none => .error .notText

/-- What follows the last point in the name of the file at a path. A point that starts the name
counts as part of it, and a path that ends in `..` names no file. -/
def fileExtension? (path : String) : Option String := do
  let parts := (path.toList.splitOn '/').filter fun part => !part.isEmpty && part != ['.']
  let name ← parts.getLast?
  if name = ['.', '.'] then none
  match name.reverse.span (· != '.') with
  | (extension, _ :: _ :: _) => some (String.ofList extension.reverse)
  | _ => none

example : fileExtension? "dir/a.toml.json" = some "json" := by decide +kernel
example : fileExtension? ".json" = none := by decide +kernel

end Placement
