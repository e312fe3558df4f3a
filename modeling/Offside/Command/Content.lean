import Offside.Text.Utf8

/-!
What is found where a path leads, and what is said if that is no text.
-/

namespace Offside

inductive Content where
  | file (bytes : List Byte)
  | folder
  | missing
  | denied
  | notFolder
  | nameTooLong
  | failed (reason : String)
  deriving DecidableEq

/-- The text of a file, or what to say instead. -/
def Content.text (path : String) : Content → Except String String
  | .file bytes =>
    match String.fromUTF8? ⟨bytes.toArray⟩ with
    | some text => .ok text
    | none => .error s!"'{path}' contains invalid UTF-8 data"
  | .missing => .error s!"cannot find file '{path}'"
  | .denied => .error s!"permission denied reading '{path}'"
  | .folder => .error s!"error reading '{path}': Is a directory (os error 21)"
  | .notFolder => .error s!"error reading '{path}': Not a directory (os error 20)"
  | .nameTooLong => .error s!"error reading '{path}': File name too long (os error 36)"
  | .failed reason => .error s!"error reading '{path}': {reason}"

end Offside
