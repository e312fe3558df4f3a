import Offside.Command.Invocation

/-!
The program: it reads the files that the arguments name and prints what the run comes to.
-/

namespace Offside

def Content.ofError : IO.Error → Content
  | .noFileOrDirectory _ _ _ => .missing
  | .permissionDenied _ _ _ => .denied
  | .inappropriateType _ 21 _ => .folder
  | .inappropriateType _ _ _ => .notFolder
  | .invalidArgument _ _ "name too long" => .nameTooLong
  | e => .failed (toString e)

def readContent (path : String) : IO Content := do
  try
    let bytes ← IO.FS.readBinFile path
    return .file bytes.data.toList
  catch e => return .ofError e

end Offside

def main (arguments : List String) : IO UInt32 := do
  let invocation := Offside.Invocation.ofArguments arguments
  let contents ← invocation.paths.mapM fun path => do
    return (path, ← Offside.readContent path)
  let outcome := invocation.run fun path => (contents.lookup path).getD .missing
  IO.print outcome.out
  IO.eprint outcome.err
  return UInt32.ofNat outcome.exit
