import Offside.Tree.Outline

/-!
The options of the command that prints trees. The first argument that is no good is reported; of
several depths the last one counts.
-/

namespace Offside

structure Options where
  depth : Nat := Outline.defaultDepth
  deriving DecidableEq, Repr

inductive OptionError where
  | unknown (argument : String)
  | invalidDepth (value : String)
  deriving DecidableEq, Repr

def OptionError.message : OptionError → String
  | .unknown argument => s!"unknown option '{argument}'"
  | .invalidDepth value => s!"invalid --max-depth value '{value}'"

namespace Options

def isOption (argument : String) : Bool := argument.toList.head? == some '-'

def depthValue? (argument : String) : Option String :=
  let name := "--max-depth=".toList
  if name.isPrefixOf argument.toList then some (String.ofList (argument.toList.drop name.length))
  else none

def ofDigits (digits : List Char) : Nat :=
  digits.foldl (fun n c => 10 * n + (c.toNat - '0'.toNat)) 0

def countLimit : Nat := 0x10000000000000000

/-- A count is one or more digits, after a plus sign or not, and below the limit. -/
def readCount? (text : String) : Option Nat :=
  let digits := match text.toList with
    | '+' :: rest => rest
    | chars => chars
  if digits ≠ [] ∧ digits.all Char.isDigit ∧ ofDigits digits < countLimit then
    some (ofDigits digits)
  else none

def extend (o : Options) (argument : String) : Except OptionError Options :=
  match depthValue? argument with
  | some value =>
    match readCount? value with
    | some depth => .ok { o with depth }
    | none => .error (.invalidDepth value)
  | none => if isOption argument then .error (.unknown argument) else .ok o

def ofArguments (arguments : List String) : Except OptionError Options :=
  arguments.foldlM extend {}

end Options
end Offside
