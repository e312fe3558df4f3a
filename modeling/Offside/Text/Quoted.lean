import Offside.Text.Visible

/-!
Text between double quotes, on one line. A quote and a backslash are written with a backslash
before them, four controls by a letter or a digit, and every other hidden character by its number.
-/

namespace Offside.Text

/-- The number of a character in hexadecimal, between braces. -/
def numeric (c : Char) : List Char :=
  ['\\', 'u', '\x7b'] ++ Nat.toDigits 16 c.toNat ++ ['\x7d']

def escape (c : Char) : List Char :=
  match c with
  | '"' => ['\\', '"']
  | '\\' => ['\\', '\\']
  | '\n' => ['\\', 'n']
  | '\r' => ['\\', 'r']
  | '\t' => ['\\', 't']
  | '\x00' => ['\\', '0']
  | c => if isVisible c then [c] else numeric c

def quote (text : List Char) : List Char := '"' :: (text.flatMap escape ++ ['"'])

end Offside.Text
