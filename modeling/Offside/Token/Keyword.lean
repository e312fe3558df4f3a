import Offside.Text.Byte
import Offside.Token.Tag

/-!
The five words that are keywords.
-/

namespace Offside

def keyword? : List Byte → Option TokenTag
  | [0x69, 0x66] => some .kwIf
  | [0x66, 0x6F, 0x72] => some .kwFor
  | [0x65, 0x6C, 0x69, 0x66] => some .kwElif
  | [0x65, 0x6C, 0x73, 0x65] => some .kwElse
  | [0x77, 0x68, 0x69, 0x6C, 0x65] => some .kwWhile
  | _ => none

end Offside
