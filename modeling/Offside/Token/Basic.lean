import Offside.Token.Tag

/-!
Tokens: a kind and the range of the source that they cover. A token holds no text of its own.
-/

namespace Offside

/-- A token covers the bytes of its source from `start` up to, not including, `stop`. -/
structure Token where
  tag : TokenTag
  start : Nat
  stop : Nat
  deriving DecidableEq, Repr

namespace Token

def wordSize : Nat := 4294967296

/-- The number of bytes covered. Offsets are words, so the length of a reversed range is what the
difference of two words comes to. -/
def length (t : Token) : Nat :=
  if t.start ≤ t.stop then t.stop - t.start else wordSize + t.stop - t.start

def isEmpty (t : Token) : Bool := t.start == t.stop

theorem length_of_le {t : Token} (ordered : t.start ≤ t.stop) : t.length = t.stop - t.start :=
  if_pos ordered

end Token
end Offside
