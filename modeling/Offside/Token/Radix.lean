import Offside.Text.Byte

/-!
The bases in which a number may be written.
-/

namespace Offside

inductive Radix where
  | binary
  | octal
  | decimal
  | hexadecimal
  deriving DecidableEq, Repr

namespace Radix

def all : List Radix := [binary, octal, decimal, hexadecimal]

def base : Radix → Nat
  | binary => 2
  | octal => 8
  | decimal => 10
  | hexadecimal => 16

def isDigit : Radix → Byte → Bool
  | binary, b => Byte.within 0x30 0x31 b
  | octal, b => Byte.within 0x30 0x37 b
  | decimal, b => Byte.isDigit b
  | hexadecimal, b => Byte.isDigit b || Byte.within 0x61 0x66 b || Byte.within 0x41 0x46 b

/-- The byte begins an exponent: an e in decimal, a p in hexadecimal, and nothing in the other two
bases. -/
def isExponentMark : Radix → Byte → Bool
  | decimal, b => b == 0x65 || b == 0x45
  | hexadecimal, b => b == 0x70 || b == 0x50
  | binary, _ | octal, _ => false

def digits (r : Radix) : List Byte :=
  ((List.range 256).map UInt8.ofNat).filter r.isDigit

def name : Radix → String
  | binary => "Bin"
  | octal => "Oct"
  | decimal => "Dec"
  | hexadecimal => "Hex"

end Radix
end Offside
