import Offside.Text.Byte

/-!
Reading bytes as UTF-8 text. Bytes that are no text do not fail the reading: each longest run of
bytes that begins an encoded character without finishing it is read as one replacement character,
and so is each byte that begins none.
-/

namespace Offside.Utf8

def replacement : Char := '\uFFFD'

/-- An encoded character of which some bytes are still to come: how many follow the next one, the
range in which the next byte must lie, and the value of the bytes read. -/
structure Pending where
  more : Nat
  low : Byte
  high : Byte
  value : Nat
  deriving DecidableEq

/-- What the first byte of a character says. -/
inductive Lead where
  | char (c : Char)
  | pending (p : Pending)
  deriving DecidableEq

/-- The first byte fixes the length, and for four of its values a narrower range for the second
byte: that keeps out overlong forms, surrogates and values above the last code point. -/
def lead (b : Byte) : Lead :=
  if b < 0x80 then .char (Char.ofNat b.toNat)
  else if Byte.within 0xC2 0xDF b then .pending ⟨0, 0x80, 0xBF, b.toNat - 0xC0⟩
  else if b == 0xE0 then .pending ⟨1, 0xA0, 0xBF, 0⟩
  else if b == 0xED then .pending ⟨1, 0x80, 0x9F, 0xD⟩
  else if Byte.within 0xE1 0xEF b then .pending ⟨1, 0x80, 0xBF, b.toNat - 0xE0⟩
  else if b == 0xF0 then .pending ⟨2, 0x90, 0xBF, 0⟩
  else if Byte.within 0xF1 0xF3 b then .pending ⟨2, 0x80, 0xBF, b.toNat - 0xF0⟩
  else if b == 0xF4 then .pending ⟨2, 0x80, 0x8F, 4⟩
  else .char replacement

def Pending.extend (p : Pending) (b : Byte) : Lead :=
  let value := p.value * 64 + (b.toNat - 0x80)
  match p.more with
  | 0 => .char (Char.ofNat value)
  | more + 1 => .pending ⟨more, 0x80, 0xBF, value⟩

def decodeFrom : Option Pending → List Byte → List Char
  | none, [] => []
  | some _, [] => [replacement]
  | none, b :: rest =>
    match lead b with
    | .char c => c :: decodeFrom none rest
    | .pending p => decodeFrom (some p) rest
  | some p, b :: rest =>
    if Byte.within p.low p.high b then
      match p.extend b with
      | .char c => c :: decodeFrom none rest
      | .pending q => decodeFrom (some q) rest
    else
      match lead b with
      | .char c => replacement :: c :: decodeFrom none rest
      | .pending q => replacement :: decodeFrom (some q) rest

/-- The text of the bytes, with a replacement character wherever they are no text. -/
def decode (bytes : List Byte) : List Char := decodeFrom none bytes

def Valid (bytes : List Byte) : Prop := ∃ text : List Char, bytes = text.flatMap String.utf8EncodeChar

def encode (text : String) : List Byte := text.toUTF8.data.toList

end Offside.Utf8
