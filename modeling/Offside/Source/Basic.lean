import Offside.Text.Utf8
import Offside.Token.Basic

/-!
Sources and the places in them. `Source.locate` counts a place from scratch; `Place` carries the
same count along while a source is read.
-/

namespace Offside

/-- A source is a list of bytes; it need not be text. -/
structure Source where
  bytes : List Byte
  deriving DecidableEq

structure Location where
  line : Nat
  column : Nat
  deriving DecidableEq, Repr

def Location.render (l : Location) : String := s!"{l.line}:{l.column}"

namespace Source

/-- The padded form of a source is a whole number of lines of this many bytes. -/
def lineBytes : Nat := 64

/-- The longest source that offsets of one word can address together with its padding. -/
def capacity : Nat := Token.wordSize - 1 - lineBytes

/-- The source of the bytes; what lies beyond the capacity is dropped. -/
def ofBytes (bytes : List Byte) : Source := ⟨bytes.take capacity⟩

def ofText (text : String) : Source := ofBytes (Utf8.encode text)

def length (s : Source) : Nat := s.bytes.length

theorem ofBytes_eq {bytes : List Byte} (fits : bytes.length ≤ capacity) : ofBytes bytes = ⟨bytes⟩ := by
  simp only [ofBytes, List.take_of_length_le fits]

def isEmpty (s : Source) : Bool := s.bytes.isEmpty

/-- The least multiple of `lineBytes` that leaves room for a byte after the source. -/
def paddedLength (s : Source) : Nat := (s.length / lineBytes + 1) * lineBytes

def padded (s : Source) : List Byte := s.bytes ++ List.replicate (s.paddedLength - s.length) 0

def text (s : Source) (t : Token) : List Byte := (s.bytes.drop t.start).take (t.stop - t.start)

/-- The place of an offset: one plus the line feeds before it, and one plus the bytes since the
last of them. An offset past the end stands for the end. -/
def locate (s : Source) (offset : Nat) : Location :=
  let before := s.bytes.take offset
  { line := before.count Byte.lineFeed + 1
    column := (before.reverse.takeWhile (· != Byte.lineFeed)).length + 1 }

end Source

/-- A place in a source, kept up to date byte by byte: the offset, the line it is on, and the
offset at which that line begins. -/
structure Place where
  offset : Nat
  line : Nat
  lineStart : Nat
  deriving DecidableEq, Repr

namespace Place

def origin : Place := ⟨0, 1, 0⟩

def next (p : Place) (b : Byte) : Place :=
  if b == Byte.lineFeed then ⟨p.offset + 1, p.line + 1, p.offset + 1⟩
  else { p with offset := p.offset + 1 }

def advance (p : Place) (bytes : List Byte) : Place := bytes.foldl next p

def location (p : Place) : Location := ⟨p.line, p.offset - p.lineStart + 1⟩

@[simp] theorem advance_nil (p : Place) : p.advance [] = p := rfl

theorem advance_append (p : Place) (xs ys : List Byte) :
    p.advance (xs ++ ys) = (p.advance xs).advance ys := List.foldl_append

theorem offset_advance (p : Place) (bytes : List Byte) :
    (p.advance bytes).offset = p.offset + bytes.length := by
  induction bytes generalizing p with
  | nil => rfl
  | cons b rest ih =>
    have step : (p.next b).offset = p.offset + 1 := by
      unfold next
      split <;> rfl
    calc (p.advance (b :: rest)).offset
        = ((p.next b).advance rest).offset := rfl
      _ = p.offset + (b :: rest).length := by simp [ih, step]; omega

end Place
end Offside
