import Offside.Source.Basic

/-!
Reading a padded source byte by byte. A reader may be moved past the end, but every read is checked
against the padded source: a read outside it gives nothing.
-/

namespace Offside

/-- A padded source and the position of the next read. -/
structure Reader where
  source : Source
  position : Nat

namespace Reader

def ofSource (s : Source) : Reader := ⟨s, 0⟩

def current? (r : Reader) : Option Byte := r.source.padded[r.position]?

def peek? (r : Reader) : Option Byte := r.source.padded[r.position + 1]?

/-- Moves on by some bytes. Positions are words and wrap around. -/
def advance (r : Reader) (count : Nat) : Reader :=
  { r with position := (r.position + count) % Token.wordSize }

def atEnd? (r : Reader) : Option Bool :=
  r.current?.map fun b => b == 0 && r.source.length ≤ r.position

def slice? (r : Reader) (start stop : Nat) : Option (List Byte) :=
  if start ≤ stop ∧ stop ≤ r.source.paddedLength then
    some ((r.source.padded.take stop).drop start)
  else none

def skipWhile? (r : Reader) (test : Byte → Bool) : Option Reader :=
  let ahead := r.source.padded.drop r.position
  if ahead.all test then none
  else some { r with position := r.position + (ahead.takeWhile test).length }

end Reader
end Offside
