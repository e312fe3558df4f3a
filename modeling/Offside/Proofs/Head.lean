import Offside.Proofs.Words
import Offside.Source.Reader

/-! A reading head moves over a padded source byte by byte. It compares no position with the length of
the source before it reads: the zero bytes behind the source are what stops it. Every read is checked
here, and one outside the padded source gives nothing; that this never happens, and that the head finds
what the scanner finds, is shown in the next module. -/
namespace Offside

/-- Where a head is, the line it is on, and where the last token began. -/
structure Head where
  flags : Flags
  reader : Reader
  line : Nat := 1
  lineStart : Nat := 0
  mark : Place := .origin
  last : Nat := 0
  halted : ScanState := .gap

/-- What one turn of a head comes to: another turn in some state, or a token. -/
inductive Turn where
  | again (state : ScanState) (h : Head)
  | found (t : Token) (h : Head)

def Part.stays : Part → Byte → Bool
  | blanks, b => Byte.isInlineBlank b
  | word, b => Byte.isWordPart b
  | integer r, b | fraction r, b => r.isDigit b
  | exponent, b => Byte.isDigit b
  | _, _ => false

namespace Head

def ofSource (flags : Flags) (s : Source) : Head := { flags, reader := .ofSource s }

def position (h : Head) : Nat := h.reader.position

def place (h : Head) : Place := ⟨h.position, h.line, h.lineStart⟩

def location (h : Head) : Location := ⟨h.mark.line, h.last - h.mark.lineStart + 1⟩

def advance (h : Head) : Head := { h with reader := h.reader.advance 1 }

def bump? (h : Head) : Option Head := do
  let b ← h.reader.current?
  let next := h.advance
  return if b == Byte.lineFeed then { next with line := h.line + 1, lineStart := next.position }
    else next

def marked (h : Head) : Head := { h with mark := h.place }

def token (h : Head) (tag : TokenTag) : Token := ⟨tag, h.mark.offset, h.position⟩

def cut (h : Head) (state : ScanState) : Turn :=
  .found (h.token .incomplete) { h with halted := state }

def finish (h : Head) (state : ScanState) : Turn :=
  .found ⟨.eof, h.position, h.position⟩ { h with halted := state }

def spoil? (h : Head) : Option Turn := do
  let next ← h.bump?
  return .found (next.token .invalid) next

def close? (h : Head) (tag : TokenTag) : Option Turn :=
  if tag = .identifier then do
    let text ← h.reader.slice? h.mark.offset h.position
    return .found (h.token ((keyword? text).getD .identifier)) h
  else some (.found (h.token tag) h)

def breakOff? (h : Head) (p : Part) : Option Turn :=
  match p.ending? with
  | some tag => if h.flags.chunked then some (h.cut (.within p)) else h.close? tag
  | none => some (h.cut (.within p))

def open? (h : Head) (b : Byte) : Option Turn :=
  match opening b, symbol? b with
  | .part p, _ => some (.again (.within p) h.advance)
  | .whole _, some tag => some (.found (h.advance.token tag) h.advance)
  | .whole _, none => h.spoil?

def turnGap? (h : Head) : Option Turn := do
  let b ← h.reader.current?
  if b == 0 && (← h.reader.atEnd?) then return h.finish .gap
  else if Byte.isInlineBlank b && h.flags.spaces then return .again (.within .blanks) h
  else if Byte.isInlineBlank b || b == Byte.carriageReturn then return .again .gap h.advance.marked
  else if b == Byte.lineFeed then
    let next ← h.bump?
    return .again (if h.flags.indent then .lineStart else .gap) next.marked
  else h.open? b

def turnLine? (h : Head) : Option Turn := do
  let b ← h.reader.current?
  if b == Byte.space then return .again .lineStart h.advance
  else if b == Byte.lineFeed then
    let next ← h.bump?
    return .again .lineStart next.marked
  else if b == Byte.carriageReturn then
    -- The one read that looks a byte ahead.
    let c ← h.reader.peek?
    if c == Byte.lineFeed then
      let next ← h.advance.bump?
      return .again .lineStart next.marked
    else return .found (h.token .indent) h
  else if b == Byte.tab then h.spoil?
  else if b == 0 && (← h.reader.atEnd?) then
    if h.flags.chunked && h.mark.offset < h.position then return h.cut .lineStart
    else return h.finish .lineStart
  else return .found (h.token .indent) h

def follow? (h : Head) (p : Part) : Move → Option Turn
  | .shift q => some (.again (.within q) h.advance)
  | .take .invalid => do if ← h.reader.atEnd? then h.breakOff? p else h.spoil?
  | .take tag => some (.found (h.advance.token tag) h.advance)
  | .close tag => do if ← h.reader.atEnd? then h.breakOff? p else h.close? tag

def turnPart? (h : Head) (p : Part) : Option Turn := do
  let b ← h.reader.current?
  h.follow? p (p.move b)

def turnWithin? (h : Head) (p : Part) : Option Turn := do
  let reader ← h.reader.skipWhile? p.stays
  { h with reader }.turnPart? p

def turn? (h : Head) : ScanState → Option Turn
  | .gap => h.turnGap?
  | .lineStart => h.turnLine?
  | .within p => h.turnWithin? p

def Inside (h : Head) : Prop := h.position ≤ h.reader.source.length

/-- Turn after turn, every read succeeds and the head stays inside the source, until there is a token. -/
inductive Runs : ScanState → Head → Token → Head → Prop where
  | found {state : ScanState} {h h' : Head} {t : Token} : h.Inside →
      h.turn? state = some (.found t h') → h'.Inside → Runs state h t h'
  | again {state state' : ScanState} {h next h' : Head} {t : Token} : h.Inside →
      h.turn? state = some (.again state' next) → Runs state' next t h' → Runs state h t h'

def Finds (h : Head) (state : ScanState) (t : Token) (h' : Head) : Prop :=
  ∃ next, Runs state h.marked t next ∧ h' = { next with last := t.start }

end Head
end Offside
