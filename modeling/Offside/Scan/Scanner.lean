import Offside.Scan.Basic

/-!
Token after token from a source. A scanner knows what is left of its source, the place it has come
to and the place at which the last token began; each call hands out one token. `entries` collects
the tokens of a whole source, which ends because every token found between tokens uses up input.
-/

namespace Offside

structure Scanner where
  flags : Flags
  rest : List Byte
  here : Place := .origin
  last : Place := .origin
  halted : ScanState := .gap

/-- A token handed out by a scanner, with the location and the state reported after it. -/
structure Entry where
  token : Token
  location : Location
  state : ScanState
  deriving DecidableEq

namespace Scanner

def ofSource (flags : Flags) (s : Source) : Scanner := { flags, rest := s.bytes }

def nextFrom (s : Scanner) (state : ScanState) : Token × Scanner :=
  let found := scan s.flags state s.rest
  let start := s.here.advance found.skipped
  let stop := start.advance found.text
  (⟨found.tag, start.offset, stop.offset⟩,
    { s with
      rest := found.rest
      here := stop
      last := start
      halted := found.halted.getD s.halted })

/-- The next token, and the scanner after it. At the end of the source it is `eof`, again and
again. -/
def next (s : Scanner) : Token × Scanner := s.nextFrom .gap

def peek (s : Scanner) : Token := s.next.1

def location (s : Scanner) : Location := s.last.location

def isHalt : TokenTag → Bool
  | .eof | .incomplete => true
  | _ => false

@[simp] theorem rest_nextFrom (s : Scanner) (state : ScanState) :
    (s.nextFrom state).2.rest = (scan s.flags state s.rest).rest := rfl

@[simp] theorem tag_nextFrom (s : Scanner) (state : ScanState) :
    (s.nextFrom state).1.tag = (scan s.flags state s.rest).tag := rfl

@[simp] theorem flags_nextFrom (s : Scanner) (state : ScanState) :
    (s.nextFrom state).2.flags = s.flags := rfl

theorem rest_nextFrom_le (s : Scanner) (state : ScanState) :
    (s.nextFrom state).2.rest.length ≤ s.rest.length :=
  scan_rest_le s.flags state s.rest

theorem rest_next_le (s : Scanner) : s.next.2.rest.length ≤ s.rest.length :=
  s.rest_nextFrom_le .gap

theorem rest_next_lt (s : Scanner) (found : s.next.1.tag ≠ .eof) :
    s.next.2.rest.length < s.rest.length :=
  scan_gap_rest_lt s.flags s.rest found

/-- The bytes behind the next token, and one for the token unless it is the end. -/
theorem rest_next_add_le (s : Scanner) :
    s.next.2.rest.length + (if s.next.1.tag = .eof then 0 else 1) ≤ s.rest.length := by
  split
  · exact s.rest_next_le
  · rename_i more
    exact s.rest_next_lt more

def report (step : Token × Scanner) : Entry := ⟨step.1, step.2.location, step.2.halted⟩

/-- The tokens from here to the first that passes the test, or to `eof`; that token included. -/
def entries (ends : TokenTag → Bool) (s : Scanner) : List Entry :=
  let step := s.next
  if step.1.tag = .eof ∨ ends step.1.tag then [report step]
  else report step :: entries ends step.2
termination_by s.rest.length
decreasing_by
  rename_i more
  exact s.rest_next_lt fun eof => more (.inl eof)

def entriesFrom (ends : TokenTag → Bool) (s : Scanner) (state : ScanState) : List Entry :=
  let first := s.nextFrom state
  if first.1.tag = .eof ∨ ends first.1.tag then [report first]
  else report first :: entries ends first.2

end Scanner

/-- The tokens of a source up to its end, without flags and without `eof`. -/
def Source.tokens (s : Source) : List Token :=
  ((Scanner.ofSource {} s).entries (fun _ => false)).map Entry.token |>.takeWhile
    fun t => t.tag != .eof

def lastState (entries : List Entry) : ScanState :=
  (entries.getLast?.map Entry.state).getD .gap

/-- Reads a source that comes in chunks. Each chunk is read from the state in which the one before
it broke off, up to its end or to a token that the next chunk continues. -/
def readChunks (flags : Flags) : ScanState → List Source → List (List Entry)
  | _, [] => []
  | state, chunk :: rest =>
    let entries := (Scanner.ofSource flags chunk).entriesFrom Scanner.isHalt state
    entries :: readChunks flags (lastState entries) rest

end Offside
