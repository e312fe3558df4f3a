import Offside.Scan.Part
import Offside.Source.Basic

/-!
One token from the front of the input. A `Scan` splits the input into the bytes passed over, the
bytes of the token and the rest, so that `Scan.bytes` gives the input back; a scan between tokens
that finds one leaves a shorter rest.
-/

namespace Offside

/-- What the scanning of an input is asked to do. -/
structure Flags where
  spaces : Bool := false
  indent : Bool := false
  /-- The input is a chunk of a longer one: a token that could go on at its end is incomplete. -/
  chunked : Bool := false
  deriving DecidableEq, Repr

/-- What a source is read with to be parsed: only the layout of its lines counts. -/
def Flags.layout : Flags := { indent := true }

/-- One token, the bytes passed over before it and the bytes after it. -/
structure Scan where
  skipped : List Byte
  text : List Byte
  rest : List Byte
  tag : TokenTag
  halted : Option ScanState
  deriving DecidableEq

namespace Scan

def bytes (s : Scan) : List Byte := s.skipped ++ s.text ++ s.rest

def token (text rest : List Byte) (tag : TokenTag) : Scan := ⟨[], text, rest, tag, none⟩

def finish (skipped : List Byte) (state : ScanState) : Scan := ⟨skipped, [], [], .eof, some state⟩

def cut (text : List Byte) (state : ScanState) : Scan := ⟨[], text, [], .incomplete, some state⟩

def push (b : Byte) (s : Scan) : Scan := { s with text := b :: s.text }

def skip (passed : List Byte) (s : Scan) : Scan := { s with skipped := passed ++ s.skipped }

/-- A word that spells a keyword is that keyword. -/
def resolve (s : Scan) : Scan :=
  match s.tag with
  | .identifier => { s with tag := (keyword? s.text).getD .identifier }
  | _ => s

end Scan

def munch (chunked : Bool) : Part → List Byte → Scan
  | p, [] =>
    match p.ending? with
    | some tag => if chunked then .cut [] (.within p) else .token [] [] tag
    | none => .cut [] (.within p)
  | p, b :: rest =>
    match p.move b with
    | .shift q => (munch chunked q rest).push b
    | .close tag => .token [] (b :: rest) tag
    | .take tag => .token [b] rest tag

def margin (width : Nat) : List Byte := List.replicate width Byte.space

/-- Reads the leading spaces of a line, `width` of which have been read. Blank lines are passed
over; a tab among the spaces is a fault, and any other byte ends them. -/
def leading (chunked : Bool) (width : Nat) : List Byte → Scan
  | [] =>
    if chunked && width != 0 then .cut (margin width) .lineStart
    else .finish (margin width) .lineStart
  | [b] =>
    if b == Byte.space then leading chunked (width + 1) []
    else if b == Byte.lineFeed then (leading chunked 0 []).skip (margin width ++ [b])
    else if b == Byte.tab then .token (margin width ++ [b]) [] .invalid
    else .token (margin width) [b] .indent
  | b :: c :: rest =>
    if b == Byte.space then leading chunked (width + 1) (c :: rest)
    else if b == Byte.lineFeed then (leading chunked 0 (c :: rest)).skip (margin width ++ [b])
    else if b == Byte.carriageReturn && c == Byte.lineFeed then
      (leading chunked 0 rest).skip (margin width ++ [b, c])
    else if b == Byte.tab then .token (margin width ++ [b]) (c :: rest) .invalid
    else .token (margin width) (b :: c :: rest) .indent

def between (flags : Flags) : List Byte → Scan
  | [] => .finish [] .gap
  | b :: rest =>
    if Byte.isInlineBlank b then
      if flags.spaces then (munch flags.chunked .blanks rest).push b
      else (between flags rest).skip [b]
    else if b == Byte.carriageReturn then (between flags rest).skip [b]
    else if b == Byte.lineFeed then
      if flags.indent then (leading flags.chunked 0 rest).skip [b]
      else (between flags rest).skip [b]
    else
      match opening b with
      | .part p => (munch flags.chunked p rest).push b
      | .whole tag => .token [b] rest tag

def scan (flags : Flags) : ScanState → List Byte → Scan
  | .gap, input => (between flags input).resolve
  | .lineStart, input => leading flags.chunked 0 input
  | .within p, input => (munch flags.chunked p input).resolve

namespace Scan

@[simp] theorem bytes_push (b : Byte) (s : Scan) (h : s.skipped = []) :
    (s.push b).bytes = b :: s.bytes := by
  simp [bytes, push, h]

@[simp] theorem bytes_skip (passed : List Byte) (s : Scan) :
    (s.skip passed).bytes = passed ++ s.bytes := by
  simp [bytes, skip]

@[simp] theorem bytes_token (text rest : List Byte) (tag : TokenTag) :
    (token text rest tag).bytes = text ++ rest := rfl

@[simp] theorem bytes_finish (skipped : List Byte) (state : ScanState) :
    (finish skipped state).bytes = skipped := by
  simp [bytes, finish]

@[simp] theorem bytes_cut (text : List Byte) (state : ScanState) :
    (cut text state).bytes = text := by
  simp [bytes, cut]

theorem resolve_eq (s : Scan) :
    s.resolve.skipped = s.skipped ∧ s.resolve.text = s.text ∧ s.resolve.rest = s.rest ∧
      s.resolve.halted = s.halted := by
  unfold resolve
  split <;> exact ⟨rfl, rfl, rfl, rfl⟩

@[simp] theorem bytes_resolve (s : Scan) : s.resolve.bytes = s.bytes := by
  obtain ⟨hs, ht, hr, _⟩ := s.resolve_eq
  simp [bytes, hs, ht, hr]

theorem length_rest_le (s : Scan) : s.rest.length ≤ s.bytes.length := by
  simp only [bytes, List.length_append]
  omega

end Scan

theorem margin_succ (width : Nat) (tail : List Byte) :
    margin (width + 1) ++ tail = margin width ++ Byte.space :: tail := by
  simp [margin, List.replicate_succ']

theorem munch_skipped (chunked : Bool) (p : Part) (input : List Byte) :
    (munch chunked p input).skipped = [] := by
  induction input generalizing p with
  | nil =>
    unfold munch
    split
    · split <;> rfl
    · rfl
  | cons b rest ih =>
    unfold munch
    split
    · exact ih _
    · rfl
    · rfl

theorem munch_bytes (chunked : Bool) (p : Part) (input : List Byte) :
    (munch chunked p input).bytes = input := by
  induction input generalizing p with
  | nil =>
    unfold munch
    split
    · split <;> rfl
    · rfl
  | cons b rest ih =>
    unfold munch
    split
    · rw [Scan.bytes_push _ _ (munch_skipped _ _ _), ih]
    · rfl
    · rfl

theorem leading_bytes (chunked : Bool) (width : Nat) (input : List Byte) :
    (leading chunked width input).bytes = margin width ++ input := by
  fun_induction leading chunked width input with
  | case1 => simp
  | case2 => simp
  | case3 width b h ih => rw [ih, margin_succ, eq_of_beq h]
  | case4 width b _ h ih => simp [ih, margin]
  | case5 => simp
  | case6 => simp
  | case7 width b c rest h ih => rw [ih, margin_succ, eq_of_beq h]
  | case8 width b c rest _ h ih => simp [ih, margin]
  | case9 width b c rest _ _ h ih => simp [ih, margin]
  | case10 => simp
  | case11 => simp

theorem between_bytes (flags : Flags) (input : List Byte) :
    (between flags input).bytes = input := by
  fun_induction between flags input with
  | case1 => simp
  | case2 b rest _ _ => simp [munch_skipped, munch_bytes]
  | case3 b rest _ _ ih => simp [ih]
  | case4 b rest _ _ ih => simp [ih]
  | case5 b rest _ _ _ _ => simp [leading_bytes, margin]
  | case6 b rest _ _ _ _ ih => simp [ih]
  | case7 b rest _ _ _ p _ => simp [munch_skipped, munch_bytes]
  | case8 b rest _ _ _ tag _ => simp

/-- A scan splits its input and loses nothing of it. -/
theorem scan_bytes (flags : Flags) (state : ScanState) (input : List Byte) :
    (scan flags state input).bytes = input := by
  cases state with
  | gap => simp [scan, between_bytes]
  | lineStart => simp [scan, leading_bytes, margin]
  | within p => simp [scan, munch_bytes]

theorem between_rest_lt (flags : Flags) (input : List Byte)
    (found : (between flags input).tag ≠ .eof) :
    (between flags input).rest.length < input.length := by
  fun_induction between flags input with
  | case1 => exact absurd rfl found
  | case2 b rest _ _ =>
    have h := (munch flags.chunked .blanks rest).length_rest_le
    rw [munch_bytes] at h
    exact Nat.lt_succ_of_le h
  | case3 b rest _ _ ih => exact Nat.lt_succ_of_lt (ih found)
  | case4 b rest _ _ ih => exact Nat.lt_succ_of_lt (ih found)
  | case5 b rest _ _ _ _ =>
    have h := (leading flags.chunked 0 rest).length_rest_le
    rw [leading_bytes] at h
    exact Nat.lt_succ_of_le h
  | case6 b rest _ _ _ _ ih => exact Nat.lt_succ_of_lt (ih found)
  | case7 b rest _ _ _ p _ =>
    have h := (munch flags.chunked p rest).length_rest_le
    rw [munch_bytes] at h
    exact Nat.lt_succ_of_le h
  | case8 b rest _ _ _ tag _ => exact Nat.lt_succ_self _

theorem Scan.resolve_tag_eof (s : Scan) (h : s.tag = .eof) : s.resolve.tag = .eof := by
  unfold Scan.resolve
  split
  · rename_i hi
    simp [hi] at h
  · exact h

theorem scan_gap_rest_lt (flags : Flags) (input : List Byte)
    (found : (scan flags .gap input).tag ≠ .eof) :
    (scan flags .gap input).rest.length < input.length := by
  have tag : (between flags input).tag ≠ .eof := fun h => found (Scan.resolve_tag_eof _ h)
  have rest : (scan flags .gap input).rest = (between flags input).rest :=
    (between flags input).resolve_eq.2.2.1
  rw [rest]
  exact between_rest_lt flags input tag

theorem scan_rest_le (flags : Flags) (state : ScanState) (input : List Byte) :
    (scan flags state input).rest.length ≤ input.length := by
  have h := (scan flags state input).length_rest_le
  rwa [scan_bytes] at h

end Offside
