import Offside.Scan.Scanner

/-! A source that comes in chunks. A scan that ran out of input goes on in the next chunk from the state
it stopped in, as if nothing had come between; so the tokens of the chunks, merged where a chunk
ended inside a token, are those of the whole source. -/
namespace Offside

/-- A keyword counts as a word: which of the two a word is depends on all of its text, and a chunk
may hold only the end of it. -/
def TokenTag.unresolved (tag : TokenTag) : TokenTag := if tag.isKeyword then .identifier else tag

namespace Token

def unresolved (t : Token) : Token := { t with tag := t.tag.unresolved }

def shift (k : Nat) (t : Token) : Token := { t with start := t.start + k, stop := t.stop + k }

/-- The last token of a chunk before the tokens that follow. The end of the chunk is not that of the
source, and a token cut off by it is finished by the next one. -/
def meet (t : Token) (later : List Token) : List Token :=
  match t.tag, later with
  | .eof, later => later
  | .incomplete, u :: more => { u with start := t.start } :: more
  | _, later => t :: later

end Token

def weld : List Token → List Token → List Token
  | [], later => later
  | [last], later => last.meet later
  | t :: rest, later => t :: weld rest later

def stitch : List (List Token) → List Token
  | [] => []
  | [tokens] => tokens
  | tokens :: rest => weld tokens (stitch rest)

def placed (offset : Nat) : List Source → List (List Entry) → List (List Token)
  | chunk :: chunks, entries :: rest =>
    entries.map (fun e => e.token.shift offset) :: placed (offset + chunk.length) chunks rest
  | _, _ => []

/-- What the chunks come to: the merged tokens, with keywords as words, and the state at the end. -/
def readThrough (flags : Flags) (chunks : List Source) : List Token × ScanState :=
  let readings := readChunks flags .gap chunks
  ((stitch (placed 0 chunks readings)).map Token.unresolved,
    lastState (readings.getLast?.getD []))

namespace Scan

def unresolved (s : Scan) : Scan := { s with tag := s.tag.unresolved }

/-- A scan that ran out of input and the one that took it up. -/
def join (s next : Scan) : Scan :=
  { next with skipped := s.skipped ++ next.skipped, text := s.text ++ next.text }

/-- The scan of an input with more behind it. One that came to an end only leaves more over; one that
ran out of input is taken up from its state. -/
def extend (s : Scan) (more : List Byte) (resume : ScanState → Scan) : Scan :=
  match s.halted with
  | none => { s with rest := s.rest ++ more }
  | some state => s.join (resume state)

def place (k : Nat) (s : Scan) : Token :=
  ⟨s.tag.unresolved, k + s.skipped.length, k + s.skipped.length + s.text.length⟩

variable (s : Scan) (more : List Byte) (resume : ScanState → Scan)

theorem extend_none (going : s.halted = none) :
    s.extend more resume = { s with rest := s.rest ++ more } := by
  simp only [extend, going]

theorem extend_some {state : ScanState} (halted : s.halted = some state) :
    s.extend more resume = s.join (resume state) := by
  simp only [extend, halted]

theorem extend_push (b : Byte) (none : s.skipped = []) :
    (s.push b).extend more resume = (s.extend more resume).push b := by
  unfold extend push join
  cases s.halted <;> simp [none]

theorem extend_skip (passed : List Byte) :
    (s.skip passed).extend more resume = (s.extend more resume).skip passed := by
  unfold extend skip join
  cases s.halted <;> simp

theorem extend_unresolved :
    (s.extend more resume).unresolved =
      s.unresolved.extend more fun state => (resume state).unresolved := by
  unfold extend unresolved
  cases s.halted <;> rfl

theorem unresolved_resolve : s.resolve.unresolved = s.unresolved := by
  unfold resolve
  split
  · rename_i word
    have same : ((keyword? s.text).getD .identifier).unresolved = s.tag.unresolved := by
      rw [word]
      unfold keyword?
      split <;> rfl
    simp only [unresolved, same]
  · rfl

end Scan

def rawScan (flags : Flags) : ScanState → List Byte → Scan
  | .gap, input => between flags input
  | .lineStart, input => leading flags.chunked 0 input
  | .within p, input => munch flags.chunked p input

theorem scan_unresolved (flags : Flags) (state : ScanState) (input : List Byte) :
    (scan flags state input).unresolved = (rawScan flags state input).unresolved := by
  cases state with
  | gap => exact Scan.unresolved_resolve _
  | lineStart => rfl
  | within p => exact Scan.unresolved_resolve _

def Move.Settles : Move → Prop
  | .shift _ => True
  | .close tag | .take tag => Scanner.isHalt tag = false

theorem Part.move_settles (p : Part) (b : Byte) : (p.move b).Settles := by
  have settles : ∀ tag, Scanner.isHalt tag = false → (settle tag b).Settles := by
    intro tag plain
    unfold settle
    split
    · exact plain
    · rfl
  have demands : ∀ test q, (demand test q).Settles := by
    intro test q
    cases test with
    | true => trivial
    | false => rfl
  cases p <;> simp only [move] <;> repeat' split
  all_goals first | exact settles _ rfl | exact demands _ _ | trivial

theorem Part.ending_settles {p : Part} {tag : TokenTag} (h : p.ending? = some tag) :
    Scanner.isHalt tag = false := by
  cases p <;> cases h <;> rfl

theorem opening_settles {b : Byte} {tag : TokenTag} (h : opening b = .whole tag) :
    Scanner.isHalt tag = false := by
  unfold opening at h
  repeat' split at h
  all_goals cases h
  unfold symbol?
  split <;> rfl

def Scan.EndsToken (s : Scan) : Prop :=
  (s.halted = none ∧ Scanner.isHalt s.tag = false) ∨
    ∃ p, s.halted = some (.within p) ∧ s.tag = .incomplete ∧ s.rest = []

def Scan.Ends (s : Scan) : Prop :=
  s.EndsToken ∨ (s.halted = some .gap ∧ s.tag = .eof ∧ s.text = [] ∧ s.rest = [])

theorem munch_ends (chunked : Bool) (p : Part) (input : List Byte) :
    (munch chunked p input).EndsToken := by
  induction input generalizing p with
  | nil =>
    unfold munch
    split
    · rename_i tag ending
      split
      · exact .inr ⟨p, rfl, rfl, rfl⟩
      · exact .inl ⟨rfl, Part.ending_settles ending⟩
    · exact .inr ⟨p, rfl, rfl, rfl⟩
  | cons b rest ih =>
    have settles := p.move_settles b
    unfold munch
    cases moved : p.move b with
    | shift q => exact ih q
    | close tag =>
      rw [moved] at settles
      exact .inl ⟨rfl, settles⟩
    | take tag =>
      rw [moved] at settles
      exact .inl ⟨rfl, settles⟩

theorem between_ends {flags : Flags} (flat : flags.indent = false) (input : List Byte) :
    (between flags input).Ends := by
  fun_induction between flags input with
  | case1 => exact .inr ⟨rfl, rfl, rfl, rfl⟩
  | case2 b rest => exact .inl (munch_ends flags.chunked .blanks rest)
  | case3 _ _ _ _ ih => exact ih
  | case4 _ _ _ _ ih => exact ih
  | case5 b rest _ _ _ indent =>
    rw [flat] at indent
    cases indent
  | case6 _ _ _ _ _ _ ih => exact ih
  | case7 b rest _ _ _ p _ => exact .inl (munch_ends flags.chunked p rest)
  | case8 b rest _ _ _ tag whole => exact .inl (.inl ⟨rfl, opening_settles whole⟩)

theorem Scan.Ends.resolve {s : Scan} (h : s.Ends) : s.resolve.Ends := by
  unfold Scan.resolve
  split
  · rename_i word
    rcases h with (⟨halted, -⟩ | ⟨p, -, tag, -⟩) | ⟨-, tag, -⟩
    · refine .inl (.inl ⟨halted, ?_⟩)
      unfold keyword?
      split <;> rfl
    · simp [word] at tag
    · simp [word] at tag
  · exact h

theorem scan_ends {flags : Flags} (flat : flags.indent = false) {state : ScanState}
    (inline : state ≠ .lineStart) (input : List Byte) : (scan flags state input).Ends := by
  cases state with
  | gap => exact (between_ends flat input).resolve
  | lineStart => exact absurd rfl inline
  | within p => exact Scan.Ends.resolve (.inl (munch_ends flags.chunked p input))

def Scan.Halts (s : Scan) : Prop :=
  (s.halted = none ∧ Scanner.isHalt s.tag = false) ∨
    ∃ last, s.halted = some last ∧ Scanner.isHalt s.tag = true ∧ s.rest = []

theorem Scan.EndsToken.halts {s : Scan} (h : s.EndsToken) : s.Halts := by
  rcases h with found | ⟨p, within, tag, rest⟩
  · exact .inl found
  · exact .inr ⟨_, within, by rw [tag]; rfl, rest⟩

theorem Scan.Halts.resolve {s : Scan} (h : s.Halts) : s.resolve.Halts := by
  unfold Scan.resolve
  split
  · rename_i word
    rcases h with ⟨halted, -⟩ | ⟨_, -, tag, -⟩
    · refine .inl ⟨halted, ?_⟩
      unfold keyword?
      split <;> rfl
    · simp [word, Scanner.isHalt] at tag
  · exact h

theorem leading_halts (chunked : Bool) (width : Nat) (input : List Byte) :
    (leading chunked width input).Halts := by
  fun_induction leading chunked width input with
  | case1 => exact .inr ⟨_, rfl, rfl, rfl⟩
  | case2 => exact .inr ⟨_, rfl, rfl, rfl⟩
  | case3 _ _ _ ih => exact ih
  | case4 _ _ _ _ ih => exact ih
  | case5 => exact .inl ⟨rfl, rfl⟩
  | case6 => exact .inl ⟨rfl, rfl⟩
  | case7 _ _ _ _ _ ih => exact ih
  | case8 _ _ _ _ _ _ ih => exact ih
  | case9 _ _ _ _ _ _ _ ih => exact ih
  | case10 => exact .inl ⟨rfl, rfl⟩
  | case11 => exact .inl ⟨rfl, rfl⟩

theorem between_halts (flags : Flags) (input : List Byte) : (between flags input).Halts := by
  fun_induction between flags input with
  | case1 => exact .inr ⟨_, rfl, rfl, rfl⟩
  | case2 b rest => exact (munch_ends flags.chunked .blanks rest).halts
  | case3 _ _ _ _ ih => exact ih
  | case4 _ _ _ _ ih => exact ih
  | case5 b rest => exact leading_halts flags.chunked 0 rest
  | case6 _ _ _ _ _ _ ih => exact ih
  | case7 b rest _ _ _ p _ => exact (munch_ends flags.chunked p rest).halts
  | case8 b rest _ _ _ tag whole => exact .inl ⟨rfl, opening_settles whole⟩

theorem scan_halts (flags : Flags) (state : ScanState) (input : List Byte) :
    (scan flags state input).Halts := by
  cases state with
  | gap => exact (between_halts flags input).resolve
  | lineStart => exact leading_halts flags.chunked 0 input
  | within p => exact (munch_ends flags.chunked p input).halts.resolve

section Append

variable {flags : Flags}

theorem munch_append (chunked : flags.chunked = true) (p : Part) (xs ys : List Byte) :
    munch flags.chunked p (xs ++ ys) =
      (munch flags.chunked p xs).extend ys fun state => rawScan flags state ys := by
  induction xs generalizing p with
  | nil =>
    have cut : munch flags.chunked p [] = .cut [] (.within p) := by
      rw [munch, chunked]
      split <;> rfl
    rw [cut]
    rfl
  | cons b xs ih =>
    rw [List.cons_append, munch, munch]
    cases p.move b with
    | shift q =>
      dsimp only
      rw [ih q, Scan.extend_push _ _ _ _ (munch_skipped _ _ _)]
    | close tag => rfl
    | take tag => rfl

theorem between_append (chunked : flags.chunked = true) (flat : flags.indent = false)
    (xs ys : List Byte) :
    between flags (xs ++ ys) =
      (between flags xs).extend ys fun state => rawScan flags state ys := by
  fun_induction between flags xs with
  | case1 => rfl
  | case2 b rest blank spaces =>
    rw [List.cons_append, between, if_pos blank, if_pos spaces, munch_append chunked,
      Scan.extend_push _ _ _ _ (munch_skipped _ _ _)]
  | case3 b rest blank spaces ih =>
    rw [List.cons_append, between, if_pos blank, if_neg spaces, ih, Scan.extend_skip]
  | case4 b rest blank return_ ih =>
    rw [List.cons_append, between, if_neg blank, if_pos return_, ih, Scan.extend_skip]
  | case5 b rest _ _ _ indent =>
    rw [flat] at indent
    cases indent
  | case6 b rest blank return_ feed indent ih =>
    rw [List.cons_append, between, if_neg blank, if_neg return_, if_pos feed, if_neg indent, ih,
      Scan.extend_skip]
  | case7 b rest blank return_ feed p opens =>
    rw [List.cons_append, between, if_neg blank, if_neg return_, if_neg feed]
    simp only [opens]
    rw [munch_append chunked, Scan.extend_push _ _ _ _ (munch_skipped _ _ _)]
  | case8 b rest blank return_ feed tag opens =>
    rw [List.cons_append, between, if_neg blank, if_neg return_, if_neg feed]
    simp only [opens]
    rfl

/-- A scan goes on over the end of a chunk. -/
theorem scan_append (chunked : flags.chunked = true) (flat : flags.indent = false)
    {state : ScanState} (inline : state ≠ .lineStart) (xs ys : List Byte) :
    (scan flags state (xs ++ ys)).unresolved =
      ((scan flags state xs).extend ys fun state => scan flags state ys).unresolved := by
  have raw : rawScan flags state (xs ++ ys) =
      (rawScan flags state xs).extend ys fun state => rawScan flags state ys := by
    cases state with
    | gap => exact between_append chunked flat xs ys
    | lineStart => exact absurd rfl inline
    | within p => exact munch_append chunked p xs ys
  rw [Scan.extend_unresolved]
  simp only [scan_unresolved]
  rw [raw, Scan.extend_unresolved]

end Append

namespace Scan

theorem place_congr {s s' : Scan} {k : Nat} (same : s.unresolved = s'.unresolved) :
    s.place k = s'.place k := by
  simp only [unresolved, Scan.mk.injEq] at same
  obtain ⟨skipped, text, -, tag, -⟩ := same
  rw [place, place, tag, skipped, text]

/- The scan of `n` bytes ran out of input and was taken up by the next one, which passes over nothing
if it goes on inside a token. -/
structure Joins (n : Nat) (s next : Scan) : Prop where
  length : s.skipped.length + s.text.length = n
  ends : (s.tag = .incomplete ∧ next.skipped = []) ∨ (s.tag = .eof ∧ s.text = [])

theorem Joins.stop_eq {n k : Nat} {s next : Scan} (h : Joins n s next) :
    ((s.join next).place k).stop = (next.place (k + n)).stop := by
  have length := h.length
  simp only [place, join, List.length_append]
  omega

theorem Joins.meet_place {n k : Nat} {s next : Scan} {more : List Token} (h : Joins n s next) :
    (s.place k).meet (next.place (k + n) :: more) = (s.join next).place k :: more := by
  have stop := h.stop_eq (k := k)
  have length := h.length
  rcases h.ends with ⟨cut, none⟩ | ⟨eof, empty⟩
  · have tag : (s.place k).tag = .incomplete := by rw [place, cut]; rfl
    have start : (s.place k).start = ((s.join next).place k).start := by simp [place, join, none]
    simp only [Token.meet, tag, start, ← stop]
    rfl
  · have tag : (s.place k).tag = .eof := by rw [place, eof]; rfl
    have start : (next.place (k + n)).start = ((s.join next).place k).start := by
      simp only [place, join, List.length_append, empty, List.length_nil] at length ⊢
      omega
    have same : next.place (k + n) = (s.join next).place k := by
      rw [Token.mk.injEq]
      exact ⟨rfl, start, stop.symm⟩
    simp only [Token.meet, tag, same]

end Scan

theorem scan_place_stop (flags : Flags) (state : ScanState) (k : Nat) (input : List Byte) :
    ((scan flags state input).place k).stop + (scan flags state input).rest.length =
      k + input.length := by
  have whole := congrArg List.length (scan_bytes flags state input)
  simp only [Scan.bytes, List.length_append] at whole
  simp only [Scan.place]
  omega

theorem scan_joins {flags : Flags} (flat : flags.indent = false) {state last : ScanState}
    (inline : state ≠ .lineStart) {input : List Byte}
    (halted : (scan flags state input).halted = some last) (more : List Byte) :
    Scan.Joins input.length (scan flags state input) (scan flags last more) := by
  have whole := congrArg List.length (scan_bytes flags state input)
  simp only [Scan.bytes, List.length_append] at whole
  rcases scan_ends flat inline input with (⟨none, -⟩ | ⟨p, within, tag, rest⟩) | ⟨-, tag, text, rest⟩
  · simp [halted] at none
  · obtain rfl := Option.some.inj (halted.symm.trans within)
    refine ⟨by simpa [rest] using whole, .inl ⟨tag, ?_⟩⟩
    rw [scan, (Scan.resolve_eq _).1]
    exact munch_skipped flags.chunked p more
  · exact ⟨by simpa [rest] using whole, .inr ⟨tag, text⟩⟩

/- The tokens of an input that begins at the place `k` and is read from a state until it runs out,
and the state in which it does. -/
inductive Cut (flags : Flags) : ScanState → Nat → List Byte → List Token → ScanState → Prop where
  | stop {state last : ScanState} {k : Nat} {input : List Byte} :
      (scan flags state input).halted = some last →
      Cut flags state k input [(scan flags state input).place k] last
  | next {state last : ScanState} {k : Nat} {input : List Byte} {tokens : List Token} :
      (scan flags state input).halted = none →
      Cut flags .gap ((scan flags state input).place k).stop (scan flags state input).rest tokens last →
      Cut flags state k input ((scan flags state input).place k :: tokens) last

namespace Cut

variable {flags : Flags} {state last last' : ScanState} {j k : Nat} {input : List Byte}
  {tokens tokens' : List Token}

theorem unique (h : Cut flags state k input tokens last)
    (h' : Cut flags state k input tokens' last') : tokens = tokens' ∧ last = last' := by
  induction h generalizing tokens' with
  | stop halted =>
    cases h' with
    | stop halted' => exact ⟨rfl, Option.some.inj (halted.symm.trans halted')⟩
    | next going => simp [halted] at going
  | next going _ ih =>
    cases h' with
    | stop halted => simp [halted] at going
    | next _ rest =>
      obtain ⟨rfl, rfl⟩ := ih rest
      exact ⟨rfl, rfl⟩

theorem nonempty (h : Cut flags state k input tokens last) : tokens ≠ [] := by
  cases h <;> exact nofun

theorem shift (j : Nat) (h : Cut flags state k input tokens last) :
    Cut flags state (k + j) input (tokens.map (Token.shift j)) last := by
  have moved : ∀ (s : Scan) (k : Nat), (s.place k).shift j = s.place (k + j) := by
    intro s k
    simp only [Scan.place, Token.shift, Token.mk.injEq, true_and]
    omega
  induction h with
  | stop halted =>
    rw [List.map_singleton, moved]
    exact .stop halted
  | @next state last k input tokens going _ ih =>
    rw [List.map_cons, moved]
    refine .next going ?_
    rw [← moved]
    exact ih

theorem inline (flat : flags.indent = false) (h : Cut flags state k input tokens last)
    (start : state ≠ .lineStart) : last ≠ .lineStart := by
  induction h with
  | @stop state last k input halted =>
    rcases scan_ends flat start input with (⟨none, -⟩ | ⟨p, within, -⟩) | ⟨gap, -⟩
    · simp [halted] at none
    · obtain rfl := Option.some.inj (halted.symm.trans within)
      exact nofun
    · obtain rfl := Option.some.inj (halted.symm.trans gap)
      exact nofun
  | next _ _ ih => exact ih nofun

theorem stop_of {s : Scan} (same : (scan flags state input).unresolved = s.unresolved)
    (halted : s.halted = some last) : Cut flags state k input [s.place k] last := by
  rw [← Scan.place_congr same]
  exact .stop ((congrArg Scan.halted same).trans halted)

theorem next_of {s : Scan} (same : (scan flags state input).unresolved = s.unresolved)
    (going : s.halted = none) (rest : Cut flags .gap (s.place k).stop s.rest tokens last) :
    Cut flags state k input (s.place k :: tokens) last := by
  have left : (scan flags state input).unresolved.rest = s.unresolved.rest := by rw [same]
  rw [← Scan.place_congr same]
  refine .next ((congrArg Scan.halted same).trans going) ?_
  rw [Scan.place_congr same]
  exact left ▸ rest

theorem append (chunked : flags.chunked = true) (flat : flags.indent = false) {xs ys : List Byte}
    (start : state ≠ .lineStart) (h : Cut flags state k xs tokens last)
    (h' : Cut flags last (k + xs.length) ys tokens' last') :
    Cut flags state k (xs ++ ys) (weld tokens tokens') last' := by
  induction h with
  | @stop state last k xs halted =>
    have same := scan_append chunked flat start xs ys
    have joins := scan_joins flat start halted ys
    rw [Scan.extend_some _ _ _ halted] at same
    cases h' with
    | stop halted' =>
      rw [weld, joins.meet_place]
      exact stop_of same halted'
    | next going rest =>
      rw [weld, joins.meet_place]
      refine next_of same going ?_
      rwa [joins.stop_eq]
  | @next state last k xs tokens going rest ih =>
    have same := scan_append chunked flat start xs ys
    rw [Scan.extend_none _ _ _ going] at same
    have welded : weld ((scan flags state xs).place k :: tokens) tokens' =
        (scan flags state xs).place k :: weld tokens tokens' := by
      cases tokens with
      | nil => exact absurd rfl rest.nonempty
      | cons t tokens => rfl
    rw [welded]
    have behind := ih nofun (by rwa [scan_place_stop])
    have grown := next_of (k := k) same going behind
    exact grown

end Cut

namespace Scanner

theorem entries_eq (ends : TokenTag → Bool) (s : Scanner) :
    s.entries ends = s.entriesFrom ends .gap := by
  rw [entries]
  rfl

theorem place_nextFrom (s : Scanner) (state : ScanState) :
    (s.nextFrom state).1.unresolved = (scan s.flags state s.rest).place s.here.offset ∧
      (s.nextFrom state).2.here.offset = ((scan s.flags state s.rest).place s.here.offset).stop := by
  simp only [nextFrom, Token.unresolved, Scan.place, Place.offset_advance, and_self]

def Cuts (s : Scanner) (state : ScanState) (entries : List Entry) : Prop :=
  Cut s.flags state s.here.offset s.rest (entries.map fun e => e.token.unresolved) (lastState entries)

theorem cuts_stop {s : Scanner} {state last : ScanState}
    (halted : (scan s.flags state s.rest).halted = some last) :
    s.Cuts state [report (s.nextFrom state)] := by
  have place := (s.place_nextFrom state).1
  have final : lastState [report (s.nextFrom state)] = last := by
    simp [lastState, report, nextFrom, halted]
  unfold Cuts
  rw [final]
  simp only [List.map_singleton, report, place]
  exact .stop halted

theorem cuts_next {s : Scanner} {state : ScanState} {e : Entry} {entries : List Entry}
    (going : (scan s.flags state s.rest).halted = none)
    (rest : (s.nextFrom state).2.Cuts .gap (e :: entries)) :
    s.Cuts state (report (s.nextFrom state) :: e :: entries) := by
  obtain ⟨place, offset⟩ := s.place_nextFrom state
  have final : lastState (report (s.nextFrom state) :: e :: entries) = lastState (e :: entries) := by
    simp [lastState, List.getLast?_cons_cons]
  unfold Cuts at rest ⊢
  rw [flags_nextFrom, rest_nextFrom, offset] at rest
  rw [final, List.map_cons]
  simp only [report, place]
  exact .next going rest

theorem entriesFrom_cons (ends : TokenTag → Bool) (s : Scanner) (state : ScanState) :
    ∃ e entries, s.entriesFrom ends state = e :: entries := by
  unfold entriesFrom
  dsimp only
  split <;> exact ⟨_, _, rfl⟩

theorem halts_iff (s : Scanner) (state : ScanState) :
    ((s.nextFrom state).1.tag = .eof ∨ isHalt (s.nextFrom state).1.tag = true) ↔
      ∃ last, (scan s.flags state s.rest).halted = some last := by
  rw [tag_nextFrom]
  rcases scan_halts s.flags state s.rest with ⟨none, tag⟩ | ⟨last, halted, tag, -⟩
  · simp only [none, tag, reduceCtorEq, exists_false, iff_false, Bool.false_eq_true, or_false]
    intro eof
    simp [eof, isHalt] at tag
  · simp [halted, tag]

theorem entriesFrom_cuts_of (s : Scanner) {state : ScanState}
    (behind : ¬((s.nextFrom state).1.tag = .eof ∨ isHalt (s.nextFrom state).1.tag = true) →
      (s.nextFrom state).2.Cuts .gap ((s.nextFrom state).2.entries isHalt)) :
    s.Cuts state (s.entriesFrom isHalt state) := by
  unfold entriesFrom
  dsimp only
  split
  · rename_i halts
    obtain ⟨last, halted⟩ := (s.halts_iff state).mp halts
    exact cuts_stop halted
  · rename_i more
    have going : (scan s.flags state s.rest).halted = none := by
      rw [Option.eq_none_iff_forall_ne_some]
      intro last halted
      exact more ((s.halts_iff state).mpr ⟨last, halted⟩)
    have rest := behind more
    obtain ⟨e, entries, cons⟩ := (s.nextFrom state).2.entriesFrom_cons isHalt .gap
    rw [entries_eq, cons] at rest ⊢
    exact cuts_next going rest

/-- A scanner reads its source until it runs out. -/
theorem entriesFrom_cuts (s : Scanner) (state : ScanState) :
    s.Cuts state (s.entriesFrom isHalt state) := by
  have between : ∀ s : Scanner, s.Cuts .gap (s.entries isHalt) := by
    intro s
    induction s using entries.induct isHalt with
    | case1 s step halts =>
      rw [entries_eq]
      exact s.entriesFrom_cuts_of fun more => absurd halts more
    | case2 s step more ih =>
      rw [entries_eq]
      exact s.entriesFrom_cuts_of fun _ => ih
  exact s.entriesFrom_cuts_of fun _ => between _

end Scanner

theorem Token.meet_unresolved (t : Token) (later : List Token) :
    (t.meet later).map unresolved = t.unresolved.meet (later.map unresolved) := by
  obtain ⟨tag, start, stop⟩ := t
  cases tag <;> cases later <;> rfl

theorem weld_unresolved (tokens later : List Token) :
    (weld tokens later).map Token.unresolved =
      weld (tokens.map Token.unresolved) (later.map Token.unresolved) := by
  induction tokens with
  | nil => rfl
  | cons t rest ih =>
    cases rest with
    | nil => exact t.meet_unresolved later
    | cons u rest =>
      simp only [weld, List.map_cons] at ih ⊢
      rw [ih]

section Chunks

variable {flags : Flags}

theorem chunk_cut (flags : Flags) (state : ScanState) (k : Nat) (chunk : Source) :
    let entries := (Scanner.ofSource flags chunk).entriesFrom Scanner.isHalt state
    Cut flags state k chunk.bytes ((entries.map fun e => e.token.shift k).map Token.unresolved)
      (lastState entries) := by
  intro entries
  have cuts := (Scanner.ofSource flags chunk).entriesFrom_cuts state
  have shifted := Cut.shift k cuts
  have origin : (Scanner.ofSource flags chunk).here.offset + k = k := Nat.zero_add k
  rw [origin, List.map_map] at shifted
  rw [List.map_map]
  exact shifted

theorem chunks_cut (chunked : flags.chunked = true) (flat : flags.indent = false)
    {state : ScanState} (inline : state ≠ .lineStart) (k : Nat) (chunk : Source)
    (chunks : List Source) :
    let readings := readChunks flags state (chunk :: chunks)
    Cut flags state k ((chunk :: chunks).flatMap Source.bytes)
      ((stitch (placed k (chunk :: chunks) readings)).map Token.unresolved)
      (lastState (readings.getLast?.getD [])) := by
  induction chunks generalizing chunk k state with
  | nil =>
    have cut := chunk_cut flags state k chunk
    simpa [readChunks, placed, stitch] using cut
  | cons next chunks ih =>
    have cut := chunk_cut flags state k chunk
    have later := ih (cut.inline flat inline) (k + chunk.length) next
    have whole := cut.append chunked flat inline later
    rw [← weld_unresolved] at whole
    exact whole

/-- However a source is cut into chunks, reading it chunk by chunk comes to what reading it as one
chunk does: the same tokens at the same places, and the same state at the end. -/
theorem readThrough_chunks (chunked : flags.chunked = true) (flat : flags.indent = false)
    (source : Source) (chunks : List Source) (some : chunks ≠ [])
    (split : chunks.flatMap Source.bytes = source.bytes) :
    readThrough flags chunks = readThrough flags [source] := by
  obtain ⟨chunk, more, rfl⟩ := List.exists_cons_of_ne_nil some
  have inline : ScanState.gap ≠ .lineStart := nofun
  have parts := chunks_cut chunked flat inline 0 chunk more
  have whole := chunks_cut chunked flat inline 0 source []
  rw [List.flatMap_singleton, ← split] at whole
  obtain ⟨tokens, last⟩ := parts.unique whole
  exact Prod.ext tokens last

end Chunks

/-- A parenthesis, a number and a word, each cut off by the end of a chunk, one of them empty. -/
theorem readThrough_chunks_words :
    ([⟨[0x28]⟩, ⟨[0x31, 0x2E]⟩, ⟨[]⟩, ⟨[0x35, 0x20, 0x69]⟩, ⟨[0x66, 0x29]⟩] : List Source).flatMap
        Source.bytes = [0x28, 0x31, 0x2E, 0x35, 0x20, 0x69, 0x66, 0x29] ∧
      readThrough { chunked := true }
          [⟨[0x28]⟩, ⟨[0x31, 0x2E]⟩, ⟨[]⟩, ⟨[0x35, 0x20, 0x69]⟩, ⟨[0x66, 0x29]⟩] =
        readThrough { chunked := true } [⟨[0x28, 0x31, 0x2E, 0x35, 0x20, 0x69, 0x66, 0x29]⟩] :=
  ⟨rfl, readThrough_chunks rfl rfl _ _ (by simp) rfl⟩

end Offside
