import Offside.Proofs.Bounded
import Offside.Proofs.Partition

/-! The lines of a source and their indentation. Read from the start of a line on, a source in which
nothing is at fault has one indentation for each line that is not blank: exactly its leading spaces,
before every other token of the line. -/
namespace Offside

/-- A line of a text: the offset of its first byte, and its bytes without what ends it. -/
structure TextLine where
  start : Nat
  content : List Byte
  deriving DecidableEq

/-- Right before a line feed, a carriage return belongs to the end of the line. -/
def withoutReturn (content : List Byte) : List Byte :=
  if content.getLast? = some Byte.carriageReturn then content.dropLast else content

def linesFrom (start : Nat) (content : List Byte) : List Byte → List TextLine
  | [] => [⟨start, content⟩]
  | b :: rest =>
    if b = Byte.lineFeed then
      ⟨start, withoutReturn content⟩ :: linesFrom (start + content.length + 1) [] rest
    else linesFrom start (content ++ [b]) rest

structure Token.Amid (t : Token) (left right : Nat) : Prop where
  plain : t.tag ≠ .indent ∧ t.tag ≠ .eof
  behind : left ≤ t.start
  full : t.start < t.stop
  before : t.stop ≤ right

namespace TextLine

def isBlank (l : TextLine) : Bool := l.content.all (· == Byte.space)

def indentation (l : TextLine) : Token :=
  ⟨.indent, l.start, l.start + (l.content.takeWhile (· == Byte.space)).length⟩

def stop (l : TextLine) : Nat := l.start + l.content.length

/-- The tokens of a line are its indentation and, behind it, tokens of the line. -/
def Holds (l : TextLine) (ts : List Token) : Prop :=
  ∃ inner, ts = l.indentation :: inner ∧ ∀ t ∈ inner, t.Amid l.indentation.stop l.stop

end TextLine

def inked (lines : List TextLine) : List TextLine := lines.filter fun l => !l.isBlank

namespace Source

def lines (s : Source) : List TextLine := linesFrom 0 [] s.bytes

def laidOut (s : Source) (spaces : Bool) : List Token :=
  ((Scanner.ofSource { spaces, indent := true } s).entriesFrom (fun _ => false) .lineStart).map
    Entry.token

example : lines ⟨[0x20, 0x0D, 0x0A, 0x20, 0x61, 0x0D, 0x0D, 0x0A]⟩ =
    [⟨0, [0x20]⟩, ⟨3, [0x20, 0x61, 0x0D]⟩, ⟨8, []⟩] := by decide

end Source

section Lines

variable {start w : Nat} {content rest e : List Byte}

theorem linesFrom_append {xs : List Byte} (unbroken : ∀ b ∈ xs, b ≠ Byte.lineFeed) :
    linesFrom start content (xs ++ rest) = linesFrom start (content ++ xs) rest := by
  induction xs generalizing content with
  | nil => simp
  | cons b xs ih =>
    obtain ⟨inline, unbroken⟩ := List.forall_mem_cons.mp unbroken
    rw [List.cons_append, linesFrom, if_neg inline, ih unbroken, List.append_assoc,
      List.singleton_append]

theorem linesFrom_kept
    (stays : rest.head? = some Byte.lineFeed → content.getLast? ≠ some Byte.carriageReturn) :
    ∃ tail more, linesFrom start content rest = ⟨start, content ++ tail⟩ :: more := by
  induction rest generalizing content with
  | nil => exact ⟨[], [], by simp [linesFrom]⟩
  | cons b rest ih =>
    by_cases feed : b = Byte.lineFeed
    · refine ⟨[], linesFrom (start + content.length + 1) [] rest, ?_⟩
      rw [linesFrom, if_pos feed, withoutReturn, if_neg (stays (congrArg some feed)), List.append_nil]
    · rw [linesFrom, if_neg feed]
      by_cases ended : b = Byte.carriageReturn ∧ rest.head? = some Byte.lineFeed
      · obtain ⟨rfl, head⟩ := ended
        obtain ⟨rest, rfl⟩ := List.head?_eq_some_iff.mp head
        refine ⟨[], linesFrom (start + (content ++ [Byte.carriageReturn]).length + 1) [] rest, ?_⟩
        rw [linesFrom, if_pos rfl, withoutReturn, if_pos List.getLast?_concat, List.dropLast_concat,
          List.append_nil]
      · obtain ⟨tail, more, lines⟩ := @ih (content ++ [b]) fun head last => by
          rw [List.getLast?_concat] at last
          exact ended ⟨Option.some.inj last, head⟩
        exact ⟨b :: tail, more, by rw [lines, List.append_assoc, List.singleton_append]⟩

theorem margin_getLast (w : Nat) : (margin w).getLast? ≠ some Byte.carriageReturn := by
  intro last
  obtain ⟨-, space⟩ := List.mem_replicate.mp (List.mem_of_getLast? last)
  exact absurd space (by decide)

theorem linesFrom_blank (ends : LineEnd e) :
    linesFrom start (margin w) (e ++ rest) =
      ⟨start, margin w⟩ :: linesFrom (start + (margin w ++ e).length) [] rest := by
  cases ends with
  | feed =>
    rw [List.singleton_append, linesFrom, if_pos rfl, withoutReturn, if_neg (margin_getLast w),
      List.length_append, List.length_singleton, Nat.add_assoc]
  | returned =>
    rw [List.cons_append, List.singleton_append, linesFrom, if_neg (by decide), linesFrom, if_pos rfl,
      withoutReturn, if_pos List.getLast?_concat, List.dropLast_concat, List.length_append,
      List.length_append]
    rfl

theorem inked_margin (lines : List TextLine) : inked (⟨start, margin w⟩ :: lines) = inked lines := by
  simp [inked, TextLine.isBlank, margin]

theorem linesFrom_opens (opens : Opens rest) :
    ∃ first more, linesFrom start (margin w) rest = first :: more ∧
      first.isBlank = false ∧ first.indentation = ⟨.indent, start, start + w⟩ := by
  obtain - | ⟨b, rest⟩ := rest
  · exact opens.elim
  obtain ⟨space, feed, blank⟩ := opens
  obtain ⟨tail, more, lines⟩ :
      ∃ tail more, linesFrom start (margin w ++ [b]) rest = ⟨start, margin w ++ [b] ++ tail⟩ :: more :=
    linesFrom_kept fun head last => by
      rw [List.getLast?_concat] at last
      exact blank ⟨Option.some.inj last, head⟩
  refine ⟨⟨start, margin w ++ [b] ++ tail⟩, more, ?_, ?_, ?_⟩
  · rw [linesFrom, if_neg feed, lines]
  · simp [TextLine.isBlank, space]
  · have spaces : ((margin w ++ [b] ++ tail).takeWhile (· == Byte.space)).length = w := by
      rw [List.append_assoc, List.takeWhile_append_of_pos (by simp [margin])]
      simp [margin, space]
    rw [TextLine.indentation, spaces]

end Lines

section Scans

variable {behind : List TextLine} {o start : Nat} {f : Scan} {content : List Byte}

/-- What a scan comes to that finds no token on the line it began on: a fault, the end behind blank
lines only, or the leading spaces of the first line that is not blank. -/
inductive Beyond (behind : List TextLine) (o : Nat) (f : Scan) : Prop where
  | fault : f.tag = .invalid ∨ f.tag = .incomplete → Beyond behind o f
  | ended : f.tag = .eof → inked behind = [] → Beyond behind o f
  | line (w : Nat) : f.tag = .indent → f.text = margin w → Opens f.rest →
      inked behind = inked (linesFrom (o + f.skipped.length) (margin w) f.rest) → Beyond behind o f

theorem Beyond.skip {passed : List Byte} (h : Beyond behind (o + passed.length) f) :
    Beyond behind o (f.skip passed) := by
  cases h with
  | fault fault => exact .fault fault
  | ended eof blank => exact .ended eof blank
  | line w tag text opens lines =>
    refine .line w tag text opens ?_
    rw [lines, Scan.skip, List.length_append, Nat.add_assoc]

theorem leading_beyond (o w : Nat) (rest : List Byte) :
    Beyond (linesFrom o (margin w) rest) o (leading false w rest) := by
  induction rest using leading_cases generalizing o w with
  | nil => exact .ended rfl (inked_margin [])
  | space z ih =>
    have longer := ih o (w + 1)
    rw [leading_space]
    rwa [show margin (w + 1) = margin w ++ [Byte.space] by simpa using margin_succ w [],
      ← linesFrom_append (List.forall_mem_singleton.mpr (by decide))] at longer
  | ended e z ends ih =>
    rw [leading_lineEnd _ ends, linesFrom_blank ends]
    refine Beyond.skip ?_
    have next := ih (o + (margin w ++ e).length) 0
    cases next with
    | fault fault => exact .fault fault
    | ended eof blank => exact .ended eof ((inked_margin _).trans blank)
    | line w' tag text opens lines => exact .line w' tag text opens ((inked_margin _).trans lines)
  | opens z opens =>
    rw [leading_opens _ opens]
    split
    · exact .fault (.inl rfl)
    · exact .line w rfl rfl opens rfl

structure Scan.Inline (f : Scan) : Prop where
  tag : f.tag ≠ .indent ∧ f.tag ≠ .eof
  full : f.text ≠ []
  unbroken : ∀ b ∈ f.skipped ++ f.text, b ≠ Byte.lineFeed
  last : f.text.getLast? ≠ some Byte.carriageReturn

theorem Scan.Inline.skip {b : Byte} (h : f.Inline) (inline : b ≠ Byte.lineFeed) : (f.skip [b]).Inline :=
  ⟨h.tag, h.full, List.forall_mem_cons.mpr ⟨inline, h.unbroken⟩, h.last⟩

theorem munch_unbroken {p : Part} {input : List Byte} (sound : (munch false p input).tag ≠ .invalid) :
    ∀ b ∈ (munch false p input).text, b ≠ Byte.lineFeed ∧ b ≠ Byte.carriageReturn := by
  have ends : ∀ p : Part, p.atLineEnd = .take .invalid ∨ ∃ tag, p.atLineEnd = .close tag := by
    intro p
    unfold Part.atLineEnd
    cases p.ending? with
    | none => exact .inl rfl
    | some tag => exact .inr ⟨tag, rfl⟩
  induction input generalizing p with
  | nil =>
    have none : (munch false p []).text = [] := by cases p <;> rfl
    rw [none]
    intro b member
    cases member
  | cons b rest ih =>
    have broken : b = Byte.lineFeed ∨ b = Byte.carriageReturn → p.move b = p.atLineEnd := by
      rintro (rfl | rfl)
      · exact p.move_lineFeed
      · exact p.move_carriageReturn
    rw [munch] at sound ⊢
    cases moved : p.move b with
    | close tag =>
      intro b member
      cases member
    | shift q =>
      rw [moved] at sound
      refine List.forall_mem_cons.mpr ⟨?_, ih sound⟩
      rw [← not_or]
      intro line
      rcases ends p with spoilt | ⟨tag, closed⟩
      · cases (moved.symm.trans (broken line)).trans spoilt
      · cases (moved.symm.trans (broken line)).trans closed
    | take tag =>
      rw [moved] at sound
      refine List.forall_mem_singleton.mpr ?_
      rw [← not_or]
      intro line
      rcases ends p with spoilt | ⟨tag, closed⟩
      · cases (moved.symm.trans (broken line)).trans spoilt
        exact sound rfl
      · cases (moved.symm.trans (broken line)).trans closed

theorem munch_inline {p : Part} {b : Byte} {input : List Byte}
    (inline : b ≠ Byte.lineFeed ∧ b ≠ Byte.carriageReturn) :
    ((munch false p input).push b).Inline ∨ Beyond behind o ((munch false p input).push b) := by
  by_cases spoilt : (munch false p input).tag = .invalid
  · exact .inr (.fault (.inl spoilt))
  have plain : ∀ c ∈ b :: (munch false p input).text,
      c ≠ Byte.lineFeed ∧ c ≠ Byte.carriageReturn :=
    List.forall_mem_cons.mpr ⟨inline, munch_unbroken spoilt⟩
  refine .inl ⟨⟨Part.munch_ne_indent p input, ?_⟩, List.cons_ne_nil _ _, ?_, ?_⟩
  · rcases munch_ends false p input with ⟨-, going⟩ | ⟨-, -, cut, -⟩
    · intro eof
      have eof : (munch false p input).tag = .eof := eof
      rw [eof] at going
      cases going
    · intro eof
      cases cut.symm.trans eof
  · intro c member
    have member : c ∈ (munch false p input).skipped ++ b :: (munch false p input).text := member
    rw [munch_skipped] at member
    exact (plain c member).1
  · intro last
    exact (plain _ (List.mem_of_getLast? last)).2 rfl

theorem between_beyond {flags : Flags} (tracked : flags.indent = true) (whole : flags.chunked = false)
    (start : Nat) (content rest : List Byte) :
    (between flags rest).Inline ∨
      Beyond (linesFrom start content rest).tail (start + content.length) (between flags rest) := by
  have skips : ∀ {b : Byte} {rest : List Byte} {content : List Byte}, b ≠ Byte.lineFeed →
      ((between flags rest).Inline ∨ Beyond (linesFrom start (content ++ [b]) rest).tail
        (start + (content ++ [b]).length) (between flags rest)) →
      ((between flags rest).skip [b]).Inline ∨ Beyond (linesFrom start content (b :: rest)).tail
        (start + content.length) ((between flags rest).skip [b]) := by
    intro b rest content inline next
    rcases next with inside | beyond
    · exact .inl (inside.skip inline)
    · rw [linesFrom, if_neg inline]
      rw [List.length_append, ← Nat.add_assoc] at beyond
      exact .inr beyond.skip
  fun_induction between flags rest generalizing content with
  | case1 => exact .inr (.ended rfl rfl)
  | case2 b rest blank _ =>
    rw [whole]
    refine munch_inline ⟨?_, ?_⟩
    · rintro rfl
      cases blank
    · rintro rfl
      cases blank
  | case3 b rest blank _ ih =>
    refine skips ?_ (ih (content ++ [b]))
    rintro rfl
    cases blank
  | case4 b rest _ returned ih =>
    refine skips ?_ (ih (content ++ [b]))
    rintro rfl
    cases returned
  | case5 b rest _ _ feed _ =>
    rw [whole, linesFrom, if_pos (eq_of_beq feed)]
    exact .inr (Beyond.skip (leading_beyond _ 0 rest))
  | case6 b rest _ _ _ flat => exact absurd tracked flat
  | case7 b rest _ returned feed p _ =>
    rw [whole]
    exact munch_inline ⟨by simpa using feed, by simpa using returned⟩
  | case8 b rest _ returned feed tag opens =>
    by_cases spoilt : tag = .invalid
    · exact .inr (.fault (.inl spoilt))
    · refine .inl ⟨⟨opening_ne_indent opens, ?_⟩, List.cons_ne_nil _ _, ?_, ?_⟩
      · rintro rfl
        exact absurd (opening_settles opens) (by decide)
      · simpa [Scan.token] using feed
      · simpa [Scan.token] using returned

theorem Beyond.resolve (h : Beyond behind o f) : Beyond behind o f.resolve := by
  obtain ⟨skipped, text, rest, -⟩ := f.resolve_eq
  have same : ∀ tag : TokenTag, tag.isWordLike = false → (f.resolve.tag = tag ↔ f.tag = tag) := by
    intro tag plain
    rw [Scan.resolve_tag, TokenTag.resolved_eq _ plain]
  cases h with
  | fault fault =>
    refine .fault ?_
    rwa [same .invalid rfl, same .incomplete rfl]
  | ended eof blank => exact .ended ((same .eof rfl).mpr eof) blank
  | line w tag isMargin opens lines =>
    refine .line w ((same .indent rfl).mpr tag) (text.trans isMargin) ?_ ?_
    · rwa [rest]
    · rwa [skipped, rest]

theorem Scan.Inline.resolve (h : f.Inline) : f.resolve.Inline := by
  obtain ⟨skipped, text, -⟩ := f.resolve_eq
  refine ⟨?_, ?_, ?_, ?_⟩
  · rw [Ne, Ne, Scan.resolve_tag, TokenTag.resolved_eq _ rfl, TokenTag.resolved_eq _ rfl]
    exact h.tag
  · rw [text]
    exact h.full
  · rw [skipped, text]
    exact h.unbroken
  · rw [text]
    exact h.last

end Scans

namespace Scanner

variable {u : Scanner} {start w : Nat} {behind : List TextLine}

/-- From inside a line on, the tokens are those left of the line, then those of each line behind it that
is not blank, and the end. -/
def ListsFrom (u : Scanner) (start : Nat) (content : List Byte) : Prop :=
  ∃ inner groups, u.tokens = inner ++ (groups.flatten ++
      [⟨.eof, u.here.offset + u.rest.length, u.here.offset + u.rest.length⟩]) ∧
    (∀ l ∈ (linesFrom start content u.rest).head?, ∀ t ∈ inner, t.Amid (start + content.length) l.stop) ∧
    List.Forall₂ TextLine.Holds (inked (linesFrom start content u.rest).tail) groups

theorem nextFrom_token (u : Scanner) (state : ScanState) :
    (u.nextFrom state).1 = ⟨(scan u.flags state u.rest).tag,
        u.here.offset + (scan u.flags state u.rest).skipped.length,
        u.here.offset + (scan u.flags state u.rest).skipped.length +
          (scan u.flags state u.rest).text.length⟩ ∧
      (u.nextFrom state).2.here.offset = (u.nextFrom state).1.stop ∧
      (u.nextFrom state).1.stop + (u.nextFrom state).2.rest.length = u.here.offset + u.rest.length := by
  have whole := congrArg List.length (scan_bytes u.flags state u.rest)
  simp only [Scan.bytes, List.length_append] at whole
  simp only [nextFrom, Place.offset_advance, true_and]
  omega

theorem opens_listed {state : ScanState} (tag : (scan u.flags state u.rest).tag = .indent)
    (text : (scan u.flags state u.rest).text = margin w) (opens : Opens (u.nextFrom state).2.rest)
    (lines : inked behind = inked (linesFrom
      (u.here.offset + (scan u.flags state u.rest).skipped.length) (margin w) (u.nextFrom state).2.rest))
    (listed : ∀ {start : Nat} {content : List Byte},
      (u.nextFrom state).2.here.offset = start + content.length →
        (u.nextFrom state).2.ListsFrom start content) :
    ∃ groups, (u.nextFrom state).1 :: (u.nextFrom state).2.tokens = groups.flatten ++
        [⟨.eof, u.here.offset + u.rest.length, u.here.offset + u.rest.length⟩] ∧
      List.Forall₂ TextLine.Holds (inked behind) groups := by
  obtain ⟨token, offset, same⟩ := u.nextFrom_token state
  generalize u.here.offset + (scan u.flags state u.rest).skipped.length = start at token lines
  have width : (margin w).length = w := List.length_replicate
  rw [tag, text, width] at token
  obtain ⟨inner, groups, tokens, onLine, later⟩ :=
    @listed start (margin w) (by rw [offset, token, width])
  obtain ⟨first, more, split, full, indentation⟩ := linesFrom_opens (w := w) opens
  rw [split] at lines onLine later
  refine ⟨((u.nextFrom state).1 :: inner) :: groups, ?_, ?_⟩
  · rw [tokens, offset, same, List.flatten_cons, List.cons_append, List.cons_append, List.append_assoc]
  · rw [lines, inked, List.filter_cons_of_pos (by rw [full]; rfl)]
    refine .cons ⟨inner, by rw [indentation, token], ?_⟩ later
    intro t member
    have amid := onLine first rfl t member
    rw [width] at amid
    rw [indentation]
    exact amid

theorem inline_listed {content : List Byte} (inline : (scan u.flags .gap u.rest).Inline)
    (here : u.here.offset = start + content.length)
    (listed : ∀ {start : Nat} {content : List Byte}, u.next.2.here.offset = start + content.length →
      u.next.2.ListsFrom start content) : u.ListsFrom start content := by
  obtain ⟨startsAt, stopsAt, offset, same⟩ := u.next_spans
  have bytes := scan_bytes u.flags .gap u.rest
  have longer := List.length_pos_iff.mpr inline.full
  have tag : u.next.1.tag ≠ .indent ∧ u.next.1.tag ≠ .eof := inline.tag
  generalize found : scan u.flags .gap u.rest = f at inline startsAt stopsAt bytes longer
  have lines : linesFrom start content u.rest =
      linesFrom start (content ++ (f.skipped ++ f.text)) u.next.2.rest := by
    rw [← bytes, ← found]
    exact linesFrom_append (found ▸ inline.unbroken)
  obtain ⟨tail, more, kept⟩ : ∃ tail more, linesFrom start (content ++ (f.skipped ++ f.text))
      u.next.2.rest = ⟨start, content ++ (f.skipped ++ f.text) ++ tail⟩ :: more := by
    refine linesFrom_kept fun _ => ?_
    rw [← List.append_assoc, List.getLast?_append_of_ne_nil _ inline.full]
    exact inline.last
  obtain ⟨inner, groups, later, onLine, grouped⟩ :=
    @listed start (content ++ (f.skipped ++ f.text)) (by simp only [List.length_append]; omega)
  rw [kept] at lines onLine grouped
  refine ⟨u.next.1 :: inner, groups, ?_, ?_, lines ▸ grouped⟩
  · rw [tokens_eq, if_neg tag.2, later, offset, same]
    rfl
  · rw [lines]
    rintro l ⟨⟩ t member
    rcases List.mem_cons.mp member with rfl | member
    · refine ⟨tag, by omega, by omega, ?_⟩
      simp only [TextLine.stop, List.length_append]
      omega
    · have amid := onLine _ rfl t member
      refine ⟨amid.plain, ?_, amid.full, amid.before⟩
      have behind := amid.behind
      rw [List.length_append] at behind
      omega

theorem tokens_listed (tracked : u.flags.indent = true) (whole : u.flags.chunked = false)
    (sound : ∀ t ∈ u.tokens, t.tag ≠ .invalid ∧ t.tag ≠ .incomplete) :
    ∀ {start : Nat} {content : List Byte}, u.here.offset = start + content.length →
      u.ListsFrom start content := by
  induction u using entries.induct fun _ => false with
  | case1 u step last =>
    intro start content here
    have eof : u.next.1.tag = .eof := by simpa using last
    have tokens : u.tokens = [u.next.1] := by rw [tokens_eq, if_pos eof]
    have token := (next_of_eof eof).1
    refine ⟨[], [], by rw [tokens, token]; rfl, by simp, ?_⟩
    have eof : (between u.flags u.rest).resolve.tag = .eof := eof
    rcases between_beyond tracked whole start content u.rest with inline | beyond
    · exact absurd eof inline.resolve.tag.2
    · cases beyond.resolve with
      | fault fault => simp [eof] at fault
      | ended _ blank =>
        rw [blank]
        exact .nil
      | line w indent => simp [eof] at indent
  | case2 u step more ih =>
    intro start content here
    have going : ¬u.next.1.tag = .eof := by simpa using more
    have tokens : u.tokens = u.next.1 :: u.next.2.tokens := by rw [tokens_eq, if_neg going]
    rw [tokens] at sound
    obtain ⟨soundHere, soundLater⟩ := List.forall_mem_cons.mp sound
    rcases between_beyond tracked whole start content u.rest with inline | beyond
    · exact inline_listed inline.resolve here (ih tracked whole soundLater)
    · have beyond : Beyond _ _ (scan u.flags .gap u.rest) := beyond.resolve
      cases beyond with
      | fault fault => exact absurd fault (not_or.mpr soundHere)
      | ended eof => exact absurd eof going
      | line w tag text opens lines =>
        obtain ⟨groups, later, grouped⟩ :=
          opens_listed tag text opens (here ▸ lines) (ih tracked whole soundLater)
        exact ⟨[], groups, tokens.trans later, by simp, grouped⟩

end Scanner

/- Each line that is not blank has one indentation. -/
theorem indents_of_holds {lines : List TextLine} {groups : List (List Token)}
    (h : List.Forall₂ TextLine.Holds lines groups) :
    groups.flatten.filter (·.tag = .indent) = lines.map TextLine.indentation := by
  induction h with
  | nil => rfl
  | cons holds _ ih =>
    obtain ⟨inner, rfl, amid⟩ := holds
    have none : inner.filter (·.tag = .indent) = [] := by
      rw [List.filter_eq_nil_iff]
      intro t member
      simpa using (amid t member).plain.1
    rw [List.flatten_cons, List.filter_append, ih, List.filter_cons_of_pos (by rfl), none]
    rfl

namespace Scanner

theorem lines_listed {u : Scanner} (tracked : u.flags.indent = true) (whole : u.flags.chunked = false)
    {ts : List Token} (read : ts = if (u.nextFrom .lineStart).1.tag = .eof then
      [(u.nextFrom .lineStart).1] else (u.nextFrom .lineStart).1 :: (u.nextFrom .lineStart).2.tokens)
    (sound : ∀ t ∈ ts, t.tag ≠ .invalid ∧ t.tag ≠ .incomplete) :
    ∃ groups, ts = groups.flatten ++
        [⟨.eof, u.here.offset + u.rest.length, u.here.offset + u.rest.length⟩] ∧
      List.Forall₂ TextLine.Holds (inked (linesFrom u.here.offset [] u.rest)) groups := by
  obtain ⟨token, offset, same⟩ := u.nextFrom_token .lineStart
  have beyond : Beyond (linesFrom u.here.offset [] u.rest) u.here.offset
      (scan u.flags .lineStart u.rest) := by
    rw [scan, whole]
    exact leading_beyond u.here.offset 0 u.rest
  cases beyond with
  | fault fault =>
    refine absurd fault (not_or.mpr (sound (u.nextFrom .lineStart).1 ?_))
    rw [read]
    split
    · exact List.mem_singleton_self _
    · exact List.mem_cons_self
  | ended eof blank =>
    have ended : (scan u.flags .lineStart u.rest).Sound u.flags := leading_sound tracked _ 0 u.rest
    obtain ⟨text, rest⟩ := ended.ended eof
    rw [if_pos (show (u.nextFrom .lineStart).1.tag = .eof from eof)] at read
    refine ⟨[], ?_, by rw [blank]; exact .nil⟩
    have stop : (u.nextFrom .lineStart).1.stop = u.here.offset + u.rest.length := by
      rw [← same, rest_nextFrom, rest]
      rfl
    rw [token, text] at stop
    rw [read, token, eof, text, ← stop]
    rfl
  | line w tag text opens lines =>
    rw [if_neg (show (u.nextFrom .lineStart).1.tag ≠ .eof by rw [tag_nextFrom, tag]; decide)] at read
    rw [read] at sound ⊢
    exact opens_listed tag text opens lines (tokens_listed (u := (u.nextFrom .lineStart).2) tracked
      whole (List.forall_mem_cons.mp sound).2)

end Scanner

theorem Source.laidOut_eq (s : Source) (spaces : Bool) :
    s.laidOut spaces =
      let first := (Scanner.ofSource { spaces, indent := true } s).nextFrom .lineStart
      if first.1.tag = .eof then [first.1] else first.1 :: first.2.tokens := by
  simp only [laidOut, Scanner.entriesFrom, Bool.false_eq_true, or_false]
  split <;> rfl

/-- Where nothing is at fault and nothing is cut off, the tokens of a source are those of its lines that
are not blank, line by line, and the end. Each of these lines begins with its indentation; there is no
other indentation. -/
theorem Source.indentation_per_line (s : Source) (spaces : Bool)
    (sound : ∀ t ∈ s.laidOut spaces, t.tag ≠ .invalid ∧ t.tag ≠ .incomplete) :
    (∃ groups, s.laidOut spaces = groups.flatten ++ [⟨.eof, s.length, s.length⟩] ∧
        List.Forall₂ TextLine.Holds (inked s.lines) groups) ∧
      (s.laidOut spaces).filter (·.tag = .indent) = (inked s.lines).map TextLine.indentation := by
  suffices grouped : ∃ groups, s.laidOut spaces = groups.flatten ++ [⟨.eof, s.length, s.length⟩] ∧
      List.Forall₂ TextLine.Holds (inked s.lines) groups by
    obtain ⟨groups, tokens, holds⟩ := grouped
    refine ⟨⟨groups, tokens, holds⟩, ?_⟩
    rw [tokens, List.filter_append, indents_of_holds holds]
    exact List.append_nil _
  obtain ⟨groups, tokens, holds⟩ := Scanner.lines_listed rfl rfl (s.laidOut_eq spaces) sound
  have length : (Scanner.ofSource { spaces, indent := true } s).here.offset +
      (Scanner.ofSource { spaces, indent := true } s).rest.length = s.length := Nat.zero_add _
  rw [length] at tokens
  exact ⟨groups, tokens, holds⟩

/- A blank line with a return, a line that is a return only, an indented word, and spaces at the end. -/
theorem Source.indentation_per_line_returns :
    (laidOut ⟨[0x20, 0x0D, 0x0A, 0x0D, 0x0D, 0x0A, 0x20, 0x61, 0x0A, 0x20]⟩ false).filter
      (·.tag = .indent) = [⟨.indent, 3, 3⟩, ⟨.indent, 6, 7⟩] := by
  have tokens : laidOut ⟨[0x20, 0x0D, 0x0A, 0x0D, 0x0D, 0x0A, 0x20, 0x61, 0x0A, 0x20]⟩ false =
      [⟨.indent, 3, 3⟩, ⟨.indent, 6, 7⟩, ⟨.identifier, 7, 8⟩, ⟨.eof, 10, 10⟩] := by
    rw [laidOut_eq]
    exact congrArg (_ :: ·) (Scanner.tokens_of_within (n := 3) (by decide))
  exact (indentation_per_line ⟨[0x20, 0x0D, 0x0A, 0x0D, 0x0D, 0x0A, 0x20, 0x61, 0x0A, 0x20]⟩ false
    (by rw [tokens]; decide)).2

end Offside
