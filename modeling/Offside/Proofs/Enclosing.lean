import Offside.Proofs.Moved
import Offside.Proofs.Capacity
import Offside.Proofs.Recognition
import Offside.Proofs.Reindent

/-! Parentheses are transparent: around one line, on the same line or with lines of their own, they
change neither the tree nor the nodes, only the places of the tokens. -/
namespace Offside

def Lexeme.plain (t : Token) : Lexeme := ⟨t, none⟩

theorem Grid.label_plain (g : Grid) {ts : List Token} (plain : ∀ t ∈ ts, t.tag ≠ .indent)
    (us : List Token) : g.label (ts ++ us) = ts.map Lexeme.plain ++ g.label us := by
  induction ts with
  | nil => rfl
  | cons t ts ih =>
    obtain ⟨first, others⟩ := List.forall_mem_cons.mp plain
    rw [List.cons_append, label, if_neg first, ih others]
    rfl

theorem leading_margin (w k : Nat) (x : List Byte) :
    leading false w (margin k ++ x) = leading false (w + k) x := by
  induction k generalizing w with
  | zero => rfl
  | succ k ih =>
    show leading false w (Byte.space :: (margin k ++ x)) = _
    rw [leading_space, ih, Nat.add_assoc, Nat.add_comm 1]

theorem leading_unbroken {x : List Byte} {w : Nat} (unbroken : Byte.lineFeed ∉ x)
    (line : (leading false w x).tag = .indent) :
    ∃ k z, x = margin k ++ z ∧ Opens z ∧ z.head? ≠ some Byte.tab := by
  induction x generalizing w with
  | nil => cases line
  | cons b x ih =>
    simp only [List.mem_cons, not_or] at unbroken
    by_cases space : b = Byte.space
    · subst space
      rw [leading_space] at line
      obtain ⟨k, z, rfl, opens, tab⟩ := ih unbroken.2 line
      exact ⟨k + 1, z, rfl, opens, tab⟩
    · have opens : Opens (b :: x) := by
        refine ⟨space, Ne.symm unbroken.1, ?_⟩
        rintro ⟨-, feed⟩
        exact unbroken.2 (List.mem_of_mem_head? feed)
      refine ⟨0, b :: x, rfl, opens, fun tab => ?_⟩
      rw [leading_opens w opens, if_pos tab] at line
      cases line

theorem Source.lexemes_line {s : Source} {k : Nat} {z : List Byte}
    (read : leading false 0 s.bytes = .token (margin k) z .indent) :
    ∃ u : Scanner, u.flags = .layout ∧ u.rest = z ∧ u.here.offset = k ∧
      s.lexemes? = some ((Grid.ofTrim k).label u.tokens) := by
  have found : scan .layout .lineStart s.bytes = .token (margin k) z .indent := read
  have first : ((Scanner.ofSource .layout s).nextFrom .lineStart).1 = ⟨.indent, 0, k⟩ := by
    simp only [Scanner.nextFrom, Scanner.ofSource, found, Scan.token, Place.offset_advance, margin,
      List.length_replicate, Place.advance_nil, Place.origin, Nat.zero_add]
  have length : (⟨.indent, 0, k⟩ : Token).length = k := Token.length_of_le (Nat.zero_le k)
  refine ⟨((Scanner.ofSource .layout s).nextFrom .lineStart).2, rfl, congrArg Scan.rest found,
    congrArg Token.stop first, ?_⟩
  rw [lexemes?]
  simp only [first, length, ↓reduceIte]

namespace Scanner

variable {v : Scanner} {y : List Byte}

theorem reads {found : Scan} (flags : v.flags = .layout) (read : scan .layout .gap v.rest = found)
    (more : found.tag ≠ .eof) :
    ∃ (t : Token) (v' : Scanner), t.tag = found.tag ∧ t.length = found.text.length ∧
      v'.flags = .layout ∧ v'.rest = found.rest ∧
      v'.here.offset = v.here.offset + (found.skipped.length + found.text.length) ∧
      v.tokens = t :: v'.tokens := by
  have read : scan v.flags .gap v.rest = found := by rw [flags, read]
  have tag : v.next.1.tag = found.tag := congrArg Scan.tag read
  refine ⟨v.next.1, v.next.2, tag, ?_, flags, congrArg Scan.rest read, ?_, ?_⟩
  · simp only [Token.length, next, nextFrom, read, Place.offset_advance]
    rw [if_pos (Nat.le_add_right _ _), Nat.add_sub_cancel_left]
  · simp only [next, nextFrom, read, Place.offset_advance, Nat.add_assoc]
  · rw [tokens_eq, if_neg (tag ▸ more)]

theorem scan_leftParen {c : Byte} (other : c ≠ Byte.rightParen) :
    scan .layout .gap (Byte.leftParen :: c :: y) = .token [Byte.leftParen] (c :: y) .lParen := by
  have moved : Part.paren.move c = .close .lParen := by
    simp only [Part.move, beq_false_of_ne other, Bool.false_eq_true, ↓reduceIte]
  have read : munch false .paren (c :: y) = .token [] (c :: y) .lParen := by
    rw [munch, moved]
  have found : between .layout (Byte.leftParen :: c :: y) =
      (munch false .paren (c :: y)).push Byte.leftParen := between_part rfl (by decide) _ rfl
  rw [scan, found, read]
  rfl

theorem tokens_rightParen (flags : v.flags = .layout) (rest : v.rest = [Byte.rightParen]) :
    ∃ z e, v.tokens = [z, e] ∧ z.tag = .rParen ∧ e.tag = .eof := by
  have read : scan .layout .gap v.rest = .token [Byte.rightParen] [] .rParen := by
    rw [rest]
    rfl
  obtain ⟨z, v', tag, -, flags', rest', -, tokens⟩ := reads flags read nofun
  have last : v'.next.1.tag = .eof := by
    show (scan v'.flags .gap v'.rest).tag = .eof
    rw [flags', rest']
    rfl
  refine ⟨z, v'.next.1, ?_, tag, last⟩
  rw [tokens, tokens_eq, if_pos last]

theorem tokens_lastLine (flags : v.flags = .layout)
    (rest : v.rest = [Byte.lineFeed, Byte.rightParen]) :
    ∃ i z e, v.tokens = [i, z, e] ∧ i.tag = .indent ∧ i.length = 0 ∧ z.tag = .rParen ∧
      e.tag = .eof := by
  have read : scan .layout .gap v.rest =
      (Scan.token [] [Byte.rightParen] .indent).skip [Byte.lineFeed] := by
    rw [rest]
    rfl
  obtain ⟨i, v', line, width, flags', rest', -, tokens⟩ := reads flags read nofun
  obtain ⟨z, e, others, closes, last⟩ := tokens_rightParen flags' rest'
  exact ⟨i, z, e, by rw [tokens, others], line, width, closes, last⟩

end Scanner

theorem Source.lexemes_group {c : Byte} (y : List Byte) (other : c ≠ Byte.rightParen) :
    ∃ (o : Token) (v : Scanner), o.tag = .lParen ∧ v.flags = .layout ∧ v.rest = c :: y ∧
      v.here.offset = 1 ∧ lexemes? ⟨Byte.leftParen :: c :: y⟩ =
        some (Lexeme.plain o :: (Grid.ofTrim 0).label v.tokens) := by
  have opens : Opens (Byte.leftParen :: c :: y) := ⟨by decide, by decide, fun h => nomatch h.1⟩
  obtain ⟨u, flags, rest, offset, lexemes⟩ :=
    lexemes_line (s := ⟨Byte.leftParen :: c :: y⟩) (leading_opens 0 opens)
  have read : scan .layout .gap u.rest = .token [Byte.leftParen] (c :: y) .lParen := by
    rw [rest]
    exact Scanner.scan_leftParen other
  obtain ⟨o, v, tag, -, flags', rest', offset', tokens⟩ := Scanner.reads flags read nofun
  refine ⟨o, v, tag, flags', rest', by rw [offset', offset]; rfl, ?_⟩
  have plain : o.tag ≠ .indent := by
    rw [tag]
    nofun
  rw [lexemes, tokens, Grid.label, if_neg plain]
  rfl

/- A source of one line, and what it is read as: the width of its margin, what is behind it, the
tokens there and the piece that they are. -/
structure Source.OneLine (s : Source) (k : Nat) (z : List Byte) (front : List Token) (x : Piece) :
    Prop where
  bytes : s.bytes = margin k ++ z
  opens : Opens z
  tab : z.head? ≠ some Byte.tab
  unbroken : Byte.lineFeed ∉ z
  starts : ∃ t more, front = t :: more ∧ t.tag.opens = true
  sound : Enclosable (front.map Token.tag)
  plain : ∀ t ∈ front, t.tag ≠ .indent
  tokens : ∃ (u : Scanner) (e : Token), u.flags = .layout ∧ u.rest = z ∧ u.here.offset = k ∧
    u.tokens = front ++ [e] ∧ e.tag = .eof ∧
    Reads (.term .block 0 1) ((front ++ [e]).map Lexeme.plain) [x] [Lexeme.plain e]

theorem Source.Document.oneLine {s : Source} {tree : Tree} (h : s.Document Tail.Allows tree)
    (unbroken : Byte.lineFeed ∉ s.bytes) :
    ∃ k z front x, s.OneLine k z front x ∧ x.tree = tree := by
  obtain ⟨ts, lexemes, x, e, der, last, same⟩ := h
  have line : (leading false 0 s.bytes).tag = .indent := by
    unfold lexemes? at lexemes
    dsimp only at lexemes
    split at lexemes
    · assumption
    · cases lexemes
  obtain ⟨k, z, bytes, opens, tab⟩ := leading_unbroken unbroken line
  have inside : Byte.lineFeed ∉ z := by
    intro feed
    rw [bytes] at unbroken
    exact unbroken (List.mem_append_right _ feed)
  have read : leading false 0 s.bytes = .token (margin k) z .indent := by
    rw [bytes, leading_margin, leading_opens _ opens, if_neg tab, Nat.zero_add]
  obtain ⟨u, flags, rest, offset, found⟩ := lexemes_line read
  have flat := Scanner.tokens_unbroken flags (rest ▸ inside)
  have plain := (Grid.ofTrim k).label_plain flat []
  rw [List.append_nil] at plain
  obtain rfl : u.tokens.map Lexeme.plain = ts := by
    rw [lexemes, plain] at found
    simpa [Grid.label] using (Option.some.inj found).symm
  have unlined : Unlined (u.tokens.map Lexeme.plain) := by
    intro y member
    obtain ⟨t, inside, rfl⟩ := List.mem_map.mp member
    exact flat t inside
  obtain ⟨used, split, sound⟩ := der.uses unlined
  obtain ⟨t, behind, first, begins⟩ := der.opens trivial
  obtain ⟨front, back, tokens, rfl, ends⟩ := List.map_eq_append_iff.mp split
  obtain ⟨e, rfl, rfl⟩ := List.map_eq_singleton_iff.mp ends
  rw [List.map_map] at sound
  have starts : ∃ t more, front = t :: more ∧ t.tag.opens = true := by
    cases front with
    | nil =>
      rw [tokens, List.nil_append, List.map_singleton] at first
      rw [← (List.cons.inj first).1, last] at begins
      cases begins
    | cons t' more =>
      rw [tokens, List.cons_append, List.map_cons] at first
      rw [← (List.cons.inj first).1] at begins
      exact ⟨t', more, rfl, begins⟩
  rw [tokens] at flat der
  refine ⟨k, z, front, x, ⟨bytes, opens, tab, inside, starts, sound, ?_, ?_⟩, same⟩
  · exact fun t member => flat t (List.mem_append_left _ member)
  · exact ⟨u, e, flags, rest, offset, tokens, last, der⟩

namespace Source

/-- The source between parentheses, on one line. -/
def inParens (s : Source) : Source := ⟨Byte.leftParen :: (s.bytes ++ [Byte.rightParen])⟩

/-- The source between parentheses, on a line of its own that is `n` spaces deeper. -/
def inLines (s : Source) (n : Nat) : Source :=
  ⟨Byte.leftParen :: Byte.lineFeed ::
    (margin n ++ (s.bytes ++ [Byte.lineFeed, Byte.rightParen]))⟩

theorem room_inParens {s : Source} (fits : s.length ≤ capacity) :
    (s.inParens.parse .empty).outcome ≠ .error .outOfMemory := by
  have length : s.inParens.length = s.length + 2 := by simp [inParens, Source.length]
  refine parse_ne_outOfMemory _ .empty (room_empty ?_)
  rw [length]
  exact Nat.add_lt_add_of_le_of_lt fits (by decide)

namespace OneLine

variable {s : Source} {k : Nat} {z : List Byte} {front : List Token} {x : Piece}

theorem tokens_followed (h : s.OneLine k z front x) {u : Scanner} {back : List Byte} {d : Nat}
    (closes : Closes back) (flags : u.flags = .layout) (rest : u.rest = z ++ back)
    (offset : u.here.offset = k + d) :
    ∃ v : Scanner, v.flags = .layout ∧ v.rest = back ∧
      u.tokens = front.map (Token.shift d) ++ v.tokens := by
  obtain ⟨u', e, flags', rest', offset', tokens, last, -⟩ := h.tokens
  exact Scanner.tokens_followed closes flags' flags (by rw [rest, rest']) (by rw [offset, offset'])
    (rest' ▸ h.unbroken) tokens last h.sound

theorem head (h : s.OneLine k z front x) :
    ∃ c more, z = c :: more ∧ c ≠ Byte.rightParen ∧ (c = Byte.carriageReturn → more ≠ []) := by
  obtain ⟨u, e, flags, rest, -, tokens, -, -⟩ := h.tokens
  obtain ⟨t, others, rfl, begins⟩ := h.starts
  rw [Scanner.tokens_eq] at tokens
  have first : u.next.1 = t := (List.cons.inj tokens).1
  have tag : (scan .layout .gap z).tag = t.tag := by
    rw [← first, ← rest, ← flags]
    rfl
  obtain - | ⟨c, more⟩ := z
  · exact h.opens.elim
  · refine ⟨c, more, rfl, ?_, ?_⟩
    · rintro rfl
      have paren : (scan .layout .gap (Byte.rightParen :: more)).tag = .rParen := rfl
      rw [← tag, paren] at begins
      cases begins
    · rintro rfl rfl
      rw [← tag] at begins
      cases begins

theorem opens_followed (h : s.OneLine k z front x) (back : List Byte) : Opens (z ++ back) := by
  obtain ⟨c, more, rfl, -, alone⟩ := h.head
  have unbroken := h.unbroken
  obtain ⟨space, feed, -⟩ := h.opens
  refine ⟨space, feed, ?_⟩
  rintro ⟨rfl, follows⟩
  obtain ⟨b, more, rfl⟩ := List.exists_cons_of_ne_nil (alone rfl)
  obtain rfl : b = Byte.lineFeed := Option.some.inj follows
  exact unbroken (by simp)

theorem head_followed (h : s.OneLine k z front x) (back : List Byte) :
    ∃ c y, s.bytes ++ back = c :: y ∧ c ≠ Byte.rightParen := by
  obtain ⟨c, more, rfl, other, -⟩ := h.head
  rw [h.bytes]
  cases k with
  | zero => exact ⟨c, more ++ back, rfl, other⟩
  | succ k => exact ⟨Byte.space, margin k ++ (c :: more) ++ back, rfl, by decide⟩

theorem leading_followed (h : s.OneLine k z front x) (n : Nat) (back : List Byte) :
    leading false n (s.bytes ++ back) = .token (margin (n + k)) (z ++ back) .indent := by
  have tab : (z ++ back).head? ≠ some Byte.tab := by
    obtain ⟨c, more, rfl, -⟩ := h.head
    exact h.tab
  rw [h.bytes, List.append_assoc, leading_margin, leading_opens _ (h.opens_followed back), if_neg tab]

theorem lexemes_seat (S : Seat) (sound : Enclosable (front.map Token.tag)) {e : Token}
    (last : e.tag = .eof) :
    S.lexemes ((front ++ [e]).map Lexeme.plain) =
      (front.map (Token.shift S.shift)).map Lexeme.plain ++ S.tail := by
  have tags : Enclosable ((front.map Lexeme.plain).map Lexeme.tag) := by
    rw [List.map_map]
    exact sound
  rw [List.map_append, Seat.lexemes_append tags, List.map_map, List.map_map]
  congr 1
  exact if_pos last

theorem reads (h : s.OneLine k z front x) (S : Seat) :
    Reads (.term S.scope S.level 1)
      ((front.map (Token.shift S.shift)).map Lexeme.plain ++ S.tail) [x.moved S.shift] S.tail := by
  obtain ⟨u, e, flags, rest, offset, tokens, last, der⟩ := h.tokens
  have flat := Scanner.tokens_unbroken flags (rest ▸ h.unbroken)
  have unlined : Unlined ((front ++ [e]).map Lexeme.plain) := by
    intro y member
    obtain ⟨t, inside, rfl⟩ := List.mem_map.mp member
    exact flat t (tokens ▸ inside)
  have moved := Seat.reads (S := S) der unlined
  rw [lexemes_seat S h.sound last] at moved
  have behind : S.lexemes [Lexeme.plain e] = S.tail := if_pos last
  rw [behind] at moved
  simpa [Seat.phrase, Seat.scopeIn] using moved

theorem plain_moved (h : s.OneLine k z front x) (d : Nat) :
    ∀ t ∈ front.map (Token.shift d), t.tag ≠ .indent := by
  intro t member
  obtain ⟨t, inside, rfl⟩ := List.mem_map.mp member
  exact h.plain t inside

theorem lexemes_inParens (h : s.OneLine k z front x) :
    ∃ o r e, o.tag = .lParen ∧ r.tag = .rParen ∧ e.tag = .eof ∧
      s.inParens.lexemes? = some (Lexeme.plain o ::
        ((front.map (Token.shift 1)).map Lexeme.plain ++ [Lexeme.plain r, Lexeme.plain e])) := by
  obtain ⟨c, y, split, other⟩ := h.head_followed [Byte.rightParen]
  obtain ⟨o, v, paren, flags, rest, offset, lexemes⟩ := lexemes_group y other
  rw [← split, h.bytes, List.append_assoc] at rest
  have spaces : ∀ b ∈ margin k, isBlank b = true := by
    intro b member
    rw [List.eq_of_mem_replicate member]
    rfl
  obtain ⟨u, flags, rest, start, skipped⟩ := Scanner.tokens_blanks flags rest spaces
  have begins : u.here.offset = k + 1 := by
    rw [start, offset, margin, List.length_replicate, Nat.add_comm]
  obtain ⟨w, flags, rest, tokens⟩ := h.tokens_followed ⟨_, _, rfl, .inl rfl⟩ flags rest begins
  obtain ⟨r, e, ending, closes, last⟩ := Scanner.tokens_rightParen flags rest
  refine ⟨o, r, e, paren, closes, last, ?_⟩
  rw [inParens, split, lexemes, skipped, tokens, ending, Grid.label_plain _ (h.plain_moved 1)]
  simp [Grid.label, closes, last, Lexeme.plain]

/- The line of the source fixes the unit of the grid, and the last line is on level zero. -/
theorem lexemes_inLines (h : s.OneLine k z front x) {n : Nat} (deep : 1 ≤ n) :
    ∃ o i j r e, o.tag = .lParen ∧ i.tag = .indent ∧ j.tag = .indent ∧ r.tag = .rParen ∧
      e.tag = .eof ∧ (s.inLines n).lexemes? = some (Lexeme.plain o :: ⟨i, some 1⟩ ::
        ((front.map (Token.shift (n + 2))).map Lexeme.plain ++
          [⟨j, some 0⟩, Lexeme.plain r, Lexeme.plain e])) := by
  obtain ⟨o, v, paren, flags, rest, offset, lexemes⟩ := lexemes_group
    (margin n ++ (s.bytes ++ [Byte.lineFeed, Byte.rightParen])) (c := Byte.lineFeed) (by decide)
  have read : scan .layout .gap v.rest =
      (Scan.token (margin (n + k)) (z ++ [Byte.lineFeed, Byte.rightParen]) .indent).skip
        [Byte.lineFeed] := by
    rw [rest]
    show ((leading false 0 (margin n ++ _)).skip [Byte.lineFeed]).resolve = _
    rw [leading_margin, Nat.zero_add, h.leading_followed]
    rfl
  obtain ⟨i, u, line, width, flags, rest, start, first⟩ := Scanner.reads flags read nofun
  have line : i.tag = .indent := line
  have width : i.length = n + k := by simpa [Scan.skip, Scan.token, margin] using width
  have begins : u.here.offset = k + (n + 2) := by
    rw [start, offset]
    simp only [Scan.skip, Scan.token, margin, List.length_append, List.length_replicate,
      List.length_singleton, List.length_nil]
    omega
  obtain ⟨w, flags, rest, tokens⟩ := h.tokens_followed ⟨_, _, rfl, .inr rfl⟩ flags rest begins
  obtain ⟨j, r, e, ending, line', width', closes, last⟩ := Scanner.tokens_lastLine flags rest
  have measured : (Grid.ofTrim 0).measure i = .ok (1, ⟨0, some (n + k), 0⟩) := by
    simp only [Grid.measure, Grid.ofTrim, width, Nat.not_lt_zero, Nat.sub_zero, ↓reduceIte]
    rw [if_neg (by omega)]
  have again : (⟨0, some (n + k), 0⟩ : Grid).measure j = .ok (0, ⟨0, some (n + k), 0⟩) := by
    simp [Grid.measure, width']
  refine ⟨o, i, j, r, e, paren, line, line', closes, last, ?_⟩
  rw [inLines, lexemes, first, tokens, ending, Grid.label, if_pos line, measured]
  dsimp only
  rw [Grid.label_plain _ (h.plain_moved (n + 2))]
  simp [Grid.label, line', again, closes, last, Lexeme.plain]

theorem document_inParens (h : s.OneLine k z front x) :
    s.inParens.Document Tail.Allows (x.tree.moved 1) := by
  obtain ⟨o, r, e, paren, closes, last, lexemes⟩ := h.lexemes_inParens
  have closed : (Lexeme.plain r).tag = .rParen := closes
  have inner := h.reads
    { scope := .inline
      level := 0
      shift := 1
      tail := [Lexeme.plain r, Lexeme.plain e]
      names := by simp [Tail.Allows, closed]
      values := .inr (by rw [closed]; rfl) }
  have group : Reads (.operand 0) _ [⟨x.tree.moved 1, true⟩] [Lexeme.plain e] :=
    .group (o := Lexeme.plain o) paren inner closed
  exact ⟨_, lexemes, _, _, .lower (.single group) (by decide), last, rfl⟩

theorem document_inLines (h : s.OneLine k z front x) {n : Nat} (deep : 1 ≤ n) :
    (s.inLines n).Document Tail.Allows (x.tree.moved (n + 2)) := by
  obtain ⟨o, i, j, r, e, paren, line, line', closes, last, lexemes⟩ := h.lexemes_inLines deep
  have dedent : Lexeme.IsLine ⟨j, some 0⟩ 0 := ⟨line', rfl⟩
  have inner := h.reads
    { scope := .block
      level := 1
      shift := n + 2
      tail := [⟨j, some 0⟩, Lexeme.plain r, Lexeme.plain e]
      names := by simp [Tail.Allows, dedent.1]
      values := .inl ⟨line', rfl⟩ }
  have ends : ClosesGroup 0 [⟨j, some 0⟩, Lexeme.plain r, Lexeme.plain e] [Lexeme.plain e] :=
    ⟨Lexeme.plain r, closes, .inr ⟨_, dedent, rfl⟩⟩
  have group : Reads (.operand 0) _ [⟨x.tree.moved (n + 2), true⟩] [Lexeme.plain e] :=
    .groupBlock (o := Lexeme.plain o) (n := ⟨i, some 1⟩) paren ⟨line, rfl⟩ inner ends
  exact ⟨_, lexemes, _, _, .lower (.single group) (by decide), last, rfl⟩

theorem token_within (h : s.OneLine k z front x) {t : Token} (inside : t ∈ x.tree.tokens) :
    t.stop ≤ s.bytes.length := by
  obtain ⟨u, e, -, rest, offset, tokens, -, der⟩ := h.tokens
  obtain ⟨used, split, spans⟩ := der.covers
  obtain ⟨y, member, rfl⟩ := spans.within x.tree (by simp) t inside
  have listed : y ∈ (front ++ [e]).map Lexeme.plain := by
    rw [split]
    exact List.mem_append_left _ member
  obtain ⟨t, found, rfl⟩ := List.mem_map.mp listed
  have bound := u.tokens_within t (tokens ▸ found)
  rw [rest, offset] at bound
  rw [h.bytes, List.length_append, margin, List.length_replicate]
  exact bound

theorem flush (h : s.OneLine k z front x) : z ≠ [] ∧ z.head? ≠ some Byte.space := by
  obtain ⟨c, more, rfl, -⟩ := h.head
  obtain ⟨space, -⟩ := h.opens
  exact ⟨by simp, fun first => space (Option.some.inj first)⟩

def lines (h : s.OneLine k z front x) : List Line :=
  [⟨0, [Byte.leftParen], by decide, by decide, by decide⟩,
   ⟨1, z, h.flush.1, h.unbroken, h.flush.2⟩,
   ⟨0, [Byte.rightParen], by decide, by decide, by decide⟩]

theorem inLines_eq (h : s.OneLine k z front x) {n : Nat} (deep : 0 < n + k) :
    s.inLines n = Layout.text ⟨0, n + k, deep⟩ h.lines := by
  have indented : margin n ++ s.bytes = margin (n + k) ++ z := by
    rw [h.bytes, ← List.append_assoc, margin, margin, List.replicate_append_replicate, margin]
  rw [inLines, ← List.append_assoc, indented]
  simp [Layout.text, lines, Layout.line, Layout.width, List.intercalate, margin]

/- The source is one level deeper however wide its margin is, so one with a narrow margin tells
whether there is room. -/
theorem room_inLines (h : s.OneLine k z front x) (fits : s.length ≤ capacity) {n : Nat}
    (deep : 1 ≤ n) : ((s.inLines n).parse .empty).outcome ≠ .error .outOfMemory := by
  have length : (s.inLines 1).length = s.length + 5 := by simp [inLines, Source.length, margin]
  have narrow : (s.inLines 1).length < capacity + lineBytes := by
    rw [length]
    exact Nat.add_lt_add_of_le_of_lt fits (by decide)
  have room := parse_ne_outOfMemory (s.inLines 1) .empty (room_empty narrow)
  rw [h.inLines_eq (by omega)] at room ⊢
  exact Relayout.ne_outOfMemory_of_relaid (Layout.relaid_text h.lines) room

end OneLine

theorem text_shift {s w : Source} {front back : List Byte}
    (bytes : w.bytes = front ++ (s.bytes ++ back)) {t : Token} (within : t.stop ≤ s.bytes.length) :
    w.text (t.shift front.length) = s.text t := by
  unfold text Token.shift
  dsimp only
  rw [bytes, Nat.add_sub_add_right, Nat.add_comm, ← List.drop_drop, List.drop_left]
  by_cases order : t.start ≤ t.stop
  · rw [List.drop_append_of_le_length (Nat.le_trans order within), List.take_append_of_le_length]
    rw [List.length_drop]
    omega
  · rw [Nat.sub_eq_zero_of_le (Nat.le_of_not_le order), List.take_zero, List.take_zero]

theorem parse_laid {s : Source} {tree : Tree} (document : s.Document Tail.Allows tree) (a : Arena)
    (room : (s.parse a).outcome ≠ .error .outOfMemory) :
    (s.parse a).outcome = .ok (some (tree.root a.size)) ∧
      (s.parse a).arena.nodes.toList = a.nodes.toList ++ tree.lay a.size := by
  obtain ⟨ts, lexemes, document⟩ := document
  obtain ⟨c, start, stands⟩ := start_of_lexemes lexemes a
  rcases document.finishes stands with ⟨w, full⟩ | ⟨d, x, ran, carries, rfl⟩
  · exact absurd (parse_error start full).1 room
  · obtain ⟨outcome, arena⟩ := parse_ok start ran
    obtain ⟨nodes, -⟩ := carries.2.laid
    rw [outcome, arena]
    refine ⟨rfl, ?_⟩
    simpa [Tree.layAll, Arena.size] using nodes

/-- Another source is parsed to the same nodes, with tokens of the same texts that begin `d` bytes
later. -/
structure ParsedAs (s w : Source) (d : Nat) (root : NodeId) : Prop where
  outcome : (w.parse .empty).outcome = .ok (some root)
  nodes : (w.parse .empty).arena.nodes.toList =
    (s.parse .empty).arena.nodes.toList.map (Node.moved d)
  texts : ∀ n ∈ (s.parse .empty).arena.nodes.toList, ∀ t ∈ n.token, w.text (t.shift d) = s.text t

theorem parsedAs_of_document {s w : Source} {tree : Tree} {front back : List Byte} {d : Nat}
    (document : w.Document Tail.Allows (tree.moved d))
    (room : (w.parse .empty).outcome ≠ .error .outOfMemory)
    (nodes : (s.parse .empty).arena.nodes.toList = tree.lay 0)
    (bytes : w.bytes = front ++ (s.bytes ++ back)) (start : front.length = d)
    (within : ∀ t ∈ tree.tokens, t.stop ≤ s.bytes.length) : s.ParsedAs w d (tree.root 0) := by
  subst start
  obtain ⟨outcome, laid⟩ := parse_laid document .empty room
  constructor
  · rw [outcome, show Arena.empty.size = 0 from rfl, Tree.root_moved]
  · rw [laid, nodes, ← Tree.lay_moved]
    rfl
  · intro n member t token
    rw [nodes] at member
    exact text_shift bytes (within t (Tree.token_of_lay member token))

/-- What can be parsed and has no line feed is one line. -/
theorem exists_oneLine {s : Source} {root : NodeId} (unbroken : Byte.lineFeed ∉ s.bytes)
    (parsed : (s.parse .empty).outcome = .ok (some root)) :
    ∃ k z front x, s.OneLine k z front x ∧ root = x.tree.root 0 ∧
      (s.parse .empty).arena.nodes.toList = x.tree.lay 0 := by
  have grown := s.parse_grown .empty
  rw [parsed] at grown
  generalize arena : (s.parse .empty).arena = b at grown
  cases grown with
  | @tree tree _ document _ _ nodes =>
    obtain ⟨k, z, front, x, line, rfl⟩ := document.oneLine unbroken
    exact ⟨k, z, front, x, line, rfl, nodes⟩

theorem OneLine.parsedAs_inParens {s : Source} {k : Nat} {z : List Byte} {front : List Token}
    {x : Piece} (h : s.OneLine k z front x) (fits : s.length ≤ capacity)
    (nodes : (s.parse .empty).arena.nodes.toList = x.tree.lay 0) :
    s.ParsedAs s.inParens 1 (x.tree.root 0) := by
  have bytes : s.inParens.bytes = [Byte.leftParen] ++ (s.bytes ++ [Byte.rightParen]) := rfl
  exact parsedAs_of_document h.document_inParens (room_inParens fits) nodes bytes rfl
    fun t => h.token_within

theorem OneLine.parsedAs_inLines {s : Source} {k : Nat} {z : List Byte} {front : List Token}
    {x : Piece} (h : s.OneLine k z front x) (fits : s.length ≤ capacity)
    (nodes : (s.parse .empty).arena.nodes.toList = x.tree.lay 0) {n : Nat} (deep : 1 ≤ n) :
    s.ParsedAs (s.inLines n) (n + 2) (x.tree.root 0) := by
  have bytes : (s.inLines n).bytes = [Byte.leftParen, Byte.lineFeed] ++ margin n ++
      (s.bytes ++ [Byte.lineFeed, Byte.rightParen]) := by
    simp [inLines]
  have start : ([Byte.leftParen, Byte.lineFeed] ++ margin n).length = n + 2 := by
    simp [margin]
  exact parsedAs_of_document (h.document_inLines deep) (h.room_inLines fits deep) nodes bytes start
    fun t => h.token_within

/-- Parentheses around one line, on the same line or on lines of their own, are transparent: what can
be parsed alone is parsed to the same nodes. -/
theorem parse_enclosed (s : Source) (root : NodeId) (fits : s.length ≤ capacity)
    (unbroken : Byte.lineFeed ∉ s.bytes)
    (parsed : (s.parse .empty).outcome = .ok (some root)) :
    s.ParsedAs s.inParens 1 root ∧ ∀ n, 1 ≤ n → s.ParsedAs (s.inLines n) (n + 2) root := by
  obtain ⟨k, z, front, x, line, rfl, nodes⟩ := exists_oneLine unbroken parsed
  exact ⟨line.parsedAs_inParens fits nodes, fun n deep => line.parsedAs_inLines fits nodes deep⟩

/- A name with an attribute list and a value that is a group itself. -/
theorem parse_enclosed_name :
    let s := ofText ".a[b] = (1, 2)"
    s.length ≤ capacity ∧ Byte.lineFeed ∉ s.bytes ∧ (s.parse .empty).outcome = .ok (some ⟨6⟩) ∧
      s.ParsedAs s.inParens 1 ⟨6⟩ ∧ s.ParsedAs (s.inLines 3) 5 ⟨6⟩ := by
  intro s
  have fits : s.length ≤ capacity := by decide
  have unbroken : Byte.lineFeed ∉ s.bytes := by decide
  have parsed : ((ofText ".a[b] = (1, 2)").parse .empty).outcome = .ok (some ⟨6⟩) :=
    outcome_of_within (n := 40) rfl
  obtain ⟨parens, lines⟩ := parse_enclosed s ⟨6⟩ fits unbroken parsed
  exact ⟨fits, unbroken, parsed, parens, lines 3 (by decide)⟩

theorem parsedAs_ofBytes (s : Source) (root : NodeId) (unbroken : Byte.lineFeed ∉ s.bytes)
    (parsed : (s.parse .empty).outcome = .ok (some root)) :
    (s.inParens.bytes.length ≤ capacity → s.ParsedAs (ofBytes s.inParens.bytes) 1 root) ∧
      ∀ n, 1 ≤ n → (s.inLines n).bytes.length ≤ capacity →
        s.ParsedAs (ofBytes (s.inLines n).bytes) (n + 2) root := by
  obtain ⟨k, z, front, x, line, rfl, nodes⟩ := exists_oneLine unbroken parsed
  constructor
  · intro fits
    have inner : s.length ≤ capacity := by
      have longer : s.inParens.bytes.length = s.length + 2 := by simp [inParens, Source.length]
      omega
    rw [ofBytes_eq fits]
    exact line.parsedAs_inParens inner nodes
  · intro n deep fits
    have inner : s.length ≤ capacity := by
      have longer : (s.inLines n).bytes.length = s.length + n + 4 := by
        simp [inLines, Source.length, margin]
        omega
      omega
    rw [ofBytes_eq fits]
    exact line.parsedAs_inLines inner nodes deep

end Source
end Offside
