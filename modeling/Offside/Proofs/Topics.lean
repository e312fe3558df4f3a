import Offside.Proofs.Enclosing
import Offside.Proofs.Lines
import Offside.Proofs.Sentinel

/-! Outlines of names. The lines of a text are numbered names, and all that tells one outline from
another is how its lines are laid out and on which level each of them is. This module says what its
lexemes are. -/
namespace Offside

/-- How the lines of an outline are laid out, and the level of each. The first line is on level zero,
and the first that is not is on level one. -/
structure Topics where
  lay : Layout
  levels : List Nat
  first : levels.head? = some 0
  second : ∀ k ∈ levels.find? (· ≠ 0), k = 1

namespace Topics

def label (i : Nat) : List Byte := Utf8.encode s!".n{i}"

variable (o : Topics)

def size : Nat := o.levels.length

def level (i : Nat) : Nat := o.levels[i]?.getD 0

def width (i : Nat) : Nat := o.lay.width (o.level i)

def line (i : Nat) : List Byte := margin (o.width i) ++ (label i ++ [Byte.lineFeed])

def text : List Byte := (List.range o.size).flatMap o.line

def source : Source := ⟨o.text⟩

def offset (i : Nat) : Nat := ((List.range i).flatMap o.line).length

def indent (i : Nat) : Token := ⟨.indent, o.offset i, o.offset i + o.width i⟩

def dot (i : Nat) : Token := ⟨.dot, (o.indent i).stop, (o.indent i).stop + 1⟩

def name (i : Nat) : Token := ⟨.identifier, (o.dot i).stop, (o.indent i).stop + (label i).length⟩

def eof : Token := ⟨.eof, o.text.length, o.text.length⟩

def textFrom (i : Nat) : List Byte := (List.range' i (o.size - i)).flatMap o.line

def tokensFrom (i : Nat) : List Token :=
  (List.range' i (o.size - i)).flatMap (fun j => [o.indent j, o.dot j, o.name j]) ++ [o.eof]

def lexemesFrom (i : Nat) : List Lexeme :=
  (List.range' i (o.size - i)).flatMap (fun j =>
    [⟨o.indent j, some (o.level j)⟩, .plain (o.dot j), .plain (o.name j)]) ++ [.plain o.eof]

section Lines

variable {o} {i : Nat}

theorem range'_lines (h : i < o.size) :
    List.range' i (o.size - i) = i :: List.range' (i + 1) (o.size - (i + 1)) := by
  rw [show o.size - i = o.size - (i + 1) + 1 by omega, List.range'_succ]

theorem textFrom_line (h : i < o.size) : o.textFrom i = o.line i ++ o.textFrom (i + 1) := by
  rw [textFrom, range'_lines h, List.flatMap_cons, textFrom]

theorem tokensFrom_line (h : i < o.size) :
    o.tokensFrom i = o.indent i :: o.dot i :: o.name i :: o.tokensFrom (i + 1) := by
  rw [tokensFrom, range'_lines h, List.flatMap_cons, tokensFrom]
  rfl

theorem lexemesFrom_line (h : i < o.size) : o.lexemesFrom i = ⟨o.indent i, some (o.level i)⟩ ::
    .plain (o.dot i) :: .plain (o.name i) :: o.lexemesFrom (i + 1) := by
  rw [lexemesFrom, range'_lines h, List.flatMap_cons, lexemesFrom]
  rfl

theorem lexemesFrom_size : o.lexemesFrom o.size = [.plain o.eof] := by
  rw [lexemesFrom, Nat.sub_self]
  rfl

theorem offset_succ (i : Nat) : o.offset (i + 1) = (o.indent i).stop + (label i).length + 1 := by
  rw [offset, List.range_succ, List.flatMap_append, List.length_append, List.flatMap_singleton, line,
    List.length_append, List.length_append, margin, List.length_replicate, indent, offset]
  simp only [List.length_singleton]
  omega

theorem size_pos (o : Topics) : 0 < o.size := by
  obtain ⟨rest, levels⟩ := List.head?_eq_some_iff.mp o.first
  rw [size, levels]
  exact Nat.succ_pos _

theorem level_zero (o : Topics) : o.level 0 = 0 := by
  obtain ⟨rest, levels⟩ := List.head?_eq_some_iff.mp o.first
  rw [level, levels]
  rfl

theorem level_one (flat : ∀ j < i, o.level j = 0) (deep : o.level i ≠ 0) : o.level i = 1 := by
  have inside : i < o.levels.length := by
    by_contra beyond
    rw [level, List.getElem?_eq_none (Nat.le_of_not_lt beyond)] at deep
    exact deep rfl
  have levels : ∀ j (h : j < o.levels.length), o.levels[j] = o.level j := by
    intro j h
    rw [level, List.getElem?_eq_getElem h]
    rfl
  refine o.second (o.level i) (List.find?_eq_some_iff_getElem.mpr ⟨?_, i, inside, levels i inside, ?_⟩)
  · simpa using deep
  · intro j before
    simp [levels j (Nat.lt_trans before inside), flat j before]

end Lines

theorem digit_isWordPart {c : Char} (digit : c.isDigit = true) :
    ∀ b ∈ String.utf8EncodeChar c, Byte.isWordPart b = true := by
  have digits : ∀ n < 58, 48 ≤ n → Byte.isWordPart (UInt8.ofNat n) = true := by decide
  obtain ⟨low, high⟩ : 48 ≤ c.val.toNat ∧ c.val.toNat ≤ 57 := by
    rw [Char.isDigit, Bool.and_eq_true, decide_eq_true_eq, decide_eq_true_eq] at digit
    exact digit
  rw [String.utf8EncodeChar, if_pos (show c.val.toNat ≤ 127 by omega)]
  rintro b (_ | ⟨_, ⟨⟩⟩)
  exact digits c.val.toNat (by omega) low

theorem label_eq (i : Nat) : ∃ digits, label i = Byte.dot :: 0x6E :: digits ∧
    ∀ b ∈ digits, Byte.isWordPart b = true := by
  refine ⟨(Nat.toDigits 10 i).flatMap String.utf8EncodeChar, ?_, ?_⟩
  · have text : s!".n{i}" = String.ofList (['.', 'n'] ++ Nat.toDigits 10 i) := String.ofList_append.symm
    rw [label, Utf8.encode, text, String.toUTF8, String.toByteArray_ofList, List.utf8Encode,
      List.data_toByteArray, List.flatMap_append]
    rfl
  · intro b member
    obtain ⟨c, digit, encoded⟩ := List.mem_flatMap.mp member
    exact digit_isWordPart (Nat.isDigit_of_mem_toDigits (by decide) (by decide) digit) b encoded

section Tokens

variable {o} {i w : Nat} {z digits : List Byte}

theorem scan_indent : scan .layout .gap (Byte.lineFeed :: (margin w ++ Byte.dot :: z)) =
    ⟨[Byte.lineFeed], margin w, Byte.dot :: z, .indent, none⟩ := by
  have opens : Opens (Byte.dot :: z) := ⟨by decide, by decide, by rintro ⟨dot, -⟩; cases dot⟩
  have read : leading false 0 (margin w ++ Byte.dot :: z) = .token (margin w) (Byte.dot :: z) .indent := by
    rw [leading_margin, Nat.zero_add, leading_opens _ opens,
      if_neg (show (Byte.dot :: z).head? ≠ some Byte.tab from nofun)]
  show ((leading false 0 (margin w ++ Byte.dot :: z)).skip [Byte.lineFeed]).resolve = _
  rw [read]
  rfl

theorem scan_dot : scan .layout .gap (Byte.dot :: z) = ⟨[], [Byte.dot], z, .dot, none⟩ := rfl

theorem scan_name (parts : ∀ b ∈ digits, Byte.isWordPart b = true) :
    scan .layout .gap (0x6E :: (digits ++ Byte.lineFeed :: z)) =
      ⟨[], 0x6E :: digits, Byte.lineFeed :: z, .identifier, none⟩ := by
  have plain : keyword? (0x6E :: digits) = none := by
    unfold keyword?
    split <;> simp_all
  show ((munch false .word (digits ++ Byte.lineFeed :: z)).push 0x6E).resolve = _
  rw [munch_stays false .word _ parts]
  show (Scan.token (0x6E :: (digits ++ [])) (Byte.lineFeed :: z) .identifier).resolve = _
  rw [List.append_nil, Scan.resolve_token, TokenTag.resolved, if_pos rfl, plain]
  rfl

theorem tokens_scan {u : Scanner} {f : Scan} (flags : u.flags = .layout) (rest : u.rest = z)
    (read : scan .layout .gap z = f) (more : f.tag ≠ .eof) :
    ∃ v : Scanner, u.tokens = ⟨f.tag, u.here.offset + f.skipped.length,
        u.here.offset + f.skipped.length + f.text.length⟩ :: v.tokens ∧ v.flags = .layout ∧
      v.rest = f.rest ∧ v.here.offset = u.here.offset + f.skipped.length + f.text.length := by
  rw [← flags, ← rest] at read
  obtain ⟨token, reached, -⟩ := u.nextFrom_token .gap
  rw [token, read] at reached
  rw [read] at token
  refine ⟨u.next.2, ?_, flags, congrArg Scan.rest read, reached⟩
  rw [← token, Scanner.tokens_eq, if_neg]
  · rfl
  · show (u.nextFrom .gap).1.tag ≠ .eof
    rw [token]
    exact more

theorem tokens_line {u : Scanner} (flags : u.flags = .layout)
    (rest : u.rest = label i ++ Byte.lineFeed :: z) (here : u.here.offset = (o.indent i).stop) :
    ∃ v : Scanner, u.tokens = o.dot i :: o.name i :: v.tokens ∧ v.flags = .layout ∧
      v.rest = Byte.lineFeed :: z ∧ v.here.offset + 1 = o.offset (i + 1) := by
  obtain ⟨digits, shape, parts⟩ := label_eq i
  have length : (label i).length = digits.length + 2 := by rw [shape]; rfl
  rw [shape] at rest
  obtain ⟨v, tokens, flags, rest, reached⟩ := tokens_scan flags rest scan_dot nofun
  obtain ⟨v', tokens', flags', rest', reached'⟩ := tokens_scan flags rest (scan_name parts) nofun
  have dotted : u.here.offset + 1 = (o.dot i).stop := by rw [here]; rfl
  have named : (o.dot i).stop + (digits.length + 1) = (o.name i).stop := by
    show (o.indent i).stop + 1 + (digits.length + 1) = (o.indent i).stop + (label i).length
    omega
  have reached : v.here.offset = (o.dot i).stop := reached.trans dotted
  have reached' : v'.here.offset = (o.name i).stop := by
    rw [reached', reached]
    exact named
  refine ⟨v', ?_, flags', rest', ?_⟩
  · rw [tokens, tokens', reached, here]
    exact congrArg (o.dot i :: ⟨.identifier, (o.dot i).stop, ·⟩ :: v'.tokens) named
  · rw [reached', offset_succ]
    rfl

theorem tokens_lines {u : Scanner} (flags : u.flags = .layout) (inside : i ≤ o.size)
    (rest : u.rest = Byte.lineFeed :: o.textFrom i) (here : u.here.offset + 1 = o.offset i) :
    u.tokens = o.tokensFrom i := by
  induction left : o.size - i generalizing i u with
  | zero =>
    obtain rfl : i = o.size := by omega
    have none : o.textFrom o.size = [] := by rw [textFrom, Nat.sub_self]; rfl
    rw [none] at rest
    have eof : u.next.1.tag = .eof := by
      show (scan u.flags .gap u.rest).tag = .eof
      rw [flags, rest]
      rfl
    have last : u.here.offset + u.rest.length = o.text.length := by
      rw [rest]
      exact here
    rw [Scanner.tokens_eq, if_pos eof, (Scanner.next_of_eof eof).1, last, tokensFrom, Nat.sub_self]
    rfl
  | succ n ih =>
    have more : i < o.size := by omega
    obtain ⟨digits, shape, -⟩ := label_eq i
    have split : o.textFrom i = margin (o.width i) ++ Byte.dot ::
        (0x6E :: digits ++ Byte.lineFeed :: o.textFrom (i + 1)) := by
      rw [textFrom_line more, line, shape, List.append_assoc, List.append_assoc]
      rfl
    obtain ⟨v, tokens, flags, rest, reached⟩ := tokens_scan flags (split ▸ rest) scan_indent nofun
    have token : (⟨.indent, u.here.offset + 1, u.here.offset + 1 + (margin (o.width i)).length⟩ : Token) =
        o.indent i := by
      rw [here, margin, List.length_replicate]
      rfl
    have rest : v.rest = label i ++ Byte.lineFeed :: o.textFrom (i + 1) := by
      rw [rest, shape]
      rfl
    obtain ⟨v', tokens', flags, rest, reached⟩ :=
      tokens_line flags rest (reached.trans (congrArg Token.stop token))
    rw [tokens, tokens', tokensFrom_line more, ih flags more rest reached (by omega)]
    exact congrArg (· :: _) token

/- What is known of the grid before a line: the first line beyond the trim fixes the unit. -/
def Fixes (o : Topics) (i : Nat) (g : Grid) : Prop :=
  g.trim = o.lay.trim ∧ (g.unit = some o.lay.unit ∨ g.unit = none ∧ ∀ j < i, o.level j = 0)

theorem Fixes.measure {g : Grid} (h : o.Fixes i g) :
    ∃ g', g.measure (o.indent i) = .ok (o.level i, g') ∧ o.Fixes (i + 1) g' := by
  obtain ⟨trim, unit⟩ := h
  have positive := o.lay.unit_pos
  have length : (o.indent i).length = g.trim + o.lay.unit * o.level i := by
    rw [Token.length_of_le (Nat.le_add_right _ _), trim]
    exact Nat.add_sub_cancel_left _ _
  rw [Grid.measure, length, if_neg (by omega), Nat.add_sub_cancel_left]
  by_cases flat : o.level i = 0
  · refine ⟨g, ?_, trim, unit.imp_right ?_⟩
    · rw [flat]
      rfl
    · rintro ⟨unknown, zero⟩
      exact ⟨unknown, Nat.forall_lt_succ_right.mpr ⟨zero, flat⟩⟩
  · have deep : o.lay.unit * o.level i ≠ 0 := Nat.mul_ne_zero positive.ne' flat
    rcases unit with known | ⟨unknown, zero⟩
    · refine ⟨g, ?_, trim, .inl known⟩
      simp only [if_neg deep, known, Nat.mul_mod_right, ↓reduceIte, Nat.mul_div_cancel_left _ positive]
    · refine ⟨{ g with unit := some o.lay.unit }, ?_, trim, .inl rfl⟩
      simp only [if_neg deep, unknown]
      rw [level_one zero flat, Nat.mul_one]

theorem label_line (g : Grid) : g.label (o.dot i :: o.name i :: o.tokensFrom (i + 1)) =
    .plain (o.dot i) :: .plain (o.name i) :: g.label (o.tokensFrom (i + 1)) := by
  have plain : ∀ t ∈ [o.dot i, o.name i], t.tag ≠ .indent := by simp [dot, name]
  exact g.label_plain plain (o.tokensFrom (i + 1))

theorem label_lines {g : Grid} (inside : i ≤ o.size) (fixes : o.Fixes i g) :
    g.label (o.tokensFrom i) = o.lexemesFrom i := by
  induction left : o.size - i generalizing i g with
  | zero =>
    obtain rfl : i = o.size := by omega
    rw [lexemesFrom_size, tokensFrom, Nat.sub_self]
    rfl
  | succ n ih =>
    have more : i < o.size := by omega
    obtain ⟨g', measured, fixes⟩ := fixes.measure
    rw [tokensFrom_line more, lexemesFrom_line more, ← ih more fixes (by omega), Grid.label,
      if_pos (show (o.indent i).tag = .indent from rfl), measured]
    exact congrArg (_ :: ·) (label_line g')

end Tokens

theorem first_line {u : Scanner} (start : u = .ofSource .layout o.source) :
    (u.nextFrom .lineStart).1 = o.indent 0 ∧
      (u.nextFrom .lineStart).2.rest = label 0 ++ Byte.lineFeed :: o.textFrom 1 := by
  obtain ⟨digits, shape, -⟩ := label_eq 0
  have split : o.text = margin (o.width 0) ++ (label 0 ++ Byte.lineFeed :: o.textFrom 1) := by
    rw [text, List.range_eq_range']
    show o.textFrom 0 = _
    rw [textFrom_line o.size_pos, line, List.append_assoc, List.append_assoc, List.singleton_append]
  have opens : Opens (label 0 ++ Byte.lineFeed :: o.textFrom 1) := by
    rw [shape]
    exact ⟨by decide, by decide, by rintro ⟨dot, -⟩; cases dot⟩
  have read : scan u.flags .lineStart u.rest =
      .token (margin (o.width 0)) (label 0 ++ Byte.lineFeed :: o.textFrom 1) .indent := by
    subst start
    show leading false 0 o.text = _
    rw [split, leading_margin, Nat.zero_add, leading_opens _ opens, shape]
    exact if_neg nofun
  have here : u.here.offset = 0 := by rw [start]; rfl
  refine ⟨?_, congrArg Scan.rest read⟩
  rw [(u.nextFrom_token .lineStart).1, read, here]
  show Token.mk .indent 0 (0 + (margin (o.width 0)).length) = _
  rw [margin, List.length_replicate]
  rfl

/-- The lexemes of an outline: behind each indentation a dot and a name. -/
theorem lexemes_eq : o.source.lexemes? =
    some (.plain (o.dot 0) :: .plain (o.name 0) :: o.lexemesFrom 1) := by
  unfold Source.lexemes?
  dsimp only
  generalize start : Scanner.ofSource .layout o.source = u
  obtain ⟨token, rest⟩ := o.first_line start.symm
  have flags : (u.nextFrom .lineStart).2.flags = .layout := by rw [← start]; rfl
  have reached : (u.nextFrom .lineStart).2.here.offset = (o.indent 0).stop := by
    rw [(u.nextFrom_token .lineStart).2.1, token]
  obtain ⟨v, tokens, flags, rest, behind⟩ := tokens_line flags rest reached
  have trim : (o.indent 0).length = o.lay.trim := by
    rw [Token.length_of_le (Nat.le_add_right _ _)]
    show 0 + o.lay.width (o.level 0) - 0 = _
    rw [o.level_zero, Layout.width, Nat.mul_zero, Nat.add_zero, Nat.zero_add, Nat.sub_zero]
  have flat : ∀ j < 1, o.level j = 0 := by
    intro j below
    rw [Nat.lt_one_iff.mp below]
    exact o.level_zero
  rw [token, tokens, tokens_lines flags o.size_pos rest behind,
    if_pos (show (o.indent 0).tag = .indent from rfl), label_line,
    label_lines o.size_pos ⟨trim, .inr ⟨rfl, flat⟩⟩]

end Topics
end Offside
