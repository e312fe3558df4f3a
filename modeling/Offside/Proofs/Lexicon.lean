import Mathlib.Computability.Language
import Offside.Proofs.Alphabet

/-! The spellings of tokens as languages over bytes, and what is still to come of a spelling when a
part of it has been read. -/
namespace Offside
open scoped Computability

def one (test : Byte → Bool) : Language Byte := {w | ∃ b, test b = true ∧ w = [b]}

section Derivatives

variable {b : Byte} {w : List Byte} {test : Byte → Bool} {L M : Language Byte}

theorem nil_mem_mul : [] ∈ L * M ↔ [] ∈ L ∧ [] ∈ M := by
  simp [Language.mem_mul]

theorem nil_mem_one : [] ∈ one test ↔ False := by
  simp only [iff_false]
  rintro ⟨b, _, h⟩
  cases h

theorem cons_mem_one : b :: w ∈ one test ↔ test b = true ∧ w = [] := by
  constructor
  · rintro ⟨_, pass, ⟨⟩⟩
    exact ⟨pass, rfl⟩
  · rintro ⟨pass, rfl⟩
    exact ⟨b, pass, rfl⟩

theorem mem_one_mul : w ∈ one test * M ↔ ∃ b v, w = b :: v ∧ test b = true ∧ v ∈ M := by
  rw [Language.mem_mul]
  constructor
  · rintro ⟨_, ⟨b, pass, rfl⟩, v, member, rfl⟩
    exact ⟨b, v, rfl, pass, member⟩
  · rintro ⟨b, v, rfl, pass, member⟩
    exact ⟨[b], ⟨b, pass, rfl⟩, v, member, rfl⟩

theorem cons_mem_one_mul : b :: w ∈ one test * M ↔ test b = true ∧ w ∈ M := by
  rw [mem_one_mul]
  constructor
  · rintro ⟨_, _, ⟨⟩, pass, member⟩
    exact ⟨pass, member⟩
  · rintro ⟨pass, member⟩
    exact ⟨b, w, rfl, pass, member⟩

theorem mem_byte_mul {c : Byte} : w ∈ one (· == c) * M ↔ ∃ v, w = c :: v ∧ v ∈ M := by
  rw [mem_one_mul]
  constructor
  · rintro ⟨b, v, rfl, same, member⟩
    exact ⟨v, by rw [beq_iff_eq.mp same], member⟩
  · rintro ⟨v, rfl, member⟩
    exact ⟨c, v, rfl, beq_self_eq_true c, member⟩

theorem cons_mem_unit : b :: w ∈ (1 : Language Byte) ↔ False := by
  simp [Language.mem_one]

theorem kstar_mul (L M : Language Byte) : L∗ * M = M + L * (L∗ * M) := by
  calc L∗ * M = (1 + L * L∗) * M := by rw [Language.one_add_self_mul_kstar_eq_kstar]
    _ = M + L * (L∗ * M) := by rw [add_mul, one_mul, mul_assoc]

theorem cons_mem_star : b :: w ∈ (one test)∗ ↔ test b = true ∧ w ∈ (one test)∗ := by
  rw [← Language.one_add_self_mul_kstar_eq_kstar, Language.mem_add, cons_mem_one_mul,
    Language.one_add_self_mul_kstar_eq_kstar, cons_mem_unit, false_or]

theorem cons_mem_star_mul :
    b :: w ∈ (one test)∗ * M ↔ (test b = true ∧ w ∈ (one test)∗ * M) ∨ b :: w ∈ M := by
  rw [kstar_mul, Language.mem_add, cons_mem_one_mul, ← kstar_mul]
  exact or_comm

theorem mem_star (each : ∀ b ∈ w, test b = true) : w ∈ (one test)∗ := by
  induction w with
  | nil => exact Language.nil_mem_kstar _
  | cons b w ih =>
    apply cons_mem_star.mpr
    constructor
    · exact each b List.mem_cons_self
    · exact ih fun c inside => each c (List.mem_cons_of_mem b inside)

theorem cons_mem_opt : b :: w ∈ 1 + L ↔ b :: w ∈ L := by
  rw [Language.mem_add, cons_mem_unit, false_or]

theorem cons_mem_opt_mul : b :: w ∈ (1 + L) * M ↔ b :: w ∈ M ∨ b :: w ∈ L * M := by
  rw [add_mul, one_mul, Language.mem_add]

end Derivatives

namespace Lexicon

def literal (c : Char) : Language Byte := one (· == byte c)

def digits (r : Radix) : Language Byte := one (isDigit r) * (one (isDigit r))∗

def fraction (r : Radix) : Language Byte := literal '.' * digits r

def signed : Language Byte := (1 + one isSign) * digits .decimal

def exponent (r : Radix) : Language Byte := one (isExponentLetter r) * signed

def ending (r : Radix) : Language Byte := (1 + fraction r) * (1 + exponent r)

def letter? : Radix → Option Char
  | .decimal => none
  | .binary => some 'b'
  | .octal => some 'o'
  | .hexadecimal => some 'x'

def mark (r : Radix) : Language Byte :=
  match letter? r with
  | none => 1
  | some c => literal '0' * literal c

def number (r : Radix) : Language Byte := mark r * (digits r * ending r)

def word : Language Byte := one isWordStart * (one isWordPart)∗

def stringItem : Language Byte := one isStringByte + literal '\\' * one isPrintable

def string : Language Byte := literal '"' * (stringItem∗ * literal '"')

def char : Language Byte :=
  literal '\'' * ((one isCharByte + literal '\\' * one isEscape) * literal '\'')

def blanks : Language Byte := one isInlineBlank * (one isInlineBlank)∗

end Lexicon

/-- The spellings of each kind of token. Runs of blanks are tokens only if that is asked for. -/
inductive Spells (spaces : Bool) : TokenTag → List Byte → Prop where
  | keyword {k : List Char} {tag : TokenTag} :
      (k, tag) ∈ Lexicon.keywords → Spells spaces tag (k.map Lexicon.byte)
  | identifier {w : List Byte} : w ∈ Lexicon.word →
      (∀ k ∈ Lexicon.keywords, w ≠ k.1.map Lexicon.byte) → Spells spaces .identifier w
  | number {w : List Byte} {r : Radix} : w ∈ Lexicon.number r → Spells spaces .number w
  | string {w : List Byte} : w ∈ Lexicon.string → Spells spaces .string w
  | char {w : List Byte} : w ∈ Lexicon.char → Spells spaces .char w
  | symbol {c : Char} {tag : TokenTag} :
      (c, tag) ∈ Lexicon.symbols → Spells spaces tag [Lexicon.byte c]
  | emptyParens : Spells spaces .emptyParens [Lexicon.byte '(', Lexicon.byte ')']
  | plusPlus : Spells spaces .plusPlus [Lexicon.byte '+', Lexicon.byte '+']
  | blanks {w : List Byte} : spaces = true → w ∈ Lexicon.blanks → Spells spaces .space w

namespace Lexicon

/-! The languages over the classes of the scanner. -/

theorem digits_eq (r : Radix) : digits r = one r.isDigit * (one r.isDigit)∗ := by
  rw [digits, isDigit_eq]

theorem fraction_eq (r : Radix) : fraction r = one (· == Byte.dot) * digits r := rfl

theorem exponent_eq (r : Radix) : exponent r = one r.isExponentMark * signed := by
  rw [exponent, isExponentLetter_eq]

theorem word_eq : word = one Byte.isWordStart * (one Byte.isWordPart)∗ := by
  rw [word, isWordStart_eq, isWordPart_eq]

theorem stringItem_eq :
    stringItem = one isStringByte + one (· == Byte.backslash) * one Byte.isPlain := by
  rw [stringItem, isPrintable_eq]
  rfl

theorem blanks_eq : blanks = one Byte.isInlineBlank * (one Byte.isInlineBlank)∗ := by
  rw [blanks, isInlineBlank_eq]

theorem keyword_mem_word {k : List Char} {tag : TokenTag} (listed : (k, tag) ∈ keywords) :
    k.map byte ∈ word := by
  have letters : ∀ e ∈ keywords,
      e.1.map byte ≠ [] ∧ ∀ b ∈ e.1.map byte, isWordStart b = true := by decide +kernel
  obtain ⟨some, each⟩ := letters _ listed
  obtain ⟨b, w, text⟩ := List.exists_cons_of_ne_nil some
  simp only [text] at each ⊢
  apply cons_mem_one_mul.mpr
  constructor
  · exact each b List.mem_cons_self
  · apply mem_star
    intro c inside
    simp [isWordPart, each c (List.mem_cons_of_mem b inside)]

end Lexicon

namespace Part
open Lexicon

def numeral : Part → Language Byte
  | zero => (one Byte.isDigit)∗ * ending .decimal + one (· == 0x62) * (digits .binary * ending .binary) +
      one (· == 0x6F) * (digits .octal * ending .octal) +
      one (· == 0x78) * (digits .hexadecimal * ending .hexadecimal)
  | baseMark r => digits r * ending r
  | integer r => (one r.isDigit)∗ * ending r
  | point r => digits r * (1 + Lexicon.exponent r)
  | fraction r => (one r.isDigit)∗ * (1 + Lexicon.exponent r)
  | exponentMark => signed
  | exponentSign => digits .decimal
  | exponent => (one Byte.isDigit)∗
  | _ => 0

/-- What is still to come of a token, and which token it then is; a keyword is a word here. -/
def Completes : Part → TokenTag → List Byte → Prop
  | blanks, tag, w => tag = .space ∧ w ∈ (one Byte.isInlineBlank)∗
  | word, tag, w => tag = .identifier ∧ w ∈ (one Byte.isWordPart)∗
  | string, tag, w => tag = .string ∧ w ∈ stringItem∗ * one (· == Byte.doubleQuote)
  | stringEscape, tag, w =>
    tag = .string ∧ w ∈ one Byte.isPlain * (stringItem∗ * one (· == Byte.doubleQuote))
  | charOpen, tag, w => tag = .char ∧
    w ∈ (one isCharByte + one (· == Byte.backslash) * one isEscape) * one (· == Byte.singleQuote)
  | charEscape, tag, w => tag = .char ∧ w ∈ one isEscape * one (· == Byte.singleQuote)
  | charClose, tag, w => tag = .char ∧ w ∈ one (· == Byte.singleQuote)
  | paren, tag, w => tag = .lParen ∧ w = [] ∨ tag = .emptyParens ∧ w = [Byte.rightParen]
  | plus, tag, w => tag = .plus ∧ w = [] ∨ tag = .plusPlus ∧ w = [Byte.plus]
  | p, tag, w => tag = .number ∧ w ∈ p.numeral

theorem completes_nil (p : Part) (tag : TokenTag) : p.Completes tag [] ↔ p.ending? = some tag := by
  have star : ∀ L : Language Byte, [] ∈ L∗ := Language.nil_mem_kstar
  have opt : ∀ L : Language Byte, [] ∈ 1 + L := fun _ => .inl rfl
  cases p <;> simp [Completes, ending?, numeral, ending, digits, signed, nil_mem_mul, nil_mem_one,
    star, opt, Language.mem_add, eq_comm, -add_eq_sup]

end Part

def Move.Completes : Move → TokenTag → List Byte → Prop
  | .shift q, tag, w => q.Completes tag w
  | .take t, tag, w => t ≠ .invalid ∧ tag = t ∧ w = []
  | .close _, _, _ => False

namespace Part
open Lexicon

attribute [simp] move numeral Completes

variable {b : Byte} {w : List Byte} {tag : TokenTag}

theorem shift_completes {q : Part} : (Move.shift q).Completes tag w ↔ q.Completes tag w := Iff.rfl

theorem settle_completes {t : TokenTag} : ¬(settle t b).Completes tag w := by
  unfold settle
  split
  · exact id
  · exact fun h => h.1 rfl

theorem demand_completes {test : Bool} {q : Part} :
    (demand test q).Completes tag w ↔ test = true ∧ q.Completes tag w := by
  unfold demand
  cases test with
  | true => simp [Move.Completes]
  | false => simp [Move.Completes]

theorem dot_plain (r : Radix) : r.isDigit Byte.dot = false ∧ r.isExponentMark Byte.dot = false := by
  cases r <;> decide

theorem mark_plain {r : Radix} (h : r.isExponentMark b = true) : r.isDigit b = false := by
  cases r <;> simp [Radix.isExponentMark] at h <;> rcases h with rfl | rfl <;> decide

theorem sign_plain (h : isSign b = true) : Byte.isDigit b = false := by
  simp only [isSign_eq, Bool.or_eq_true, beq_iff_eq] at h
  rcases h with rfl | rfl <;> decide

theorem cons_mem_digits {r : Radix} {M : Language Byte} :
    b :: w ∈ digits r * M ↔ r.isDigit b = true ∧ w ∈ (one r.isDigit)∗ * M := by
  rw [digits_eq, mul_assoc, cons_mem_one_mul]

theorem cons_mem_exponent {r : Radix} :
    b :: w ∈ 1 + Lexicon.exponent r ↔ r.isExponentMark b = true ∧ w ∈ signed := by
  rw [cons_mem_opt, exponent_eq, cons_mem_one_mul]

theorem cons_mem_ending {r : Radix} :
    b :: w ∈ ending r ↔ (r.isExponentMark b = true ∧ w ∈ signed) ∨
      (b = Byte.dot ∧ w ∈ digits r * (1 + Lexicon.exponent r)) := by
  rw [ending, cons_mem_opt_mul, cons_mem_exponent, fraction_eq, mul_assoc, cons_mem_one_mul,
    beq_iff_eq]

theorem cons_mem_signed :
    b :: w ∈ signed ↔ (isSign b = true ∧ w ∈ digits .decimal) ∨
      (Byte.isDigit b = true ∧ w ∈ (one Byte.isDigit)∗) := by
  rw [signed, cons_mem_opt_mul, digits_eq, cons_mem_one_mul, cons_mem_one_mul]
  exact or_comm

theorem exponent_cons : Part.exponent.Completes tag (b :: w) ↔
    (Part.exponent.move b).Completes tag w := by
  simp only [Completes, numeral, move, cons_mem_star]
  split
  · simp [Move.Completes, Completes, numeral, *]
  · simp [settle_completes, *]

theorem exponentSign_cons : exponentSign.Completes tag (b :: w) ↔
    (exponentSign.move b).Completes tag w := by
  simp only [Completes, numeral, move, digits_eq, cons_mem_one_mul, demand_completes]
  exact and_left_comm

theorem exponentMark_cons : exponentMark.Completes tag (b :: w) ↔
    (exponentMark.move b).Completes tag w := by
  simp only [Completes, numeral, cons_mem_signed, move]
  by_cases sign : isSign b = true
  · have plain := sign_plain sign
    simp only [isSign_eq] at sign
    simp [isSign_eq, sign, plain, Move.Completes, Completes, numeral]
  · have other : ¬(b == Byte.plus || b == Byte.minus) = true := by simpa only [isSign_eq] using sign
    simp [sign, other, demand_completes, Completes, numeral, and_left_comm]

theorem fraction_cons {r : Radix} : (Part.fraction r).Completes tag (b :: w) ↔
    ((Part.fraction r).move b).Completes tag w := by
  simp only [Completes, numeral, cons_mem_star_mul, cons_mem_exponent, move]
  by_cases digit : r.isDigit b = true
  · have other : r.isExponentMark b = false := by
      by_contra mark
      simp [mark_plain (Bool.eq_true_of_not_eq_false mark)] at digit
    simp [digit, other, Move.Completes, Completes, numeral]
  · by_cases mark : r.isExponentMark b = true
    · simp [digit, mark, Move.Completes, Completes, numeral]
    · simp [digit, mark, settle_completes]

theorem point_cons {r : Radix} : (point r).Completes tag (b :: w) ↔
    ((point r).move b).Completes tag w := by
  simp only [Completes, numeral, cons_mem_digits, move, demand_completes]
  exact and_left_comm

theorem integer_cons {r : Radix} : (integer r).Completes tag (b :: w) ↔
    ((integer r).move b).Completes tag w := by
  simp only [Completes, numeral, cons_mem_star_mul, cons_mem_ending, move]
  by_cases dot : b = Byte.dot
  · subst dot
    simp [dot_plain, Move.Completes, Completes, numeral]
  · by_cases digit : r.isDigit b = true
    · have other : r.isExponentMark b = false := by
        by_contra mark
        simp [mark_plain (Bool.eq_true_of_not_eq_false mark)] at digit
      simp [digit, dot, other, Move.Completes, Completes, numeral]
    · by_cases mark : r.isExponentMark b = true
      · simp [digit, dot, mark, Move.Completes, Completes, numeral]
      · simp [digit, dot, mark, settle_completes]

theorem baseMark_cons {r : Radix} : (baseMark r).Completes tag (b :: w) ↔
    ((baseMark r).move b).Completes tag w := by
  simp only [Completes, numeral, cons_mem_digits, move, demand_completes]
  exact and_left_comm

theorem zero_completes : zero.Completes tag (b :: w) ↔ (integer .decimal).Completes tag (b :: w) ∨
    (b = 0x62 ∧ (baseMark .binary).Completes tag w) ∨ (b = 0x6F ∧ (baseMark .octal).Completes tag w) ∨
      (b = 0x78 ∧ (baseMark .hexadecimal).Completes tag w) := by
  have same : Radix.decimal.isDigit = Byte.isDigit := rfl
  simp only [Completes, numeral, Language.mem_add, cons_mem_one_mul, beq_iff_eq, same]
  constructor
  · rintro ⟨number, ((h | h) | h) | h⟩
    · exact .inl ⟨number, h⟩
    · exact .inr (.inl ⟨h.1, number, h.2⟩)
    · exact .inr (.inr (.inl ⟨h.1, number, h.2⟩))
    · exact .inr (.inr (.inr ⟨h.1, number, h.2⟩))
  · rintro (⟨number, h⟩ | ⟨letter, number, h⟩ | ⟨letter, number, h⟩ | ⟨letter, number, h⟩)
    · exact ⟨number, .inl (.inl (.inl h))⟩
    · exact ⟨number, .inl (.inl (.inr ⟨letter, h⟩))⟩
    · exact ⟨number, .inl (.inr ⟨letter, h⟩)⟩
    · exact ⟨number, .inr ⟨letter, h⟩⟩

theorem zero_cons : zero.Completes tag (b :: w) ↔ (zero.move b).Completes tag w := by
  have spoiled : ∀ c : Byte, (integer .decimal).move c = .take .invalid →
      ¬((integer .decimal).move c).Completes tag w := by
    intro c h
    rw [h]
    exact fun h => h.1 rfl
  rw [zero_completes, integer_cons]
  -- But for the three letters, a zero goes on like any other digit.
  by_cases binary : b = 0x62
  · subst binary
    have other := spoiled 0x62 (by decide)
    have letter : zero.move 0x62 = .shift (baseMark .binary) := rfl
    simp [other, letter, shift_completes, -move]
  · by_cases octal : b = 0x6F
    · subst octal
      have other := spoiled 0x6F (by decide)
      have letter : zero.move 0x6F = .shift (baseMark .octal) := rfl
      simp [other, letter, shift_completes, -move]
    · by_cases hexadecimal : b = 0x78
      · subst hexadecimal
        have other := spoiled 0x78 (by decide)
        have letter : zero.move 0x78 = .shift (baseMark .hexadecimal) := rfl
        simp [other, letter, shift_completes, -move]
      · have same : zero.move b = (integer .decimal).move b := by
          simp [binary, octal, hexadecimal, Radix.isDigit]
        simp [same, binary, octal, hexadecimal, -move]

theorem string_cons : Part.string.Completes tag (b :: w) ↔ (Part.string.move b).Completes tag w := by
  simp only [Completes, move]
  rw [kstar_mul, Language.mem_add, stringItem_eq, add_mul, Language.mem_add, mul_assoc,
    cons_mem_one_mul, cons_mem_one_mul, cons_mem_one, ← stringItem_eq]
  by_cases quote : b = Byte.doubleQuote
  · subst quote
    simp [isStringByte_eq, Move.Completes, Byte.doubleQuote, Byte.backslash]
  · by_cases escape : b = Byte.backslash
    · subst escape
      simp [isStringByte_eq, Move.Completes, Completes, Byte.doubleQuote, Byte.backslash]
    · simp [quote, escape, isStringByte_eq, demand_completes, Completes, and_left_comm]

theorem stringEscape_cons : stringEscape.Completes tag (b :: w) ↔
    (stringEscape.move b).Completes tag w := by
  simp only [Completes, move, cons_mem_one_mul, demand_completes]
  exact and_left_comm

theorem charOpen_cons : charOpen.Completes tag (b :: w) ↔ (charOpen.move b).Completes tag w := by
  simp only [Completes, move, add_mul, Language.mem_add, mul_assoc, cons_mem_one_mul]
  by_cases escape : b = Byte.backslash
  · subst escape
    simp [isCharByte_eq, Move.Completes, Completes]
  · simp [escape, isCharByte_eq, demand_completes, Completes, and_left_comm, and_assoc]

theorem charEscape_cons : charEscape.Completes tag (b :: w) ↔
    (charEscape.move b).Completes tag w := by
  simp only [Completes, move, cons_mem_one_mul, demand_completes, isEscape_eq]
  exact and_left_comm

theorem charClose_cons : charClose.Completes tag (b :: w) ↔ (charClose.move b).Completes tag w := by
  simp only [Completes, move, cons_mem_one]
  split
  · simp [Move.Completes, *]
  · simp [Move.Completes, *]

theorem completes_cons (p : Part) (b : Byte) (w : List Byte) (tag : TokenTag) :
    p.Completes tag (b :: w) ↔ (p.move b).Completes tag w := by
  cases p with
  | blanks =>
    simp only [Completes, move, cons_mem_star]
    split <;> simp [Move.Completes, Completes, *]
  | word =>
    simp only [Completes, move, cons_mem_star]
    split
    · simp [Move.Completes, Completes, *]
    · simp [settle_completes, *]
  | zero => exact zero_cons
  | baseMark r => exact baseMark_cons
  | integer r => exact integer_cons
  | point r => exact point_cons
  | fraction r => exact fraction_cons
  | exponentMark => exact exponentMark_cons
  | exponentSign => exact exponentSign_cons
  | exponent => exact exponent_cons
  | string => exact string_cons
  | stringEscape => exact stringEscape_cons
  | charOpen => exact charOpen_cons
  | charEscape => exact charEscape_cons
  | charClose => exact charClose_cons
  | paren =>
    simp only [Completes, move]
    split <;> simp_all [Move.Completes]
  | plus =>
    simp only [Completes, move]
    split <;> simp_all [Move.Completes]

end Part

def TokenTag.resolved (raw : TokenTag) (w : List Byte) : TokenTag :=
  if raw = .identifier then (keyword? w).getD .identifier else raw

def isGap (b : Byte) : Bool :=
  Byte.isInlineBlank b || b == Byte.carriageReturn || b == Byte.lineFeed

def Opening.Completes : Opening → TokenTag → List Byte → Prop
  | .part p, raw, w => p.Completes raw w
  | .whole t, raw, w => t ≠ .invalid ∧ raw = t ∧ w = []

/-- The spellings, as they are read byte by byte. -/
def Begins (spaces : Bool) (raw : TokenTag) : List Byte → Prop
  | [] => False
  | b :: w =>
    if isGap b then spaces = true ∧ Byte.isInlineBlank b = true ∧ Part.blanks.Completes raw w
    else (opening b).Completes raw w

section Openings
open Lexicon

variable {spaces : Bool} {b : Byte} {w : List Byte} {raw tag : TokenTag}

theorem isGap_plain (gap : isGap b = true) :
    Byte.isWordStart b = false ∧ Byte.isDigit b = false := by
  simp only [isGap, Byte.isInlineBlank, Bool.or_eq_true, beq_iff_eq] at gap
  rcases gap with ((rfl | rfl) | rfl) | rfl <;> exact ⟨rfl, rfl⟩

theorem digit_not_wordStart (digit : Byte.isDigit b = true) : Byte.isWordStart b = false := by
  simp only [Byte.isDigit, Byte.within, Bool.and_eq_true, decide_eq_true_eq,
    UInt8.le_iff_toNat_le, UInt8.reduceToNat] at digit
  simp only [Byte.isWordStart, Byte.isLetter, Byte.within, Bool.or_eq_false_iff,
    Bool.and_eq_false_iff, decide_eq_false_iff_not, beq_eq_false_iff_ne, ne_eq,
    UInt8.le_iff_toNat_le, ← UInt8.toNat_inj, UInt8.reduceToNat]
  omega

theorem opening_word (start : Byte.isWordStart b = true) :
    isGap b = false ∧ opening b = .part .word := by
  refine ⟨?_, by simp [opening, start]⟩
  by_contra gap
  simp [isGap_plain (Bool.not_eq_false _ ▸ gap)] at start

theorem opening_digit (digit : Byte.isDigit b = true) :
    isGap b = false ∧ opening b = .part (if b = 0x30 then .zero else .integer .decimal) := by
  constructor
  · by_contra gap
    simp [isGap_plain (Bool.not_eq_false _ ▸ gap)] at digit
  · unfold opening
    rw [digit_not_wordStart digit]
    by_cases zero : b = 0x30
    · simp [zero]
    · simp [zero, digit]

theorem opening_symbol (found : (symbol? b).isSome = true) :
    isGap b = false ∧ (opening b = .part .paren ∧ b = Byte.leftParen ∨
      opening b = .part .plus ∧ b = Byte.plus ∨
      opening b = .whole ((symbol? b).getD .invalid)) ∧ symbol? b ≠ some .invalid := by
  unfold symbol? at found
  split at found
  all_goals first | decide | cases found

theorem opening_cases (b : Byte) :
    opening b = .part .word ∧ Byte.isWordStart b = true ∨
    opening b = .part .zero ∧ b = 0x30 ∨
    opening b = .part (.integer .decimal) ∧ Byte.isDigit b = true ∨
    opening b = .part .string ∧ b = Byte.doubleQuote ∨
    opening b = .part .charOpen ∧ b = Byte.singleQuote ∨
    opening b = .part .paren ∧ b = Byte.leftParen ∨
    opening b = .part .plus ∧ b = Byte.plus ∨
    opening b = .whole ((symbol? b).getD .invalid) := by
  unfold opening
  repeat' split
  all_goals simp_all

theorem begins_of_opening {o : Opening} (plain : isGap b = false) (found : opening b = o)
    (completes : o.Completes raw w) : Begins spaces raw (b :: w) := by
  simp only [Begins, plain, found, Bool.false_eq_true, ↓reduceIte]
  exact completes

theorem number_decimal : number .decimal = digits .decimal * ending .decimal := by
  rw [number, mark, letter?, one_mul]

theorem mem_number_lettered {r : Radix} {c : Char} (lettered : letter? r = some c) :
    w ∈ number r ↔ ∃ v, w = 0x30 :: byte c :: v ∧ v ∈ digits r * ending r := by
  rw [number, mark, lettered, mul_assoc, literal, mem_byte_mul]
  constructor
  · rintro ⟨_, rfl, h⟩
    obtain ⟨v, rfl, more⟩ := mem_byte_mul.mp h
    exact ⟨v, rfl, more⟩
  · rintro ⟨v, rfl, h⟩
    exact ⟨_, rfl, mem_byte_mul.mpr ⟨v, rfl, h⟩⟩

theorem zero_completes_iff :
    Part.zero.Completes raw w ↔ raw = .number ∧ ∃ r, 0x30 :: w ∈ number r := by
  have decimal : 0x30 :: w ∈ number .decimal ↔ w ∈ (one Byte.isDigit)∗ * ending .decimal := by
    rw [number_decimal, Part.cons_mem_digits]
    exact and_iff_right (by decide)
  have lettered : ∀ {r : Radix} {c : Char}, letter? r = some c →
      (0x30 :: w ∈ number r ↔ w ∈ one (· == byte c) * (digits r * ending r)) := by
    intro r c h
    rw [mem_number_lettered h, mem_byte_mul]
    simp
  have binary := lettered (r := .binary) rfl
  have octal := lettered (r := .octal) rfl
  have hexadecimal := lettered (r := .hexadecimal) rfl
  have each : (∃ r, 0x30 :: w ∈ number r) ↔ w ∈ Part.zero.numeral := by
    simp only [Part.numeral, Language.mem_add]
    constructor
    · rintro ⟨r, h⟩
      cases r with
      | binary => exact .inl (.inl (.inr (binary.mp h)))
      | octal => exact .inl (.inr (octal.mp h))
      | decimal => exact .inl (.inl (.inl (decimal.mp h)))
      | hexadecimal => exact .inr (hexadecimal.mp h)
    · rintro (((h | h) | h) | h)
      · exact ⟨_, decimal.mpr h⟩
      · exact ⟨_, binary.mpr h⟩
      · exact ⟨_, octal.mpr h⟩
      · exact ⟨_, hexadecimal.mpr h⟩
  rw [each]
  exact Iff.rfl

theorem begins_number {r : Radix} (h : w ∈ number r) : Begins spaces .number w := by
  have zero : ∀ v, w = 0x30 :: v → Begins spaces .number w := by
    rintro v rfl
    exact begins_of_opening (o := .part .zero) rfl rfl (zero_completes_iff.mpr ⟨rfl, r, h⟩)
  cases lettered : letter? r with
  | some c =>
    obtain ⟨v, same, _⟩ := (mem_number_lettered lettered).mp h
    exact zero _ same
  | none =>
    obtain rfl : r = .decimal := by cases r <;> simp [letter?] at lettered ⊢
    rw [number_decimal, digits_eq, mul_assoc] at h
    obtain ⟨b, v, rfl, digit, more⟩ := mem_one_mul.mp h
    obtain ⟨plain, found⟩ := opening_digit digit
    split at found
    · rename_i same
      exact zero v (by rw [same])
    · exact begins_of_opening plain found ⟨rfl, more⟩

theorem begins_symbol (found : symbol? b = some tag) : Begins spaces tag [b] := by
  obtain ⟨plain, opens, valid⟩ := opening_symbol (b := b) (by rw [found]; rfl)
  rcases opens with ⟨opens, rfl⟩ | ⟨opens, rfl⟩ | opens
  · cases found
    exact begins_of_opening plain opens (.inl ⟨rfl, rfl⟩)
  · cases found
    exact begins_of_opening plain opens (.inl ⟨rfl, rfl⟩)
  · rw [found] at opens valid
    exact begins_of_opening plain opens ⟨fun h => valid (congrArg some h), rfl, rfl⟩

theorem resolved_of_symbol (found : symbol? b = some tag) (w : List Byte) :
    tag.resolved w = tag := by
  refine if_neg ?_
  rintro rfl
  unfold symbol? at found
  split at found <;> cases found

theorem begins_word (h : w ∈ Lexicon.word) : Begins spaces .identifier w := by
  rw [word_eq] at h
  obtain ⟨b, v, rfl, start, more⟩ := mem_one_mul.mp h
  obtain ⟨plain, found⟩ := opening_word start
  exact begins_of_opening plain found ⟨rfl, more⟩

theorem begins_of_spells (h : Spells spaces tag w) :
    ∃ raw, Begins spaces raw w ∧ tag = raw.resolved w := by
  cases h with
  | keyword listed =>
    refine ⟨.identifier, begins_word (keyword_mem_word listed), ?_⟩
    simp [TokenTag.resolved, keyword?_iff.mpr ⟨_, listed, rfl⟩]
  | identifier h other =>
    refine ⟨.identifier, begins_word h, ?_⟩
    simp [TokenTag.resolved, keyword?_none other]
  | number h => exact ⟨.number, begins_number h, rfl⟩
  | string h =>
    obtain ⟨v, rfl, more⟩ := mem_byte_mul.mp h
    exact ⟨.string, begins_of_opening (o := .part .string) rfl rfl ⟨rfl, more⟩, rfl⟩
  | char h =>
    obtain ⟨v, rfl, more⟩ := mem_byte_mul.mp h
    exact ⟨.char, begins_of_opening (o := .part .charOpen) rfl rfl ⟨rfl, more⟩, rfl⟩
  | symbol listed =>
    have found := symbol?_iff.mpr ⟨_, listed, rfl⟩
    exact ⟨tag, begins_symbol found, (resolved_of_symbol found _).symm⟩
  | emptyParens =>
    exact ⟨.emptyParens, begins_of_opening (o := .part .paren) rfl rfl (.inr ⟨rfl, rfl⟩), rfl⟩
  | plusPlus =>
    exact ⟨.plusPlus, begins_of_opening (o := .part .plus) rfl rfl (.inr ⟨rfl, rfl⟩), rfl⟩
  | blanks asked h =>
    rw [blanks_eq] at h
    obtain ⟨b, v, rfl, blank, more⟩ := mem_one_mul.mp h
    refine ⟨.space, ?_, rfl⟩
    have gap : isGap b = true := by simp [isGap, blank]
    simp only [Begins, gap, ↓reduceIte]
    exact ⟨asked, blank, rfl, more⟩

theorem Spells.word (h : w ∈ Lexicon.word) : Spells spaces ((keyword? w).getD .identifier) w := by
  cases found : keyword? w with
  | none =>
    refine .identifier h fun k listed same => ?_
    rw [keyword?_iff.mpr ⟨_, listed, same⟩] at found
    cases found
  | some tag =>
    obtain ⟨k, listed, rfl⟩ := keyword?_iff.mp found
    exact .keyword listed

theorem Spells.symbol_of (found : symbol? b = some tag) : Spells spaces tag [b] := by
  obtain ⟨c, listed, rfl⟩ := symbol?_iff.mp found
  exact .symbol listed

theorem spells_of_begins (h : Begins spaces raw w) : Spells spaces (raw.resolved w) w := by
  cases w with
  | nil => exact h.elim
  | cons b w =>
    by_cases gap : isGap b = true
    · simp only [Begins, gap, ↓reduceIte] at h
      obtain ⟨asked, blank, rfl, more⟩ := h
      refine .blanks asked ?_
      rw [blanks_eq]
      exact mem_one_mul.mpr ⟨b, w, rfl, blank, more⟩
    · simp only [Begins, gap, Bool.false_eq_true, ↓reduceIte] at h
      rcases opening_cases b with
        ⟨found, start⟩ | ⟨found, rfl⟩ | ⟨found, digit⟩ | ⟨found, rfl⟩ | ⟨found, rfl⟩ |
          ⟨found, rfl⟩ | ⟨found, rfl⟩ | found
      · rw [found] at h
        obtain ⟨rfl, more⟩ := h
        exact .word (mem_one_mul.mpr ⟨b, w, rfl, start, more⟩)
      · rw [found] at h
        obtain ⟨rfl, r, member⟩ := zero_completes_iff.mp h
        exact .number member
      · rw [found] at h
        obtain ⟨rfl, more⟩ := h
        refine .number (r := .decimal) ?_
        rw [number_decimal, Part.cons_mem_digits]
        exact ⟨digit, more⟩
      · rw [found] at h
        obtain ⟨rfl, more⟩ := h
        exact .string (mem_byte_mul.mpr ⟨w, rfl, more⟩)
      · rw [found] at h
        obtain ⟨rfl, more⟩ := h
        exact .char (mem_byte_mul.mpr ⟨w, rfl, more⟩)
      · rw [found] at h
        rcases h with ⟨rfl, rfl⟩ | ⟨rfl, rfl⟩
        · exact .symbol_of rfl
        · exact .emptyParens
      · rw [found] at h
        rcases h with ⟨rfl, rfl⟩ | ⟨rfl, rfl⟩
        · exact .symbol_of rfl
        · exact .plusPlus
      · rw [found] at h
        obtain ⟨valid, rfl, rfl⟩ := h
        cases spelled : symbol? b with
        | none => simp [spelled] at valid
        | some t =>
          rw [Option.getD_some, resolved_of_symbol spelled]
          exact .symbol_of spelled

/-- The spellings are exactly what is read byte by byte. -/
theorem spells_iff_begins :
    Spells spaces tag w ↔ ∃ raw, Begins spaces raw w ∧ tag = raw.resolved w := by
  constructor
  · exact begins_of_spells
  · rintro ⟨raw, begins, rfl⟩
    exact spells_of_begins begins

end Openings
end Offside
