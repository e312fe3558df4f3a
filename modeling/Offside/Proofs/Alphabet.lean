import Offside.Scan.Part

/-! The alphabet of the lexical grammar, written out in characters: classes of bytes, keywords and
symbols with their kinds, and what ends a word or a number. The tables of the scanner agree with
it. -/
namespace Offside
namespace Lexicon

def byte (c : Char) : Byte := UInt8.ofNat c.toNat

def among (cs : List Char) (b : Byte) : Bool := cs.any fun c => b == byte c

def span (low high : Char) (b : Byte) : Bool := byte low ≤ b && b ≤ byte high

def isDigit : Radix → Byte → Bool
  | .binary, b => span '0' '1' b
  | .octal, b => span '0' '7' b
  | .decimal, b => span '0' '9' b
  | .hexadecimal, b => span '0' '9' b || span 'a' 'f' b || span 'A' 'F' b

/-- The letters an exponent begins with; a number in another base has none. -/
def isExponentLetter : Radix → Byte → Bool
  | .decimal => among ['e', 'E']
  | .hexadecimal => among ['p', 'P']
  | .binary | .octal => among []

def isSign : Byte → Bool := among ['+', '-']

def isWordStart (b : Byte) : Bool := span 'a' 'z' b || span 'A' 'Z' b || b == byte '_'

def isWordPart (b : Byte) : Bool := isWordStart b || isDigit .decimal b

def isPrintable (b : Byte) : Bool := span ' ' '~' b

def isStringByte (b : Byte) : Bool :=
  b != byte '"' && b != byte '\\' && (b == byte '\t' || isPrintable b || 0x80 ≤ b)

def isCharByte (b : Byte) : Bool := isPrintable b && b != byte '\'' && b != byte '\\'

def isEscape : Byte → Bool := among ['n', 'r', 't', '\'']

def isInlineBlank : Byte → Bool := among [' ', '\t']

def isLineBreak : Byte → Bool := among ['\r', '\n']

def keywords : List (List Char × TokenTag) := [
  (['i', 'f'], .kwIf), (['e', 'l', 'i', 'f'], .kwElif), (['e', 'l', 's', 'e'], .kwElse),
  (['f', 'o', 'r'], .kwFor), (['w', 'h', 'i', 'l', 'e'], .kwWhile)]

def symbols : List (Char × TokenTag) := [
  ('(', .lParen), (')', .rParen), ('[', .lBracket), (']', .rBracket), ('\x7b', .lBrace),
  ('\x7d', .rBrace), ('+', .plus), ('-', .minus), ('*', .star), ('/', .slash), ('^', .caret),
  (',', .comma), ('|', .pipe), ('.', .dot), ('=', .equal), (':', .colon), (';', .semicolon)]

/-- What may follow a word or a number: a blank, a line break or a symbol other than the dot. -/
def delimits (b : Byte) : Bool :=
  isInlineBlank b || isLineBreak b || symbols.any fun s => s.1 != '.' && b == byte s.1

section Agreement

theorem isDigit_eq (r : Radix) : isDigit r = r.isDigit := by
  cases r <;> rfl

theorem isExponentLetter_eq (r : Radix) : isExponentLetter r = r.isExponentMark := by
  funext b
  cases r <;> simp [isExponentLetter, among, Radix.isExponentMark, byte]

theorem isSign_eq : isSign = fun b => b == Byte.plus || b == Byte.minus := by
  funext b
  simp [isSign, among, byte, Byte.plus, Byte.minus]

theorem isWordStart_eq : isWordStart = Byte.isWordStart := rfl

theorem isWordPart_eq : isWordPart = Byte.isWordPart := rfl

theorem isPrintable_eq : isPrintable = Byte.isPlain := rfl

theorem isStringByte_eq : isStringByte = fun b => b != Byte.doubleQuote && b != Byte.backslash &&
    (b == Byte.tab || Byte.isPlain b || 0x80 ≤ b) := rfl

theorem isCharByte_eq : isCharByte = fun b =>
    Byte.isPlain b && b != Byte.singleQuote && b != Byte.backslash := rfl

theorem isEscape_eq :
    isEscape = fun b => b == 0x6E || b == 0x72 || b == 0x74 || b == Byte.singleQuote := by
  funext b
  simp [isEscape, among, byte, Byte.singleQuote, Bool.or_assoc]

theorem isInlineBlank_eq : isInlineBlank = Byte.isInlineBlank := by
  funext b
  simp [isInlineBlank, among, byte, Byte.isInlineBlank, Byte.space, Byte.tab]

theorem isLineBreak_eq : isLineBreak = fun b => b == Byte.carriageReturn || b == Byte.lineFeed := by
  funext b
  simp [isLineBreak, among, byte, Byte.carriageReturn, Byte.lineFeed]

theorem keyword?_iff {w : List Byte} {tag : TokenTag} :
    keyword? w = some tag ↔ ∃ k, (k, tag) ∈ keywords ∧ w = k.map byte := by
  constructor
  · intro found
    unfold keyword? at found
    split at found <;> cases found
    · exact ⟨['i', 'f'], by simp [keywords], rfl⟩
    · exact ⟨['f', 'o', 'r'], by simp [keywords], rfl⟩
    · exact ⟨['e', 'l', 'i', 'f'], by simp [keywords], rfl⟩
    · exact ⟨['e', 'l', 's', 'e'], by simp [keywords], rfl⟩
    · exact ⟨['w', 'h', 'i', 'l', 'e'], by simp [keywords], rfl⟩
  · rintro ⟨k, listed, rfl⟩
    simp only [keywords, List.mem_cons, Prod.mk.injEq, List.not_mem_nil, or_false] at listed
    rcases listed with ⟨rfl, rfl⟩ | ⟨rfl, rfl⟩ | ⟨rfl, rfl⟩ | ⟨rfl, rfl⟩ | ⟨rfl, rfl⟩ <;> rfl

theorem keyword?_none {w : List Byte} (other : ∀ k ∈ keywords, w ≠ k.1.map byte) :
    keyword? w = none := by
  rw [Option.eq_none_iff_forall_not_mem]
  intro tag found
  obtain ⟨k, listed, same⟩ := keyword?_iff.mp found
  exact other _ listed same

theorem symbol?_iff {b : Byte} {tag : TokenTag} :
    symbol? b = some tag ↔ ∃ c, (c, tag) ∈ symbols ∧ b = byte c := by
  constructor
  · intro found
    have listed : ∃ s ∈ symbols, s.2 = tag ∧ b = byte s.1 := by
      unfold symbol? at found
      split at found <;> cases found <;> decide
    obtain ⟨⟨c, _⟩, listed, rfl, same⟩ := listed
    exact ⟨c, listed, same⟩
  · rintro ⟨c, listed, rfl⟩
    have each : ∀ s ∈ symbols, symbol? (byte s.1) = some s.2 := by decide
    exact each _ listed

theorem delimits_eq : delimits = isDelimiter := by
  have apart : ∀ s ∈ symbols, (s.1 != '.') = (byte s.1 != Byte.dot) := by decide
  have others : ∀ b, (symbols.any fun s => s.1 != '.' && b == byte s.1) =
      (b != Byte.dot && (symbol? b).isSome) := by
    intro b
    rw [Bool.eq_iff_iff, List.any_eq_true, Bool.and_eq_true, Option.isSome_iff_exists]
    constructor
    · rintro ⟨⟨c, tag⟩, listed, symbol⟩
      rw [apart _ listed, Bool.and_eq_true] at symbol
      obtain rfl := eq_of_beq symbol.2
      exact ⟨symbol.1, tag, symbol?_iff.mpr ⟨c, listed, rfl⟩⟩
    · rintro ⟨other, tag, found⟩
      obtain ⟨c, listed, rfl⟩ := symbol?_iff.mp found
      refine ⟨_, listed, ?_⟩
      rw [apart _ listed, Bool.and_eq_true]
      exact ⟨other, beq_self_eq_true _⟩
  funext b
  rw [delimits, isInlineBlank_eq, isLineBreak_eq, others, isDelimiter]
  simp only [Bool.or_assoc]

end Agreement

end Lexicon
end Offside
