import Offside.Token.Keyword
import Offside.Token.Radix

/-!
The token rules, one byte at a time. A `Part` says how far into a token the reading has come;
`Part.move` says what the next byte does to it, and `Part.ending?` what token it is if no byte
follows. Between tokens, `opening` says what a byte begins.
-/

namespace Offside

/-- How far into a token the reading has come. -/
inductive Part where
  | blanks
  | word
  | zero
  | baseMark (r : Radix)
  | integer (r : Radix)
  | point (r : Radix)
  | fraction (r : Radix)
  | exponentMark
  | exponentSign
  | exponent
  | string
  | stringEscape
  | charOpen
  | charEscape
  | charClose
  /-- After an opening parenthesis, which a closing one may join. -/
  | paren
  | plus
  deriving DecidableEq, Repr

/-- Where a reading of the input may begin or break off. -/
inductive ScanState where
  | gap
  /-- At the start of a line, in its leading spaces. -/
  | lineStart
  | within (p : Part)
  deriving DecidableEq, Repr

/-- What the next byte does to a part. -/
inductive Move where
  /-- The byte belongs to the token, which goes on. -/
  | shift (p : Part)
  /-- The token ended before the byte. -/
  | close (tag : TokenTag)
  /-- The token ends with the byte. -/
  | take (tag : TokenTag)
  deriving DecidableEq, Repr

inductive Opening where
  | part (p : Part)
  | whole (tag : TokenTag)
  deriving DecidableEq, Repr

def symbol? : Byte → Option TokenTag
  | 0x28 => some .lParen
  | 0x29 => some .rParen
  | 0x5B => some .lBracket
  | 0x5D => some .rBracket
  | 0x7B => some .lBrace
  | 0x7D => some .rBrace
  | 0x2B => some .plus
  | 0x2D => some .minus
  | 0x2A => some .star
  | 0x2F => some .slash
  | 0x5E => some .caret
  | 0x2C => some .comma
  | 0x7C => some .pipe
  | 0x2E => some .dot
  | 0x3D => some .equal
  | 0x3A => some .colon
  | 0x3B => some .semicolon
  | _ => none

/-- A byte that may follow a word or a number directly: a blank, or any symbol but the dot. -/
def isDelimiter (b : Byte) : Bool :=
  Byte.isInlineBlank b || b == Byte.carriageReturn || b == Byte.lineFeed ||
    (b != Byte.dot && (symbol? b).isSome)

def settle (tag : TokenTag) (b : Byte) : Move :=
  if isDelimiter b then .close tag else .take .invalid

def demand (test : Bool) (p : Part) : Move := if test then .shift p else .take .invalid

namespace Part

def move : Part → Byte → Move
  | blanks, b => if Byte.isInlineBlank b then .shift blanks else .close .space
  | word, b => if Byte.isWordPart b then .shift word else settle .identifier b
  | zero, b =>
    if b == 0x62 then .shift (baseMark .binary)
    else if b == 0x6F then .shift (baseMark .octal)
    else if b == 0x78 then .shift (baseMark .hexadecimal)
    else if Byte.isDigit b then .shift (integer .decimal)
    else if b == Byte.dot then .shift (point .decimal)
    else if Radix.decimal.isExponentMark b then .shift exponentMark
    else settle .number b
  | baseMark r, b => demand (r.isDigit b) (integer r)
  | integer r, b =>
    if r.isDigit b then .shift (integer r)
    else if b == Byte.dot then .shift (point r)
    else if r.isExponentMark b then .shift exponentMark
    else settle .number b
  | point r, b => demand (r.isDigit b) (fraction r)
  | fraction r, b =>
    if r.isDigit b then .shift (fraction r)
    else if r.isExponentMark b then .shift exponentMark
    else settle .number b
  | exponentMark, b =>
    if b == Byte.plus || b == Byte.minus then .shift exponentSign
    else demand (Byte.isDigit b) exponent
  | exponentSign, b => demand (Byte.isDigit b) exponent
  | exponent, b => if Byte.isDigit b then .shift exponent else settle .number b
  | string, b =>
    if b == Byte.doubleQuote then .take .string
    else if b == Byte.backslash then .shift stringEscape
    else demand (b == Byte.tab || Byte.isPlain b || 0x80 ≤ b) string
  | stringEscape, b => demand (Byte.isPlain b) string
  | charOpen, b =>
    if b == Byte.backslash then .shift charEscape
    else demand (Byte.isPlain b && b != Byte.singleQuote) charClose
  | charEscape, b =>
    demand (b == 0x6E || b == 0x72 || b == 0x74 || b == Byte.singleQuote) charClose
  | charClose, b => if b == Byte.singleQuote then .take .char else .take .invalid
  | paren, b => if b == Byte.rightParen then .take .emptyParens else .close .lParen
  | plus, b => if b == Byte.plus then .take .plusPlus else .close .plus

/-- The token that the part is when the whole input ends behind it; a part that needs another byte
is none. -/
def ending? : Part → Option TokenTag
  | blanks => some .space
  | word => some .identifier
  | zero | integer _ | fraction _ | exponent => some .number
  | paren => some .lParen
  | plus => some .plus
  | baseMark _ | point _ | exponentMark | exponentSign | string | stringEscape | charOpen
  | charEscape | charClose => none

def all : List Part :=
  [blanks, word, zero, exponentMark, exponentSign, exponent, string, stringEscape, charOpen,
    charEscape, charClose, paren, plus] ++
  Radix.all.flatMap fun r => [baseMark r, integer r, point r, fraction r]

end Part

def opening (b : Byte) : Opening :=
  if Byte.isWordStart b then .part .word
  else if b == 0x30 then .part .zero
  else if Byte.isDigit b then .part (.integer .decimal)
  else if b == Byte.doubleQuote then .part .string
  else if b == Byte.singleQuote then .part .charOpen
  else if b == Byte.leftParen then .part .paren
  else if b == Byte.plus then .part .plus
  else .whole ((symbol? b).getD .invalid)

namespace ScanState

def name : ScanState → String
  | gap => "Start"
  | lineStart => "LineStart"
  | within .blanks => "Spaces"
  | within .word => "Identifier"
  | within .zero => "Zero"
  | within (.baseMark r) => s!"BasePrefix({r.name})"
  | within (.integer r) => s!"Integer({r.name})"
  | within (.point r) => s!"FractionStart({r.name})"
  | within (.fraction r) => s!"Fraction({r.name})"
  | within .exponentMark => "ExponentStart"
  | within .exponentSign => "ExponentSign"
  | within .exponent => "Exponent"
  | within .string => "String"
  | within .stringEscape => "StringEscape"
  | within .charOpen => "CharOpen"
  | within .charEscape => "CharEscape"
  | within .charClose => "CharClose"
  | within .paren => "LParen"
  | within .plus => "Plus"

def all : List ScanState := gap :: lineStart :: Part.all.map within

def ofName? (text : String) : Option ScanState := all.find? fun state => state.name == text

end ScanState
end Offside
