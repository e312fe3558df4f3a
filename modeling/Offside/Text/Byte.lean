/-!
Bytes and the classes of bytes that the token rules speak of. A class is a Boolean test, so that
the scanner can run it and a proof can enumerate it.
-/

namespace Offside

/-- A source is read byte by byte, whatever encoding its author meant. -/
abbrev Byte := UInt8

namespace Byte

def tab : Byte := 0x09

def lineFeed : Byte := 0x0A

def carriageReturn : Byte := 0x0D

def space : Byte := 0x20

def doubleQuote : Byte := 0x22

def singleQuote : Byte := 0x27

def plus : Byte := 0x2B

def minus : Byte := 0x2D

def leftParen : Byte := 0x28

def rightParen : Byte := 0x29

def dot : Byte := 0x2E

def backslash : Byte := 0x5C

def within (low high b : Byte) : Bool := low ≤ b && b ≤ high

def isInlineBlank (b : Byte) : Bool := b == space || b == tab

def isDigit (b : Byte) : Bool := within 0x30 0x39 b

def isLetter (b : Byte) : Bool := within 0x61 0x7A b || within 0x41 0x5A b

def isWordStart (b : Byte) : Bool := isLetter b || b == 0x5F

def isWordPart (b : Byte) : Bool := isWordStart b || isDigit b

def isPlain (b : Byte) : Bool := within 0x20 0x7E b

/-- A byte of an encoded character other than its first byte. -/
def isContinuation (b : Byte) : Bool := within 0x80 0xBF b

end Byte
end Offside
