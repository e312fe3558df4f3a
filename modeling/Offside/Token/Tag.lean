/-!
The kinds of token. Each has a number, a name for reports and, where its spelling is fixed, that
spelling.
-/

namespace Offside

inductive TokenTag where
  | identifier
  | number
  | string
  | char
  | kwIf
  | kwElif
  | kwElse
  | kwFor
  | kwWhile
  | lParen
  | rParen
  | emptyParens
  | lBracket
  | rBracket
  | lBrace
  | rBrace
  | plus
  | plusPlus
  | minus
  | star
  | slash
  | caret
  | comma
  | pipe
  | dot
  | equal
  | colon
  | semicolon
  /-- The leading spaces of a line; their number is the width of the indentation. -/
  | indent
  | space
  /-- Malformed input; the last byte of the token is the one at fault. -/
  | invalid
  /-- Sound so far, but the input ended inside the token. -/
  | incomplete
  | eof
  deriving DecidableEq, Repr

namespace TokenTag

def all : List TokenTag := [
  identifier, number, string, char, kwIf, kwElif, kwElse, kwFor, kwWhile, lParen, rParen,
  emptyParens, lBracket, rBracket, lBrace, rBrace, plus, plusPlus, minus, star, slash, caret,
  comma, pipe, dot, equal, colon, semicolon, indent, space, invalid, incomplete, eof]

/-- The number of a kind: literals from 0, keywords from 16, symbols from 32, layout from 64,
faults from 240, and 255 for the end of the input. -/
def code : TokenTag → Nat
  | identifier => 0
  | number => 1
  | string => 2
  | char => 3
  | kwIf => 16
  | kwElif => 17
  | kwElse => 18
  | kwFor => 19
  | kwWhile => 20
  | lParen => 32
  | rParen => 33
  | emptyParens => 34
  | lBracket => 35
  | rBracket => 36
  | lBrace => 37
  | rBrace => 38
  | plus => 39
  | plusPlus => 40
  | minus => 41
  | star => 42
  | slash => 43
  | caret => 44
  | comma => 45
  | pipe => 46
  | dot => 47
  | equal => 48
  | colon => 49
  | semicolon => 50
  | indent => 64
  | space => 65
  | invalid => 240
  | incomplete => 241
  | eof => 255

def name : TokenTag → String
  | identifier => "identifier"
  | number => "number"
  | string => "string"
  | char => "char"
  | kwIf => "if"
  | kwElif => "elif"
  | kwElse => "else"
  | kwFor => "for"
  | kwWhile => "while"
  | lParen => "l_paren"
  | rParen => "r_paren"
  | emptyParens => "empty_parens"
  | lBracket => "l_bracket"
  | rBracket => "r_bracket"
  | lBrace => "l_brace"
  | rBrace => "r_brace"
  | plus => "plus"
  | plusPlus => "plus_plus"
  | minus => "minus"
  | star => "star"
  | slash => "slash"
  | caret => "caret"
  | comma => "comma"
  | pipe => "pipe"
  | dot => "dot"
  | equal => "equal"
  | colon => "colon"
  | semicolon => "semicolon"
  | indent => "indent"
  | space => "space"
  | invalid => "invalid"
  | incomplete => "incomplete"
  | eof => "eof"

def lexeme? : TokenTag → Option String
  | kwIf => some "if"
  | kwElif => some "elif"
  | kwElse => some "else"
  | kwFor => some "for"
  | kwWhile => some "while"
  | lParen => some "("
  | rParen => some ")"
  | emptyParens => some "()"
  | lBracket => some "["
  | rBracket => some "]"
  | lBrace => some "\x7b"
  | rBrace => some "\x7d"
  | plus => some "+"
  | plusPlus => some "++"
  | minus => some "-"
  | star => some "*"
  | slash => some "/"
  | caret => some "^"
  | comma => some ","
  | pipe => some "|"
  | dot => some "."
  | equal => some "="
  | colon => some ":"
  | semicolon => some ";"
  | identifier | number | string | char | indent | space | invalid | incomplete | eof => none

def isFault : TokenTag → Bool
  | invalid | incomplete => true
  | _ => false

def isKeyword : TokenTag → Bool
  | kwIf | kwElif | kwElse | kwFor | kwWhile => true
  | _ => false

def ofName? (text : String) : Option TokenTag := all.find? fun tag => tag.name == text

end TokenTag
end Offside
