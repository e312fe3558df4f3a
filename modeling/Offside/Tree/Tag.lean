/-!
The kinds of syntax tree node: how many children each takes and how strongly each binds. A kind
that binds nothing has precedence zero; on the parser's stack it marks the start of a scope.
-/

namespace Offside

inductive Shape where
  | void
  | single
  | pair
  | list
  deriving DecidableEq, Repr

inductive NodeTag where
  | number
  | string
  | char
  | identifier
  | blockAnd
  | blockOr
  | enumAnd
  | enumOr
  | assign
  | add
  | sub
  | concat
  | mul
  | div
  | pow
  | negate
  /-- An open parenthesis; no finished tree holds one. -/
  | group
  /-- The open body of a name; no finished tree holds one. -/
  | blockAssign
  | nameDef
  | attrs
  | value
  | ifThen
  | elifThen
  | elseThen
  | forEach
  | whileLoop
  deriving DecidableEq, Repr

namespace NodeTag

def all : List NodeTag := [
  number, string, char, identifier, blockAnd, blockOr, enumAnd, enumOr, assign, add, sub, concat,
  mul, div, pow, negate, group, blockAssign, nameDef, attrs, value, ifThen, elifThen, elseThen,
  forEach, whileLoop]

def index (tag : NodeTag) : Nat := all.findIdx (· == tag)

def shape : NodeTag → Shape
  | number | string | char | identifier => .void
  | negate | group | blockAssign | attrs | value => .single
  | assign | add | sub | concat | mul | div | pow => .pair
  | blockAnd | blockOr | enumAnd | enumOr | nameDef | ifThen | elifThen | elseThen | forEach
  | whileLoop => .list

/-- Binding strength; zero for whatever is no operator. -/
def precedence : NodeTag → Nat
  | blockAnd => 1
  | blockOr => 2
  | enumAnd => 3
  | enumOr => 4
  | assign => 5
  | add | sub | concat => 6
  | mul | div => 7
  | pow => 8
  | negate => 9
  | number | string | char | identifier | group | blockAssign | nameDef | attrs | value | ifThen
  | elifThen | elseThen | forEach | whileLoop => 0

def isRightAssoc (tag : NodeTag) : Bool := tag == pow || tag.precedence == 0

/-- A kind that is no operator marks a scope on the operator stack. -/
def isMarker (tag : NodeTag) : Bool := tag.precedence == 0

/-- A pending operator is applied before the next one is put on top of it: it binds more strongly,
or equally and to the left. -/
def reducesBefore (pending next : NodeTag) : Bool :=
  next.precedence < pending.precedence ||
    (pending.precedence == next.precedence && !pending.isRightAssoc)

def name : NodeTag → String
  | number => "number"
  | string => "string"
  | char => "char"
  | identifier => "identifier"
  | blockAnd => "block_and"
  | blockOr => "block_or"
  | enumAnd => "enum_and"
  | enumOr => "enum_or"
  | assign => "assign"
  | add => "add"
  | sub => "sub"
  | concat => "concat"
  | mul => "mul"
  | div => "div"
  | pow => "pow"
  | negate => "negate"
  | group => "group"
  | blockAssign => "block_assign"
  | nameDef => "name_def"
  | attrs => "attrs"
  | value => "value"
  | ifThen => "if"
  | elifThen => "elif"
  | elseThen => "else"
  | forEach => "for"
  | whileLoop => "while"

def ofName? (text : String) : Option NodeTag := all.find? fun tag => tag.name == text

end NodeTag

def Shape.name : Shape → String
  | .void => "Void"
  | .single => "Single"
  | .pair => "Pair"
  | .list => "List"

end Offside
