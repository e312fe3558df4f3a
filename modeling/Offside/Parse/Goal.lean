/-!
What the parser is after. A `Frame` is a construct that is still open and says what may close it;
a `Goal` is what the next token is read for.
-/

namespace Offside

/-- An open construct. `outer` is the level of the block around it. -/
inductive Frame where
  /-- A group waits for its closing parenthesis; one with an indented body is a block. -/
  | group (outer : Nat) (block : Bool)
  | attrs
  | value
  | body (outer : Nat)
  /-- The header of a control construct must be followed by an indented body. -/
  | header
  | control (outer : Nat)
  /-- The source itself, which ends with the input. -/
  | root
  deriving DecidableEq, Repr

/-- What the next token is read for. -/
inductive Goal where
  /-- An operand, or what may stand before one. -/
  | operand
  /-- After an operand: an operator, a new line or the end of a construct. -/
  | operator
  | afterParen
  | afterDot
  /-- After a name, and after its attributes if there are any. -/
  | afterName (attrs : Bool)
  | close (f : Frame)
  deriving DecidableEq, Repr

/-- The operand of the frame is a block, so that a line of the same level goes on with it. -/
def Frame.holdsBlocks : Frame → Bool
  | .root | .body _ | .control _ | .group _ true => true
  | .group _ false | .attrs | .value | .header => false

def Frame.render : Frame → String
  | .group outer block => s!"ParenCloseEnd \x7b outer_level: {outer}, block: {block} \x7d"
  | .attrs => "NameAttrsEnd"
  | .value => "NameAssignEnd"
  | .body outer => s!"NameBlockAssignEnd \x7b outer_level: {outer} \x7d"
  | .header => "ControlHeaderEnd"
  | .control outer => s!"ControlBlockEnd \x7b outer_level: {outer} \x7d"
  | .root => "End"

def Goal.render : Goal → String
  | .operand => "Expr"
  | .operator => "Operator"
  | .afterParen => "ParenPostOpen"
  | .afterDot => "NamePostDot"
  | .afterName attrs => s!"NamePostDotId \x7b attrs: {attrs} \x7d"
  | .close f => f.render

end Offside
