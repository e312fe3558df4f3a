import Offside.Parse.Config

/-!
The rules of the language, one function for each goal, and the steps of the parser. A step that
leads to another configuration makes the configuration lighter, so that every parse ends.
-/

namespace Offside

def operatorTag? : TokenTag → Option NodeTag
  | .plus => some .add
  | .minus => some .sub
  | .plusPlus => some .concat
  | .star => some .mul
  | .slash => some .div
  | .caret => some .pow
  | .comma => some .enumAnd
  | .pipe => some .enumOr
  | _ => none

namespace Config

def atOperand (c : Config) : Attempt Next :=
  match c.token.tag with
  | .number => c.leaf .number
  | .string => c.leaf .string
  | .char => c.leaf .char
  | .identifier => c.leaf .identifier
  | .minus => .ok (.move ((c.mark .negate (some c.token)).consume .operand))
  | .lParen => .ok (.move ((c.mark .group (some c.token)).consume .afterParen))
  | .dot => .ok (.move (c.consume .afterDot))
  | .kwIf => c.header .ifThen
  | .kwElif => c.header .elifThen
  | .kwFor => c.header .forEach
  | .kwWhile => c.header .whileLoop
  | .kwElse => .ok (.move ((c.mark .elseThen (some c.token)).consume (.close .header)))
  | _ => c.unexpected

/-- A new line after an operand. On the current level of a block it goes on with the block, as an
alternative if it begins with a bar; otherwise it ends the innermost construct. -/
def atLine (c : Config) : Attempt Next := do
  let (level, c) ← c.measure
  if level = c.grid.level ∧ c.holdsBlocks then
    if c.scanner.peek.tag = .pipe then c.dropToken.join .blockOr none
    else c.join .blockAnd none
  else c.leave

/-- An operator, a new line or the end of a construct. An equals sign is an operator only directly
in an attribute list. -/
def atOperator (c : Config) : Attempt Next :=
  match c.token.tag with
  | .indent => c.atLine
  | .rParen | .rBracket | .eof => c.leave
  | .equal =>
    if c.work.innermost? = some .attrs then c.join .assign (some c.token) else c.unexpected
  | tag =>
    match operatorTag? tag with
    | some operator => c.join operator (some c.token)
    | none => c.unexpected

def atParen (c : Config) : Attempt Next :=
  if c.token.tag = .indent then do
    let (level, inner) ← c.measure
    let inner ← inner.openBlock level
    return .move ((inner.enter (.group c.grid.level true)).consume .operand)
  else .ok (.move ((c.enter (.group c.grid.level false)).redo .operand))

def atDot (c : Config) : Attempt Next :=
  if c.token.tag = .identifier then
    .ok (.move ((c.mark .nameDef (some c.token)).consume (.afterName false)))
  else c.unexpected

def atAttrs (c : Config) : Attempt Next :=
  if c.scanner.peek.tag = .rBracket then do
    let work ← c.work.build .attrs none []
    return .move ({ c.dropToken with work }.consume (.afterName true))
  else .ok (.move (((c.mark .attrs none).enter .attrs).consume .operand))

def atName (c : Config) (attrs : Bool) : Attempt Next :=
  match c.token.tag with
  | .lBracket => if attrs then c.finishName else c.atAttrs
  | .equal => .ok (.move (((c.mark .value none).enter .value).consume .operand))
  | .indent => do
    let (level, c) ← c.measure
    if level ≤ c.grid.level then c.finishName
    else
      let inner ← c.openBlock level
      return .move (((inner.mark .blockAssign none).enter (.body c.grid.level)).consume .operand)
  | _ => c.finishName

/-- The end of a group. One that is a block may have its parenthesis on a line of its own, on the
level around it. -/
def atGroupEnd (c : Config) (outer : Nat) (block : Bool) : Attempt Next :=
  match c.token.tag, block with
  | .rParen, _ => do
    let (_, inner, work) ← c.work.takeScope .group c.token
    match inner with
    | [operand] =>
      let work := { work with operands := { operand with grouped := true } :: work.operands }
      return .move ({ c.atLevel outer with work }.consume .operator)
    | _ => work.fail (.unexpectedToken c.token)
  | .indent, true => do
    let (level, c) ← c.measure
    if level < outer then c.fail (.unalignedIndent c.token)
    else if outer < level then c.fail (.unexpectedToken c.token)
    else if c.scanner.peek.tag = .rParen then
      return .move ((c.atLevel outer).consume (.close (.group outer false)))
    else c.fail (.unexpectedToken c.scanner.peek)
  | .rBracket, _ => c.fail (.unmatchedBracket c.token)
  | _, _ => c.unexpected

def atAttrsEnd (c : Config) : Attempt Next :=
  match c.token.tag with
  | .rBracket => do
    let work ← c.work.wrap .attrs .attrs c.token
    return .move ({ c with work }.consume (.afterName true))
  | .rParen => c.fail (.unmatchedBracket c.token)
  | _ => c.unexpected

def atValueEnd (c : Config) : Attempt Next := do
  let work ← c.work.wrap .value .value c.token
  { c with work }.finishName

def atBodyEnd (c : Config) (outer : Nat) : Attempt Next := do
  let c ← c.checkDedent outer
  let work ← c.work.wrap .blockAssign .value c.token
  ({ c with work }.atLevel outer).finishName

def atHeaderEnd (c : Config) : Attempt Next :=
  if c.token.tag = .indent then do
    let (level, c) ← c.measure
    if c.grid.level < level then
      let inner ← c.openBlock level
      return .move ((inner.enter (.control c.grid.level)).consume .operand)
    else c.unexpected
  else c.unexpected

def atControlEnd (c : Config) (outer : Nat) : Attempt Next := do
  let c ← c.checkDedent outer
  match c.work.innermost? with
  | some tag =>
    let work ← c.work.complete tag c.token
    return .move (({ c with work }.atLevel outer).redo .operator)
  | none => c.fail (.unexpectedToken c.token)

/-- The end of the source: one tree must be left, and nothing that waits for another. -/
def atEnd (c : Config) : Attempt Next :=
  match c.token.tag, c.work.operators, c.work.operands with
  | .eof, [], [root] => .ok (.done root.node c)
  | .rParen, _, _ | .rBracket, _, _ => c.fail (.unmatchedBracket c.token)
  | _, _, _ => c.unexpected

def atClose (c : Config) : Frame → Attempt Next
  | .group outer block => c.atGroupEnd outer block
  | .attrs => c.atAttrsEnd
  | .value => c.atValueEnd
  | .body outer => c.atBodyEnd outer
  | .header => c.atHeaderEnd
  | .control outer => c.atControlEnd outer
  | .root => c.atEnd

def dispatch (c : Config) : Attempt Next :=
  match c.goal with
  | .operand => c.atOperand
  | .operator => c.atOperator
  | .afterParen => c.atParen
  | .afterDot => c.atDot
  | .afterName attrs => c.atName attrs
  | .close f => c.atClose f

def noted (c : Config) : Config :=
  let event := .dispatched c.goal c.token c.work.operands.length c.work.operators.length
  { c with work := c.work.note event }

def step (c : Config) : Attempt Next := c.noted.dispatch

end Config
end Offside
