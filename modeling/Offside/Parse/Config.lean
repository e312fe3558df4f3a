import Offside.Parse.Assembly
import Offside.Parse.Grid
import Offside.Scan.Scanner

/-!
Configurations of the parser: the goal, the token read for it, the constructs still open, the grid
and the trees under construction. This module holds the moves that the rules of the language are
made of; each either reads the next token or keeps the one there is.
-/

namespace Offside

structure Config where
  goal : Goal
  token : Token
  scanner : Scanner
  /-- The constructs still open, innermost first. -/
  frames : List Frame
  grid : Grid
  work : Assembly

inductive Next where
  | move (c : Config)
  | done (root : NodeId) (c : Config)

namespace Config

def consume (c : Config) (goal : Goal) : Config :=
  let ahead := c.scanner.next
  { c with goal, token := ahead.1, scanner := ahead.2 }

/-- Passes over the token after the one there is. -/
def dropToken (c : Config) : Config := { c with scanner := c.scanner.next.2 }

def redo (c : Config) (goal : Goal) : Config := { c with goal }

def enter (c : Config) (f : Frame) : Config := { c with frames := f :: c.frames }

def mark (c : Config) (tag : NodeTag) (token : Option Token) : Config :=
  { c with work := c.work.push tag token }

def atLevel (c : Config) (level : Nat) : Config := { c with grid := { c.grid with level } }

def fail {α : Type} (c : Config) (e : ParseError) : Attempt α := c.work.fail e

def measure (c : Config) : Attempt (Nat × Config) :=
  match c.grid.measure c.token with
  | .ok (level, grid) => .ok (level, { c with grid })
  | .error e => c.fail e

/-- No rule takes the token. An indentation off the grid is reported as such. -/
def unexpected {α : Type} (c : Config) : Attempt α :=
  if c.token.tag = .indent then do
    let _ ← c.measure
    c.fail (.unexpectedToken c.token)
  else c.fail (.unexpectedToken c.token)

/-- Opens a block at a level, which must be the next one. -/
def openBlock (c : Config) (level : Nat) : Attempt Config :=
  if level = c.grid.level + 1 then .ok (c.atLevel level)
  else if c.grid.level + 1 < level then c.fail (.unalignedIndent c.token)
  else c.fail (.unexpectedToken c.token)

/-- A line that closes a block may only return to the level around it. -/
def checkDedent (c : Config) (outer : Nat) : Attempt Config :=
  if c.token.tag = .indent then do
    let (level, c) ← c.measure
    if level < outer then c.fail (.unalignedIndent c.token)
    else if outer < level then c.fail (.unexpectedToken c.token)
    else .ok c
  else .ok c

/-- Ends the innermost construct: applies what waits in it and goes on with what may close it. -/
def leave (c : Config) : Attempt Next := do
  let work ← c.work.settleScope c.token
  match c.frames with
  | f :: rest => return .move { c with work, frames := rest, goal := .close f }
  | [] => work.fail (.unexpectedToken c.token)

def holdsBlocks (c : Config) : Bool := c.frames.head?.any Frame.holdsBlocks

def join (c : Config) (tag : NodeTag) (token : Option Token) : Attempt Next := do
  let work ← c.work.binary tag token c.token
  return .move ({ c with work }.consume .operand)

def leaf (c : Config) (tag : NodeTag) : Attempt Next := do
  let work ← c.work.build tag (some c.token) []
  return .move ({ c with work }.consume .operator)

def header (c : Config) (tag : NodeTag) : Attempt Next :=
  .ok (.move (((c.mark tag (some c.token)).enter .header).consume .operand))

def finishName (c : Config) : Attempt Next := do
  let work ← c.work.complete .nameDef c.token
  return .move ({ c with work }.redo .operator)

end Config
end Offside
