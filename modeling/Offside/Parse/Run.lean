import Offside.Parse.Weight

/-!
Parsing a source into an arena. A parse has a root, or none if the source is blank, or an error;
either way the arena holds the nodes that were made, and the log what happened.
-/

namespace Offside

structure Parsed where
  outcome : Except ParseError (Option NodeId)
  arena : Arena
  log : List Event

def Config.run (c : Config) : Attempt (NodeId × Config) :=
  match _h : c.step with
  | .ok (.move d) => d.run
  | .ok (.done root d) => .ok (root, d)
  | .error fault => .error fault
termination_by c.weight
decreasing_by exact Config.step_lighter _h

def Assembly.ofSource (a : Arena) (s : Source) : Assembly :=
  { arena := a, log := [.started s.length] }

/-- The configuration in which the parse of a source begins, once the first line has been measured;
a blank source has none. -/
def Config.ofSource (a : Arena) (s : Source) : Attempt (Option Config) :=
  let (first, scanner) := (Scanner.ofSource .layout s).nextFrom .lineStart
  let work := Assembly.ofSource a s
  match first.tag with
  | .eof => .ok none
  | .indent =>
    let (token, scanner) := scanner.next
    .ok (some {
      goal := .operand, token, scanner, frames := [.root], grid := .ofTrim first.length
      work := work.note (.firstLine first.length) })
  | _ => work.fail (.unexpectedToken first)

/-- The root of the tree of a source, with all that was built. -/
def Assembly.parse (a : Arena) (s : Source) : Attempt (Option NodeId × Assembly) := do
  match ← Config.ofSource a s with
  | none => return (none, Assembly.ofSource a s)
  | some start =>
    let (root, c) ← start.run
    return (some root, c.work.note (.aligned c.grid.unit))

/-- Parses a source; new nodes go behind those that the arena holds. -/
def Source.parse (s : Source) (a : Arena) : Parsed :=
  match Assembly.parse a s with
  | .ok (root, w) =>
    let w := w.note (.finished (w.arena.size - a.size) root.isNone)
    ⟨.ok root, w.arena, w.log.reverse⟩
  | .error ⟨e, w⟩ =>
    let w := w.note (.failed e)
    ⟨.error e, w.arena, w.log.reverse⟩

end Offside
