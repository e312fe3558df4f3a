import Offside.Parse.Error
import Offside.Parse.Goal

/-!
The events of a parse, in the order in which they happen, and the lines that report them.
-/

namespace Offside

inductive Event where
  | started (bytes : Nat)
  | firstLine (trim : Nat)
  /-- A token is about to be read for a goal, with so many operands and operators waiting. -/
  | dispatched (goal : Goal) (token : Token) (operands operators : Nat)
  | reduced (tag : NodeTag) (operands : Nat)
  | aligned (unit : Option Nat)
  | finished (nodes : Nat) (blank : Bool)
  | failed (e : ParseError)
  deriving DecidableEq, Repr

namespace Event

def renderOption : Option Nat → String
  | some n => s!"Some({n})"
  | none => "None"

def render : Event → String
  | started bytes => s!"DEBUG parse start bytes={bytes}"
  | firstLine trim => s!"DEBUG first line trim={trim}"
  | dispatched goal token operands operators =>
    s!"TRACE dispatch state={goal.render} token={token.tag.name} start={token.start} " ++
      s!"operands={operands} operators={operators}"
  | reduced tag operands => s!"TRACE reduce tag={tag.name} operands={operands}"
  | aligned unit => s!"DEBUG indentation unit={renderOption unit}"
  | finished nodes blank => s!"DEBUG parse finished nodes={nodes} empty={blank}"
  | failed e => s!"DEBUG parse failed kind={e.kind}"

end Event
end Offside
