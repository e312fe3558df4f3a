import Offside.Parse.Run
import Offside.Tree.Outline

/-!
What the commands say of one text: the outline of its tree, or a report on whether it parses. Both
describe an error in the same words.
-/

namespace Offside

/-- The outline of the tree of a text, `depth` levels deep, or the description of its error. The
outline of a blank text is empty. -/
def outlineOf (text : String) (depth : Nat) : Except String String :=
  let source := Source.ofText text
  let parsed := source.parse .empty
  match parsed.outcome with
  | .ok root => .ok ((root.bind (Outline.render? parsed.arena source depth)).getD "")
  | .error e => .error (e.describe source)

structure Report where
  path : String
  nodes : Nat
  failure : Option String
  deriving DecidableEq, Repr

namespace Report

def isOk (r : Report) : Bool := r.failure.isNone

def ofText (path text : String) : Report :=
  let source := Source.ofText text
  let parsed := source.parse .empty
  match parsed.outcome with
  | .ok _ => ⟨path, parsed.arena.size, none⟩
  | .error e => ⟨path, 0, some (e.describe source)⟩

def unread (path reason : String) : Report := ⟨path, 0, some reason⟩

end Report
end Offside
