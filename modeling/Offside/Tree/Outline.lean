import Offside.Tree.Arena

/-!
The outline of a tree: one line for each node, its children below it and two spaces further in. A
line shows the kind of its node and the first bytes of its token. Below a chosen depth, a node is
only hinted at and its children are left out.
-/

namespace Offside

inductive OutlineItem where
  | node (tag : NodeTag) (preview : Option (List Byte))
  /-- A node too deep to be shown. -/
  | elided
  deriving DecidableEq

structure OutlineLine where
  depth : Nat
  item : OutlineItem
  deriving DecidableEq

def OutlineItem.render : OutlineItem → String
  | .node tag none => "· " ++ tag.name
  | .node tag (some preview) =>
    "· " ++ tag.name ++ " '" ++ String.ofList (Utf8.decode preview) ++ "'"
  | .elided => "…"

def OutlineLine.render (line : OutlineLine) : String :=
  String.ofList (List.replicate (2 * line.depth) ' ') ++ line.item.render ++ "\n"

namespace Outline

def defaultDepth : Nat := 256

def previewBytes : Nat := 10

/-- The last place, at or before the given one, that does not stand before a continuation byte. -/
def cutBefore (text : List Byte) : Nat → Nat
  | 0 => 0
  | place + 1 =>
    match text[place + 1]? with
    | some b => if Byte.isContinuation b then cutBefore text place else place + 1
    | none => place + 1

def preview (text : List Byte) : List Byte :=
  text.take (cutBefore text (min text.length previewBytes))

def lineOf (s : Source) (depth : Nat) (n : Node) : OutlineLine :=
  ⟨depth, .node n.tag (n.token.map fun t => preview (s.text t))⟩

/-- The lines of the tree below a node, with that node at the given depth and `more` levels to
show. There are none if the tree refers to a node that the arena does not hold. -/
def lines? (a : Arena) (s : Source) : (more depth : Nat) → NodeId → Option (List OutlineLine)
  | 0, depth, _ => some [⟨depth, .elided⟩]
  | more + 1, depth, id => do
    let n ← a.get? id
    let below ← n.children.mapM (lines? a s more (depth + 1))
    return lineOf s depth n :: below.flatten

def render? (a : Arena) (s : Source) (depth : Nat) (root : NodeId) : Option String :=
  (lines? a s depth 0 root).map fun lines => String.join (lines.map OutlineLine.render)

end Outline
end Offside
