import Offside.Token.Basic
import Offside.Tree.Tag

/-!
Nodes of a syntax tree. A node refers to its children by their numbers in an arena; a slot that no
child has filled yet holds a number that no node has.
-/

namespace Offside

structure NodeId where
  index : Nat
  deriving DecidableEq, Repr

namespace NodeId

/-- What a slot holds before a child fills it: the last word, which no arena gives to a node. -/
def unset : NodeId := ⟨Token.wordSize - 1⟩

def isSet (id : NodeId) : Bool := id != unset

def render (id : NodeId) : String :=
  if id.isSet then s!"NodeId({id.index})" else "NodeId::INVALID"

end NodeId

inductive Payload where
  | void
  | single (child : NodeId)
  | pair (first second : NodeId)
  | list (children : List NodeId)
  deriving DecidableEq, Repr

namespace Payload

def empty : Shape → Payload
  | .void => void
  | .single => single .unset
  | .pair => pair .unset .unset
  | .list => list []

def shape : Payload → Shape
  | void => .void
  | single _ => .single
  | pair _ _ => .pair
  | list _ => .list

/-- Puts a child into the next free slot. A single slot is overwritten; where no slot is free, the
child is dropped. -/
def attach : Payload → NodeId → Payload
  | void, _ => void
  | single _, child => single child
  | pair first second, child =>
    if !first.isSet then pair child second
    else if !second.isSet then pair first child
    else pair first second
  | list children, child => list (children ++ [child])

def children : Payload → List NodeId
  | void => []
  | single child => [child].takeWhile NodeId.isSet
  | pair first second => [first, second].takeWhile NodeId.isSet
  | list children => children

end Payload

/-- A node of a syntax tree: its kind, the token it was made from if it has one, and its children. -/
structure Node where
  tag : NodeTag
  token : Option Token
  payload : Payload
  deriving DecidableEq, Repr

namespace Node

def bare (tag : NodeTag) (token : Option Token) : Node := ⟨tag, token, .empty tag.shape⟩

def children (n : Node) : List NodeId := n.payload.children

def attach (n : Node) (child : NodeId) : Node := { n with payload := n.payload.attach child }

end Node
end Offside
