import Offside.Source.Basic
import Offside.Tree.Node

/-!
Arenas: the nodes of one or more syntax trees, numbered in the order in which they were made. An
arena has a limit; a node beyond it is refused and leaves the arena as it was.
-/

namespace Offside

/-- The most nodes that any arena may hold, so that no node has the number `NodeId.unset`. -/
def Arena.maxNodes : Nat := Token.wordSize - 2

/-- Nodes, each of which is known by its place, and the most there may be. -/
structure Arena where
  nodes : Array Node
  limit : Nat
  bounded : limit ≤ Arena.maxNodes

namespace Arena

def withLimit (limit : Nat) : Arena := ⟨#[], min limit maxNodes, Nat.min_le_right _ _⟩

def empty : Arena := withLimit maxNodes

def size (a : Arena) : Nat := a.nodes.size

def isEmpty (a : Arena) : Bool := a.nodes.isEmpty

def clear (a : Arena) : Arena := { a with nodes := #[] }

def get? (a : Arena) (id : NodeId) : Option Node := a.nodes[id.index]?

def tag? (a : Arena) (id : NodeId) : Option NodeTag := (a.get? id).map Node.tag

def children? (a : Arena) (id : NodeId) : Option (List NodeId) := (a.get? id).map Node.children

/-- Adds a node without children, unless the arena is full. -/
def create? (a : Arena) (tag : NodeTag) (token : Option Token) : Option (NodeId × Arena) :=
  if a.size < a.limit then
    some (⟨a.size⟩, { a with nodes := a.nodes.push (.bare tag token) })
  else none

def attach (a : Arena) (parent child : NodeId) : Arena :=
  { a with nodes := a.nodes.modify parent.index (·.attach child) }

/-- Puts a child into the next slot of a node, if there is such a node. -/
def attach? (a : Arena) (parent child : NodeId) : Option Arena :=
  (a.get? parent).map fun _ => a.attach parent child

def attachAll (a : Arena) (parent : NodeId) (children : List NodeId) : Arena :=
  children.foldl (fun b child => b.attach parent child) a

def createWith? (a : Arena) (tag : NodeTag) (token : Option Token) (children : List NodeId) :
    Option (NodeId × Arena) :=
  (a.create? tag token).map fun made => (made.1, made.2.attachAll made.1 children)

def text? (a : Arena) (s : Source) (id : NodeId) : Option (List Byte) :=
  (a.get? id).map fun n => (n.token.map s.text).getD []

def fullMessage : String := "out of memory while allocating syntax tree nodes"

end Arena
end Offside
