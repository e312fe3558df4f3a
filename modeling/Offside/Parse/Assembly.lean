import Offside.Parse.Event

/-!
Building trees from operands and operators. Finished trees wait on the operand stack; operators
wait on the operator stack, between markers that keep apart the constructs still open. An operator
that binds more strongly than the next one is applied to its operands before it.
-/

namespace Offside

/-- A finished tree. One that came out of parentheses is never extended in place. -/
structure Operand where
  node : NodeId
  grouped : Bool := false
  deriving DecidableEq, Repr

/-- An operator or a marker that waits, and how many operands there were when it came. -/
structure Pending where
  tag : NodeTag
  token : Option Token
  base : Nat
  deriving DecidableEq, Repr

/-- The trees under construction. Stacks and log hold their latest entry first. -/
structure Assembly where
  arena : Arena
  operands : List Operand := []
  operators : List Pending := []
  log : List Event := []

structure Fault where
  error : ParseError
  work : Assembly

abbrev Attempt := Except Fault

namespace Assembly

def note (w : Assembly) (e : Event) : Assembly := { w with log := e :: w.log }

def fail {α : Type} (w : Assembly) (e : ParseError) : Attempt α := .error ⟨e, w⟩

def push (w : Assembly) (tag : NodeTag) (token : Option Token) : Assembly :=
  { w with operators := ⟨tag, token, w.operands.length⟩ :: w.operators }

def build (w : Assembly) (tag : NodeTag) (token : Option Token) (children : List Operand) :
    Attempt Assembly :=
  match w.arena.createWith? tag token (children.map Operand.node) with
  | some (id, arena) => .ok { w with arena, operands := { node := id } :: w.operands }
  | none => w.fail .outOfMemory

/-- Applies an operator to the operands on top. An enumeration on the left that has the same kind
and no parentheses around it takes the right operand as one more element. -/
def apply (w : Assembly) (op : Pending) (near : Token) : Attempt Assembly :=
  match op.tag.shape, w.operands with
  | .single, operand :: rest => { w with operands := rest }.build op.tag op.token [operand]
  | .pair, right :: left :: rest =>
    { w with operands := rest }.build op.tag op.token [left, right]
  | .list, right :: left :: rest =>
    if !left.grouped && w.arena.tag? left.node == some op.tag then
      .ok { w with
        arena := w.arena.attach left.node right.node
        operands := { node := left.node } :: rest }
    else { w with operands := rest }.build op.tag op.token [left, right]
  | _, _ => w.fail (.unexpectedToken near)

def reduce (w : Assembly) (near : Token) : Attempt Assembly :=
  match w.operators with
  | [] => w.fail (.unexpectedToken near)
  | op :: rest =>
    ({ w with operators := rest }.note (.reduced op.tag w.operands.length)).apply op near

def reduceTimes (near : Token) : Nat → Assembly → Attempt Assembly
  | 0, w => .ok w
  | count + 1, w => do reduceTimes near count (← w.reduce near)

/-- Applies the operators on top for as long as they pass the test. -/
def reduceWhile (w : Assembly) (test : NodeTag → Bool) (near : Token) : Attempt Assembly :=
  reduceTimes near (w.operators.takeWhile fun op => test op.tag).length w

def binary (w : Assembly) (tag : NodeTag) (token : Option Token) (near : Token) :
    Attempt Assembly := do
  let w ← w.reduceWhile (·.reducesBefore tag) near
  return w.push tag token

def settleScope (w : Assembly) (near : Token) : Attempt Assembly :=
  w.reduceWhile (fun tag => !tag.isMarker) near

def innermost? (w : Assembly) : Option NodeTag :=
  (w.operators.find? fun op => op.tag.isMarker).map Pending.tag

/-- Takes the marker on top off the stack, with the operands that came after it, oldest first. -/
def takeScope (w : Assembly) (marker : NodeTag) (near : Token) :
    Attempt (Pending × List Operand × Assembly) :=
  match w.operators with
  | [] => w.fail (.unexpectedToken near)
  | top :: rest =>
    if top.tag = marker ∧ top.base ≤ w.operands.length then
      let count := w.operands.length - top.base
      .ok (top, (w.operands.take count).reverse,
        { w with operators := rest, operands := w.operands.drop count })
    else w.fail (.unexpectedToken near)

def wrap (w : Assembly) (marker tag : NodeTag) (near : Token) : Attempt Assembly := do
  let (_, inner, w) ← w.takeScope marker near
  match inner with
  | [operand] => w.build tag none [operand]
  | _ => w.fail (.unexpectedToken near)

/-- Closes the scope of a marker and makes a node of the marker and all its operands. -/
def complete (w : Assembly) (marker : NodeTag) (near : Token) : Attempt Assembly := do
  let (top, inner, w) ← w.takeScope marker near
  w.build marker top.token inner

end Assembly
end Offside
