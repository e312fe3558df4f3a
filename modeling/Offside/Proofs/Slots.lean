import Offside.Proofs.Assembly
import Offside.Proofs.Forest

/-! What holds of an arena whatever has been asked of it. Every node has the slots of its kind and fills
them from the first on; nodes are numbered from zero in the order in which they were made; and a child
that is attached goes into one node and behind the children that the node has. -/
namespace Offside

namespace Payload

def HasRoom (p : Payload) : Prop := p.shape = .list ∨ NodeId.unset ∈ p.slots

def InOrder : Payload → Prop
  | pair first second => second.isSet = true → first.isSet = true
  | _ => True

theorem isSet_unset : NodeId.unset.isSet = false := by decide

theorem empty_inOrder (shape : Shape) : (empty shape).shape = shape ∧ (empty shape).InOrder := by
  cases shape with
  | pair => exact ⟨rfl, fun filled => filled⟩
  | void => exact ⟨rfl, trivial⟩
  | single => exact ⟨rfl, trivial⟩
  | list => exact ⟨rfl, trivial⟩

theorem attach_shape (p : Payload) (child : NodeId) : (p.attach child).shape = p.shape := by
  cases p with
  | void => rfl
  | single _ => rfl
  | list _ => rfl
  | pair first second =>
    simp only [attach]
    split
    · rfl
    · split <;> rfl

theorem attach_inOrder {p : Payload} (ordered : p.InOrder) (child : NodeId) :
    (p.attach child).InOrder := by
  cases p with
  | void => trivial
  | single _ => trivial
  | list _ => trivial
  | pair first second =>
    simp only [attach]
    cases filled : first.isSet with
    | false =>
      -- The second slot is free as well, whatever is put into the first.
      intro second_set
      exact absurd (ordered second_set) (by simp [filled])
    | true =>
      cases free : second.isSet with
      | false =>
        intro _
        exact filled
      | true => exact ordered

theorem fill_inOrder (shape : Shape) (ids : List NodeId) :
    (fill shape ids).shape = shape ∧ (fill shape ids).InOrder := by
  have onward : ∀ p : Payload, p.shape = shape ∧ p.InOrder →
      (ids.foldl attach p).shape = shape ∧ (ids.foldl attach p).InOrder := by
    induction ids with
    | nil =>
      intro p sound
      exact sound
    | cons id ids ih =>
      intro p sound
      apply ih
      constructor
      · rw [attach_shape]
        exact sound.1
      · exact attach_inOrder sound.2 id
  exact onward _ (empty_inOrder shape)

theorem attach_children {p : Payload} {child : NodeId} (ordered : p.InOrder) (room : p.HasRoom)
    (set : child.isSet = true) : (p.attach child).children = p.children ++ [child] := by
  cases p with
  | void => simp [HasRoom, shape, slots] at room
  | single held =>
    have free : held = .unset := by simpa [HasRoom, shape, slots, eq_comm] using room
    simp [attach, children, free, set, isSet_unset]
  | list held => rfl
  | pair first second =>
    have free : first = .unset ∨ second = .unset := by
      simpa [HasRoom, shape, slots, eq_comm] using room
    cases filled : first.isSet with
    | false =>
      have empty : second.isSet = false := by
        by_contra other
        have first_set := ordered (by simpa using other)
        simp [filled] at first_set
      simp [attach, children, filled, empty, set]
    | true =>
      have empty : second = .unset := by
        apply free.resolve_left
        rintro rfl
        simp [isSet_unset] at filled
      simp [attach, children, filled, empty, set, isSet_unset]

end Payload

/-- A node has the slots of its kind, filled from the first on. -/
structure Node.WellFormed (n : Node) : Prop where
  shape : n.payload.shape = n.tag.shape
  inOrder : n.payload.InOrder

theorem Node.WellFormed.attach {n : Node} (h : n.WellFormed) (child : NodeId) :
    (n.attach child).WellFormed := by
  constructor
  · rw [Node.attach, Payload.attach_shape]
    exact h.shape
  · exact Payload.attach_inOrder h.inOrder child

namespace Arena

inductive Call where
  | create (tag : NodeTag) (token : Option Token)
  | createWith (tag : NodeTag) (token : Option Token) (children : List NodeId)
  | attach (parent child : NodeId)
  | clear

def Call.node? : Call → Option Node
  | create tag token => some (.bare tag token)
  | createWith tag token children => some ⟨tag, token, .fill tag.shape children⟩
  | attach _ _ | clear => none

inductive Reply where
  | made (id : NodeId)
  | refused
  | done
  deriving DecidableEq

def settle (a : Arena) : Option (NodeId × Arena) → Reply × Arena
  | some (id, b) => (.made id, b)
  | none => (.refused, a)

/-- The reply to a call and the arena after it. To a node that is not there, nothing can be attached. -/
def serve? (a : Arena) : Call → Option (Reply × Arena)
  | .create tag token => some (a.settle (a.create? tag token))
  | .createWith tag token children => some (a.settle (a.createWith? tag token children))
  | .attach parent child => (a.attach? parent child).map fun b => (.done, b)
  | .clear => some (.done, a.clear)

/-- The arena began without nodes and has served these calls with these replies, the latest first. -/
inductive Served (limit : Nat) : List (Call × Reply) → Arena → Prop where
  | start : Served limit [] (withLimit limit)
  | call {past : List (Call × Reply)} {a b : Arena} {c : Call} {r : Reply} :
      Served limit past a → a.serve? c = some (r, b) → Served limit ((c, r) :: past) b

def issued : List (Call × Reply) → List NodeId
  | [] => []
  | (_, .made id) :: past => issued past ++ [id]
  | (.clear, _) :: _ => []
  | _ :: past => issued past

inductive Effect (a : Arena) : Call → Reply → Arena → Prop where
  | made {c : Call} {n : Node} : c.node? = some n → a.size < a.limit →
      Effect a c (.made ⟨a.size⟩) { a with nodes := a.nodes.push n }
  | refused {c : Call} {n : Node} : c.node? = some n → a.limit ≤ a.size → Effect a c .refused a
  | attached {parent child : NodeId} {n : Node} : a.get? parent = some n →
      Effect a (.attach parent child) .done (a.attach parent child)
  | cleared : Effect a .clear .done a.clear

/-- The child has been attached to the parent and to nothing else; where the parent had room for it, it
is the last of its children. -/
structure Attached (a : Arena) (parent child : NodeId) (b : Arena) : Prop where
  size : b.size = a.size
  limit : b.limit = a.limit
  others : ∀ id, id ≠ parent → b.get? id = a.get? id
  parent : ∀ n, a.get? parent = some n → ∃ m, b.get? parent = some m ∧ m.tag = n.tag ∧
    m.token = n.token ∧
      (n.payload.HasRoom → child.isSet = true → m.children = n.children ++ [child])

section Calls

variable {limit : Nat} {a b : Arena} {past : List (Call × Reply)} {c : Call} {r : Reply}

theorem get?_attach (a : Arena) (parent child id : NodeId) :
    (a.attach parent child).get? id =
      if id = parent then (a.get? id).map (Node.attach · child) else a.get? id := by
  obtain ⟨i⟩ := id
  obtain ⟨j⟩ := parent
  simp only [get?, attach, Array.getElem?_modify, NodeId.mk.injEq, eq_comm]

theorem create?_eq_createWith? (a : Arena) (tag : NodeTag) (token : Option Token) :
    a.create? tag token = a.createWith? tag token [] := by
  simp only [createWith?]
  cases a.create? tag token <;> rfl

theorem effect_of_settle {tag : NodeTag} {token : Option Token} {ids : List NodeId}
    (settled : a.settle (a.createWith? tag token ids) = (r, b))
    (asked : c.node? = some ⟨tag, token, .fill tag.shape ids⟩) : a.Effect c r b := by
  rw [createWith?_eq] at settled
  by_cases room : a.size < a.limit
  · rw [if_pos room] at settled
    cases settled
    exact .made asked room
  · rw [if_neg room] at settled
    cases settled
    exact .refused asked (Nat.le_of_not_lt room)

theorem serve?_effect (a : Arena) (c : Call)
    (there : ∀ parent child, c = .attach parent child → parent.index < a.size) :
    ∃ r b, a.serve? c = some (r, b) := by
  cases c with
  | create tag token => exact ⟨_, _, rfl⟩
  | createWith tag token ids => exact ⟨_, _, rfl⟩
  | clear => exact ⟨_, _, rfl⟩
  | attach parent child =>
    have inside : parent.index < a.nodes.size := there parent child rfl
    have found : a.get? parent = some a.nodes[parent.index] := Array.getElem?_eq_getElem inside
    refine ⟨.done, a.attach parent child, ?_⟩
    simp only [serve?, attach?, found, Option.map_some]

theorem effect_of_serve? (served : a.serve? c = some (r, b)) : a.Effect c r b := by
  cases c with
  | create tag token =>
    rw [serve?, create?_eq_createWith?] at served
    exact effect_of_settle (Option.some.inj served) rfl
  | createWith tag token ids => exact effect_of_settle (Option.some.inj served) rfl
  | attach parent child =>
    simp only [serve?, attach?, Option.map_map, Option.map_eq_some_iff] at served
    obtain ⟨n, found, same⟩ := served
    cases same
    exact .attached found
  | clear =>
    cases served
    exact .cleared

theorem wellFormed_of_node? {n : Node} (asked : c.node? = some n) : n.WellFormed := by
  have filled : ∀ tag token ids, Node.WellFormed ⟨tag, token, .fill tag.shape ids⟩ := by
    intro tag token ids
    obtain ⟨shape, inOrder⟩ := Payload.fill_inOrder tag.shape ids
    exact ⟨shape, inOrder⟩
  cases c with
  | create tag token =>
    cases asked
    exact filled tag token []
  | createWith tag token ids =>
    cases asked
    exact filled tag token ids
  | attach _ _ => cases asked
  | clear => cases asked

/-- What is kept of an arena by every call: its limit, and nodes that are well formed and no more than
it admits. -/
structure Sound (limit : Nat) (a : Arena) : Prop where
  limit_eq : a.limit = min limit maxNodes
  size_le : a.size ≤ a.limit
  nodes : ∀ id n, a.get? id = some n → n.WellFormed

theorem sound_withLimit (limit : Nat) : (withLimit limit).Sound limit := by
  constructor
  · rfl
  · exact Nat.zero_le _
  · intro id n found
    simp [withLimit, get?] at found

/-- No call breaks what is kept. -/
theorem Effect.sound (effect : a.Effect c r b) (sound : a.Sound limit) : b.Sound limit := by
  cases effect with
  | made asked room =>
    constructor
    · exact sound.limit_eq
    · rw [size, Array.size_push]
      exact room
    · intro id n found
      simp only [get?, Array.getElem?_push] at found
      split at found
      · cases found
        exact wellFormed_of_node? asked
      · exact sound.nodes id n found
  | refused _ _ => exact sound
  | @attached parent child n found =>
    constructor
    · exact sound.limit_eq
    · rw [size, attach, Array.size_modify]
      exact sound.size_le
    · intro id m inside
      rw [get?_attach] at inside
      split at inside
      · obtain ⟨held, before, rfl⟩ := Option.map_eq_some_iff.mp inside
        exact (sound.nodes id held before).attach child
      · exact sound.nodes id m inside
  | cleared =>
    constructor
    · exact sound.limit_eq
    · exact Nat.zero_le _
    · intro id n found
      simp [clear, get?] at found

theorem Served.sound (served : Served limit past a) : a.Sound limit := by
  induction served with
  | start => exact sound_withLimit limit
  | call _ serves ih => exact (effect_of_serve? serves).sound ih

theorem Served.issued_eq (served : Served limit past a) :
    issued past = (List.range a.size).map NodeId.mk := by
  induction served with
  | start => rfl
  | @call past a b c r _ serves ih =>
    cases effect_of_serve? serves with
    | made asked room =>
      simp only [issued, ih, size, Array.size_push, List.range_succ, List.map_append, List.map_cons,
        List.map_nil]
    | refused asked full =>
      cases c with
      | clear => cases asked
      | _ => exact ih
    | attached found =>
      simp only [issued, ih, size, attach, Array.size_modify]
    | cleared => rfl

theorem Served.made_isSet (served : Served limit past a) {id : NodeId}
    (made : (c, .made id) ∈ past) : id.isSet = true := by
  induction served with
  | start => cases made
  | @call past a b _ _ before serves ih =>
    rcases List.mem_cons.mp made with last | earlier
    · cases last
      cases effect_of_serve? serves with
      | made asked room =>
        apply Tree.isSet_of_lt
        have limit_le : a.limit ≤ maxNodes := a.bounded
        exact Nat.lt_of_lt_of_le room limit_le
    · exact ih earlier

theorem Sound.attached (sound : a.Sound limit) {parent child : NodeId} :
    a.Attached parent child (a.attach parent child) := by
  constructor
  · simp only [size, attach, Array.size_modify]
  · rfl
  · intro id other
    rw [get?_attach, if_neg other]
  · intro n found
    refine ⟨n.attach child, ?_, rfl, rfl, ?_⟩
    · rw [get?_attach, if_pos rfl, found, Option.map_some]
    · exact Payload.attach_children (sound.nodes parent n found).inOrder

/-- Whatever has been asked of an arena, its nodes are well formed and no more than its limit, they are
numbered one after the other from zero, and none has the number of a free slot. A call is served unless
it is to attach something to no node. One that makes a node leaves the others as they were; one that is
refused for want of room changes nothing; and a child that is attached changes its parent only and
becomes the last of its children, if there is room. -/
theorem Served.represents (served : Served limit past a) :
    (∀ id n, a.get? id = some n → n.WellFormed) ∧ a.size ≤ limit ∧
      issued past = (List.range a.size).map NodeId.mk ∧
      (∀ c id, (c, .made id) ∈ past → id.isSet = true) ∧
      (∀ c, (∀ parent child, c = .attach parent child → parent.index < a.size) →
        ∃ r b, a.serve? c = some (r, b)) ∧
      (∀ c id b, a.serve? c = some (.made id, b) →
        ∃ n, c.node? = some n ∧ b.nodes = a.nodes.push n) ∧
      (∀ c b, a.serve? c = some (.refused, b) → b = a ∧ a.size = min limit maxNodes) ∧
      ∀ parent child r b, a.serve? (.attach parent child) = some (r, b) →
        r = .done ∧ a.Attached parent child b := by
  have sound := served.sound
  have limit_eq := sound.limit_eq
  have size_le := sound.size_le
  refine ⟨sound.nodes, by omega, served.issued_eq, fun _ _ => served.made_isSet, a.serve?_effect,
    ?_, ?_, ?_⟩
  · intro c id b made
    cases effect_of_serve? made with
    | made asked _ => exact ⟨_, asked, rfl⟩
  · intro c b refused
    cases effect_of_serve? refused with
    | refused _ full => exact ⟨rfl, by omega⟩
  · intro parent child r b attached
    cases effect_of_serve? attached with
    | attached _ => exact ⟨rfl, sound.attached⟩
    | made asked _ => cases asked
    | refused asked _ => cases asked

/- A pair takes the child it was made for when the arena is full. -/
theorem Served.represents_full :
    ∃ a, Served 2 [(.attach ⟨0⟩ ⟨1⟩, .done), (.create .number none, .refused),
        (.createWith .value none [⟨0⟩], .made ⟨1⟩), (.create .add none, .made ⟨0⟩)] a ∧
      a.size = 2 ∧ (∀ id n, a.get? id = some n → n.WellFormed) ∧ a.size ≤ 2 := by
  have served : Served 2 [(.attach ⟨0⟩ ⟨1⟩, .done), (.create .number none, .refused),
      (.createWith .value none [⟨0⟩], .made ⟨1⟩), (.create .add none, .made ⟨0⟩)] _ :=
    .call (.call (.call (.call .start rfl) rfl) rfl) rfl
  exact ⟨_, served, rfl, served.represents.1, served.represents.2.1⟩

end Calls

end Arena
end Offside
