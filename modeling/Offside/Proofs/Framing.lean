import Offside.Proofs.Abreast
import Offside.Proofs.Bounded

/-! A parse into an arena that holds nodes already is the parse into an empty one, with other numbers.
The nodes that were there stay as they are, and a limit is felt only by a parse that makes more nodes
than it allows. -/
namespace Offside

def NodeId.shift (k : Nat) (id : NodeId) : NodeId := if id.isSet then ⟨id.index + k⟩ else id

def Payload.shift (k : Nat) : Payload → Payload := map (NodeId.shift k)

def Node.shift (k : Nat) (n : Node) : Node := { n with payload := n.payload.shift k }

theorem Arena.room_le_empty (a : Arena) : a.room ≤ Arena.empty.room := by
  have limit : Arena.empty.room = Arena.maxNodes := rfl
  have bounded := a.bounded
  unfold Arena.room at limit ⊢
  omega

namespace Lockstep

def framing (a : Arena) : Lockstep where
  alike := Eq
  kept := Eq
  ahead := Eq
  grids := Eq
  left := .empty
  right := a
  narrow := a.room_le_empty
  tag_eq := by
    rintro t _ rfl
    rfl
  keeps same _ _ := same
  next := by
    rintro s _ rfl
    exact ⟨rfl, fun _ => rfl⟩
  level_eq := by
    rintro g _ rfl
    rfl
  atLevel := by
    rintro g _ level rfl
    rfl
  measure := by
    rintro g _ t _ rfl rfl -
    rcases g.measure_cases t with ⟨level, h, found⟩ | missed
    · exact .inl ⟨level, h, h, found, found, rfl⟩
    · exact .inr ⟨missed, missed⟩

variable {a : Arena}

theorem framing_begins (a : Arena) (s : Source) : (framing a).Begins s s := ⟨rfl, fun _ => ⟨rfl, rfl⟩⟩

theorem framing_ids {id id' : NodeId} (h : (framing a).Ids id id') : id' = id.shift a.size := by
  obtain ⟨set, -, i, index, index'⟩ := h
  have zero : (framing a).left.size = 0 := rfl
  have size : (framing a).right.size = a.size := rfl
  rw [NodeId.shift, if_pos set]
  obtain ⟨_⟩ := id'
  simp only [NodeId.mk.injEq] at index' ⊢
  omega

theorem framing_nodes {n n' : Node} (h : (framing a).Nodes n n') : n' = n.shift a.size := by
  obtain ⟨tag, token, payload⟩ := n
  obtain ⟨tag', token', payload'⟩ := n'
  obtain ⟨rfl, tokens, payloads⟩ := h
  have same : token' = token := by
    cases tokens with
    | none => rfl
    | some eq => rw [show _ = _ from eq]
  have shifted : payload' = payload.shift a.size := payloads.eq_map rfl fun _ _ => framing_ids
  rw [same, shifted]
  rfl

theorem framing_errors {e e' : ParseError} (h : (framing a).Errors e e') : e' = e := by
  cases h with
  | unaligned eq => exact congrArg _ (Eq.symm eq)
  | unexpected eq => exact congrArg _ (Eq.symm eq)
  | unmatched eq => exact congrArg _ (Eq.symm eq)
  | full => rfl

theorem framing_outcomes {r r' : Except ParseError (Option NodeId)} (h : (framing a).Outcomes r r') :
    r' = r.map (Option.map (NodeId.shift a.size)) := by
  cases h with
  | blank => rfl
  | root ids => rw [framing_ids ids]; rfl
  | error errors => rw [framing_errors errors]; rfl

theorem framing_arenas {b b' : Arena} (h : (framing a).Arenas b b') :
    b'.nodes.toList = a.nodes.toList ++ b.nodes.toList.map (Node.shift a.size) ∧
      b.size ≤ a.room := by
  obtain ⟨ns, ns', left, right, each, room⟩ := h.nodes
  have left : b.nodes.toList = ns := left
  rw [right, left, eq_map_of_forall₂ each fun _ _ => framing_nodes]
  refine ⟨rfl, ?_⟩
  rw [Arena.size, ← Array.length_toList, left]
  exact room

theorem framing_over {b : Arena} (h : (framing a).Over b) : a.room < b.size := by
  have h : 0 + a.room < b.size := h
  rwa [Nat.zero_add] at h

theorem framing_spent {b : Arena} (h : (framing a).Spent b) (holds : a.size ≤ a.limit) :
    b.size = a.limit ∧ b.nodes.toList.take a.size = a.nodes.toList := by
  obtain ⟨ns, nodes, length⟩ := h
  have nodes : b.nodes.toList = a.nodes.toList ++ ns := nodes
  have length : ns.length = a.limit - a.size := length
  constructor
  · have total := congrArg List.length nodes
    simp only [Array.length_toList, List.length_append] at total
    unfold Arena.size at length holds ⊢
    omega
  · rw [nodes, Arena.size, ← Array.length_toList, List.take_left]

end Lockstep

/-- What a parse into an arena with some nodes and a limit comes to, told by the parse into the
largest empty arena. -/
theorem Source.parse_framed (s : Source) (a : Arena) (holds : a.size ≤ a.limit) :
    (a.size + (s.parse .empty).arena.size ≤ a.limit →
      (s.parse a).outcome = (s.parse .empty).outcome.map (Option.map (NodeId.shift a.size)) ∧
      (s.parse a).arena.nodes.toList =
        a.nodes.toList ++ (s.parse .empty).arena.nodes.toList.map (Node.shift a.size)) ∧
    (a.limit < a.size + (s.parse .empty).arena.size →
      (s.parse a).outcome = .error .outOfMemory ∧ (s.parse a).arena.size = a.limit ∧
      (s.parse a).arena.nodes.toList.take a.size = a.nodes.toList) := by
  have room : a.room = a.limit - a.size := rfl
  rcases (Lockstep.framing_begins a s).parse with ⟨outcomes, arenas⟩ | ⟨past, full, spent⟩
  · have fits : (s.parse .empty).arena.size ≤ a.room := (Lockstep.framing_arenas arenas).2
    constructor
    · intro _
      exact ⟨Lockstep.framing_outcomes outcomes, (Lockstep.framing_arenas arenas).1⟩
    · intro past
      omega
  · have past : a.room < (s.parse .empty).arena.size := Lockstep.framing_over past
    constructor
    · intro fits
      omega
    · intro _
      exact ⟨full, Lockstep.framing_spent spent holds⟩

/- One node is there, and three are needed. -/
theorem Source.parse_framed_sum :
    let a : Arena := ⟨#[.bare .number none], 4, by decide⟩
    let b : Arena := ⟨#[.bare .number none], 3, by decide⟩
    a.size ≤ a.limit ∧ ((ofText "1+2").parse a).outcome = .ok (some ⟨3⟩) ∧
      b.size ≤ b.limit ∧ ((ofText "1+2").parse b).outcome = .error .outOfMemory := by
  intro a b
  have size : ((ofText "1+2").parse .empty).arena.size = 3 := size_of_within (n := 15) rfl
  have fresh : ((ofText "1+2").parse .empty).outcome = .ok (some ⟨2⟩) :=
    outcome_of_within (n := 15) rfl
  have wide := (parse_framed (ofText "1+2") a (by decide)).1 (by rw [size]; decide)
  have narrow := (parse_framed (ofText "1+2") b (by decide)).2 (by rw [size]; decide)
  refine ⟨by decide, ?_, by decide, narrow.1⟩
  rw [wide.1, fresh]
  rfl

end Offside
