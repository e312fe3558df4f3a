import Mathlib.Data.List.Nodup
import Offside.Proofs.Bounded
import Offside.Proofs.Forest

/-! Who owns which node after a parse. The nodes that were there before are never referred to. -/
namespace Offside

/-- The nodes from number `k` on form a forest of their own. -/
structure Arena.Forest (k : Nat) (a : Arena) : Prop where
  inside : ∀ id ∈ a.owned k, k ≤ id.index ∧ id.index < a.size ∧ id.isSet = true
  once : ∀ id, (a.owned k).count id ≤ 1
  /-- Only the slot of an empty attribute list stays free. -/
  filled : ∀ n ∈ a.nodes.toList.drop k, ∀ slot ∈ n.payload.slots,
    slot ∈ n.children ∨ n.tag = .attrs ∧ n.children = []
  acyclic : ∀ id : NodeId, k ≤ id.index → ¬Relation.TransGen a.Owns id id

structure Arena.TreeFrom (k : Nat) (a : Arena) (root : NodeId) : Prop where
  fresh : k ≤ root.index ∧ root.index < a.size
  free : root ∉ a.owned k
  reached : ∀ id : NodeId, k ≤ id.index → id.index < a.size → Relation.ReflTransGen a.Owns root id
  owned : ∀ id : NodeId, k ≤ id.index → id.index < a.size → id ≠ root → (a.owned k).count id = 1

namespace Arena

variable {old : List Node} {a : Arena} {ts : List Tree}

theorem Within.lies (within : a.Within old) (each : ∀ t ∈ ts, t.Fits)
    (nodes : a.nodes.toList = old ++ Tree.layAll old.length ts) {p : Nat × Tree}
    (member : p ∈ Tree.places old.length ts) : Tree.Lies a p.1 p.2 := by
  obtain ⟨inside, front, back, split, place⟩ := Tree.mem_places member
  have length := congrArg List.length split
  have size := congrArg List.length nodes
  simp only [List.length_append, Tree.length_layAll, Tree.length_lay, Array.length_toList] at length size
  have positive := p.2.size_pos
  have room : a.size ≤ a.limit := within (by rw [Arena.size]; omega)
  have bound := a.bounded
  refine ⟨each _ inside, ?_, old ++ front, back, ?_, ?_⟩
  · rw [Arena.size] at room
    omega
  · rw [nodes, split]
    simp
  · rw [List.length_append]
    omega

theorem owned_perm (within : a.Within old) (each : ∀ t ∈ ts, t.Fits)
    (nodes : a.nodes.toList = old ++ Tree.layAll old.length ts) :
    (Tree.roots old.length ts ++ a.owned old.length).Perm
      ((List.range' old.length (Tree.sizes ts)).map NodeId.mk) := by
  rw [Arena.owned, nodes, List.drop_left]
  exact Tree.owned_layAll_of fun p member => (within.lies each nodes member).owned

theorem size_eq (nodes : a.nodes.toList = old ++ Tree.layAll old.length ts) :
    a.size = old.length + Tree.sizes ts := by
  rw [Arena.size, ← Array.length_toList, nodes]
  simp

theorem lies_at (within : a.Within old) (each : ∀ t ∈ ts, t.Fits)
    (nodes : a.nodes.toList = old ++ Tree.layAll old.length ts) {id : NodeId}
    (low : old.length ≤ id.index) (high : id.index < a.size) :
    ∃ j u, Tree.Lies a j u ∧ u.root j = id := by
  rw [size_eq nodes] at high
  obtain ⟨p, member, low', high'⟩ := Tree.places_cover low high
  exact ((within.lies each nodes member).below low' high').2

theorem slots_filled (within : a.Within old) (each : ∀ t ∈ ts, t.Fits)
    (nodes : a.nodes.toList = old ++ Tree.layAll old.length ts) {n : Node}
    (member : n ∈ a.nodes.toList.drop old.length) :
    ∀ slot ∈ n.payload.slots, slot ∈ n.children ∨ n.tag = .attrs ∧ n.children = [] := by
  obtain ⟨i, inside, rfl⟩ := List.mem_iff_getElem.mp member
  have place : a.get? ⟨old.length + i⟩ = some ((a.nodes.toList.drop old.length)[i]) := by
    rw [Arena.get?, ← Array.getElem?_toList, ← List.getElem?_drop, List.getElem?_eq_getElem inside]
  have low : old.length ≤ (NodeId.mk (old.length + i)).index := Nat.le_add_right _ _
  have high : old.length + i < a.size := by
    rw [List.length_drop, Array.length_toList] at inside
    rw [Arena.size]
    omega
  obtain ⟨j, ⟨tag, token, kids⟩, lies, same⟩ := lies_at within each nodes low high
  have top := lies.get?
  rw [same, place] at top
  obtain ⟨children, slots⟩ := lies.top_cases
  rw [Option.some.inj top]
  intro slot hslot
  rcases slots with slots | ⟨attrs, none⟩
  · rw [slots, ← children] at hslot
    exact .inl hslot
  · exact .inr ⟨attrs, children.trans none⟩

theorem Laid.forest (h : a.Laid old) : a.Forest old.length := by
  obtain ⟨within, ts, each, nodes⟩ := h
  have perm := owned_perm within each nodes
  have size := size_eq nodes
  refine ⟨?_, ?_, ?_, ?_⟩
  · intro id member
    have member := perm.mem_iff.mp (List.mem_append_right _ member)
    obtain ⟨i, range, rfl⟩ := List.mem_map.mp member
    obtain ⟨low, high⟩ := List.mem_range'_1.mp range
    have high : i < a.size := by omega
    obtain ⟨j, u, lies, same⟩ := lies_at within each nodes low high
    exact ⟨low, high, same ▸ lies.isSet⟩
  · intro id
    have nodup : ((List.range' old.length (Tree.sizes ts)).map NodeId.mk).Nodup :=
      List.Nodup.map (fun _ _ same => congrArg NodeId.index same) (List.nodup_range' 1)
    have bound := List.nodup_iff_count_le_one.mp (perm.nodup_iff.mpr nodup) id
    rw [List.count_append] at bound
    omega
  · exact fun n member => slots_filled within each nodes member
  · intro id low cycle
    have high : id.index < a.size := by
      obtain ⟨_, ⟨n, found, _⟩, _⟩ := Relation.TransGen.head'_iff.mp cycle
      exact (Array.getElem?_eq_some_iff.mp found).1
    obtain ⟨j, u, lies, rfl⟩ := lies_at within each nodes low high
    exact lies.shows.acyclic cycle

theorem Within.lies_single (within : a.Within old) {t : Tree} (fits : t.Fits)
    (nodes : a.nodes.toList = old ++ t.lay old.length) : Tree.Lies a old.length t := by
  have each : ∀ u ∈ [t], u.Fits := by simpa using fits
  have nodes' : a.nodes.toList = old ++ Tree.layAll old.length [t] := by simp [nodes, Tree.layAll]
  exact within.lies each nodes' (p := (old.length, t)) (by simp [Tree.places])

/-- A single tree owns everything from its first node on. -/
theorem treeFrom (within : a.Within old) {t : Tree} (fits : t.Fits)
    (nodes : a.nodes.toList = old ++ t.lay old.length) :
    a.TreeFrom old.length (t.root old.length) := by
  have each : ∀ u ∈ [t], u.Fits := by simpa using fits
  have nodes' : a.nodes.toList = old ++ Tree.layAll old.length [t] := by simp [nodes, Tree.layAll]
  have size := size_eq nodes'
  have lies := within.lies_single fits nodes
  have perm := owned_perm within each nodes'
  have nodup := perm.nodup_iff.mpr (List.Nodup.map (fun _ _ same => congrArg NodeId.index same)
    (List.nodup_range' 1))
  have bounds := t.root_bounds old.length
  have roots : Tree.roots old.length [t] = [t.root old.length] := rfl
  simp only [Tree.sizes, Nat.add_zero] at size
  rw [roots] at perm nodup
  refine ⟨⟨bounds.1, by omega⟩, ?_, ?_, ?_⟩
  · exact (List.nodup_cons.mp nodup).1
  · intro id low high
    exact (lies.below low (by omega)).1
  · intro id low high other
    have member : id ∈ [t.root old.length] ++ a.owned old.length := by
      refine perm.mem_iff.mpr (List.mem_map.mpr ⟨id.index, ?_, rfl⟩)
      rw [List.mem_range'_1]
      simp only [Tree.sizes]
      omega
    have inside : id ∈ a.owned old.length := by
      rcases List.mem_append.mp member with h | h
      · exact absurd (List.mem_singleton.mp h) other
      · exact h
    exact List.count_eq_one_of_mem (List.nodup_cons.mp nodup).2 inside

end Arena

/-- A parse leaves one tree behind if it succeeds, and a forest in any case. -/
theorem Source.parse_pure_tree (s : Source) (a : Arena) :
    (s.parse a).arena.Forest a.size ∧
      ∀ root, (s.parse a).outcome = .ok (some root) → (s.parse a).arena.TreeFrom a.size root := by
  have grown := s.parse_grown a
  have length : a.nodes.toList.length = a.size := Array.length_toList
  generalize (s.parse a).outcome = outcome at grown
  generalize (s.parse a).arena = b at grown
  rw [← length]
  cases grown with
  | blank => exact ⟨a.laid_self.forest, fun root h => by cases h⟩
  | @tree t _ _ fits within nodes =>
    rw [← length] at nodes
    refine ⟨Arena.Laid.forest ⟨within, [t], by simpa using fits, by simp [nodes, Tree.layAll]⟩, ?_⟩
    rintro _ ⟨⟩
    rw [← length]
    exact Arena.treeFrom within fits nodes
  | broken laid => exact ⟨laid.forest, fun root h => by cases h⟩

theorem Source.parse_pure_tree_enumeration :
    ((ofText "1,2,3").parse .empty).outcome = .ok (some ⟨2⟩) ∧
      ((ofText "1,2,3").parse .empty).arena.TreeFrom 0 ⟨2⟩ := by
  have parsed : ((ofText "1,2,3").parse .empty).outcome = .ok (some ⟨2⟩) :=
    outcome_of_within (n := 15) rfl
  exact ⟨parsed, (parse_pure_tree (ofText "1,2,3") .empty).2 ⟨2⟩ parsed⟩

end Offside
