import Mathlib.Data.List.Perm.Basic
import Mathlib.Data.List.Range
import Mathlib.Logic.Relation
import Offside.Tree.Arena

/-! Syntax trees as values, and the runs of nodes that they are in an arena. Children come before
their parent, except that an enumeration is made after its first two children and takes the others
in later. -/
namespace Offside

inductive Tree where
  | node (tag : NodeTag) (token : Option Token) (children : List Tree)

def NodeTag.grows : NodeTag → Bool
  | .blockAnd | .blockOr | .enumAnd | .enumOr => true
  | _ => false

theorem NodeTag.grows_eq (tag : NodeTag) : tag.grows = (tag.shape == .list && !tag.isMarker) := by
  cases tag <;> rfl

/-- How many children a node may have. An attribute list may have none; everything else fills the
slots of its shape. -/
def NodeTag.Admits (tag : NodeTag) (n : Nat) : Prop :=
  match tag.shape with
  | .void => n = 0
  | .single => n = 1 ∨ tag = .attrs ∧ n = 0
  | .pair => n = 2
  | .list => True

def Payload.fill (shape : Shape) (ids : List NodeId) : Payload := ids.foldl attach (empty shape)

theorem modify_behind {α : Type} (f : α → α) (xs : List α) (y : α) (ys : List α) :
    (xs ++ y :: ys).modify xs.length f = xs ++ f y :: ys :=
  List.modifyTailIdx_add (List.modifyHead f) 0 xs (y :: ys)

namespace Tree

def tag : Tree → NodeTag
  | node tag _ _ => tag

theorem induct {P : Tree → Prop}
    (step : ∀ tag token kids, (∀ t ∈ kids, P t) → P (node tag token kids)) (t : Tree) : P t := by
  refine @Tree.rec P (fun ts => ∀ t ∈ ts, P t) ?_ ?_ ?_ t
  · intro tag token kids ih
    exact step tag token kids ih
  · intro t ht
    cases ht
  · intro head rest hh hr t ht
    rcases List.mem_cons.mp ht with rfl | ht
    · exact hh
    · exact hr t ht

mutual

def size : Tree → Nat
  | node _ _ kids => sizes kids + 1

def sizes : List Tree → Nat
  | [] => 0
  | t :: rest => t.size + sizes rest

end

def early (tag : NodeTag) (kids : List Tree) : Nat := if tag.grows then 2 else kids.length

/-- The number of the root, if the first node made for the tree has number `k`. -/
def root (k : Nat) : Tree → NodeId
  | node tag _ kids => ⟨k + sizes (kids.take (early tag kids))⟩

def places (k : Nat) : List Tree → List (Nat × Tree)
  | [] => []
  | t :: rest => (k, t) :: places (k + t.size) rest

/-- The children of a node with their first numbers; the node itself comes after the early ones. -/
def seats (k : Nat) (e : Nat) (kids : List Tree) : List (Nat × Tree) :=
  places k (kids.take e) ++ places (k + sizes (kids.take e) + 1) (kids.drop e)

def rootOf (p : Nat × Tree) : NodeId := p.2.root p.1

def top (k : Nat) : Tree → Node
  | node tag token kids =>
    ⟨tag, token, .fill tag.shape ((seats k (early tag kids) kids).map rootOf)⟩

theorem tag_top (k : Nat) (t : Tree) : (t.top k).tag = t.tag := by
  cases t
  rfl

mutual

/-- The nodes of a tree in the order of their numbers. -/
def lay (k : Nat) : Tree → List Node
  | node tag token kids =>
    layAround (early tag kids) (top k (node tag token kids)) k kids

def layAround : Nat → Node → Nat → List Tree → List Node
  | _, self, _, [] => [self]
  | 0, self, k, t :: rest => self :: (t.lay (k + 1) ++ layAll (k + 1 + t.size) rest)
  | e + 1, self, k, t :: rest => t.lay k ++ layAround e self (k + t.size) rest

def layAll (k : Nat) : List Tree → List Node
  | [] => []
  | t :: rest => t.lay k ++ layAll (k + t.size) rest

end

theorem sizes_append (xs ys : List Tree) : sizes (xs ++ ys) = sizes xs + sizes ys := by
  induction xs with
  | nil => simp [sizes]
  | cons t rest ih => simp only [List.cons_append, sizes, ih]; omega

theorem sizes_take_drop (e : Nat) (ts : List Tree) :
    sizes (ts.take e) + sizes (ts.drop e) = sizes ts := by
  rw [← sizes_append, List.take_append_drop]

theorem places_append (k : Nat) (xs ys : List Tree) :
    places k (xs ++ ys) = places k xs ++ places (k + sizes xs) ys := by
  induction xs generalizing k with
  | nil => simp [places, sizes]
  | cons t rest ih => simp only [List.cons_append, places, sizes, ih, Nat.add_assoc]

theorem layAll_eq (k : Nat) (ts : List Tree) :
    layAll k ts = (places k ts).flatMap fun p => p.2.lay p.1 := by
  induction ts generalizing k with
  | nil => simp [layAll, places]
  | cons t rest ih => simp [layAll, places, ih]

theorem layAll_append (k : Nat) (xs ys : List Tree) :
    layAll k (xs ++ ys) = layAll k xs ++ layAll (k + sizes xs) ys := by
  simp [layAll_eq, places_append]

theorem layAround_eq (e : Nat) (self : Node) (k : Nat) (kids : List Tree) :
    layAround e self k kids = layAll k (kids.take e) ++
      self :: layAll (k + sizes (kids.take e) + 1) (kids.drop e) := by
  induction kids generalizing e k with
  | nil => cases e <;> simp [layAround, layAll]
  | cons t rest ih =>
    cases e with
    | zero => simp [layAround, layAll, sizes]
    | succ e =>
      simp only [layAround, ih, List.take_succ_cons, List.drop_succ_cons, layAll, sizes,
        List.append_assoc, Nat.add_assoc]

theorem lay_node (k : Nat) (tag : NodeTag) (token : Option Token) (kids : List Tree) :
    lay k (node tag token kids) =
      layAll k (kids.take (early tag kids)) ++ top k (node tag token kids) ::
        layAll (k + sizes (kids.take (early tag kids)) + 1) (kids.drop (early tag kids)) := by
  rw [lay, layAround_eq]

theorem length_layAll_of {ts : List Tree} (each : ∀ t ∈ ts, ∀ k, (lay k t).length = t.size)
    (k : Nat) : (layAll k ts).length = sizes ts := by
  induction ts generalizing k with
  | nil => simp [layAll, sizes]
  | cons t rest ih =>
    have head := each t (by simp) k
    have tail := ih (fun u hu => each u (by simp [hu])) (k + t.size)
    simp only [layAll, sizes, List.length_append, head, tail]

@[simp] theorem length_lay (k : Nat) (t : Tree) : (lay k t).length = t.size := by
  induction t using induct generalizing k with
  | step tag token kids ih =>
    have before : ∀ k, (layAll k (kids.take (early tag kids))).length = _ :=
      length_layAll_of fun t ht k => ih t (List.mem_of_mem_take ht) k
    have after : ∀ k, (layAll k (kids.drop (early tag kids))).length = _ :=
      length_layAll_of fun t ht k => ih t (List.mem_of_mem_drop ht) k
    have split := sizes_take_drop (early tag kids) kids
    simp only [lay_node, List.length_append, List.length_cons, before, after, size]
    omega

@[simp] theorem length_layAll (k : Nat) (ts : List Tree) : (layAll k ts).length = sizes ts :=
  length_layAll_of (fun t _ k => length_lay k t) k

/-- The children of every node fit into its slots, and an enumeration has two at least. -/
inductive Fits : Tree → Prop where
  | node {tag : NodeTag} {token : Option Token} {kids : List Tree} :
      tag.Admits kids.length → (tag.grows = true → 2 ≤ kids.length) →
        (∀ t ∈ kids, Fits t) → Fits (node tag token kids)

def extend : Tree → Tree → Tree
  | node tag token kids, t => node tag token (kids ++ [t])

theorem size_pos (t : Tree) : 0 < t.size := by
  cases t
  simp [size]

theorem size_lt {tag : NodeTag} {token : Option Token} {kids : List Tree} {t : Tree}
    (h : t ∈ kids) : t.size < (node tag token kids).size := by
  obtain ⟨before, after, rfl⟩ := List.append_of_mem h
  simp only [size, sizes_append, sizes]
  omega

theorem Fits.extend {t u : Tree} (ht : t.Fits) (hu : u.Fits) (grows : t.tag.grows = true) :
    (t.extend u).Fits := by
  obtain ⟨tag, token, kids⟩ := t
  obtain ⟨_, two, each⟩ := ht
  have shape : tag.shape = .list := by
    have grows : tag.grows = true := grows
    rw [NodeTag.grows_eq, Bool.and_eq_true, beq_iff_eq] at grows
    exact grows.1
  refine .node (by simp [NodeTag.Admits, shape]) ?_ ?_
  · intro hg
    have := two hg
    simp
    omega
  · intro v hv
    rcases List.mem_append.mp hv with hv | hv
    · exact each v hv
    · obtain rfl := List.mem_singleton.mp hv
      exact hu

theorem root_extend {t : Tree} (u : Tree) (k : Nat) (fits : t.Fits) (grows : t.tag.grows = true) :
    (t.extend u).root k = t.root k := by
  obtain ⟨tag, token, kids⟩ := t
  obtain ⟨_, two, _⟩ := fits
  have two := two grows
  have grows : tag.grows = true := grows
  simp only [extend, root, early, grows, ↓reduceIte, List.take_append_of_le_length two]

theorem root_bounds (t : Tree) (k : Nat) : k ≤ (t.root k).index ∧ (t.root k).index < k + t.size := by
  obtain ⟨tag, token, kids⟩ := t
  have split := sizes_take_drop (early tag kids) kids
  simp only [root, size]
  omega

theorem lay_root (t : Tree) (k : Nat) : (lay k t)[(t.root k).index - k]? = some (t.top k) := by
  obtain ⟨tag, token, kids⟩ := t
  have at_end : (root k (node tag token kids)).index - k =
      (layAll k (kids.take (early tag kids))).length := by
    simp [root]
  rw [at_end, lay_node, List.getElem?_append_right (Nat.le_refl _)]
  simp

theorem get?_root {a : Arena} {front back : List Node} {t : Tree}
    (nodes : a.nodes.toList = front ++ t.lay front.length ++ back) :
    a.get? (t.root front.length) = some (t.top front.length) := by
  have bounds := t.root_bounds front.length
  have inside : (t.root front.length).index - front.length < (t.lay front.length).length := by
    rw [length_lay]
    omega
  rw [Arena.get?, ← Array.getElem?_toList, nodes, List.append_assoc,
    List.getElem?_append_right bounds.1, List.getElem?_append_left inside, t.lay_root]

theorem lay_extend {t : Tree} (u : Tree) (k : Nat) (fits : t.Fits) (grows : t.tag.grows = true) :
    lay k (t.extend u) =
      (lay k t).modify ((t.root k).index - k) (·.attach (u.root (k + t.size))) ++
        lay (k + t.size) u := by
  obtain ⟨tag, token, kids⟩ := t
  obtain ⟨_, two, _⟩ := fits
  have two := two grows
  have grows : tag.grows = true := grows
  have split := sizes_take_drop 2 kids
  have at_end : (root k (node tag token kids)).index - k =
      (layAll k (kids.take 2)).length := by
    simp [root, early, grows]
  -- The new element comes behind all the others, also those made after the node.
  have place : k + sizes (kids.take 2) + 1 + sizes (kids.drop 2) =
      k + (node tag token kids).size := by
    simp only [size]
    omega
  have self : top k (node tag token (kids ++ [u])) =
      (top k (node tag token kids)).attach (u.root (k + (node tag token kids).size)) := by
    simp only [top, early, grows, ↓reduceIte, seats, List.take_append_of_le_length two,
      List.drop_append_of_le_length two, places_append, place, Node.attach, Payload.fill]
    simp [places, rootOf]
  rw [at_end, extend, lay_node, lay_node]
  simp only [early, grows, ↓reduceIte, List.take_append_of_le_length two,
    List.drop_append_of_le_length two, layAll_append, place, self]
  rw [modify_behind]
  simp [layAll]

end Tree
end Offside
