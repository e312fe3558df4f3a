import Offside.Proofs.Layout

/-! Trees that lie in an arena: each can be read back from its root, and every node but the roots is
the child of exactly one other. -/
namespace Offside

/-- All slots of a payload, with or without a child in them. -/
def Payload.slots : Payload → List NodeId
  | void => []
  | single child => [child]
  | pair first second => [first, second]
  | list children => children

theorem Payload.fill_cases {tag : NodeTag} {ids : List NodeId} (admits : tag.Admits ids.length)
    (each : ∀ id ∈ ids, id.isSet = true) :
    (fill tag.shape ids).children = ids ∧
      ((fill tag.shape ids).slots = ids ∨ tag = .attrs ∧ ids = []) := by
  have append : ∀ (done more : List NodeId), more.foldl attach (list done) = list (done ++ more) := by
    intro done more
    induction more generalizing done with
    | nil => simp
    | cons id more ih => simp [attach, ih]
  unfold NodeTag.Admits at admits
  cases shape : tag.shape with
  | void =>
    simp only [shape, List.length_eq_zero_iff] at admits
    subst admits
    exact ⟨rfl, .inl rfl⟩
  | single =>
    simp only [shape] at admits
    rcases admits with one | ⟨attrs, none⟩
    · obtain ⟨id, rfl⟩ := List.length_eq_one_iff.mp one
      have set := each id (by simp)
      exact ⟨by simp [fill, empty, attach, children, set], .inl rfl⟩
    · obtain rfl := List.length_eq_zero_iff.mp none
      exact ⟨rfl, .inr ⟨attrs, rfl⟩⟩
  | pair =>
    simp only [shape] at admits
    obtain ⟨first, second, rfl⟩ := List.length_eq_two.mp admits
    have set := each first (by simp)
    have set' := each second (by simp)
    have unset : NodeId.unset.isSet = false := by decide
    constructor
    · simp [fill, empty, attach, children, set, set', unset]
    · simp [fill, empty, attach, slots, set, unset]
  | list => exact ⟨by simp [fill, empty, append, children], .inl (by simp [fill, empty, append, slots])⟩

theorem getElem_mem_zip {α β : Type} {xs : List α} {ys : List β} {i : Nat} (hx : i < xs.length)
    (hy : i < ys.length) : (xs[i], ys[i]) ∈ xs.zip ys := by
  have inside : i < (xs.zip ys).length := by
    rw [List.length_zip]
    omega
  exact List.mem_iff_getElem.mpr ⟨i, inside, List.getElem_zip⟩

namespace Arena

def owned (k : Nat) (a : Arena) : List NodeId := (a.nodes.toList.drop k).flatMap Node.children

def Owns (a : Arena) (parent child : NodeId) : Prop :=
  ∃ n, a.get? parent = some n ∧ child ∈ n.children

/-- The tree that is read off from a node. -/
inductive Shows (a : Arena) : NodeId → Tree → Prop where
  | node {id : NodeId} {n : Node} {kids : List Tree} :
      a.get? id = some n → n.children.length = kids.length →
      (∀ p ∈ n.children.zip kids, a.Shows p.1 p.2) → a.Shows id (.node n.tag n.token kids)

theorem Shows.unique {a : Arena} {id : NodeId} {t u : Tree} (ht : a.Shows id t) (hu : a.Shows id u) :
    t = u := by
  induction ht generalizing u with
  | @node id n kids found length each ih =>
    cases hu with
    | @node _ n' kids' found' length' each' =>
      obtain rfl : n = n' := Option.some.inj (found.symm.trans found')
      have same : kids = kids' := by
        refine List.ext_getElem (length.symm.trans length') ?_
        intro i hi hi'
        have inside : i < n.children.length := length ▸ hi
        exact ih _ (getElem_mem_zip inside hi) (each' _ (getElem_mem_zip inside hi'))
      rw [same]

theorem Shows.kid {a : Arena} {id child : NodeId} {tag : NodeTag} {token : Option Token}
    {kids : List Tree} (h : a.Shows id (.node tag token kids)) (owns : a.Owns id child) :
    ∃ u ∈ kids, a.Shows child u := by
  obtain ⟨n, found, member⟩ := owns
  cases h with
  | @node _ n' _ found' length each =>
    obtain rfl : n = n' := Option.some.inj (found.symm.trans found')
    obtain ⟨i, hi, rfl⟩ := List.mem_iff_getElem.mp member
    have hi' : i < kids.length := length ▸ hi
    exact ⟨kids[i], List.getElem_mem hi', each _ (getElem_mem_zip hi hi')⟩

theorem Shows.child {a : Arena} {id child : NodeId} {t : Tree} (h : a.Shows id t)
    (owns : a.Owns id child) : ∃ u, a.Shows child u ∧ u.size < t.size := by
  cases t with
  | node tag token kids =>
    obtain ⟨u, member, shown⟩ := h.kid owns
    exact ⟨u, shown, Tree.size_lt member⟩

theorem Shows.descendant {a : Arena} {id child : NodeId} {t : Tree} (h : a.Shows id t)
    (owns : Relation.TransGen a.Owns id child) : ∃ u, a.Shows child u ∧ u.size < t.size := by
  induction owns with
  | single owns => exact h.child owns
  | tail _ owns ih =>
    obtain ⟨u, hu, lt⟩ := ih
    obtain ⟨v, hv, lt'⟩ := hu.child owns
    exact ⟨v, hv, Nat.lt_trans lt' lt⟩

theorem Shows.acyclic {a : Arena} {id : NodeId} {t : Tree} (h : a.Shows id t) :
    ¬Relation.TransGen a.Owns id id := by
  intro cycle
  -- The tree below would be smaller than itself, since a node shows one tree only.
  obtain ⟨u, hu, lt⟩ := h.descendant cycle
  rw [h.unique hu] at lt
  exact Nat.lt_irrefl _ lt

end Arena

namespace Tree

theorem mem_places {k : Nat} {ts : List Tree} {p : Nat × Tree} (h : p ∈ places k ts) :
    p.2 ∈ ts ∧ ∃ front back, layAll k ts = front ++ p.2.lay p.1 ++ back ∧ k + front.length = p.1 := by
  induction ts generalizing k with
  | nil => cases h
  | cons t ts ih =>
    rcases List.mem_cons.mp h with rfl | h
    · exact ⟨by simp, [], layAll (k + t.size) ts, by simp [layAll], by simp⟩
    · obtain ⟨member, front, back, split, place⟩ := ih h
      refine ⟨by simp [member], t.lay k ++ front, back, by simp [layAll, split], ?_⟩
      simp only [List.length_append, length_lay]
      omega

theorem places_cover {k i : Nat} {ts : List Tree} (low : k ≤ i) (high : i < k + sizes ts) :
    ∃ p ∈ places k ts, p.1 ≤ i ∧ i < p.1 + p.2.size := by
  induction ts generalizing k with
  | nil =>
    simp only [sizes] at high
    omega
  | cons t ts ih =>
    simp only [sizes] at high
    by_cases inside : i < k + t.size
    · exact ⟨(k, t), by simp [places], low, inside⟩
    · obtain ⟨p, member, bounds⟩ := ih (k := k + t.size) (by omega) (by omega)
      exact ⟨p, by simp [places, member], bounds⟩

theorem mem_seats {k : Nat} {tag : NodeTag} (token : Option Token) {kids : List Tree}
    {p : Nat × Tree} (h : p ∈ seats k (early tag kids) kids) :
    p.2 ∈ kids ∧ ∃ front back,
      lay k (node tag token kids) = front ++ p.2.lay p.1 ++ back ∧ k + front.length = p.1 := by
  rw [lay_node]
  rcases List.mem_append.mp h with h | h
  · obtain ⟨member, front, back, split, place⟩ := mem_places h
    refine ⟨List.mem_of_mem_take member, front, back ++ top k (node tag token kids) ::
      layAll (k + sizes (kids.take (early tag kids)) + 1) (kids.drop (early tag kids)), ?_, place⟩
    rw [split, List.append_assoc (front ++ p.2.lay p.1)]
  · obtain ⟨member, front, back, split, place⟩ := mem_places h
    refine ⟨List.mem_of_mem_drop member, layAll k (kids.take (early tag kids)) ++
      top k (node tag token kids) :: front, back, ?_, ?_⟩
    · rw [split]
      simp
    · simp only [List.length_append, List.length_cons, length_layAll]
      omega

/-- A number of a tree is that of its root or belongs to one of the children. -/
theorem seats_cover {k i : Nat} {tag : NodeTag} {token : Option Token} {kids : List Tree}
    (low : k ≤ i) (high : i < k + (node tag token kids).size)
    (other : i ≠ (root k (node tag token kids)).index) :
    ∃ p ∈ seats k (early tag kids) kids, p.1 ≤ i ∧ i < p.1 + p.2.size := by
  have split := sizes_take_drop (early tag kids) kids
  simp only [size] at high
  simp only [root] at other
  by_cases before : i < k + sizes (kids.take (early tag kids))
  · obtain ⟨p, member, bounds⟩ := places_cover low before
    exact ⟨p, List.mem_append_left _ member, bounds⟩
  · have low' : k + sizes (kids.take (early tag kids)) + 1 ≤ i := by omega
    have high' : i < k + sizes (kids.take (early tag kids)) + 1 +
        sizes (kids.drop (early tag kids)) := by omega
    obtain ⟨p, member, bounds⟩ := places_cover low' high'
    exact ⟨p, List.mem_append_right _ member, bounds⟩

/-- The tree lies in the arena, from the number `k` on. -/
def Lies (a : Arena) (k : Nat) (t : Tree) : Prop :=
  t.Fits ∧ k + t.size ≤ Arena.maxNodes ∧
    ∃ front back, a.nodes.toList = front ++ t.lay k ++ back ∧ front.length = k

theorem places_trees (k : Nat) (ts : List Tree) : (places k ts).map Prod.snd = ts := by
  induction ts generalizing k with
  | nil => rfl
  | cons t ts ih => simp [places, ih]

theorem seats_trees (k e : Nat) (kids : List Tree) : (seats k e kids).map Prod.snd = kids := by
  simp [seats, places_trees]

theorem Lies.seat {a : Arena} {k : Nat} {tag : NodeTag} {token : Option Token} {kids : List Tree}
    {p : Nat × Tree} (h : Lies a k (node tag token kids)) (member : p ∈ seats k (early tag kids) kids) :
    Lies a p.1 p.2 := by
  obtain ⟨fits, room, front, back, nodes, length⟩ := h
  obtain ⟨inside, front', back', split, place⟩ := mem_seats token member
  cases fits with
  | node _ _ each =>
    refine ⟨each _ inside, ?_, front ++ front', back' ++ back, ?_, ?_⟩
    · have lengths := congrArg List.length split
      simp only [List.length_append, length_lay] at lengths
      omega
    · rw [nodes, split]
      simp
    · rw [List.length_append]
      omega

theorem Lies.get? {a : Arena} {k : Nat} {t : Tree} (h : Lies a k t) :
    a.get? (t.root k) = some (t.top k) := by
  obtain ⟨_, _, front, back, nodes, rfl⟩ := h
  exact get?_root nodes

theorem isSet_of_lt {id : NodeId} (h : id.index < Arena.maxNodes) : id.isSet = true := by
  refine bne_iff_ne.mpr ?_
  rintro rfl
  have last : NodeId.unset.index = Arena.maxNodes + 1 := rfl
  omega

theorem Lies.isSet {a : Arena} {k : Nat} {t : Tree} (h : Lies a k t) : (t.root k).isSet = true := by
  obtain ⟨_, room, _⟩ := h
  have bounds := t.root_bounds k
  exact isSet_of_lt (by omega)

/-- A node has its children in its slots and nothing else, but for an empty attribute list. -/
theorem Lies.top_cases {a : Arena} {k : Nat} {tag : NodeTag} {token : Option Token}
    {kids : List Tree} (h : Lies a k (node tag token kids)) :
    (top k (node tag token kids)).children = (seats k (early tag kids) kids).map rootOf ∧
      ((top k (node tag token kids)).payload.slots = (seats k (early tag kids) kids).map rootOf ∨
        tag = .attrs ∧ (seats k (early tag kids) kids).map rootOf = []) := by
  refine Payload.fill_cases ?_ ?_
  · have length := congrArg List.length (seats_trees k (early tag kids) kids)
    rw [List.length_map] at length
    rw [List.length_map, length]
    cases h.1 with
    | node admits _ _ => exact admits
  · intro id member
    obtain ⟨p, seat, rfl⟩ := List.mem_map.mp member
    exact (h.seat seat).isSet

theorem Lies.shows {a : Arena} {k : Nat} {t : Tree} (h : Lies a k t) : a.Shows (t.root k) t := by
  induction t using induct generalizing k with
  | step tag token kids ih =>
    have children := h.top_cases.1
    have trees := seats_trees k (early tag kids) kids
    refine .node h.get? ?_ ?_
    · rw [children, ← congrArg List.length trees]
      simp
    · have pairs : ((seats k (early tag kids) kids).map rootOf).zip kids =
          (seats k (early tag kids) kids).map fun q => (rootOf q, q.2) := by
        calc ((seats k (early tag kids) kids).map rootOf).zip kids
            = ((seats k (early tag kids) kids).map rootOf).zip
                ((seats k (early tag kids) kids).map Prod.snd) := by rw [trees]
          _ = _ := List.zip_map' ..
      intro p member
      rw [children, pairs] at member
      obtain ⟨q, seat, rfl⟩ := List.mem_map.mp member
      exact ih _ (mem_seats token seat).1 (h.seat seat)

theorem Lies.below {a : Arena} {k i : Nat} {t : Tree} (h : Lies a k t) (low : k ≤ i)
    (high : i < k + t.size) :
    Relation.ReflTransGen a.Owns (t.root k) ⟨i⟩ ∧ ∃ j u, Lies a j u ∧ u.root j = ⟨i⟩ := by
  induction t using induct generalizing k with
  | step tag token kids ih =>
    by_cases self : i = (root k (node tag token kids)).index
    · subst self
      exact ⟨.refl, k, _, h, rfl⟩
    · obtain ⟨p, seat, low', high'⟩ := seats_cover low high self
      obtain ⟨path, lies⟩ := ih _ (mem_seats token seat).1 (h.seat seat) low' high'
      refine ⟨.head ⟨_, h.get?, ?_⟩ path, lies⟩
      rw [h.top_cases.1]
      exact List.mem_map.mpr ⟨p, seat, rfl⟩

def roots (k : Nat) (ts : List Tree) : List NodeId := (places k ts).map rootOf

theorem owned_layAll_of {ts : List Tree} {k : Nat}
    (each : ∀ p ∈ places k ts, (p.2.root p.1 :: (p.2.lay p.1).flatMap Node.children).Perm
      ((List.range' p.1 p.2.size).map NodeId.mk)) :
    (roots k ts ++ (layAll k ts).flatMap Node.children).Perm
      ((List.range' k (sizes ts)).map NodeId.mk) := by
  induction ts generalizing k with
  | nil => simp [roots, places, layAll, sizes]
  | cons t ts ih =>
    have head := each (k, t) (by simp [places])
    have tail := ih (k := k + t.size) fun p hp => each p (by simp [places, hp])
    have split : List.range' k (sizes (t :: ts)) =
        List.range' k t.size ++ List.range' (k + t.size) (sizes ts) := by
      rw [sizes, ← List.range'_append_1]
    -- Roots and child lists come interleaved, so count instead of moving them about.
    rw [List.perm_iff_count] at head tail ⊢
    intro id
    have head := head id
    have tail := tail id
    simp only [List.count_append, List.count_cons, roots, places, layAll, split, List.map_append,
      List.map_cons, List.flatMap_append, rootOf] at head tail ⊢
    omega

/-- Every number of a tree is that of its root or stands in one child list, once. -/
theorem Lies.owned {a : Arena} {k : Nat} {t : Tree} (h : Lies a k t) :
    (t.root k :: (t.lay k).flatMap Node.children).Perm ((List.range' k t.size).map NodeId.mk) := by
  induction t using induct generalizing k with
  | step tag token kids ih =>
    have each : ∀ p ∈ seats k (early tag kids) kids,
        (p.2.root p.1 :: (p.2.lay p.1).flatMap Node.children).Perm
          ((List.range' p.1 p.2.size).map NodeId.mk) := by
      intro p seat
      exact ih _ (mem_seats token seat).1 (h.seat seat)
    have before := owned_layAll_of fun p hp => each p (List.mem_append_left _ hp)
    have after := owned_layAll_of fun p hp => each p (List.mem_append_right _ hp)
    have children : (top k (node tag token kids)).children =
        roots k (kids.take (early tag kids)) ++
          roots (k + sizes (kids.take (early tag kids)) + 1) (kids.drop (early tag kids)) := by
      rw [h.top_cases.1, seats, List.map_append]
      rfl
    have split : List.range' k (node tag token kids).size =
        List.range' k (sizes (kids.take (early tag kids))) ++
          (k + sizes (kids.take (early tag kids))) ::
            List.range' (k + sizes (kids.take (early tag kids)) + 1)
              (sizes (kids.drop (early tag kids))) := by
      rw [← List.range'_succ, List.range'_append_1, size, ← sizes_take_drop (early tag kids) kids,
        Nat.add_assoc]
    rw [List.perm_iff_count] at before after ⊢
    intro id
    have before := before id
    have after := after id
    simp only [lay_node, split, children, root, List.count_append, List.count_cons, List.map_append,
      List.map_cons, List.flatMap_append, List.flatMap_cons] at before after ⊢
    omega

end Tree
end Offside
