import Offside.Parse.Assembly
import Offside.Proofs.Layout

/-! What the operations on the two stacks do to the trees they stand for. The nodes made by a parse
are at all times the trees of the operand stack, laid out one after the other; a failure leaves
behind whatever trees there were. -/
namespace Offside

/- A finished tree, as the grammar speaks of it: without the number of its node. -/
structure Piece where
  tree : Tree
  grouped : Bool := false

namespace Piece

def operand (k : Nat) (p : Piece) : Operand := ⟨p.tree.root k, p.grouped⟩

def ofNode (tag : NodeTag) (token : Option Token) (children : List Tree) : Piece :=
  ⟨.node tag token children, false⟩

/-- The tree of a binary operator. An enumeration of the same kind that no parentheses close off
takes one more element. -/
def join (tag : NodeTag) (token : Option Token) (left right : Piece) : Piece :=
  if tag.grows && !left.grouped && left.tree.tag == tag then ⟨left.tree.extend right.tree, false⟩
  else ofNode tag token [left.tree, right.tree]

end Piece

def Pending.fold? (op : Pending) : List Piece → Option (List Piece)
  | right :: rest =>
    match op.tag.shape, rest with
    | .single, _ => some (.ofNode op.tag op.token [right.tree] :: rest)
    | .pair, left :: rest | .list, left :: rest => some (left.join op.tag op.token right :: rest)
    | _, _ => none
  | [] => none

def foldAll? : List Pending → List Piece → Option (List Piece)
  | [], ps => some ps
  | op :: rest, ps => (op.fold? ps).bind (foldAll? rest)

/- The operands stand for the pieces, whose nodes come one after the other behind the old ones. -/
inductive Carried (old : List Node) : List Operand → List Piece → List Node → Prop where
  | nil : Carried old [] [] old
  | cons {os : List Operand} {ps : List Piece} {ns : List Node} {p : Piece} :
      Carried old os ps ns → p.tree.Fits →
        Carried old (p.operand ns.length :: os) (p :: ps) (ns ++ p.tree.lay ns.length)

def Arena.Within (old : List Node) (a : Arena) : Prop := old.length < a.size → a.size ≤ a.limit

def Arena.Laid (old : List Node) (a : Arena) : Prop :=
  a.Within old ∧ ∃ ts, (∀ t ∈ ts, t.Fits) ∧ a.nodes.toList = old ++ Tree.layAll old.length ts

def Assembly.Carries (old : List Node) (w : Assembly) (ps : List Piece) : Prop :=
  w.arena.Within old ∧ Carried old w.operands ps w.arena.nodes.toList

/- The result of an attempt that may only fail in the given ways, and then leaves trees behind. -/
def Yields {α : Type} (old : List Node) (fails : ParseError → Prop) (r : Attempt α)
    (Q : α → Prop) : Prop :=
  match r with
  | .ok a => Q a
  | .error fault => fails fault.error ∧ fault.work.arena.Laid old

abbrev Spared : ParseError → Prop := (· = .outOfMemory)

section Yields

variable {α β : Type} {old : List Node} {fails : ParseError → Prop} {Q : α → Prop} {R : β → Prop}

theorem Yields.mono {r : Attempt α} {Q' : α → Prop} {fails' : ParseError → Prop}
    (h : Yields old fails r Q) (weaker : ∀ e, fails e → fails' e) (imp : ∀ a, Q a → Q' a) :
    Yields old fails' r Q' := by
  cases r with
  | ok a => exact imp a h
  | error f => exact ⟨weaker _ h.1, h.2⟩

theorem Yields.bind {r : Attempt α} {f : α → Attempt β} (h : Yields old fails r Q)
    (next : ∀ a, Q a → Yields old fails (f a) R) : Yields old fails (r >>= f) R := by
  cases r with
  | ok a => exact next a h
  | error e => exact h

end Yields

theorem Carried.uncons {old : List Node} {os : List Operand} {p : Piece} {ps : List Piece}
    {ns' : List Node} (h : Carried old os (p :: ps) ns') :
    ∃ rest ns, os = p.operand ns.length :: rest ∧ ns' = ns ++ p.tree.lay ns.length ∧
      Carried old rest ps ns ∧ p.tree.Fits := by
  cases h with
  | cons below fits => exact ⟨_, _, rfl, rfl, below, fits⟩

theorem Carried.split {old : List Node} {os' os : List Operand} {qs ps : List Piece}
    {ns' : List Node} (h : Carried old (os' ++ os) (qs ++ ps) ns')
    (same : os'.length = qs.length) :
    ∃ ns, Carried old os ps ns ∧ (∀ q ∈ qs, q.tree.Fits) ∧
      ns' = ns ++ Tree.layAll ns.length (qs.reverse.map Piece.tree) ∧
      os'.reverse.map Operand.node =
        (Tree.places ns.length (qs.reverse.map Piece.tree)).map Tree.rootOf := by
  induction qs generalizing os' ns' with
  | nil =>
    obtain rfl := List.length_eq_zero_iff.mp same
    exact ⟨ns', h, by simp, by simp [Tree.layAll], by simp [Tree.places]⟩
  | cons q qs ih =>
    cases os' with
    | nil => cases same
    | cons o os' =>
      cases h with
      | @cons _ _ ns₁ _ below fits =>
        obtain ⟨ns, base, each, rfl, ids⟩ := ih below (by simpa using same)
        refine ⟨ns, base, ?_, ?_, ?_⟩
        · intro p hp
          rcases List.mem_cons.mp hp with rfl | hp
          · exact fits
          · exact each p hp
        · simp [Tree.layAll_append, Tree.layAll]
        · simp [ids, Tree.places_append, Tree.places, Tree.rootOf, Piece.operand]

theorem Carried.laid {old : List Node} {os : List Operand} {ps : List Piece} {ns : List Node}
    (h : Carried old os ps ns) :
    ns = old ++ Tree.layAll old.length (ps.reverse.map Piece.tree) ∧ ∀ p ∈ ps, p.tree.Fits := by
  induction h with
  | nil => simp [Tree.layAll]
  | @cons os ps ns p _ fits ih =>
    obtain ⟨rfl, each⟩ := ih
    constructor
    · simp [Tree.layAll_append, Tree.layAll]
    · intro q hq
      rcases List.mem_cons.mp hq with rfl | hq
      · exact fits
      · exact each q hq

theorem Carried.laid_arena {old : List Node} {os : List Operand} {ps : List Piece} {a : Arena}
    (h : Carried old os ps a.nodes.toList) (within : a.Within old) : a.Laid old := by
  obtain ⟨nodes, each⟩ := h.laid
  refine ⟨within, ps.reverse.map Piece.tree, ?_, nodes⟩
  intro t ht
  obtain ⟨p, hp, rfl⟩ := List.mem_map.mp ht
  exact each p (List.mem_reverse.mp hp)

theorem Assembly.Carries.laid {old : List Node} {w : Assembly} {ps : List Piece}
    (h : w.Carries old ps) : w.arena.Laid old := h.2.laid_arena h.1

theorem Carried.length {old : List Node} {os : List Operand} {ps : List Piece} {ns : List Node}
    (h : Carried old os ps ns) : os.length = ps.length := by
  induction h with
  | nil => rfl
  | cons _ _ ih => simp [ih]

theorem attachAll_push (a : Arena) (ns : Array Node) (n : Node) (ids : List NodeId) :
    Arena.attachAll { a with nodes := ns.push n } ⟨ns.size⟩ ids =
      { a with nodes := ns.push { n with payload := ids.foldl Payload.attach n.payload } } := by
  induction ids generalizing n with
  | nil => rfl
  | cons id rest ih =>
    have step : Arena.attach { a with nodes := ns.push n } ⟨ns.size⟩ id =
        { a with nodes := ns.push (n.attach id) } := by
      simp only [Arena.attach, Arena.mk.injEq, and_true]
      apply Array.toList_inj.mp
      rw [Array.toList_modify, Array.toList_push, Array.toList_push]
      exact modify_behind _ ns.toList n []
    calc Arena.attachAll { a with nodes := ns.push n } ⟨ns.size⟩ (id :: rest)
        = Arena.attachAll (Arena.attach { a with nodes := ns.push n } ⟨ns.size⟩ id) ⟨ns.size⟩ rest := rfl
      _ = { a with nodes := ns.push { n with
            payload := (id :: rest).foldl Payload.attach n.payload } } := by
        rw [step, ih]
        rfl

theorem createWith?_eq (a : Arena) (tag : NodeTag) (token : Option Token) (ids : List NodeId) :
    a.createWith? tag token ids =
      if a.size < a.limit then
        some (⟨a.size⟩, { a with nodes := a.nodes.push ⟨tag, token, .fill tag.shape ids⟩ })
      else none := by
  unfold Arena.createWith? Arena.create?
  split
  · simp only [Option.map_some, Arena.size, attachAll_push]
    rfl
  · rfl

namespace Assembly

variable {old : List Node}

theorem Carries.push {w : Assembly} {ps : List Piece} (h : w.Carries old ps) (tag : NodeTag)
    (token : Option Token) :
    (w.push tag token).operators = ⟨tag, token, ps.length⟩ :: w.operators := by
  rw [Assembly.push, h.2.length]

def Makes (tag : NodeTag) (n : Nat) : Prop :=
  tag.Admits n ∧ (tag.grows = true → n = 2)

theorem lay_made {tag : NodeTag} {kids : List Tree} (made : Makes tag kids.length)
    (token : Option Token) (k : Nat) :
    Tree.lay k (.node tag token kids) = Tree.layAll k kids ++
        [⟨tag, token, .fill tag.shape ((Tree.places k kids).map Tree.rootOf)⟩] ∧
      Tree.root k (.node tag token kids) = ⟨k + Tree.sizes kids⟩ := by
  have all : Tree.early tag kids = kids.length := by
    unfold Tree.early
    split
    · exact (made.2 ‹_›).symm
    · rfl
  constructor
  · simp [Tree.lay_node, Tree.top, Tree.seats, all, Tree.layAll, Tree.places]
  · simp [Tree.root, all]

theorem build_yields {w : Assembly} {os cs : List Operand} {qs ps : List Piece} {tag : NodeTag}
    (within : w.arena.Within old) (carried : Carried old os (qs ++ ps) w.arena.nodes.toList)
    (popped : os = cs.reverse ++ w.operands) (same : cs.length = qs.length)
    (made : Makes tag qs.length) (token : Option Token) :
    Yields old Spared (w.build tag token cs) fun w' =>
      w'.Carries old (.ofNode tag token (qs.reverse.map Piece.tree) :: ps) ∧
        w'.operators = w.operators := by
  have whole : w.arena.Laid old := carried.laid_arena within
  subst popped
  obtain ⟨ns, base, each, nodes, ids⟩ := carried.split (by simpa using same)
  rw [List.reverse_reverse] at ids
  unfold build
  rw [createWith?_eq]
  by_cases room : w.arena.size < w.arena.limit
  · simp only [room, ↓reduceIte, Yields]
    have made' : Makes tag (qs.reverse.map Piece.tree).length := by simpa using made
    obtain ⟨lay, root⟩ := lay_made made' token ns.length
    have fits : (Piece.ofNode tag token (qs.reverse.map Piece.tree)).tree.Fits := by
      refine .node made'.1 (fun hg => Nat.le_of_eq (made'.2 hg).symm) ?_
      intro t ht
      obtain ⟨p, hp, rfl⟩ := List.mem_map.mp ht
      exact each p (List.mem_reverse.mp hp)
    have size : w.arena.size = ns.length + Tree.sizes (qs.reverse.map Piece.tree) := by
      rw [Arena.size, ← Array.length_toList, nodes]
      simp
    refine ⟨⟨?_, ?_⟩, trivial⟩
    · intro _
      simp only [Arena.size, Array.size_push]
      exact room
    · have top := Carried.cons base fits
      simp only [Piece.operand, Piece.ofNode, lay, root, ← size, ← ids] at top
      simpa [nodes, Piece.ofNode] using top
  · simp only [room, ↓reduceIte, Yields]
    exact ⟨rfl, whole⟩

theorem modify_inside {α : Type} (f : α → α) (xs ys zs : List α) (i : Nat) (lo : xs.length ≤ i)
    (hi : i < xs.length + ys.length) :
    (xs ++ ys ++ zs).modify i f = xs ++ ys.modify (i - xs.length) f ++ zs := by
  obtain ⟨j, rfl⟩ := Nat.exists_eq_add_of_le lo
  have inside : j < ys.length := by omega
  obtain ⟨front, y, back, rfl, hj, _⟩ := List.exists_of_modify f inside
  subst hj
  have left := modify_behind f (xs ++ front) y (back ++ zs)
  have right := modify_behind f front y back
  simp only [List.length_append, List.append_assoc, List.cons_append] at left right ⊢
  rw [Nat.add_sub_cancel_left, left, right]
  simp

theorem buildPair_yields {w : Assembly} {left right : Operand} {p q : Piece} {os : List Operand}
    {ps : List Piece} {tag : NodeTag} (carries : w.Carries old (q :: p :: ps))
    (operands : w.operands = right :: left :: os) (made : Makes tag 2) (token : Option Token) :
    Yields old Spared ({ w with operands := os }.build tag token [left, right]) fun w' =>
      w'.Carries old (.ofNode tag token [p.tree, q.tree] :: ps) ∧ w'.operators = w.operators := by
  have carried : Carried old w.operands ([q, p] ++ ps) w.arena.nodes.toList := carries.2
  refine build_yields (w := { w with operands := os }) carries.1 carried ?_ rfl made token
  rw [operands]
  rfl

/-- An enumeration takes one more element. Its own node stays where it is, so that nodes made after
it lie behind it, and the new element behind those. -/
theorem attach_yields {w : Assembly} {left right : Piece} {ps : List Piece} {os : List Operand}
    {ns : List Node} (within : w.arena.Within old)
    (nodes : w.arena.nodes.toList = ns ++ left.tree.lay ns.length ++
      right.tree.lay (ns ++ left.tree.lay ns.length).length)
    (below : Carried old os ps ns) (fits : left.tree.Fits) (fits' : right.tree.Fits)
    (grows : left.tree.tag.grows = true) :
    Carries old { w with
      arena := w.arena.attach (left.tree.root ns.length)
        (right.tree.root (ns ++ left.tree.lay ns.length).length)
      operands := { node := left.tree.root ns.length } :: os }
      (⟨left.tree.extend right.tree, false⟩ :: ps) := by
  constructor
  · simpa [Arena.Within, Arena.attach, Arena.size] using within
  · have bounds := left.tree.root_bounds ns.length
    have top := Carried.cons (p := ⟨left.tree.extend right.tree, false⟩) below
      (fits.extend fits' grows)
    have modified : (w.arena.attach (left.tree.root ns.length)
        (right.tree.root (ns ++ left.tree.lay ns.length).length)).nodes.toList =
        ns ++ (left.tree.extend right.tree).lay ns.length := by
      rw [Arena.attach, Array.toList_modify, nodes, Tree.lay_extend _ _ fits grows,
        modify_inside _ _ _ _ _ bounds.1 (by simpa using bounds.2)]
      simp
    rw [modified]
    simpa [Piece.operand, Tree.root_extend right.tree ns.length fits grows] using top

theorem apply_yields {w : Assembly} {op : Pending} {ps ps' : List Piece}
    (carries : w.Carries old ps) (plain : op.tag.isMarker = false)
    (fold : op.fold? ps = some ps') (near : Token) :
    Yields old Spared (w.apply op near) fun w' =>
      w'.Carries old ps' ∧ w'.operators = w.operators := by
  cases ps with
  | nil => cases fold
  | cons right ps =>
    obtain ⟨os, ns, operands, nodes, below, fitsRight⟩ := carries.2.uncons
    unfold apply
    cases shape : op.tag.shape with
    | void => cases ps <;> simp [Pending.fold?, shape] at fold
    | single =>
      obtain rfl : _ = ps' := by simpa [Pending.fold?, shape] using fold
      have made : Makes op.tag [right].length :=
        ⟨by simp [NodeTag.Admits, shape], by simp [NodeTag.grows_eq, shape]⟩
      have carried : Carried old w.operands ([right] ++ ps) w.arena.nodes.toList := carries.2
      simp only [operands]
      refine build_yields (w := { w with operands := os }) carries.1 carried ?_ rfl made op.token
      simp [operands]
    | pair =>
      cases ps with
      | nil => simp [Pending.fold?, shape] at fold
      | cons left ps =>
        obtain ⟨os, ns, rfl, rfl, bottom, fitsLeft⟩ := below.uncons
        have grows : op.tag.grows = false := by simp [NodeTag.grows_eq, shape]
        obtain rfl : _ = ps' := by simpa [Pending.fold?, shape, Piece.join, grows] using fold
        have made : Makes op.tag 2 := ⟨by simp [NodeTag.Admits, shape], by simp [grows]⟩
        simp only [operands]
        exact buildPair_yields carries operands made op.token
    | list =>
      cases ps with
      | nil => simp [Pending.fold?, shape] at fold
      | cons left ps =>
        obtain ⟨os, ns, rfl, rfl, bottom, fitsLeft⟩ := below.uncons
        have grows : op.tag.grows = true := by simp [NodeTag.grows_eq, shape, plain]
        have tag : w.arena.tag? (left.tree.root ns.length) = some left.tree.tag := by
          rw [Arena.tag?, Tree.get?_root nodes, Option.map_some, Tree.tag_top]
        obtain rfl : _ = ps' := by simpa [Pending.fold?, shape] using fold
        simp only [operands, Piece.operand, tag, Option.some_beq_some, Piece.join, grows,
          Bool.true_and]
        -- The same test decides here and in the grammar whether the enumeration grows in place.
        split
        · rename_i same
          simp only [Bool.and_eq_true, beq_iff_eq] at same
          rw [← same.2] at grows
          exact ⟨attach_yields carries.1 nodes bottom fitsLeft fitsRight grows, rfl⟩
        · have made : Makes op.tag 2 := ⟨by simp [NodeTag.Admits, shape], by simp⟩
          exact buildPair_yields carries operands made op.token

/-- Applying the operators on top, one after the other, folds the pieces. -/
theorem reduceTimes_yields {w : Assembly} {ops rest : List Pending} {ps ps' : List Piece}
    (carries : w.Carries old ps) (stack : w.operators = ops ++ rest)
    (plain : ∀ op ∈ ops, op.tag.isMarker = false) (fold : foldAll? ops ps = some ps')
    (near : Token) :
    Yields old Spared (reduceTimes near ops.length w) fun w' =>
      w'.Carries old ps' ∧ w'.operators = rest := by
  induction ops generalizing w ps with
  | nil =>
    obtain rfl := Option.some.inj fold
    exact ⟨carries, stack⟩
  | cons op ops ih =>
    obtain ⟨qs, first, fold⟩ := Option.bind_eq_some_iff.mp fold
    have reduced : Yields old Spared (w.reduce near) fun w' =>
        w'.Carries old qs ∧ w'.operators = ops ++ rest := by
      have noted : Carries old (({ w with operators := ops ++ rest }).note
          (.reduced op.tag w.operands.length)) ps := carries
      simp only [reduce, stack, List.cons_append]
      exact apply_yields noted (plain op (by simp)) first near
    refine reduced.bind ?_
    intro w' h
    exact ih h.1 h.2 (fun o ho => plain o (by simp [ho])) fold

theorem takeScope_top {w : Assembly} {rest : List Pending} {tag : NodeTag} {token : Option Token}
    {n : Nat} (stack : w.operators = ⟨tag, token, n⟩ :: rest) (low : n ≤ w.operands.length)
    (near : Token) :
    w.takeScope tag near = .ok (⟨tag, token, n⟩,
      (w.operands.take (w.operands.length - n)).reverse,
      { w with operators := rest, operands := w.operands.drop (w.operands.length - n) }) := by
  simp [takeScope, stack, low]

theorem takeScope_eq {w : Assembly} {rest : List Pending} {qs ps : List Piece} {tag : NodeTag}
    {token : Option Token} (carries : w.Carries old (qs ++ ps))
    (stack : w.operators = ⟨tag, token, ps.length⟩ :: rest) (near : Token) :
    ∃ inner os, w.takeScope tag near =
        .ok (⟨tag, token, ps.length⟩, inner, { w with operators := rest, operands := os }) ∧
      w.operands = inner.reverse ++ os ∧ inner.length = qs.length := by
  have length : w.operands.length = qs.length + ps.length := by
    simpa using carries.2.length
  have taken := takeScope_top stack (by omega) near
  rw [length, Nat.add_sub_cancel] at taken
  refine ⟨_, _, taken, by simp, ?_⟩
  rw [List.length_reverse, List.length_take]
  omega

theorem takeScope_group {w : Assembly} {rest : List Pending} {p : Piece} {ps : List Piece}
    {tag : NodeTag} {token : Option Token} (carries : w.Carries old (p :: ps))
    (stack : w.operators = ⟨tag, token, ps.length⟩ :: rest) (near : Token) :
    ∃ o w', w.takeScope tag near = .ok (⟨tag, token, ps.length⟩, [o], w') ∧
      w'.operators = rest ∧
      Carries old { w' with operands := { o with grouped := true } :: w'.operands }
        (⟨p.tree, true⟩ :: ps) := by
  have single : w.Carries old ([p] ++ ps) := carries
  obtain ⟨inner, os, taken, operands, one⟩ := takeScope_eq single stack near
  obtain ⟨o, rfl⟩ := List.length_eq_one_iff.mp one
  obtain ⟨os', ns, operands', nodes, below, fits⟩ := carries.2.uncons
  have both : o = p.operand ns.length ∧ os = os' := by
    rw [operands'] at operands
    simpa [eq_comm] using operands
  obtain ⟨rfl, rfl⟩ := both
  refine ⟨_, _, taken, rfl, carries.1, ?_⟩
  have top := Carried.cons (p := ⟨p.tree, true⟩) below fits
  simpa [nodes, Piece.operand] using top

theorem wrap_yields {w : Assembly} {rest : List Pending} {p : Piece} {ps : List Piece}
    {marker tag : NodeTag} {token : Option Token} (carries : w.Carries old (p :: ps))
    (stack : w.operators = ⟨marker, token, ps.length⟩ :: rest) (shape : tag.shape = .single)
    (near : Token) :
    Yields old Spared (w.wrap marker tag near) fun w' =>
      w'.Carries old (.ofNode tag none [p.tree] :: ps) ∧ w'.operators = rest := by
  have carries : w.Carries old ([p] ++ ps) := carries
  obtain ⟨inner, os, taken, operands, one⟩ := takeScope_eq carries stack near
  obtain ⟨o, rfl⟩ := List.length_eq_one_iff.mp one
  have made : Makes tag [p].length :=
    ⟨by simp [NodeTag.Admits, shape], by simp [NodeTag.grows_eq, shape]⟩
  simp only [wrap, taken, bind, Except.bind]
  exact build_yields (w := { w with operators := rest, operands := os }) carries.1 carries.2
    operands one made none

theorem complete_yields {w : Assembly} {rest : List Pending} {qs ps : List Piece}
    {marker : NodeTag} {token : Option Token} (carries : w.Carries old (qs ++ ps))
    (stack : w.operators = ⟨marker, token, ps.length⟩ :: rest) (shape : marker.shape = .list)
    (mark : marker.isMarker = true) (near : Token) :
    Yields old Spared (w.complete marker near) fun w' =>
      w'.Carries old (.ofNode marker token (qs.reverse.map Piece.tree) :: ps) ∧
        w'.operators = rest := by
  obtain ⟨inner, os, taken, operands, same⟩ := takeScope_eq carries stack near
  have made : Makes marker qs.length :=
    ⟨by simp [NodeTag.Admits, shape], by simp [NodeTag.grows_eq, mark]⟩
  simp only [complete, taken, bind, Except.bind]
  exact build_yields (w := { w with operators := rest, operands := os }) carries.1 carries.2
    operands same made token

theorem build_leaf {w : Assembly} {ps : List Piece} {tag : NodeTag} (carries : w.Carries old ps)
    (made : Makes tag 0) (token : Option Token) :
    Yields old Spared (w.build tag token []) fun w' =>
      w'.Carries old (.ofNode tag token [] :: ps) ∧ w'.operators = w.operators := by
  have carried : Carried old w.operands ([] ++ ps) w.arena.nodes.toList := carries.2
  exact build_yields carries.1 carried rfl rfl made token

end Assembly
end Offside
