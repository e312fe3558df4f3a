import Mathlib.Data.List.Forall2
import Mathlib.Data.Option.Defs
import Offside.Proofs.Forest
import Offside.Proofs.Growth

/-! Two parses side by side. The tokens of one correspond to those of the other, and so do the nodes
made from them, whatever the two arenas held before. The right arena may have less room than the left
one; when it is full, the left parse needs more than the right one has. -/
namespace Offside

/-- How two parses go together, the left one and the right one. -/
structure Lockstep where
  alike : Token → Token → Prop
  kept : Token → Token → Prop
  ahead : Scanner → Scanner → Prop
  grids : Grid → Grid → Prop
  left : Arena
  right : Arena
  narrow : right.room ≤ left.room
  tag_eq : ∀ {t t'}, alike t t' → t.tag = t'.tag
  keeps : ∀ {t t'}, alike t t' → t.tag ≠ .indent → t.tag ≠ .invalid → kept t t'
  /-- Behind a token that is invalid, nothing is read. -/
  next : ∀ {s s'}, ahead s s' →
    alike s.next.1 s'.next.1 ∧ (s.next.1.tag ≠ .invalid → ahead s.next.2 s'.next.2)
  level_eq : ∀ {g g'}, grids g g' → g.level = g'.level
  atLevel : ∀ {g g'} (level : Nat), grids g g' → grids { g with level } { g' with level }
  measure : ∀ {g g' t t'}, grids g g' → alike t t' → t.tag = .indent →
    (∃ level h h', g.measure t = .ok (level, h) ∧ g'.measure t' = .ok (level, h') ∧ grids h h') ∨
      (g.measure t = .error (.unalignedIndent t) ∧ g'.measure t' = .error (.unalignedIndent t'))

theorem eq_map_of_forall₂ {α β : Type} {R : α → β → Prop} {f : α → β} {xs : List α} {ys : List β}
    (h : List.Forall₂ R xs ys) (each : ∀ x y, R x y → y = f x) : ys = xs.map f := by
  induction h with
  | nil => rfl
  | cons first _ ih => rw [List.map_cons, ← each _ _ first, ih]

def Payload.map (f : NodeId → NodeId) : Payload → Payload
  | void => void
  | single child => single (f child)
  | pair first second => pair (f first) (f second)
  | list children => list (children.map f)

theorem Arena.size_attach (a : Arena) (parent child : NodeId) :
    (a.attach parent child).size = a.size := by
  simp [Arena.size, Arena.attach]

namespace Lockstep

variable (L : Lockstep)

def Ids (id id' : NodeId) : Prop :=
  id.isSet = true ∧ id'.isSet = true ∧
    ∃ i, id.index = L.left.size + i ∧ id'.index = L.right.size + i

def Slots (id id' : NodeId) : Prop := (id = .unset ∧ id' = .unset) ∨ L.Ids id id'

inductive Payloads : Payload → Payload → Prop where
  | void : Payloads .void .void
  | single {x x' : NodeId} : L.Slots x x' → Payloads (.single x) (.single x')
  | pair {x x' y y' : NodeId} : L.Slots x x' → L.Slots y y' → Payloads (.pair x y) (.pair x' y')
  | list {xs xs' : List NodeId} : List.Forall₂ L.Ids xs xs' → Payloads (.list xs) (.list xs')

structure Nodes (n n' : Node) : Prop where
  tag : n.tag = n'.tag
  token : Option.Rel L.kept n.token n'.token
  payload : L.Payloads n.payload n'.payload

/- What both sides have added to their arenas. -/
structure Arenas (b b' : Arena) : Prop where
  limit : b.limit = L.left.limit
  limit' : b'.limit = L.right.limit
  nodes : ∃ ns ns', b.nodes.toList = L.left.nodes.toList ++ ns ∧
    b'.nodes.toList = L.right.nodes.toList ++ ns' ∧ List.Forall₂ L.Nodes ns ns' ∧
    ns.length ≤ L.right.room

/- The left side has more new nodes than the right side has room for. -/
def Over (b : Arena) : Prop := L.left.size + L.right.room < b.size

def Spent (b' : Arena) : Prop :=
  ∃ ns, b'.nodes.toList = L.right.nodes.toList ++ ns ∧ ns.length = L.right.room

structure Operands (size : Nat) (o o' : Operand) : Prop where
  node : L.Ids o.node o'.node
  inside : o.node.index < size
  grouped : o.grouped = o'.grouped

structure Waiting (op op' : Pending) : Prop where
  tag : op.tag = op'.tag
  token : Option.Rel L.kept op.token op'.token
  base : op.base = op'.base

structure Works (w w' : Assembly) : Prop where
  arena : L.Arenas w.arena w'.arena
  operands : List.Forall₂ (L.Operands w.arena.size) w.operands w'.operands
  operators : List.Forall₂ L.Waiting w.operators w'.operators

structure Scopes (r r' : Pending × List Operand × Assembly) : Prop where
  top : L.Waiting r.1 r'.1
  inner : List.Forall₂ (L.Operands r.2.2.arena.size) r.2.1 r'.2.1
  work : L.Works r.2.2 r'.2.2

inductive Errors : ParseError → ParseError → Prop where
  | unaligned {t t' : Token} : L.alike t t' → Errors (.unalignedIndent t) (.unalignedIndent t')
  | unexpected {t t' : Token} : L.alike t t' → Errors (.unexpectedToken t) (.unexpectedToken t')
  | unmatched {t t' : Token} : L.alike t t' → Errors (.unmatchedBracket t) (.unmatchedBracket t')
  | full : Errors .outOfMemory .outOfMemory

/- Both attempts come to the same, unless the right side runs out of room before the left one. -/
inductive Attempts {α β : Type} (arena : α → Arena) (R : α → β → Prop) :
    Attempt α → Attempt β → Prop where
  | ok {x : α} {y : β} : R x y → Attempts arena R (.ok x) (.ok y)
  | error {f g : Fault} : L.Errors f.error g.error → L.Arenas f.work.arena g.work.arena →
      Attempts arena R (.error f) (.error g)
  | short {r : Attempt α} {g : Fault} : Keeps L.Over arena r → g.error = .outOfMemory →
      L.Spent g.work.arena → Attempts arena R r (.error g)

variable {L : Lockstep}

theorem over_stable : Arena.Stable L.Over where
  made := by
    intro a b id tag token ids made h
    rw [createWith?_eq] at made
    split at made
    · cases made
      simp only [Over, Arena.size, Array.size_push] at h ⊢
      omega
    · cases made
  attached := by
    intro a parent child h
    simpa [Over, Arena.size_attach] using h

section Attempts

variable {α β γ δ : Type} {arena : α → Arena} {arena' : γ → Arena} {R : α → β → Prop}
  {S : γ → δ → Prop}

theorem Attempts.bind {r : Attempt α} {r' : Attempt β} {f : α → Attempt γ} {f' : β → Attempt δ}
    (h : L.Attempts arena R r r') (next : ∀ x y, R x y → L.Attempts arena' S (f x) (f' y))
    (goes : ∀ x, L.Over (arena x) → Keeps L.Over arena' (f x)) :
    L.Attempts arena' S (r >>= f) (r' >>= f') := by
  cases h with
  | ok both => exact next _ _ both
  | error errors arenas => exact .error errors arenas
  | short past full spent => exact .short (past.bind goes) full spent

end Attempts

section Arenas

variable {b b' : Arena}

theorem Slots.isSet_eq {x x' : NodeId} (h : L.Slots x x') : x.isSet = x'.isSet := by
  rcases h with ⟨rfl, rfl⟩ | ⟨set, set', -⟩
  · rfl
  · rw [set, set']

theorem Payloads.attach {p p' : Payload} {x x' : NodeId} (h : L.Payloads p p') (child : L.Ids x x') :
    L.Payloads (p.attach x) (p'.attach x') := by
  cases h with
  | void => exact .void
  | single => exact .single (.inr child)
  | pair first second =>
    simp only [Payload.attach, first.isSet_eq, second.isSet_eq]
    split
    · exact .pair (.inr child) second
    · split
      · exact .pair first (.inr child)
      · exact .pair first second
  | list ids => exact .list (List.rel_append ids (.cons child .nil))

theorem Payloads.eq_map {p p' : Payload} {f : NodeId → NodeId} (h : L.Payloads p p')
    (unset : f .unset = .unset) (ids : ∀ x x', L.Ids x x' → x' = f x) : p' = p.map f := by
  have slots : ∀ {x x'}, L.Slots x x' → x' = f x := by
    rintro x x' (⟨rfl, rfl⟩ | same)
    · exact unset.symm
    · exact ids x x' same
  cases h with
  | void => rfl
  | single slot => rw [slots slot]; rfl
  | pair first second => rw [slots first, slots second]; rfl
  | list each => rw [eq_map_of_forall₂ each ids]; rfl

theorem payloads_empty (shape : Shape) : L.Payloads (.empty shape) (.empty shape) := by
  cases shape with
  | void => exact .void
  | single => exact .single (.inl ⟨rfl, rfl⟩)
  | pair => exact .pair (.inl ⟨rfl, rfl⟩) (.inl ⟨rfl, rfl⟩)
  | list => exact .list .nil

theorem payloads_fill (shape : Shape) {ids ids' : List NodeId} (h : List.Forall₂ L.Ids ids ids') :
    L.Payloads (.fill shape ids) (.fill shape ids') := by
  suffices ∀ p p', L.Payloads p p' →
      L.Payloads (ids.foldl Payload.attach p) (ids'.foldl Payload.attach p') from
    this _ _ (payloads_empty shape)
  induction h with
  | nil => exact fun _ _ h => h
  | cons child _ ih => exact fun _ _ h => ih _ _ (h.attach child)

theorem Arenas.size_eq (h : L.Arenas b b') :
    ∃ n, b.size = L.left.size + n ∧ b'.size = L.right.size + n ∧ n ≤ L.right.room := by
  obtain ⟨ns, ns', left, right, each, room⟩ := h.nodes
  refine ⟨ns.length, ?_, ?_, room⟩
  · simpa [Arena.size] using congrArg List.length left
  · simpa [Arena.size, each.length_eq] using congrArg List.length right

theorem arenas_refl (L : Lockstep) : L.Arenas L.left L.right :=
  ⟨rfl, rfl, [], [], by simp, by simp, .nil, Nat.zero_le _⟩

theorem Arenas.push (h : L.Arenas b b') {n n' : Node} (same : L.Nodes n n')
    (more : b'.size < b'.limit) :
    L.Arenas { b with nodes := b.nodes.push n } { b' with nodes := b'.nodes.push n' } := by
  obtain ⟨ns, ns', left, right, each, -⟩ := h.nodes
  have length := congrArg List.length right
  simp only [Array.length_toList, List.length_append] at length
  refine ⟨h.limit, h.limit', ns ++ [n], ns' ++ [n'], ?_, ?_, ?_, ?_⟩
  · rw [Array.toList_push, left, List.append_assoc]
  · rw [Array.toList_push, right, List.append_assoc]
  · exact List.rel_append each (.cons same .nil)
  · have limit := h.limit'
    simp only [List.length_append, List.length_singleton, each.length_eq, Arena.room, Arena.size] at *
    omega

/- The right side makes a node, or it is full and the left side goes on or fails as well. -/
theorem Arenas.create (h : L.Arenas b b') (tag : NodeTag) {token token' : Option Token}
    (kept : Option.Rel L.kept token token') {ids ids' : List NodeId}
    (children : List.Forall₂ L.Ids ids ids') :
    (∃ id id' c c', b.createWith? tag token ids = some (id, c) ∧
      b'.createWith? tag token' ids' = some (id', c') ∧ L.Arenas c c' ∧ L.Ids id id' ∧
      id.index < c.size ∧ b.size ≤ c.size) ∨
    (b'.createWith? tag token' ids' = none ∧ L.Spent b' ∧
      (b.createWith? tag token ids = none ∨
        ∃ id c, b.createWith? tag token ids = some (id, c) ∧ L.Over c)) := by
  obtain ⟨n, size, size', room⟩ := h.size_eq
  have narrow := L.narrow
  have bounded := L.left.bounded
  have bounded' := L.right.bounded
  have limit := h.limit
  have limit' := h.limit'
  unfold Arena.room at narrow room
  rw [createWith?_eq, createWith?_eq]
  by_cases more : b'.size < b'.limit
  · have wide : b.size < b.limit := by omega
    refine .inl ⟨_, _, _, _, if_pos wide, if_pos more, ?_, ?_, ?_, ?_⟩
    · exact h.push ⟨rfl, kept, payloads_fill _ children⟩ more
    · refine ⟨Tree.isSet_of_lt ?_, Tree.isSet_of_lt ?_, n, size, size'⟩
      · show b.size < _
        omega
      · show b'.size < _
        omega
    · simp [Arena.size]
    · simp [Arena.size]
  · obtain ⟨ns, ns', -, right, each, -⟩ := h.nodes
    have length : b'.size = L.right.size + ns'.length := by
      simpa [Arena.size] using congrArg List.length right
    refine .inr ⟨if_neg more, ⟨ns', right, ?_⟩, ?_⟩
    · unfold Arena.room
      omega
    · by_cases wide : b.size < b.limit
      · refine .inr ⟨_, _, if_pos wide, ?_⟩
        show L.left.size + (L.right.limit - L.right.size) < (b.nodes.push _).size
        rw [Array.size_push, ← Arena.size]
        omega
      · exact .inl (if_neg wide)

theorem forall₂_modify {α β : Type} {R : α → β → Prop} {f : α → α} {g : β → β} {xs : List α}
    {ys : List β} (h : List.Forall₂ R xs ys) (step : ∀ x y, R x y → R (f x) (g y)) (i : Nat) :
    List.Forall₂ R (xs.modify i f) (ys.modify i g) := by
  induction h generalizing i with
  | nil => cases i <;> exact .nil
  | cons first rest ih =>
    cases i with
    | zero => exact .cons (step _ _ first) rest
    | succ i => exact .cons first (ih i)

theorem Arenas.attach (h : L.Arenas b b') {parent parent' child child' : NodeId}
    (parents : L.Ids parent parent') (children : L.Ids child child')
    (inside : parent.index < b.size) :
    L.Arenas (b.attach parent child) (b'.attach parent' child') := by
  obtain ⟨ns, ns', left, right, each, room⟩ := h.nodes
  obtain ⟨-, -, i, index, index'⟩ := parents
  have within : i < ns.length := by
    have := congrArg List.length left
    simp only [Array.length_toList, List.length_append, Arena.size] at this inside index
    omega
  refine ⟨h.limit, h.limit', ns.modify i (·.attach child), ns'.modify i (·.attach child'),
    ?_, ?_, ?_, ?_⟩
  · rw [Arena.attach, Array.toList_modify, left, index, Arena.size, ← Array.length_toList]
    simpa using Assembly.modify_inside (·.attach child) L.left.nodes.toList ns [] _ (Nat.le_add_right _ i)
      (by omega)
  · rw [Arena.attach, Array.toList_modify, right, index', Arena.size, ← Array.length_toList]
    simpa using Assembly.modify_inside (·.attach child') L.right.nodes.toList ns' [] _ (Nat.le_add_right _ i)
      (by rw [← each.length_eq]; omega)
  · refine forall₂_modify each ?_ i
    intro n n' same
    exact ⟨same.tag, same.token, same.payload.attach children⟩
  · rwa [List.length_modify]

theorem Arenas.tag?_eq (h : L.Arenas b b') {id id' : NodeId} (ids : L.Ids id id')
    (inside : id.index < b.size) : b.tag? id = b'.tag? id' := by
  obtain ⟨ns, ns', left, right, each, -⟩ := h.nodes
  obtain ⟨-, -, i, index, index'⟩ := ids
  have within : i < ns.length := by
    have := congrArg List.length left
    simp only [Array.length_toList, List.length_append, Arena.size] at this inside index
    omega
  have within' : i < ns'.length := each.length_eq ▸ within
  have here : b.get? id = some (ns.get ⟨i, within⟩) := by
    rw [Arena.get?, ← Array.getElem?_toList, left, index, Arena.size, ← Array.length_toList,
      List.getElem?_append_right (Nat.le_add_right _ _), Nat.add_sub_cancel_left]
    exact List.getElem?_eq_getElem within
  have there : b'.get? id' = some (ns'.get ⟨i, within'⟩) := by
    rw [Arena.get?, ← Array.getElem?_toList, right, index', Arena.size, ← Array.length_toList,
      List.getElem?_append_right (Nat.le_add_right _ _), Nat.add_sub_cancel_left]
    exact List.getElem?_eq_getElem within'
  rw [Arena.tag?, Arena.tag?, here, there]
  exact congrArg some (each.get within within').tag

end Arenas

section Works

variable {w w' : Assembly} {t t' : Token}

theorem Operands.mono {size more : Nat} {o o' : Operand} (h : L.Operands size o o')
    (le : size ≤ more) : L.Operands more o o' :=
  ⟨h.node, Nat.lt_of_lt_of_le h.inside le, h.grouped⟩

theorem Operands.group {size : Nat} {o o' : Operand} (h : L.Operands size o o') :
    L.Operands size { o with grouped := true } { o' with grouped := true } :=
  ⟨h.node, h.inside, rfl⟩

theorem attempts_fail {α β : Type} {arena : α → Arena} {R : α → β → Prop} {e e' : ParseError}
    (h : L.Works w w') (errors : L.Errors e e') : L.Attempts arena R (w.fail e) (w'.fail e') :=
  .error errors h.arena

theorem Works.withOperands (h : L.Works w w') {os os' : List Operand}
    (each : List.Forall₂ (L.Operands w.arena.size) os os') :
    L.Works { w with operands := os } { w' with operands := os' } :=
  ⟨h.arena, each, h.operators⟩

theorem Works.withOperators (h : L.Works w w') {ops ops' : List Pending}
    (each : List.Forall₂ L.Waiting ops ops') :
    L.Works { w with operators := ops } { w' with operators := ops' } :=
  ⟨h.arena, h.operands, each⟩

theorem Works.note (h : L.Works w w') (e e' : Event) : L.Works (w.note e) (w'.note e') :=
  ⟨h.arena, h.operands, h.operators⟩

theorem Works.push (h : L.Works w w') (tag : NodeTag) {token token' : Option Token}
    (kept : Option.Rel L.kept token token') : L.Works (w.push tag token) (w'.push tag token') :=
  h.withOperators (.cons ⟨rfl, kept, h.operands.length_eq⟩ h.operators)

theorem Works.build (h : L.Works w w') (tag : NodeTag) {token token' : Option Token}
    (kept : Option.Rel L.kept token token') {os os' : List Operand}
    (each : List.Forall₂ (L.Operands w.arena.size) os os') :
    L.Attempts Assembly.arena L.Works (w.build tag token os) (w'.build tag token' os') := by
  have children : List.Forall₂ L.Ids (os.map Operand.node) (os'.map Operand.node) :=
    List.forall₂_map_left_iff.mpr (List.forall₂_map_right_iff.mpr (each.imp fun _ _ o => o.node))
  unfold Assembly.build
  rcases h.arena.create tag kept children with ⟨id, id', c, c', left, right, arenas, ids, inside, le⟩ |
    ⟨right, spent, left | ⟨id, c, left, past⟩⟩
  · simp only [left, right]
    refine .ok ⟨arenas, .cons ⟨ids, inside, rfl⟩ ?_, h.operators⟩
    exact h.operands.imp fun _ _ o => o.mono le
  · simp only [left, right]
    exact attempts_fail h .full
  · simp only [left, right]
    exact .short past rfl spent

theorem Works.apply (h : L.Works w w') {op op' : Pending} (same : L.Waiting op op')
    (near : L.alike t t') :
    L.Attempts Assembly.arena L.Works (w.apply op t) (w'.apply op' t') := by
  have fails : ∀ {w w'}, L.Works w w' → L.Attempts Assembly.arena L.Works
      (w.fail (.unexpectedToken t)) (w'.fail (.unexpectedToken t')) :=
    fun h => attempts_fail h (.unexpected near)
  obtain ⟨arena, os, ops, log⟩ := w
  obtain ⟨arena', os', ops', log'⟩ := w'
  unfold Assembly.apply
  rw [← same.tag]
  dsimp only
  obtain - | ⟨right, rest⟩ := h.operands
  · cases op.tag.shape <;> exact fails h
  obtain - | ⟨left, rest⟩ := rest
  · cases op.tag.shape with
    | single => exact (h.withOperands .nil).build _ same.token (.cons right .nil)
    | _ => exact fails h
  cases op.tag.shape with
  | void => exact fails h
  | single => exact (h.withOperands (.cons left rest)).build _ same.token (.cons right .nil)
  | pair => exact (h.withOperands rest).build _ same.token (.cons left (.cons right .nil))
  | list =>
    dsimp only
    rw [← left.grouped, ← h.arena.tag?_eq left.node left.inside]
    split
    -- The enumeration on the left takes the right operand in: no node is made.
    · refine .ok ⟨h.arena.attach left.node right.node left.inside, ?_, h.operators⟩
      rw [Arena.size_attach]
      exact .cons ⟨left.node, left.inside, rfl⟩ rest
    · exact (h.withOperands rest).build _ same.token (.cons left (.cons right .nil))

theorem Works.reduce (h : L.Works w w') (near : L.alike t t') :
    L.Attempts Assembly.arena L.Works (w.reduce t) (w'.reduce t') := by
  obtain ⟨arena, os, ops, log⟩ := w
  obtain ⟨arena', os', ops', log'⟩ := w'
  unfold Assembly.reduce
  obtain - | ⟨same, rest⟩ := h.operators
  · exact attempts_fail h (.unexpected near)
  · exact ((h.withOperators rest).note _ _).apply same near

theorem Works.reduceTimes (h : L.Works w w') (near : L.alike t t') (count : Nat) :
    L.Attempts Assembly.arena L.Works (Assembly.reduceTimes t count w)
      (Assembly.reduceTimes t' count w') := by
  induction count generalizing w w' with
  | zero => exact .ok h
  | succ count ih =>
    exact (h.reduce near).bind (fun _ _ h' => ih h') fun _ past =>
      Assembly.reduceTimes_keeps over_stable past count

theorem Works.reduceWhile (h : L.Works w w') (test : NodeTag → Bool) (near : L.alike t t') :
    L.Attempts Assembly.arena L.Works (w.reduceWhile test t) (w'.reduceWhile test t') := by
  have count : (w.operators.takeWhile fun op => test op.tag).length =
      (w'.operators.takeWhile fun op => test op.tag).length := by
    have each := h.operators
    generalize w.operators = ops, w'.operators = ops' at each
    induction each with
    | nil => rfl
    | cons same _ ih =>
      simp only [List.takeWhile_cons, same.tag]
      split
      · simp [ih]
      · rfl
  unfold Assembly.reduceWhile
  rw [← count]
  exact h.reduceTimes near _

theorem Works.binary (h : L.Works w w') (tag : NodeTag) {token token' : Option Token}
    (kept : Option.Rel L.kept token token') (near : L.alike t t') :
    L.Attempts Assembly.arena L.Works (w.binary tag token t) (w'.binary tag token' t') :=
  (h.reduceWhile _ near).bind (fun _ _ h' => .ok (h'.push tag kept)) fun _ past => past

theorem Works.settleScope (h : L.Works w w') (near : L.alike t t') :
    L.Attempts Assembly.arena L.Works (w.settleScope t) (w'.settleScope t') :=
  h.reduceWhile _ near

theorem Works.innermost?_eq (h : L.Works w w') : w.innermost? = w'.innermost? := by
  unfold Assembly.innermost?
  have each := h.operators
  generalize w.operators = ops, w'.operators = ops' at each
  induction each with
  | nil => rfl
  | cons same _ ih =>
    simp only [List.find?_cons, same.tag]
    split
    · simp [same.tag]
    · exact ih

theorem Works.takeScope (h : L.Works w w') (marker : NodeTag) (near : L.alike t t') :
    L.Attempts (fun r => r.2.2.arena) L.Scopes (w.takeScope marker t) (w'.takeScope marker t') := by
  obtain ⟨arena, os, ops, log⟩ := w
  obtain ⟨arena', os', ops', log'⟩ := w'
  unfold Assembly.takeScope
  have length := h.operands.length_eq
  obtain - | ⟨same, rest⟩ := h.operators
  · exact attempts_fail h (.unexpected near)
  · dsimp only at length ⊢
    rw [← same.tag, ← same.base, ← length]
    split
    · refine .ok ⟨same, ?_, ?_⟩
      · exact List.forall₂_reverse_iff.mpr (List.forall₂_take _ h.operands)
      · exact (h.withOperators rest).withOperands (List.forall₂_drop _ h.operands)
    · exact attempts_fail h (.unexpected near)

theorem Works.wrap (h : L.Works w w') (marker tag : NodeTag) (near : L.alike t t') :
    L.Attempts Assembly.arena L.Works (w.wrap marker tag t) (w'.wrap marker tag t') := by
  refine (h.takeScope marker near).bind ?_ ?_
  · rintro ⟨top, inner, v⟩ ⟨top', inner', v'⟩ ⟨-, each, h'⟩
    dsimp only at each h' ⊢
    obtain - | ⟨first, - | ⟨second, rest⟩⟩ := each
    · exact attempts_fail h' (.unexpected near)
    · exact h'.build tag .none (.cons first .nil)
    · exact attempts_fail h' (.unexpected near)
  · rintro ⟨top, inner, v⟩ past
    dsimp only
    split
    · exact Assembly.build_keeps over_stable past _ _ _
    · exact past

theorem Works.complete (h : L.Works w w') (marker : NodeTag) (near : L.alike t t') :
    L.Attempts Assembly.arena L.Works (w.complete marker t) (w'.complete marker t') := by
  refine (h.takeScope marker near).bind ?_ ?_
  · rintro ⟨top, inner, v⟩ ⟨top', inner', v'⟩ ⟨same, each, h'⟩
    exact h'.build marker same.token each
  · rintro ⟨top, inner, v⟩ past
    exact Assembly.build_keeps over_stable past _ _ _

end Works
end Lockstep
end Offside
