import Offside.Proofs.Capacity
import Offside.Proofs.Words

/-! Expressions are written with as few parentheses as the binding of their operators allows, and what
is written is read back. A term is derived from its words wherever it stands, so that the derivation
follows the expression; parentheses are what keeps an enumeration from growing into the next one. -/
namespace Offside

structure Leaf extends Word where
  node : NodeTag
  isLeaf : leafTag? tag = some node

inductive Pairing where
  | add
  | sub
  | concat
  | mul
  | div
  | pow

inductive Separator where
  | comma
  | bar

namespace Pairing

def tag : Pairing → NodeTag
  | add => .add
  | sub => .sub
  | concat => .concat
  | mul => .mul
  | div => .div
  | pow => .pow

def word : Pairing → Word
  | add => ⟨.plus, [Byte.plus], .symbol_of rfl⟩
  | sub => ⟨.minus, [Byte.minus], .symbol_of rfl⟩
  | concat => ⟨.plusPlus, [Byte.plus, Byte.plus], .plusPlus⟩
  | mul => ⟨.star, [0x2A], .symbol_of rfl⟩
  | div => ⟨.slash, [0x2F], .symbol_of rfl⟩
  | pow => ⟨.caret, [0x5E], .symbol_of rfl⟩

/-- An operand of the given strength needs no parentheses. Powers associate to the right, all other
pairs to the left. -/
def holdsLeft : Pairing → Nat → Bool
  | pow, strength => pow.tag.precedence < strength
  | op, strength => op.tag.precedence ≤ strength

def holdsRight : Pairing → Nat → Bool
  | pow, strength => pow.tag.precedence ≤ strength
  | op, strength => op.tag.precedence < strength

end Pairing

namespace Separator

def tag : Separator → NodeTag
  | comma => .enumAnd
  | bar => .enumOr

def word : Separator → Word
  | comma => ⟨.comma, [0x2C], .symbol_of rfl⟩
  | bar => ⟨.pipe, [0x7C], .symbol_of rfl⟩

def holds (sep : Separator) (strength : Nat) : Bool := sep.tag.precedence < strength

end Separator

mutual

inductive Expr where
  | leaf (l : Leaf)
  | negate (e : Expr)
  | pair (op : Pairing) (left right : Expr)
  | enumeration (sep : Separator) (es : Elements)

inductive Elements where
  | two (first second : Expr)
  | more (es : Elements) (last : Expr)

end

def Word.minus : Word := ⟨.minus, [Byte.minus], .symbol_of rfl⟩

/-- The words, between parentheses unless they can do without. -/
def enclosed (bare : Bool) (ws : List Word) : List Word :=
  if bare then ws
  else ⟨.lParen, [Byte.leftParen], .symbol_of rfl⟩ :: (ws ++ [⟨.rParen, [Byte.rightParen], .symbol_of rfl⟩])

def Expr.strength : Expr → Nat
  | leaf _ => NodeTag.negate.precedence + 1
  | negate _ => NodeTag.negate.precedence
  | pair op _ _ => op.tag.precedence
  | enumeration sep _ => sep.tag.precedence

mutual

def Expr.words : Expr → List Word
  | .leaf l => [l.toWord]
  | .negate e => .minus :: enclosed (NodeTag.negate.precedence ≤ e.strength) e.words
  | .pair op left right =>
    enclosed (op.holdsLeft left.strength) left.words ++
      op.word :: enclosed (op.holdsRight right.strength) right.words
  | .enumeration sep es => es.words sep

def Elements.words (sep : Separator) : Elements → List Word
  | .two first second =>
    enclosed (sep.holds first.strength) first.words ++
      sep.word :: enclosed (sep.holds second.strength) second.words
  | .more es last => es.words sep ++ sep.word :: enclosed (sep.holds last.strength) last.words

end

def Expr.print (e : Expr) : List Byte := spaced e.words

/-- A tree with the texts of its tokens. -/
inductive Worded where
  | node (tag : NodeTag) (text : Option (List Byte)) (children : List Worded)

def Worded.tag : Worded → NodeTag
  | node tag _ _ => tag

mutual

def Expr.worded : Expr → Worded
  | .leaf l => .node l.node (some l.text) []
  | .negate e => .node .negate (some Word.minus.text) [e.worded]
  | .pair op left right => .node op.tag (some op.word.text) [left.worded, right.worded]
  | .enumeration sep es => .node sep.tag (some sep.word.text) es.worded

def Elements.worded : Elements → List Worded
  | .two first second => [first.worded, second.worded]
  | .more es last => es.worded ++ [last.worded]

end

namespace Tree

mutual

def worded (s : Source) : Tree → Worded
  | node tag token kids => .node tag (token.map s.text) (wordedAll s kids)

def wordedAll (s : Source) : List Tree → List Worded
  | [] => []
  | t :: rest => t.worded s :: wordedAll s rest

end

theorem tag_worded (s : Source) (t : Tree) : (t.worded s).tag = t.tag := by
  cases t
  rfl

theorem wordedAll_append (s : Source) (ts us : List Tree) :
    wordedAll s (ts ++ us) = wordedAll s ts ++ wordedAll s us := by
  induction ts with
  | nil => rfl
  | cons t ts ih => simp [wordedAll, ih]

end Tree

def Source.Writes (s : Source) (ts : List Lexeme) (ws : List Word) : Prop :=
  ts.map (fun x => s.wording x.token) = ws.map Word.wording

section Terms

variable {s : Source} {ts us : List Lexeme} {ws vs : List Word} {p q : Nat} {grouped : Bool}
  {v v' : Worded}

theorem Source.Writes.cons {w : Word} (h : s.Writes ts (w :: ws)) :
    ∃ x rest, ts = x :: rest ∧ x.tag = w.tag ∧ s.text x.token = w.text ∧ s.Writes rest ws := by
  obtain ⟨x, rest, rfl, first, others⟩ := List.map_eq_cons_iff.mp h
  obtain ⟨tag, text⟩ := Prod.mk.inj first
  exact ⟨x, rest, rfl, tag, text, others⟩

theorem Source.Writes.append (h : s.Writes ts (ws ++ vs)) :
    ∃ xs ys, ts = xs ++ ys ∧ s.Writes xs ws ∧ s.Writes ys vs := by
  unfold Writes at h
  rw [List.map_append] at h
  obtain ⟨xs, ys, rfl, front, back⟩ := List.map_eq_append_iff.mp h
  exact ⟨xs, ys, rfl, front, back⟩

/- The lexemes are read as a term, wherever they stand and whatever comes behind them. -/
def IsTerm (s : Source) (p : Nat) (ts : List Lexeme) (grouped : Bool) (v : Worded) : Prop :=
  ∀ (scope : Scope) (l : Nat) (rest : List Lexeme), ∃ x : Piece,
    Reads (.term scope l p) (ts ++ rest) [x] rest ∧ x.grouped = grouped ∧ x.tree.worded s = v

namespace IsTerm

theorem lower (h : IsTerm s q ts grouped v) (le : p ≤ q) : IsTerm s p ts grouped v := by
  intro scope l rest
  obtain ⟨x, der, same⟩ := h scope l rest
  exact ⟨x, der.lower le, same⟩

theorem leaf {l : Leaf} {x : Lexeme} (tag : x.tag = l.tag) (text : s.text x.token = l.text) :
    IsTerm s NodeTag.negate.precedence [x] false (Expr.leaf l).worded := by
  intro scope level rest
  refine ⟨_, .single (.leaf (tag ▸ l.isLeaf)), rfl, ?_⟩
  simp [Piece.ofNode, Tree.worded, Tree.wordedAll, Expr.worded, text]

theorem negate {x : Lexeme} (h : IsTerm s NodeTag.negate.precedence ts grouped v)
    (tag : x.tag = .minus) :
    IsTerm s NodeTag.negate.precedence (x :: ts) false
      (.node .negate (some (s.text x.token)) [v]) := by
  intro scope l rest
  obtain ⟨y, der, -, rfl⟩ := h scope l rest
  exact ⟨_, .negate tag der, rfl, rfl⟩

theorem group {o z : Lexeme} (h : IsTerm s p ts grouped v) (positive : 1 ≤ p)
    (opens : o.tag = .lParen) (closes : z.tag = .rParen) :
    IsTerm s NodeTag.negate.precedence (o :: (ts ++ [z])) true v := by
  intro scope l rest
  obtain ⟨x, der, -, rfl⟩ := h .inline l (z :: rest)
  refine ⟨⟨x.tree, true⟩, ?_, rfl, rfl⟩
  have inner := Derives.group opens (der.lower positive) closes
  simpa [NodeTag.strength_eq] using inner.single

theorem join {x : Lexeme} {tag : NodeTag} {grouped' : Bool} {joined : Worded}
    (left : IsTerm s tag.leftStrength ts grouped v)
    (operator : operatorTag? x.tag = some tag) (right : IsTerm s tag.rightStrength us grouped' v')
    (made : ∀ a b : Piece, a.grouped = grouped → a.tree.worded s = v → b.tree.worded s = v' →
      (a.join tag (some x.token) b).tree.worded s = joined) :
    IsTerm s tag.precedence (ts ++ x :: us) false joined := by
  intro scope l rest
  obtain ⟨a, first, same, worded⟩ := left scope l (x :: (us ++ rest))
  obtain ⟨b, second, -, worded'⟩ := right scope l rest
  refine ⟨_, ?_, ?_, made a b same worded worded'⟩
  · have whole := first.binary (Config.operator?_plain operator) second
    simpa [NodeTag.strength_eq] using whole
  · unfold Piece.join
    split <;> rfl

theorem pair {x : Lexeme} {tag : NodeTag} {grouped' : Bool}
    (left : IsTerm s tag.leftStrength ts grouped v)
    (operator : operatorTag? x.tag = some tag) (right : IsTerm s tag.rightStrength us grouped' v')
    (apart : tag.grows = true → grouped = false → v.tag ≠ tag) :
    IsTerm s tag.precedence (ts ++ x :: us) false (.node tag (some (s.text x.token)) [v, v']) := by
  refine left.join operator right ?_
  rintro a b rfl rfl rfl
  -- The left operand would take the right one as one more element.
  have fresh : (tag.grows && !a.grouped && a.tree.tag == tag) = false := by
    by_contra grows
    simp only [Bool.not_eq_false, Bool.and_eq_true, Bool.not_eq_true', beq_iff_eq] at grows
    exact apart grows.1.1 grows.1.2 (a.tree.tag_worded s ▸ grows.2)
  simp [Piece.join, fresh, Piece.ofNode, Tree.worded, Tree.wordedAll]

theorem extend {x : Lexeme} {tag : NodeTag} {grouped' : Bool} {text : Option (List Byte)}
    {kids : List Worded} (grows : tag.grows = true)
    (left : IsTerm s tag.leftStrength ts false (.node tag text kids))
    (operator : operatorTag? x.tag = some tag) (right : IsTerm s tag.rightStrength us grouped' v') :
    IsTerm s tag.precedence (ts ++ x :: us) false (.node tag text (kids ++ [v'])) := by
  refine left.join operator right ?_
  rintro ⟨⟨root, token, below⟩, _⟩ b rfl worded rfl
  obtain ⟨rfl, rfl, rfl⟩ := Worded.node.inj worded
  simp [Piece.join, grows, Tree.tag, Tree.extend, Tree.worded, Tree.wordedAll_append, Tree.wordedAll]

end IsTerm

end Terms

theorem Pairing.operatorTag?_word (op : Pairing) : operatorTag? op.word.tag = some op.tag := by
  cases op <;> rfl

theorem Separator.operatorTag?_word (sep : Separator) : operatorTag? sep.word.tag = some sep.tag := by
  cases sep <;> rfl

theorem Pairing.holdsLeft_iff (op : Pairing) (strength : Nat) :
    op.holdsLeft strength = true ↔ op.tag.leftStrength ≤ strength := by
  cases op <;> exact decide_eq_true_iff

theorem Pairing.holdsRight_iff (op : Pairing) (strength : Nat) :
    op.holdsRight strength = true ↔ op.tag.rightStrength ≤ strength := by
  cases op <;> exact decide_eq_true_iff

theorem Pairing.not_grows (op : Pairing) : op.tag.grows = false := by
  cases op <;> rfl

theorem Pairing.strengths (op : Pairing) :
    op.tag.leftStrength ≤ NodeTag.negate.precedence ∧
      op.tag.rightStrength ≤ NodeTag.negate.precedence := by
  cases op <;> decide

theorem Separator.grows (sep : Separator) : sep.tag.grows = true := by
  cases sep <;> rfl

theorem Separator.leftStrength (sep : Separator) : sep.tag.leftStrength = sep.tag.precedence := by
  cases sep <;> rfl

theorem Separator.strengths (sep : Separator) :
    sep.tag.leftStrength ≤ NodeTag.negate.precedence ∧
      sep.tag.rightStrength ≤ NodeTag.negate.precedence := by
  cases sep <;> decide

theorem Separator.strong {strength : Nat} (sep : Separator) (h : sep.holds strength = true) :
    sep.tag.leftStrength ≤ strength ∧ sep.tag.rightStrength ≤ strength := by
  have stronger : sep.tag.precedence < strength := of_decide_eq_true h
  rw [sep.leftStrength]
  refine ⟨Nat.le_of_lt stronger, ?_⟩
  cases sep <;> exact stronger

namespace Expr

theorem strength_pos (e : Expr) : 1 ≤ min e.strength NodeTag.negate.precedence := by
  refine Nat.le_min.mpr ⟨?_, by decide⟩
  cases e with
  | pair op => cases op <;> exact Nat.succ_pos _
  | enumeration sep => cases sep <;> exact Nat.succ_pos _
  | _ => exact Nat.succ_pos _

theorem tag_worded_ne {e : Expr} {sep : Separator} (h : sep.holds e.strength = true) :
    e.worded.tag ≠ sep.tag := by
  have stronger : sep.tag.precedence < e.strength := of_decide_eq_true h
  intro same
  cases e with
  | leaf l =>
    have isLeaf := l.isLeaf
    have same : l.node = sep.tag := same
    rw [same] at isLeaf
    cases kind : l.tag <;> simp [kind, leafTag?] at isLeaf <;> cases sep <;> cases isLeaf
  | negate e => cases sep <;> cases same
  | pair op left right => cases op <;> cases sep <;> cases same
  | enumeration sep' es =>
    have same : sep'.tag = sep.tag := same
    simp [strength, same] at stronger

end Expr

section Reading

variable {s : Source} {ts : List Lexeme}

theorem IsTerm.enclosed {e : Expr} {bare : Bool} {p : Nat}
    (whole : ∀ {ts}, s.Writes ts e.words →
      IsTerm s (min e.strength NodeTag.negate.precedence) ts false e.worded)
    (h : s.Writes ts (enclosed bare e.words)) (le : p ≤ NodeTag.negate.precedence)
    (holds : bare = true → p ≤ e.strength) : IsTerm s p ts (!bare) e.worded := by
  cases bare with
  | true => exact (whole h).lower (Nat.le_min.mpr ⟨holds rfl, le⟩)
  | false =>
    obtain ⟨o, _, rfl, opens, -, h⟩ := Source.Writes.cons h
    obtain ⟨xs, _, rfl, inner, h⟩ := h.append
    obtain ⟨z, _, rfl, closes, -, h⟩ := h.cons
    obtain rfl := List.map_eq_nil_iff.mp h
    exact ((whole inner).group e.strength_pos opens closes).lower le

mutual

/- By recursion on the expression; an enumeration is read from its first two elements on. -/
theorem Expr.isTerm (e : Expr) {ts : List Lexeme} (h : s.Writes ts e.words) :
    IsTerm s (min e.strength NodeTag.negate.precedence) ts false e.worded := by
  match e with
  | .leaf l =>
    rw [Expr.words] at h
    obtain ⟨x, _, rfl, tag, text, h⟩ := h.cons
    obtain rfl := List.map_eq_nil_iff.mp h
    exact (IsTerm.leaf tag text).lower (Nat.min_le_right _ _)
  | .negate e =>
    rw [Expr.words] at h
    obtain ⟨x, xs, rfl, tag, text, h⟩ := h.cons
    have inner := IsTerm.enclosed e.isTerm h (Nat.le_refl _) of_decide_eq_true
    have whole := inner.negate tag
    rw [text] at whole
    exact whole.lower (Nat.min_le_left _ _)
  | .pair op left right =>
    rw [Expr.words] at h
    obtain ⟨xs, _, rfl, front, h⟩ := h.append
    obtain ⟨x, ys, rfl, tag, text, back⟩ := h.cons
    have first := IsTerm.enclosed left.isTerm front op.strengths.1 (op.holdsLeft_iff _).mp
    have second := IsTerm.enclosed right.isTerm back op.strengths.2 (op.holdsRight_iff _).mp
    have whole := first.pair (tag ▸ op.operatorTag?_word) second (by simp [op.not_grows])
    rw [text] at whole
    exact whole.lower (Nat.min_le_left _ _)
  | .enumeration sep es =>
    rw [Expr.words] at h
    exact (es.isTerm sep h).lower (Nat.min_le_left _ _)

theorem Elements.isTerm (sep : Separator) (es : Elements) {ts : List Lexeme}
    (h : s.Writes ts (es.words sep)) :
    IsTerm s sep.tag.precedence ts false (.node sep.tag (some sep.word.text) es.worded) := by
  match es with
  | .two first second =>
    rw [Elements.words] at h
    obtain ⟨xs, _, rfl, front, h⟩ := h.append
    obtain ⟨x, ys, rfl, tag, text, back⟩ := h.cons
    have left := IsTerm.enclosed first.isTerm front sep.strengths.1 fun h => (sep.strong h).1
    have right := IsTerm.enclosed second.isTerm back sep.strengths.2 fun h => (sep.strong h).2
    have whole := left.pair (tag ▸ sep.operatorTag?_word) right fun _ bare =>
      Expr.tag_worded_ne (by simpa using bare)
    rw [text] at whole
    exact whole
  | .more es last =>
    rw [Elements.words] at h
    obtain ⟨xs, _, rfl, front, h⟩ := h.append
    obtain ⟨x, ys, rfl, tag, -, back⟩ := h.cons
    have left := (es.isTerm sep front).lower (Nat.le_of_eq sep.leftStrength)
    have right := IsTerm.enclosed last.isTerm back sep.strengths.2 fun h => (sep.strong h).2
    exact left.extend sep.grows (tag ▸ sep.operatorTag?_word) right

end

end Reading
theorem Expr.words_ne_nil (e : Expr) : e.words ≠ [] := by
  cases e with
  | enumeration sep es => cases es <;> simp [words, Elements.words]
  | _ => simp [words]

/-- What an expression writes is a document, and its tree is that of the expression. -/
theorem Expr.document (e : Expr) :
    ∃ tree, Source.Document ⟨e.print⟩ Tail.Allows tree ∧ tree.worded ⟨e.print⟩ = e.worded := by
  obtain ⟨ts, lexemes, written⟩ := Source.lexemes_spaced e.words_ne_nil
  obtain ⟨xs, _, rfl, front, back⟩ := List.map_eq_append_iff.mp written
  obtain ⟨last, rfl, same⟩ := List.map_eq_singleton_iff.mp back
  obtain ⟨x, der, -, worded⟩ := e.isTerm front .block 0 [last]
  have block := der.lower e.strength_pos
  exact ⟨x.tree, ⟨_, lexemes, x, last, block, (Prod.mk.inj same).1, rfl⟩, worded⟩

namespace Source

/-- Where there is room for it, what an expression writes is parsed, and the tree is the expression:
the same tags, the same children in the same order and the same texts. Every operator is the token
between its first two operands. -/
theorem parse_print (e : Expr) (a : Arena) (room : a.size + e.print.length ≤ a.limit) :
    ∃ root tree, (parse ⟨e.print⟩ a).outcome = .ok (some root) ∧
      (parse ⟨e.print⟩ a).arena.Shows root tree ∧ tree.worded ⟨e.print⟩ = e.worded ∧
      tree.Ordered := by
  obtain ⟨tree, document, worded⟩ := e.document
  rcases parse_document document a with full | ⟨root, parsed, shown⟩
  · exact absurd full (parse_ne_outOfMemory _ a room)
  · exact ⟨root, tree, parsed, shown, worded, document.ordered⟩

end Source

namespace Expr

def letter (b : Byte) {p : Part} {raw : TokenTag} {node : NodeTag} (plain : isGap b = false)
    (opens : opening b = .part p) (ending : p.ending? = some raw)
    (isLeaf : leafTag? (raw.resolved [b]) = some node) : Expr :=
  have begins : Begins false raw [b] :=
    begins_of_opening plain opens ((p.completes_nil raw).mpr ending)
  .leaf ⟨⟨raw.resolved [b], [b], spells_of_begins begins⟩, node, isLeaf⟩

def mixed : Expr :=
  .enumeration .comma (.more
    (.two
      (.enumeration .comma (.two (letter 0x31 rfl rfl rfl rfl) (letter 0x32 rfl rfl rfl rfl)))
      (.enumeration .bar (.two (letter 0x61 rfl rfl rfl rfl) (letter 0x62 rfl rfl rfl rfl))))
    (.pair .sub (letter 0x63 rfl rfl rfl rfl)
      (.negate (.pair .pow (letter 0x64 rfl rfl rfl rfl) (letter 0x65 rfl rfl rfl rfl)))))

end Expr

theorem Source.parse_print_mixed :
    (⟨Expr.mixed.print⟩ : Source) = .ofText "( 1 , 2 ) , a | b , c - - ( d ^ e )" ∧
      Arena.empty.size + Expr.mixed.print.length ≤ Arena.empty.limit ∧
      ∃ root tree, (parse ⟨Expr.mixed.print⟩ .empty).outcome = .ok (some root) ∧
        (parse ⟨Expr.mixed.print⟩ .empty).arena.Shows root tree ∧
        tree.worded ⟨Expr.mixed.print⟩ = Expr.mixed.worded ∧ tree.Ordered := by
  have room : Arena.empty.size + Expr.mixed.print.length ≤ Arena.empty.limit :=
    room_empty (s := ⟨Expr.mixed.print⟩) (by decide)
  exact ⟨rfl, room, parse_print Expr.mixed .empty room⟩

end Offside
