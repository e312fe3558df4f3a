import Offside.Parse.Step
import Offside.Proofs.Assembly

/-! The language as recursive descent reads it. A phrase is derived from the front of a list of
lexemes; what it leaves over is part of the statement, so that a rule can say what must follow.
Nothing here speaks of stacks, frames or goals. -/
namespace Offside

/- A token and, if it is an indentation on the grid, its level. -/
structure Lexeme where
  token : Token
  level : Option Nat
  deriving DecidableEq, Repr

namespace Lexeme

def tag (x : Lexeme) : TokenTag := x.token.tag

/-- The indentation of a line on the given level. -/
def IsLine (x : Lexeme) (level : Nat) : Prop := x.tag = .indent ∧ x.level = some level

end Lexeme

/-- Tokens with their levels; as on the first reading, the first deeper line fixes the unit. -/
def Grid.label (g : Grid) : List Token → List Lexeme
  | [] => []
  | t :: rest =>
    if t.tag = .indent then
      match g.measure t with
      | .ok (level, g) => ⟨t, some level⟩ :: g.label rest
      | .error _ => ⟨t, none⟩ :: g.label rest
    else ⟨t, none⟩ :: g.label rest

def Scanner.tokens (s : Scanner) : List Token := (s.entries fun _ => false).map Entry.token

/-- The lexemes of a source behind the indentation of its first line. -/
def Source.lexemes? (s : Source) : Option (List Lexeme) :=
  let first := (Scanner.ofSource .layout s).nextFrom .lineStart
  if first.1.tag = .indent then some ((Grid.ofTrim first.1.length).label first.2.tokens) else none

/- Where an expression stands: as a block, on one line, or in an attribute list. -/
inductive Scope where
  | block
  | inline
  | attrs
  deriving DecidableEq, Repr

/-- The binary operators with tokens of their own. -/
def binaryTag? : TokenTag → Option NodeTag
  | .comma => some .enumAnd
  | .pipe => some .enumOr
  | .plus => some .add
  | .minus => some .sub
  | .plusPlus => some .concat
  | .star => some .mul
  | .slash => some .div
  | .caret => some .pow
  | _ => none

/-- A binary operator at the front, its token if it keeps one, and what comes behind it. Only a
block goes on with lines of its level, and only an attribute list assigns. -/
def Scope.operator? (scope : Scope) (level : Nat) :
    List Lexeme → Option (NodeTag × Option Token × List Lexeme)
  | [] => none
  | x :: rest =>
    match x.tag with
    | .indent =>
      if scope = .block ∧ x.level = some level then
        match rest with
        | y :: behind => if y.tag = .pipe then some (.blockOr, none, behind) else some (.blockAnd, none, rest)
        | [] => none
      else none
    | .equal => if scope = .attrs then some (.assign, some x.token, rest) else none
    | tag => (binaryTag? tag).map fun operator => (operator, some x.token, rest)

namespace NodeTag

/-- The operators, from the one that binds least to the one that binds most. -/
def ladder : List (List NodeTag) :=
  [[blockAnd], [blockOr], [enumAnd], [enumOr], [assign], [add, sub, concat], [mul, div], [pow],
    [negate]]

def strength (tag : NodeTag) : Nat :=
  ((ladder.findIdx? fun rung => rung.contains tag).map (· + 1)).getD 0

/- How strongly the operands of a binary operator must bind. Powers associate to the right, all
others to the left. -/
def leftStrength (tag : NodeTag) : Nat := if tag = pow then tag.strength + 1 else tag.strength

def rightStrength (tag : NodeTag) : Nat := if tag = pow then tag.strength else tag.strength + 1

end NodeTag

def leafTag? : TokenTag → Option NodeTag
  | .number => some .number
  | .string => some .string
  | .char => some .char
  | .identifier => some .identifier
  | _ => none

def headerTag? : TokenTag → Option NodeTag
  | .kwIf => some .ifThen
  | .kwElif => some .elifThen
  | .kwFor => some .forEach
  | .kwWhile => some .whileLoop
  | _ => none

inductive Phrase where
  | term (scope : Scope) (level strength : Nat)
  | operand (level : Nat)
  | attributes (level : Nat)
  | definition (attributed : Bool) (level : Nat)
  | heading (tag : NodeTag) (level : Nat)

/- The ends of phrases that no bracket closes. -/
inductive Tail where
  | name (attributed : Bool) (level : Nat)
  | value
  | body (level : Nat)

def TokenTag.closes : TokenTag → Bool
  | .rParen | .rBracket | .eof => true
  | _ => false

/-- What may follow. A name without a definition is not followed by one; an inline value ends with
its line or before a closing bracket; a body ends before a line of the level around it, a closing
bracket or the end. -/
def Tail.Allows : Tail → List Lexeme → Prop
  | _, [] => False
  | name attributed level, x :: _ =>
    x.tag ≠ .equal ∧ (x.tag = .lBracket → attributed = true) ∧
      (x.tag = .indent → ∃ k, x.level = some k ∧ k ≤ level)
  | value, x :: _ => (x.tag = .indent ∧ x.level.isSome) ∨ x.tag.closes
  | body level, x :: _ => x.IsLine level ∨ x.tag.closes

def ClosesGroup (level : Nat) (ts rest : List Lexeme) : Prop :=
  ∃ z, z.tag = .rParen ∧ (ts = z :: rest ∨ ∃ n : Lexeme, n.IsLine level ∧ ts = n :: z :: rest)

/- The rules, with a parameter for what may follow the open-ended phrases. Optional parts derive no
piece or one; every other phrase derives one. -/
inductive Derives (ends : Tail → List Lexeme → Prop) :
    Phrase → List Lexeme → List Piece → List Lexeme → Prop where
  | weaken {scope : Scope} {l p : Nat} {ts rest : List Lexeme} {x : Piece} :
      Derives ends (.term scope l (p + 1)) ts [x] rest → Derives ends (.term scope l p) ts [x] rest
  | binary {scope : Scope} {l : Nat} {tag : NodeTag} {token : Option Token}
      {ts mid mid' rest : List Lexeme} {x y : Piece} :
      Derives ends (.term scope l tag.leftStrength) ts [x] mid →
      scope.operator? l mid = some (tag, token, mid') →
      Derives ends (.term scope l tag.rightStrength) mid' [y] rest →
      Derives ends (.term scope l tag.strength) ts [x.join tag token y] rest
  | negate {scope : Scope} {l : Nat} {m : Lexeme} {ts rest : List Lexeme} {x : Piece} :
      m.tag = .minus → Derives ends (.term scope l NodeTag.negate.strength) ts [x] rest →
      Derives ends (.term scope l NodeTag.negate.strength) (m :: ts)
        [.ofNode .negate (some m.token) [x.tree]] rest
  | single {scope : Scope} {l : Nat} {ts rest : List Lexeme} {x : Piece} :
      Derives ends (.operand l) ts [x] rest →
      Derives ends (.term scope l NodeTag.negate.strength) ts [x] rest
  | leaf {l : Nat} {t : Lexeme} {rest : List Lexeme} {tag : NodeTag} :
      leafTag? t.tag = some tag →
      Derives ends (.operand l) (t :: rest) [.ofNode tag (some t.token) []] rest
  | group {l : Nat} {o z : Lexeme} {ts rest : List Lexeme} {x : Piece} :
      o.tag = .lParen → Derives ends (.term .inline l 1) ts [x] (z :: rest) → z.tag = .rParen →
      Derives ends (.operand l) (o :: ts) [⟨x.tree, true⟩] rest
  | groupBlock {l : Nat} {o n : Lexeme} {ts mid rest : List Lexeme} {x : Piece} :
      o.tag = .lParen → n.IsLine (l + 1) → Derives ends (.term .block (l + 1) 1) ts [x] mid →
      ClosesGroup l mid rest →
      Derives ends (.operand l) (o :: n :: ts) [⟨x.tree, true⟩] rest
  | name {l : Nat} {d n : Lexeme} {ts mid rest : List Lexeme} {attrs values : List Piece} :
      d.tag = .dot → n.tag = .identifier → Derives ends (.attributes l) ts attrs mid →
      Derives ends (.definition (!attrs.isEmpty) l) mid values rest →
      Derives ends (.operand l) (d :: n :: ts)
        [.ofNode .nameDef (some n.token) ((attrs ++ values).map Piece.tree)] rest
  | control {l : Nat} {k n : Lexeme} {ts mid rest : List Lexeme} {tag : NodeTag}
      {heads : List Piece} {x : Piece} :
      Derives ends (.heading tag l) (k :: ts) heads (n :: mid) → n.IsLine (l + 1) →
      Derives ends (.term .block (l + 1) 1) mid [x] rest → ends (.body l) rest →
      Derives ends (.operand l) (k :: ts)
        [.ofNode tag (some k.token) ((heads ++ [x]).map Piece.tree)] rest
  | unattributed {l : Nat} {ts : List Lexeme} : Derives ends (.attributes l) ts [] ts
  | noAttributes {l : Nat} {o z : Lexeme} {rest : List Lexeme} :
      o.tag = .lBracket → z.tag = .rBracket →
      Derives ends (.attributes l) (o :: z :: rest) [.ofNode .attrs none []] rest
  | attributes {l : Nat} {o z : Lexeme} {ts rest : List Lexeme} {x : Piece} :
      o.tag = .lBracket → Derives ends (.term .attrs l 1) ts [x] (z :: rest) → z.tag = .rBracket →
      Derives ends (.attributes l) (o :: ts) [.ofNode .attrs none [x.tree]] rest
  | undefined {l : Nat} {attributed : Bool} {ts : List Lexeme} :
      ends (.name attributed l) ts → Derives ends (.definition attributed l) ts [] ts
  | value {l : Nat} {attributed : Bool} {e : Lexeme} {ts rest : List Lexeme} {x : Piece} :
      e.tag = .equal → Derives ends (.term .inline l 1) ts [x] rest → ends .value rest →
      Derives ends (.definition attributed l) (e :: ts) [.ofNode .value none [x.tree]] rest
  | body {l : Nat} {attributed : Bool} {n : Lexeme} {ts rest : List Lexeme} {x : Piece} :
      n.IsLine (l + 1) → Derives ends (.term .block (l + 1) 1) ts [x] rest → ends (.body l) rest →
      Derives ends (.definition attributed l) (n :: ts) [.ofNode .value none [x.tree]] rest
  | header {l : Nat} {k : Lexeme} {ts rest : List Lexeme} {tag : NodeTag} {x : Piece} :
      headerTag? k.tag = some tag → Derives ends (.term .inline l 1) ts [x] rest →
      Derives ends (.heading tag l) (k :: ts) [x] rest
  | otherwise {l : Nat} {k : Lexeme} {rest : List Lexeme} :
      k.tag = .kwElse → Derives ends (.heading .elseThen l) (k :: rest) [] rest

/-- A whole source is a block on level zero, up to the end. -/
def Document (ends : Tail → List Lexeme → Prop) (ts : List Lexeme) (tree : Tree) : Prop :=
  ∃ (x : Piece) (e : Lexeme),
    Derives ends (.term .block 0 1) ts [x] [e] ∧ e.tag = .eof ∧ x.tree = tree

def Source.Document (s : Source) (ends : Tail → List Lexeme → Prop) (tree : Tree) : Prop :=
  ∃ ts, s.lexemes? = some ts ∧ Offside.Document ends ts tree

section Agreement

theorem binaryTag?_eq : binaryTag? = operatorTag? := by
  funext tag
  cases tag <;> rfl

theorem NodeTag.strength_eq (tag : NodeTag) : tag.strength = tag.precedence := by
  cases tag <;> rfl

theorem NodeTag.isRightAssoc_iff {tag : NodeTag} (operator : 1 ≤ tag.precedence) :
    tag.isRightAssoc = true ↔ tag = .pow := by
  cases tag <;> first | decide | cases operator

theorem NodeTag.leftStrength_eq {tag : NodeTag} (operator : 1 ≤ tag.precedence) :
    tag.leftStrength = if tag.isRightAssoc then tag.precedence + 1 else tag.precedence := by
  simp only [leftStrength, strength_eq, isRightAssoc_iff operator]

theorem NodeTag.rightStrength_eq {tag : NodeTag} (operator : 1 ≤ tag.precedence) :
    tag.rightStrength = if tag.isRightAssoc then tag.precedence else tag.precedence + 1 := by
  simp only [rightStrength, strength_eq, isRightAssoc_iff operator]

end Agreement

theorem Scope.operator?_cases {scope : Scope} {l : Nat} {tag : NodeTag} {token : Option Token}
    {ts rest : List Lexeme} (h : scope.operator? l ts = some (tag, token, rest)) :
    (∃ x, ts = x :: rest ∧ token = some x.token ∧
      (operatorTag? x.tag = some tag ∨ x.tag = .equal ∧ tag = .assign ∧ scope = .attrs)) ∨
    (∃ x : Lexeme, x.IsLine l ∧ scope = .block ∧ token = none ∧
      (ts = x :: rest ∧ tag = .blockAnd ∨
        ∃ y : Lexeme, y.tag = .pipe ∧ ts = x :: y :: rest ∧ tag = .blockOr)) := by
  unfold Scope.operator? at h
  split at h
  · cases h
  · rename_i x behind
    split at h
    · rename_i line
      split at h
      · rename_i goes
        split at h
        · rename_i y behind
          split at h
          · rename_i bar
            cases h
            exact .inr ⟨x, ⟨line, goes.2⟩, goes.1, rfl, .inr ⟨y, bar, rfl, rfl⟩⟩
          · cases h
            exact .inr ⟨x, ⟨line, goes.2⟩, goes.1, rfl, .inl ⟨rfl, rfl⟩⟩
        · cases h
      · cases h
    · rename_i equal
      split at h
      · rename_i attrs
        cases h
        exact .inl ⟨x, rfl, rfl, .inr ⟨equal, rfl, attrs⟩⟩
      · cases h
    · rw [binaryTag?_eq] at h
      obtain ⟨operator, found, eq⟩ := Option.map_eq_some_iff.mp h
      cases eq
      exact .inl ⟨x, rfl, rfl, .inl found⟩

theorem Derives.lower {ends : Tail → List Lexeme → Prop} {scope : Scope} {l p q : Nat}
    {ts rest : List Lexeme} {x : Piece} (h : Derives ends (.term scope l q) ts [x] rest)
    (le : p ≤ q) : Derives ends (.term scope l p) ts [x] rest := by
  induction q with
  | zero =>
    obtain rfl := Nat.le_zero.mp le
    exact h
  | succ q ih =>
    rcases Nat.le_succ_iff.mp le with le | rfl
    · exact ih h.weaken le
    · exact h

theorem Derives.reverse_attributes {ends : Tail → List Lexeme → Prop} {l : Nat}
    {ts rest : List Lexeme} {A : List Piece} (h : Derives ends (.attributes l) ts A rest) :
    A.reverse = A := by
  cases h <;> rfl

theorem Derives.reverse_definition {ends : Tail → List Lexeme → Prop} {l : Nat} {attributed : Bool}
    {ts rest : List Lexeme} {V : List Piece} (h : Derives ends (.definition attributed l) ts V rest) :
    V.reverse = V := by
  cases h <;> rfl

theorem Derives.reverse_heading {ends : Tail → List Lexeme → Prop} {l : Nat} {tag : NodeTag}
    {ts rest : List Lexeme} {H : List Piece} (h : Derives ends (.heading tag l) ts H rest) :
    H.reverse = H := by
  cases h <;> rfl

theorem Derives.unattributed_eq {ends : Tail → List Lexeme → Prop} {l : Nat}
    {ts rest : List Lexeme} (h : Derives ends (.attributes l) ts [] rest) : rest = ts := by
  cases h
  rfl

end Offside
