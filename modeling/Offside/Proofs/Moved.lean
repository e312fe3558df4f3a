import Offside.Proofs.Completeness
import Offside.Proofs.Frontier
import Offside.Proofs.Splicing

/-! Derivations of one line inside other texts. The same rules derive the same tree, with its tokens
further on, whatever takes the place of the end, as long as the line may end before it. -/
namespace Offside

def Node.moved (d : Nat) (n : Node) : Node := { n with token := n.token.map (Token.shift d) }

namespace Tree

mutual

/-- The tree of the same text that begins `d` bytes later. -/
def moved (d : Nat) : Tree → Tree
  | node tag token kids => node tag (token.map (Token.shift d)) (movedAll d kids)

def movedAll (d : Nat) : List Tree → List Tree
  | [] => []
  | t :: rest => t.moved d :: movedAll d rest

end

variable (d : Nat)

theorem movedAll_eq (ts : List Tree) : movedAll d ts = ts.map (moved d) := by
  induction ts with
  | nil => rfl
  | cons t ts ih => rw [movedAll, ih, List.map_cons]

theorem moved_node (tag : NodeTag) (token : Option Token) (kids : List Tree) :
    moved d (node tag token kids) = node tag (token.map (Token.shift d)) (kids.map (moved d)) := by
  rw [moved, movedAll_eq]

@[simp] theorem tag_moved (t : Tree) : (t.moved d).tag = t.tag := by
  cases t
  rw [moved]
  rfl

theorem sizes_moved_of {ts : List Tree} (each : ∀ t ∈ ts, (t.moved d).size = t.size) :
    sizes (ts.map (moved d)) = sizes ts := by
  induction ts with
  | nil => rfl
  | cons t ts ih =>
    obtain ⟨first, others⟩ := List.forall_mem_cons.mp each
    rw [List.map_cons, sizes, sizes, first, ih others]

@[simp] theorem size_moved (t : Tree) : (t.moved d).size = t.size := by
  induction t using induct with
  | step tag token kids ih => rw [moved_node, size, size, sizes_moved_of d ih]

theorem sizes_moved (ts : List Tree) : sizes (ts.map (moved d)) = sizes ts :=
  sizes_moved_of d fun t _ => size_moved d t

theorem early_moved (tag : NodeTag) (kids : List Tree) :
    early tag (kids.map (moved d)) = early tag kids := by
  unfold early
  rw [List.length_map]

theorem root_moved (k : Nat) (t : Tree) : (t.moved d).root k = t.root k := by
  obtain ⟨tag, token, kids⟩ := t
  rw [moved_node, root, root, early_moved, ← List.map_take, sizes_moved]

theorem places_moved (k : Nat) (ts : List Tree) :
    places k (ts.map (moved d)) = (places k ts).map fun p => (p.1, p.2.moved d) := by
  induction ts generalizing k with
  | nil => rfl
  | cons t ts ih => rw [List.map_cons, places, places, size_moved, ih, List.map_cons]

theorem top_moved (k : Nat) (t : Tree) : (t.moved d).top k = (t.top k).moved d := by
  obtain ⟨tag, token, kids⟩ := t
  have rootOf_moved : rootOf ∘ (fun p : Nat × Tree => (p.1, p.2.moved d)) = rootOf :=
    funext fun p => root_moved d p.1 p.2
  rw [moved_node]
  simp only [top, Node.moved, seats, early_moved, ← List.map_take, ← List.map_drop, sizes_moved,
    places_moved, ← List.map_append, List.map_map, rootOf_moved]

theorem layAll_moved_of {ts : List Tree}
    (each : ∀ t ∈ ts, ∀ k, (t.moved d).lay k = (t.lay k).map (Node.moved d)) (k : Nat) :
    layAll k (ts.map (moved d)) = (layAll k ts).map (Node.moved d) := by
  induction ts generalizing k with
  | nil => rfl
  | cons t ts ih =>
    obtain ⟨first, others⟩ := List.forall_mem_cons.mp each
    rw [List.map_cons, layAll, layAll, first, size_moved, ih others, List.map_append]

theorem lay_moved (k : Nat) (t : Tree) : (t.moved d).lay k = (t.lay k).map (Node.moved d) := by
  induction t using induct generalizing k with
  | step tag token kids ih =>
    have front : ∀ n k, layAll k ((kids.take n).map (moved d)) = _ := fun n =>
      layAll_moved_of d fun t inside => ih t (List.mem_of_mem_take inside)
    have back : ∀ n k, layAll k ((kids.drop n).map (moved d)) = _ := fun n =>
      layAll_moved_of d fun t inside => ih t (List.mem_of_mem_drop inside)
    have self := top_moved d k (node tag token kids)
    rw [moved_node] at self ⊢
    rw [lay_node, lay_node, early_moved, ← List.map_take, ← List.map_drop, sizes_moved, front, back,
      self, List.map_append, List.map_cons]

theorem token_of_lay {k : Nat} {t : Tree} {n : Node} {u : Token} (member : n ∈ t.lay k)
    (token : u ∈ n.token) : u ∈ t.tokens := by
  induction t using induct generalizing k with
  | step tag own kids ih =>
    have inside : ∀ {k : Nat} {ts : List Tree}, (∀ t ∈ ts, t ∈ kids) → n ∈ layAll k ts →
        ∃ t ∈ kids, u ∈ t.tokens := by
      intro k ts sub member
      rw [layAll_eq] at member
      obtain ⟨p, place, member⟩ := List.mem_flatMap.mp member
      have kid := sub p.2 (mem_places place).1
      exact ⟨p.2, kid, ih p.2 kid member⟩
    rw [mem_tokens_node]
    rw [lay_node] at member
    rcases List.mem_append.mp member with member | member
    · exact .inr (inside (fun t => List.mem_of_mem_take) member)
    · rcases List.mem_cons.mp member with rfl | member
      · exact .inl token
      · exact .inr (inside (fun t => List.mem_of_mem_drop) member)

theorem extend_moved (t u : Tree) : (t.extend u).moved d = (t.moved d).extend (u.moved d) := by
  obtain ⟨tag, token, kids⟩ := t
  rw [extend, moved_node, moved_node, extend, List.map_append]
  rfl

end Tree

def Piece.moved (d : Nat) (x : Piece) : Piece := { x with tree := x.tree.moved d }

theorem Piece.ofNode_moved (d : Nat) (tag : NodeTag) (token : Option Token) (ts : List Tree) :
    (Piece.ofNode tag token ts).moved d =
      .ofNode tag (token.map (Token.shift d)) (ts.map (Tree.moved d)) := by
  rw [moved, ofNode, Tree.moved_node]
  rfl

theorem Piece.join_moved (d : Nat) (tag : NodeTag) (token : Option Token) (x y : Piece) :
    (x.join tag token y).moved d =
      (x.moved d).join tag (token.map (Token.shift d)) (y.moved d) := by
  unfold join
  simp only [moved, Tree.tag_moved]
  split
  · rw [Tree.extend_moved]
  · exact ofNode_moved d tag token [x.tree, y.tree]

def Lexeme.moved (d : Nat) (x : Lexeme) : Lexeme := { x with token := x.token.shift d }

def Unlined (ts : List Lexeme) : Prop := ∀ x ∈ ts, x.tag ≠ .indent

def TokenTag.isSettled : TokenTag → Bool
  | .eof | .incomplete | .lParen => false
  | _ => true

namespace Enclosable

variable {xs ys : List TokenTag} {tag : TokenTag}

theorem nil : Enclosable [] := ⟨by simp, by simp⟩

theorem append (h : Enclosable xs) (h' : Enclosable ys) : Enclosable (xs ++ ys) := by
  constructor
  · intro t member
    exact (List.mem_append.mp member).elim (h.sound t) (h'.sound t)
  · have last := h'.last
    rw [List.getLast?_append]
    cases found : ys.getLast? with
    | none => exact h.last
    | some t =>
      rw [found] at last
      exact last

theorem single (h : tag.isSettled = true) : Enclosable [tag] := by
  have differs : ∀ other : TokenTag, other.isSettled = false → tag ≠ other := by
    rintro _ loose rfl
    rw [h] at loose
    cases loose
  constructor
  · intro t member
    obtain rfl := List.mem_singleton.mp member
    exact ⟨differs .eof rfl, differs .incomplete rfl⟩
  · simpa using differs .lParen rfl

theorem group (h : Enclosable xs) : Enclosable (.lParen :: (xs ++ [.rParen])) := by
  have closed : Enclosable [.rParen] := single rfl
  have inner := h.append closed
  constructor
  · intro t member
    rcases List.mem_cons.mp member with rfl | member
    · exact ⟨by decide, by decide⟩
    · exact inner.sound t member
  · rw [← List.cons_append, List.getLast?_concat]
    decide

end Enclosable

section Flat

variable {ends : Tail → List Lexeme → Prop} {phrase : Phrase} {ts rest : List Lexeme}
  {X : List Piece}

theorem enclosable_tag {x : Lexeme} {tag : TokenTag} (h : x.tag = tag)
    (settled : tag.isSettled = true) : Enclosable [x.tag] := by
  rw [h]
  exact .single settled

theorem leafTag?_enclosable {t : TokenTag} {tag : NodeTag} (h : leafTag? t = some tag) :
    Enclosable [t] := by
  cases t <;> simp [leafTag?] at h <;> exact .single rfl

theorem headerTag?_enclosable {t : TokenTag} {tag : NodeTag} (h : headerTag? t = some tag) :
    Enclosable [t] := by
  cases t <;> simp [headerTag?] at h <;> exact .single rfl

theorem operatorTag?_enclosable {t : TokenTag} {tag : NodeTag} (h : operatorTag? t = some tag) :
    Enclosable [t] := by
  cases t <;> simp [operatorTag?] at h <;> exact .single rfl

theorem Scope.operator?_flat {scope : Scope} {l : Nat} {tag : NodeTag} {token : Option Token}
    (h : scope.operator? l ts = some (tag, token, rest)) (flat : Unlined ts) :
    ∃ x, ts = x :: rest ∧ token = some x.token ∧ Enclosable [x.tag] ∧
      (operatorTag? x.tag = some tag ∨ x.tag = .equal ∧ tag = .assign ∧ scope = .attrs) := by
  rcases operator?_cases h with ⟨x, rfl, rfl, plain | ⟨equal, assign⟩⟩ | ⟨x, line, -, -, split⟩
  · exact ⟨x, rfl, rfl, operatorTag?_enclosable plain, .inl plain⟩
  · exact ⟨x, rfl, rfl, enclosable_tag equal rfl, .inr ⟨equal, assign⟩⟩
  · rcases split with ⟨rfl, -⟩ | ⟨y, -, rfl, -⟩
    · exact absurd line.1 (flat x (by simp))
    · exact absurd line.1 (flat x (by simp))

def Uses (ts rest : List Lexeme) : Prop :=
  ∃ used, ts = used ++ rest ∧ Enclosable (used.map Lexeme.tag)

theorem Uses.trans {mid : List Lexeme} (h : Uses ts mid) (h' : Uses mid rest) : Uses ts rest := by
  obtain ⟨xs, rfl, sound⟩ := h
  obtain ⟨ys, rfl, sound'⟩ := h'
  refine ⟨xs ++ ys, (List.append_assoc _ _ _).symm, ?_⟩
  rw [List.map_append]
  exact sound.append sound'

theorem uses_cons {x : Lexeme} (h : Enclosable [x.tag]) : Uses (x :: rest) rest := ⟨[x], rfl, h⟩

theorem Unlined.tail {x : Lexeme} (h : Unlined (x :: ts)) : Unlined ts :=
  fun y member => h y (List.mem_cons_of_mem _ member)

theorem Uses.unlined (h : Uses ts rest) (flat : Unlined ts) : Unlined rest := by
  obtain ⟨used, rfl, -⟩ := h
  exact fun x member => flat x (List.mem_append_right _ member)

theorem Unlined.not_line {x : Lexeme} {l : Nat} (h : Unlined (x :: ts)) (line : x.IsLine l) : False :=
  h x (by simp) line.1

/-- A line is read token by token, and nothing on it is cut off by a closing parenthesis. -/
theorem Derives.uses (h : Derives ends phrase ts X rest) (flat : Unlined ts) : Uses ts rest := by
  induction h with
  | weaken _ ih => exact ih flat
  | binary _ found _ left right =>
    have first := left flat
    obtain ⟨x, rfl, -, sound, -⟩ := Scope.operator?_flat found (first.unlined flat)
    have second := right (first.unlined flat).tail
    exact first.trans ((uses_cons sound).trans second)
  | negate minus _ ih =>
    exact (uses_cons (enclosable_tag minus rfl)).trans (ih flat.tail)
  | single _ ih => exact ih flat
  | leaf found => exact uses_cons (leafTag?_enclosable found)
  | @group _ o z _ _ _ paren _ closed ih =>
    obtain ⟨used, rfl, sound⟩ := ih flat.tail
    refine ⟨o :: (used ++ [z]), by simp, ?_⟩
    rw [List.map_cons, List.map_append, paren, List.map_singleton, closed]
    exact sound.group
  | groupBlock _ line => exact (flat.tail.not_line line).elim
  | name dot ident _ _ attrs defined =>
    have first := attrs flat.tail.tail
    have second := defined (first.unlined flat.tail.tail)
    exact (uses_cons (enclosable_tag dot rfl)).trans
      ((uses_cons (enclosable_tag ident rfl)).trans (first.trans second))
  | control _ line _ _ heads _ => exact (((heads flat).unlined flat).not_line line).elim
  | unattributed => exact ⟨[], rfl, .nil⟩
  | noAttributes open_ closed =>
    exact (uses_cons (enclosable_tag open_ rfl)).trans
      (uses_cons (enclosable_tag closed rfl))
  | attributes open_ _ closed ih =>
    exact (uses_cons (enclosable_tag open_ rfl)).trans
      ((ih flat.tail).trans (uses_cons (enclosable_tag closed rfl)))
  | undefined _ => exact ⟨[], rfl, .nil⟩
  | value equal _ _ ih =>
    exact (uses_cons (enclosable_tag equal rfl)).trans (ih flat.tail)
  | body line => exact (flat.not_line line).elim
  | header found _ ih => exact (uses_cons (headerTag?_enclosable found)).trans (ih flat.tail)
  | otherwise word => exact uses_cons (enclosable_tag word rfl)

end Flat

structure Seat where
  scope : Scope
  level : Nat
  shift : Nat
  tail : List Lexeme
  names : ∀ attributed l, (Tail.name attributed l).Allows tail
  values : Tail.value.Allows tail

namespace Seat

variable (S : Seat)

def scopeIn : Scope → Scope
  | .block => S.scope
  | other => other

def phrase : Phrase → Phrase
  | .term scope l p => .term (S.scopeIn scope) (l + S.level) p
  | .operand l => .operand (l + S.level)
  | .attributes l => .attributes (l + S.level)
  | .definition attributed l => .definition attributed (l + S.level)
  | .heading tag l => .heading tag (l + S.level)

def lexemes : List Lexeme → List Lexeme
  | [] => S.tail
  | x :: ts => if x.tag = .eof then S.tail else x.moved S.shift :: lexemes ts

variable {S} {ts rest : List Lexeme} {x : Lexeme}

theorem lexemes_cons (more : x.tag ≠ .eof) :
    S.lexemes (x :: ts) = x.moved S.shift :: S.lexemes ts := if_neg more

theorem lexemes_append {used : List Lexeme} (sound : Enclosable (used.map Lexeme.tag)) :
    S.lexemes (used ++ rest) = used.map (Lexeme.moved S.shift) ++ S.lexemes rest := by
  induction used with
  | nil => rfl
  | cons x used ih =>
    rw [List.cons_append, lexemes_cons sound.more, ih sound.tail, List.map_cons, List.cons_append]

theorem allows_name {attributed : Bool} {l : Nat} (h : (Tail.name attributed l).Allows ts) :
    (Tail.name attributed (l + S.level)).Allows (S.lexemes ts) := by
  cases ts with
  | nil => exact h.elim
  | cons x ts =>
    by_cases last : x.tag = .eof
    · rw [lexemes, if_pos last]
      exact S.names _ _
    · obtain ⟨equal, bracket, line⟩ := h
      rw [lexemes_cons last]
      refine ⟨equal, bracket, fun deep => ?_⟩
      obtain ⟨k, level, le⟩ := line deep
      exact ⟨k, level, Nat.le_add_right_of_le le⟩

theorem allows_value (h : Tail.value.Allows ts) : Tail.value.Allows (S.lexemes ts) := by
  cases ts with
  | nil => exact h.elim
  | cons x ts =>
    by_cases last : x.tag = .eof
    · rw [lexemes, if_pos last]
      exact S.values
    · rw [lexemes_cons last]
      exact h

theorem operator? {scope : Scope} {l : Nat} {tag : NodeTag} {token : Option Token}
    (h : scope.operator? l ts = some (tag, token, rest)) (flat : Unlined ts) :
    (S.scopeIn scope).operator? (l + S.level) (S.lexemes ts) =
      some (tag, token.map (Token.shift S.shift), S.lexemes rest) := by
  obtain ⟨x, rfl, rfl, sound, plain | ⟨equal, rfl, rfl⟩⟩ := Scope.operator?_flat h flat
  · rw [lexemes_cons sound.more]
    exact Config.operator?_plain plain
  · rw [lexemes_cons (by rw [equal]; decide)]
    have equal : (x.moved S.shift).tag = .equal := equal
    simp only [Scope.operator?, equal, scopeIn, ↓reduceIte]
    rfl

/-- What is derived on a line is derived where the line stands in another text. -/
theorem reads {phrase : Phrase} {X : List Piece} (h : Reads phrase ts X rest) (flat : Unlined ts) :
    Reads (S.phrase phrase) (S.lexemes ts) (X.map (Piece.moved S.shift)) (S.lexemes rest) := by
  have skips : ∀ {x : Lexeme} {tag : TokenTag} (ts : List Lexeme), x.tag = tag → tag ≠ .eof →
      S.lexemes (x :: ts) = x.moved S.shift :: S.lexemes ts := by
    rintro x _ ts rfl more
    exact lexemes_cons more
  induction h with
  | weaken _ ih => exact .weaken (ih flat)
  | binary left found _ ihLeft ihRight =>
    have first := left.uses flat
    obtain ⟨x, rfl, -, -, -⟩ := Scope.operator?_flat found (first.unlined flat)
    have joined := Derives.binary (ihLeft flat) (operator? found (first.unlined flat))
      (ihRight (first.unlined flat).tail)
    rw [List.map_singleton, Piece.join_moved]
    exact joined
  | negate minus _ ih =>
    rw [skips _ minus (by decide), List.map_singleton, Piece.ofNode_moved]
    exact .negate (by exact minus) (ih flat.tail)
  | single _ ih => exact .single (ih flat)
  | leaf found =>
    have more := (leafTag?_enclosable found).more
    rw [lexemes_cons more, List.map_singleton, Piece.ofNode_moved]
    exact .leaf (by exact found)
  | group paren der closed ih =>
    have inner := ih flat.tail
    rw [skips _ closed (by decide)] at inner
    rw [skips _ paren (by decide)]
    exact .group (by exact paren) inner closed
  | groupBlock _ line => exact (flat.tail.not_line line).elim
  | name dot ident attrs _ ihAttrs ihDefined =>
    have first := attrs.uses flat.tail.tail
    have attributed := ihAttrs flat.tail.tail
    have defined := ihDefined (first.unlined flat.tail.tail)
    have trees : ∀ X : List Piece, (X.map Piece.tree).map (Tree.moved S.shift) =
        (X.map (Piece.moved S.shift)).map Piece.tree := by
      intro X
      rw [List.map_map, List.map_map]
      rfl
    rw [skips _ dot (by decide), skips _ ident (by decide), List.map_singleton, Piece.ofNode_moved, trees,
      List.map_append]
    refine .name (by exact dot) (by exact ident) attributed ?_
    rw [List.isEmpty_map]
    exact defined
  | control heading line => exact (((heading.uses flat).unlined flat).not_line line).elim
  | unattributed => exact .unattributed
  | noAttributes open_ closed =>
    rw [skips _ open_ (by decide), skips _ closed (by decide), List.map_singleton, Piece.ofNode_moved]
    exact .noAttributes (by exact open_) (by exact closed)
  | attributes open_ _ closed ih =>
    have inner := ih flat.tail
    rw [skips _ closed (by decide)] at inner
    rw [skips _ open_ (by decide), List.map_singleton, Piece.ofNode_moved]
    exact .attributes (by exact open_) inner closed
  | undefined allowed => exact .undefined (allows_name allowed)
  | value equal _ allowed ih =>
    rw [skips _ equal (by decide), List.map_singleton, Piece.ofNode_moved]
    exact .value (by exact equal) (ih flat.tail) (allows_value allowed)
  | body line => exact (flat.not_line line).elim
  | header found _ ih =>
    have more := (headerTag?_enclosable found).more
    rw [lexemes_cons more]
    exact .header (by exact found) (ih flat.tail)
  | otherwise word =>
    rw [skips _ word (by decide)]
    exact .otherwise (by exact word)

end Seat
end Offside
