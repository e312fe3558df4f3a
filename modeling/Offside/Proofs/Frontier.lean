import Offside.Proofs.Schema

/-! The tokens of a source in its tree. Read in pre-order, the nodes that stand for words and literals
list the words and literals of the source; what an operator joins lies on either side of it. -/
namespace Offside

/-- Words and literals; all other tokens only say how these belong together. -/
def TokenTag.isContent : TokenTag → Bool
  | .number | .string | .char | .identifier => true
  | .kwIf | .kwElif | .kwElse | .kwFor | .kwWhile => true
  | _ => false

def NodeTag.isContent : NodeTag → Bool
  | .number | .string | .char | .identifier | .nameDef => true
  | .ifThen | .elifThen | .elseThen | .forEach | .whileLoop => true
  | _ => false

/-- The operators that keep the token between their first two operands. -/
def NodeTag.separates (tag : NodeTag) : Bool :=
  tag.shape == .pair || tag == .enumAnd || tag == .enumOr

namespace Tree

mutual

def preorder : Tree → List (NodeTag × Option Token)
  | node tag token kids => (tag, token) :: preorders kids

def preorders : List Tree → List (NodeTag × Option Token)
  | [] => []
  | t :: rest => t.preorder ++ preorders rest

end

def tokens (t : Tree) : List Token := t.preorder.filterMap Prod.snd

theorem preorders_append (ts us : List Tree) : preorders (ts ++ us) = preorders ts ++ preorders us := by
  induction ts with
  | nil => rfl
  | cons t ts ih => simp [preorders, ih]

theorem mem_tokens_node {tag : NodeTag} {token : Option Token} {kids : List Tree} {u : Token} :
    u ∈ (node tag token kids).tokens ↔ token = some u ∨ ∃ t ∈ kids, u ∈ t.tokens := by
  have below : ∀ ts : List Tree, u ∈ (preorders ts).filterMap Prod.snd ↔ ∃ t ∈ ts, u ∈ t.tokens := by
    intro ts
    induction ts with
    | nil => simp [preorders]
    | cons t ts ih => simp [preorders, tokens, List.filterMap_append, ih]
  rw [← below, tokens, preorder, List.filterMap_cons]
  cases token with
  | none => simp
  | some t => simp [eq_comm]

/-- The token of an operator lies behind its first operand and before its second. -/
inductive Ordered : Tree → Prop where
  | node {tag : NodeTag} {token : Option Token} {kids : List Tree} :
      (tag.separates = true → ∃ t x y more, token = some t ∧ kids = x :: y :: more ∧
        (∀ u ∈ x.tokens, u.stop ≤ t.start) ∧ ∀ u ∈ y.tokens, t.stop ≤ u.start) →
      (∀ t ∈ kids, Ordered t) → Ordered (node tag token kids)

end Tree

def Lexeme.Sorted (xs : List Lexeme) : Prop := xs.Pairwise fun x y => x.token.stop ≤ y.token.start

def contents (nodes : List (NodeTag × Option Token)) : List (Option Token) :=
  (nodes.filter fun n => n.1.isContent).map Prod.snd

/- The trees that were made from the lexemes, all of them and nothing else. -/
structure Spans (used : List Lexeme) (trees : List Tree) : Prop where
  contents : contents (Tree.preorders trees) =
    (used.filter fun x => x.tag.isContent).map fun x => some x.token
  within : ∀ t ∈ trees, ∀ u ∈ t.tokens, ∃ x ∈ used, x.token = u
  ordered : Lexeme.Sorted used → ∀ t ∈ trees, t.Ordered

namespace Spans

variable {xs ys : List Lexeme} {ts us : List Tree} {x : Lexeme} {tag : NodeTag} {t u : Tree}

theorem append (h : Spans xs ts) (h' : Spans ys us) : Spans (xs ++ ys) (ts ++ us) := by
  refine ⟨?_, ?_, ?_⟩
  · have front := h.contents
    have back := h'.contents
    unfold Offside.contents at front back ⊢
    rw [Tree.preorders_append, List.filter_append, List.map_append, front, back, List.filter_append,
      List.map_append]
  · intro t member u inside
    rcases List.mem_append.mp member with member | member
    · obtain ⟨x, hx, rfl⟩ := h.within t member u inside
      exact ⟨x, List.mem_append_left _ hx, rfl⟩
    · obtain ⟨x, hx, rfl⟩ := h'.within t member u inside
      exact ⟨x, List.mem_append_right _ hx, rfl⟩
  · intro sorted t member
    obtain ⟨front, back, -⟩ := List.pairwise_append.mp sorted
    rcases List.mem_append.mp member with member | member
    · exact h.ordered front t member
    · exact h'.ordered back t member

theorem nil : Spans [] [] := ⟨rfl, by simp, by simp⟩

theorem mark (plain : x.tag.isContent = false) : Spans [x] [] := by
  refine ⟨?_, by simp, by simp⟩
  rw [List.filter_cons_of_neg (by simp [plain])]
  rfl

theorem before (plain : x.tag.isContent = false) (h : Spans xs ts) : Spans (x :: xs) ts :=
  (mark plain).append h

theorem after (plain : x.tag.isContent = false) (h : Spans xs ts) : Spans (xs ++ [x]) ts := by
  simpa using h.append (mark plain)

theorem node (same : tag.isContent = x.tag.isContent) (plain : tag.separates = false)
    (h : Spans xs ts) : Spans (x :: xs) [.node tag (some x.token) ts] := by
  refine ⟨?_, ?_, ?_⟩
  · have inner := h.contents
    unfold Offside.contents at inner ⊢
    simp only [Tree.preorders, Tree.preorder, List.append_nil, List.filter_cons, same]
    split
    · rw [List.map_cons, List.map_cons, inner]
    · exact inner
  · intro t member u inside
    obtain rfl := List.mem_singleton.mp member
    rcases (Tree.mem_tokens_node.mp inside) with own | ⟨k, kid, inside⟩
    · exact ⟨x, by simp, Option.some.inj own⟩
    · obtain ⟨y, hy, rfl⟩ := h.within k kid u inside
      exact ⟨y, by simp [hy], rfl⟩
  · intro sorted t member
    obtain rfl := List.mem_singleton.mp member
    exact .node (by simp [plain]) (h.ordered (List.pairwise_cons.mp sorted).2)

theorem wrap (bare : tag.isContent = false) (plain : tag.separates = false) (h : Spans xs ts) :
    Spans xs [.node tag none ts] := by
  refine ⟨?_, ?_, ?_⟩
  · rw [← h.contents]
    simp [Offside.contents, Tree.preorders, Tree.preorder, bare]
  · intro t member u inside
    obtain rfl := List.mem_singleton.mp member
    rcases (Tree.mem_tokens_node.mp inside) with own | ⟨k, kid, inside⟩
    · cases own
    · exact h.within k kid u inside
  · intro sorted t member
    obtain rfl := List.mem_singleton.mp member
    exact .node (by simp [plain]) (h.ordered sorted)

theorem pair (bare : tag.isContent = false) (plain : x.tag.isContent = false) (h : Spans xs [t])
    (h' : Spans ys [u]) : Spans (xs ++ x :: ys) [.node tag (some x.token) [t, u]] := by
  have both := (h.after plain).append h'
  simp only [List.append_assoc, List.cons_append, List.nil_append] at both
  refine ⟨?_, ?_, ?_⟩
  · rw [← both.contents]
    simp [Offside.contents, Tree.preorders, Tree.preorder, bare]
  · intro v member w inside
    obtain rfl := List.mem_singleton.mp member
    rcases (Tree.mem_tokens_node.mp inside) with own | ⟨k, kid, inside⟩
    · exact ⟨x, by simp, Option.some.inj own⟩
    · exact both.within k kid w inside
  · intro sorted v member
    obtain rfl := List.mem_singleton.mp member
    refine .node (fun _ => ⟨x.token, t, u, [], rfl, rfl, ?_, ?_⟩) (both.ordered sorted)
    · intro w inside
      obtain ⟨y, hy, rfl⟩ := h.within t (by simp) w inside
      exact (List.pairwise_append.mp sorted).2.2 y hy x (by simp)
    · intro w inside
      obtain ⟨y, hy, rfl⟩ := h'.within u (by simp) w inside
      exact (List.pairwise_cons.mp (List.pairwise_append.mp sorted).2.1).1 y hy

theorem extend (h : Spans xs [t]) (h' : Spans ys [u]) : Spans (xs ++ ys) [t.extend u] := by
  have both := h.append h'
  obtain ⟨tag, token, kids⟩ := t
  refine ⟨?_, ?_, ?_⟩
  · rw [← both.contents]
    simp [Offside.contents, Tree.preorders, Tree.preorder, Tree.extend, Tree.preorders_append]
  · intro v member w inside
    obtain rfl := List.mem_singleton.mp member
    have old := both.within (.node tag token kids) (by simp) w
    rw [Tree.mem_tokens_node] at old
    rcases Tree.mem_tokens_node.mp inside with own | ⟨k, kid, below⟩
    · exact old (.inl own)
    · rcases List.mem_append.mp kid with kid | kid
      · exact old (.inr ⟨k, kid, below⟩)
      · obtain rfl := List.mem_singleton.mp kid
        exact both.within k (by simp) w below
  · intro sorted v member
    obtain rfl := List.mem_singleton.mp member
    have ordered := both.ordered sorted
    cases ordered (.node tag token kids) (by simp) with
    | node separated each =>
      refine .node ?_ ?_
      -- The first two elements stay where they are.
      · intro separates
        obtain ⟨o, x, y, more, rfl, rfl, front, back⟩ := separated separates
        exact ⟨o, x, y, more ++ [u], rfl, rfl, front, back⟩
      · intro k kid
        rcases List.mem_append.mp kid with kid | kid
        · exact each k kid
        · obtain rfl := List.mem_singleton.mp kid
          exact ordered k (by simp)

end Spans

theorem operatorTag?_mark {t : TokenTag} {tag : NodeTag} (h : operatorTag? t = some tag) :
    t.isContent = false ∧ tag.isContent = false := by
  cases t <;> simp [operatorTag?] at h <;> subst h <;> decide

namespace Spans

variable {xs ys : List Lexeme} {x y : Piece} {tag : NodeTag} {o : Lexeme}

theorem join_token (bare : tag.isContent = false) (plain : o.tag.isContent = false)
    (left : Spans xs [x.tree]) (right : Spans ys [y.tree]) :
    Spans (xs ++ [o] ++ ys) [(x.join tag (some o.token) y).tree] := by
  unfold Piece.join
  split
  · exact (left.after plain).extend right
  · simpa [Piece.ofNode] using left.pair bare plain right

theorem join_line {ops : List Lexeme} (bare : tag.isContent = false) (plain : tag.separates = false)
    (left : Spans xs [x.tree]) (marks : Spans ops []) (right : Spans ys [y.tree]) :
    Spans (xs ++ ops ++ ys) [(x.join tag none y).tree] := by
  have front : Spans (xs ++ ops) [x.tree] := left.append marks
  unfold Piece.join
  split
  · exact front.extend right
  · exact (front.append right).wrap bare plain

theorem join {scope : Scope} {l : Nat} {token : Option Token} {mid rest : List Lexeme}
    (found : scope.operator? l mid = some (tag, token, rest)) (left : Spans xs [x.tree])
    (right : Spans ys [y.tree]) :
    ∃ ops, mid = ops ++ rest ∧ Spans (xs ++ ops ++ ys) [(x.join tag token y).tree] := by
  rcases Scope.operator?_cases found with ⟨o, rfl, rfl, plain | ⟨equal, rfl, -⟩⟩ |
    ⟨i, line, -, rfl, ⟨rfl, rfl⟩ | ⟨bar, pipe, rfl, rfl⟩⟩
  · obtain ⟨plain, bare⟩ := operatorTag?_mark plain
    exact ⟨[o], rfl, left.join_token bare plain right⟩
  · exact ⟨[o], rfl, left.join_token rfl (by rw [equal]; rfl) right⟩
  · have marks : Spans [i] [] := .mark (by rw [line.1]; rfl)
    exact ⟨[i], rfl, left.join_line rfl rfl marks right⟩
  · have marks : Spans [i, bar] [] := .before (by rw [line.1]; rfl) (.mark (by rw [pipe]; rfl))
    exact ⟨[i, bar], rfl, left.join_line rfl rfl marks right⟩

end Spans

def Phrase.Covers : Phrase → List Lexeme → List Tree → List Lexeme → Prop
  | .heading tag _, ts, trees, rest => ∃ k used, ts = k :: (used ++ rest) ∧
      tag.isContent = k.tag.isContent ∧ tag.separates = false ∧ Spans used trees
  | _, ts, trees, rest => ∃ used, ts = used ++ rest ∧ Spans used trees

theorem leafTag?_content {t : TokenTag} {tag : NodeTag} (h : leafTag? t = some tag) :
    tag.isContent = t.isContent ∧ tag.separates = false := by
  cases t <;> simp [leafTag?] at h <;> subst h <;> decide

theorem headerTag?_content {t : TokenTag} {tag : NodeTag} (h : headerTag? t = some tag) :
    tag.isContent = t.isContent ∧ tag.separates = false := by
  cases t <;> simp [headerTag?] at h <;> subst h <;> decide

/-- Every phrase is made from the lexemes that it is read from. -/
theorem Derives.covers {ends : Tail → List Lexeme → Prop} {phrase : Phrase} {ts rest : List Lexeme}
    {X : List Piece} (h : Derives ends phrase ts X rest) :
    phrase.Covers ts (X.map Piece.tree) rest := by
  induction h with
  | weaken _ ih => exact ih
  | binary _ found _ left right =>
    obtain ⟨xs, rfl, spans⟩ := left
    obtain ⟨ys, rfl, spans'⟩ := right
    obtain ⟨ops, rfl, joined⟩ := spans.join found spans'
    exact ⟨xs ++ ops ++ ys, by simp, joined⟩
  | negate minus _ ih =>
    obtain ⟨xs, rfl, spans⟩ := ih
    exact ⟨_ :: xs, rfl, spans.node (by rw [minus]; rfl) rfl⟩
  | single _ ih => exact ih
  | leaf found =>
    obtain ⟨same, plain⟩ := leafTag?_content found
    exact ⟨[_], rfl, Spans.nil.node same plain⟩
  | group paren _ closed ih =>
    obtain ⟨xs, rfl, spans⟩ := ih
    have inner := (spans.before (by rw [paren]; rfl)).after (by rw [closed]; rfl)
    exact ⟨_, by simp, inner⟩
  | groupBlock paren line _ closes ih =>
    obtain ⟨xs, rfl, spans⟩ := ih
    have inner := (spans.before (by rw [line.1]; rfl)).before (by rw [paren]; rfl)
    obtain ⟨z, closed, rfl | ⟨i, line', rfl⟩⟩ := closes
    · have whole := inner.after (show z.tag.isContent = false by rw [closed]; rfl)
      exact ⟨_, by simp, whole⟩
    · have lined := inner.after (show i.tag.isContent = false by rw [line'.1]; rfl)
      have whole := lined.after (show z.tag.isContent = false by rw [closed]; rfl)
      exact ⟨_, by simp, whole⟩
  | @name _ _ n _ _ _ _ _ dot ident _ _ attrs defined =>
    obtain ⟨xs, rfl, spans⟩ := attrs
    obtain ⟨ys, rfl, spans'⟩ := defined
    have content : NodeTag.nameDef.isContent = n.tag.isContent := by rw [ident]; rfl
    have whole := ((spans.append spans').node content rfl).before (by rw [dot]; rfl)
    rw [← List.map_append] at whole
    exact ⟨_, by simp, whole⟩
  | control _ line _ _ heads ih =>
    obtain ⟨_, xs, split, same, plain, spans⟩ := heads
    obtain ⟨ys, rfl, spans'⟩ := ih
    obtain ⟨rfl, rfl⟩ := List.cons.inj split
    have whole := ((spans.after (by rw [line.1]; rfl)).append spans').node same plain
    rw [← List.map_append] at whole
    exact ⟨_, by simp, whole⟩
  | unattributed => exact ⟨[], rfl, .nil⟩
  | noAttributes open_ closed =>
    have marks := (Spans.mark (by rw [closed]; rfl)).before (by rw [open_]; rfl)
    exact ⟨_, by simp, marks.wrap rfl rfl⟩
  | attributes open_ _ closed ih =>
    obtain ⟨xs, rfl, spans⟩ := ih
    have inner := (spans.before (by rw [open_]; rfl)).after (by rw [closed]; rfl)
    exact ⟨_, by simp, inner.wrap rfl rfl⟩
  | undefined _ => exact ⟨[], rfl, .nil⟩
  | value equal _ _ ih =>
    obtain ⟨xs, rfl, spans⟩ := ih
    have inner := spans.before (by rw [equal]; rfl)
    exact ⟨_, by simp, inner.wrap rfl rfl⟩
  | body line _ _ ih =>
    obtain ⟨xs, rfl, spans⟩ := ih
    have inner := spans.before (by rw [line.1]; rfl)
    exact ⟨_, by simp, inner.wrap rfl rfl⟩
  | header found _ ih =>
    obtain ⟨xs, rfl, spans⟩ := ih
    obtain ⟨same, plain⟩ := headerTag?_content found
    exact ⟨_, xs, rfl, same, plain, spans⟩
  | otherwise word => exact ⟨_, [], rfl, by rw [word]; rfl, rfl, .nil⟩

namespace Scanner

/-- A scanner hands out tokens one after the other, none of them before the place it has come to. -/
theorem tokens_sorted (s : Scanner) :
    (s.tokens.Pairwise fun t u => t.stop ≤ u.start) ∧ ∀ t ∈ s.tokens, s.here.offset ≤ t.start := by
  have start : ∀ s : Scanner, s.here.offset ≤ s.next.1.start := by
    intro s
    simp [next, nextFrom, Place.offset_advance]
  have stop : ∀ s : Scanner, s.next.2.here.offset = s.next.1.stop := fun _ => rfl
  have order : ∀ s : Scanner, s.next.1.start ≤ s.next.1.stop := by
    intro s
    simp [next, nextFrom, Place.offset_advance]
  induction s using entries.induct fun _ => false with
  | case1 s step last =>
    have eof : s.next.1.tag = .eof := by simpa using last
    rw [tokens_eq, if_pos eof]
    simpa using start s
  | case2 s step more ih =>
    have going : ¬s.next.1.tag = .eof := by simpa using more
    obtain ⟨sorted, behind⟩ := ih
    rw [tokens_eq, if_neg going]
    refine ⟨List.pairwise_cons.mpr ⟨?_, sorted⟩, ?_⟩
    · intro t member
      rw [← stop]
      exact behind t member
    · intro t member
      rcases List.mem_cons.mp member with rfl | member
      · exact start s
      · calc s.here.offset ≤ s.next.1.start := start s
          _ ≤ s.next.1.stop := order s
          _ ≤ t.start := behind t member

end Scanner

theorem Grid.label_tokens (g : Grid) (ts : List Token) : (g.label ts).map Lexeme.token = ts := by
  induction ts generalizing g with
  | nil => rfl
  | cons t ts ih =>
    unfold label
    split
    · split <;> rw [List.map_cons, ih]
    · rw [List.map_cons, ih]

/-- The tokens of a source as the parser reads them, from the indentation of the first line on. -/
def Source.layoutTokens (s : Source) : List Token :=
  ((Scanner.ofSource .layout s).entriesFrom (fun _ => false) .lineStart).map Entry.token

/-- The lexemes of a source are its tokens behind the first, on the grid that the first one begins. -/
theorem Source.lexemes_label {s : Source} {ts : List Lexeme} (h : s.lexemes? = some ts) :
    ∃ (first : Token) (rest : List Token), first.tag = .indent ∧ s.layoutTokens = first :: rest ∧
      ts = (Grid.ofTrim first.length).label rest ∧ rest.Pairwise fun t u => t.stop ≤ u.start := by
  unfold lexemes? at h
  dsimp only at h
  split at h
  · rename_i line
    obtain rfl := Option.some.inj h
    refine ⟨_, _, line, ?_, rfl, (Scanner.tokens_sorted _).1⟩
    have going : ¬(((Scanner.ofSource .layout s).nextFrom .lineStart).1.tag = .eof ∨
        false = true) := by
      rw [line]
      decide
    rw [layoutTokens, Scanner.entriesFrom, if_neg going]
    rfl
  · cases h

theorem Source.lexemes_tokens {s : Source} {ts : List Lexeme} (h : s.lexemes? = some ts) :
    ∃ first : Token, first.tag = .indent ∧ s.layoutTokens = first :: ts.map Lexeme.token ∧
      Lexeme.Sorted ts := by
  obtain ⟨first, rest, line, tokens, rfl, sorted⟩ := lexemes_label h
  refine ⟨first, line, ?_, ?_⟩
  · rw [Grid.label_tokens, tokens]
  · rw [← Grid.label_tokens (.ofTrim first.length) rest, List.pairwise_map] at sorted
    exact sorted

theorem Source.Document.spans {s : Source} {ends : Tail → List Lexeme → Prop} {tree : Tree}
    (h : s.Document ends tree) :
    ∃ (first last : Token) (used : List Lexeme), first.tag = .indent ∧ last.tag = .eof ∧
      s.layoutTokens = first :: (used.map Lexeme.token ++ [last]) ∧ Spans used [tree] ∧
      Lexeme.Sorted used := by
  obtain ⟨ts, lexemes, x, e, der, last, rfl⟩ := h
  obtain ⟨first, line, tokens, sorted⟩ := lexemes_tokens lexemes
  obtain ⟨used, rfl, spans⟩ := der.covers
  refine ⟨first, e.token, used, line, last, ?_, spans, (List.pairwise_append.mp sorted).1⟩
  simpa using tokens

theorem Source.Document.ordered {s : Source} {ends : Tail → List Lexeme → Prop} {tree : Tree}
    (h : s.Document ends tree) : tree.Ordered := by
  obtain ⟨_, _, _, _, _, _, spans, sorted⟩ := h.spans
  exact spans.ordered sorted tree (by simp)

/-- A parsed tree lists the words and literals of its source, each once and in their order, and every
operator stands between what it joins. -/
theorem Source.parse_contents (s : Source) (a : Arena) (root : NodeId)
    (parsed : (s.parse a).outcome = .ok (some root)) :
    ∃ tree, (s.parse a).arena.Shows root tree ∧
      contents tree.preorder = (s.layoutTokens.filter fun t => t.tag.isContent).map some ∧
      tree.Ordered := by
  obtain ⟨tree, document, shown⟩ := parse_shows parsed
  obtain ⟨first, last, used, line, eof, tokens, spans, -⟩ := document.spans
  refine ⟨tree, shown, ?_, document.ordered⟩
  have listed := spans.contents
  simp only [Tree.preorders, List.append_nil] at listed
  have start : first.tag.isContent = false := by rw [line]; rfl
  have stop : last.tag.isContent = false := by rw [eof]; rfl
  rw [listed, tokens]
  simp [List.filter_append, List.filter_map, start, stop, Function.comp_def, Lexeme.tag]

theorem Source.parse_contents_attributes :
    ((ofText ".a[1+b,c]").parse .empty).outcome = .ok (some ⟨6⟩) ∧
      ∃ tree, ((ofText ".a[1+b,c]").parse .empty).arena.Shows ⟨6⟩ tree ∧
        contents tree.preorder =
          ((ofText ".a[1+b,c]").layoutTokens.filter fun t => t.tag.isContent).map some ∧
        tree.Ordered := by
  have parsed : ((ofText ".a[1+b,c]").parse .empty).outcome = .ok (some ⟨6⟩) :=
    outcome_of_within (n := 30) rfl
  exact ⟨parsed, parse_contents _ _ _ parsed⟩

end Offside
