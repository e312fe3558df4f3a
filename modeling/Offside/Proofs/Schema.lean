import Offside.Proofs.Recognition

/-! What the nodes of a finished tree look like: the token that each kind carries, the children that it
takes and the kinds of node that it may stand under. The grammar says all of it, one rule at a time. -/
namespace Offside

namespace NodeTag

/-- The kind of token that a node is made from; blocks, attribute lists and values have none. -/
def tokenTag? : NodeTag → Option TokenTag
  | number => some .number
  | string => some .string
  | char => some .char
  | identifier | nameDef => some .identifier
  | enumAnd => some .comma
  | enumOr => some .pipe
  | assign => some .equal
  | add => some .plus
  | sub | negate => some .minus
  | concat => some .plusPlus
  | mul => some .star
  | div => some .slash
  | pow => some .caret
  | ifThen => some .kwIf
  | elifThen => some .kwElif
  | elseThen => some .kwElse
  | forEach => some .kwFor
  | whileLoop => some .kwWhile
  | group => some .lParen
  | blockAnd | blockOr | blockAssign | attrs | value => none

/-- How many children a finished node has, and of which kinds those of a name are. Groups and open
bodies are never finished. -/
def Takes (tag : NodeTag) (kids : List NodeTag) : Prop :=
  match tag with
  | number | string | char | identifier => kids = []
  | negate | value | elseThen => kids.length = 1
  | assign | add | sub | concat | mul | div | pow => kids.length = 2
  | ifThen | elifThen | forEach | whileLoop => kids.length = 2
  | blockAnd | blockOr | enumAnd | enumOr => 2 ≤ kids.length
  | attrs => kids.length ≤ 1
  | nameDef => kids ∈ [[], [attrs], [value], [attrs, value]]
  | group | blockAssign => False

/-- Attribute lists and values belong to names. An assignment stands in an attribute list, on its own
or in an enumeration, or to the left of another assignment. -/
def MayStand (parent : NodeTag) (i : Nat) (child : NodeTag) : Prop :=
  (child = attrs ∨ child = value → parent = nameDef) ∧
    (child = assign → parent = assign ∧ i = 0 ∨ parent ∈ [enumOr, enumAnd, attrs])

structure Conforms (tag : NodeTag) (token : Option Token) (kids : List NodeTag) : Prop where
  token : token.map Token.tag = tag.tokenTag?
  children : tag.Takes kids
  placed : ∀ i child, kids[i]? = some child → tag.MayStand i child

end NodeTag

namespace Tree

inductive Conforms : Tree → Prop where
  | node {tag : NodeTag} {token : Option Token} {kids : List Tree} :
      tag.Conforms token (kids.map Tree.tag) → (∀ t ∈ kids, Conforms t) →
        Conforms (node tag token kids)

/- A tree that may stand wherever an expression may, outside of attribute lists. -/
structure Plain (t : Tree) : Prop where
  conforms : t.Conforms
  free : t.tag ≠ .attrs ∧ t.tag ≠ .value ∧ t.tag ≠ .assign

theorem Plain.stands {t : Tree} (h : t.Plain) (parent : NodeTag) (i : Nat) :
    parent.MayStand i t.tag :=
  ⟨fun other => (other.elim h.free.1 h.free.2.1).elim, fun other => absurd other h.free.2.2⟩

theorem Conforms.of_plain {tag : NodeTag} {token : Option Token} {kids : List Tree}
    (carries : token.map Token.tag = tag.tokenTag?) (takes : tag.Takes (kids.map Tree.tag))
    (plain : ∀ t ∈ kids, t.Plain) : (Tree.node tag token kids).Conforms := by
  refine .node ⟨carries, takes, ?_⟩ fun t member => (plain t member).conforms
  intro i child found
  rw [List.getElem?_map] at found
  obtain ⟨t, there, rfl⟩ := Option.map_eq_some_iff.mp found
  exact (plain t (List.mem_of_getElem? there)).stands tag i

end Tree

structure Scope.Term (scope : Scope) (p : Nat) (t : Tree) : Prop where
  conforms : t.Conforms
  free : t.tag ≠ .attrs ∧ t.tag ≠ .value
  assigns : t.tag = .assign → scope = .attrs ∧ p ≤ NodeTag.assign.precedence

namespace Scope.Term

variable {scope : Scope} {p : Nat} {t : Tree}

theorem of_plain (h : t.Plain) : scope.Term p t :=
  ⟨h.conforms, ⟨h.free.1, h.free.2.1⟩, fun assign => absurd assign h.free.2.2⟩

theorem plain (h : scope.Term p t) (other : scope ≠ .attrs) : t.Plain :=
  ⟨h.conforms, h.free.1, h.free.2, fun assign => other (h.assigns assign).1⟩

theorem plain_of_strong (h : scope.Term p t) (strong : NodeTag.assign.precedence < p) : t.Plain :=
  ⟨h.conforms, h.free.1, h.free.2, fun assign => absurd strong (Nat.not_lt.mpr (h.assigns assign).2)⟩

theorem weaken (h : scope.Term (p + 1) t) : scope.Term p t :=
  ⟨h.conforms, h.free, fun assign => ⟨(h.assigns assign).1, Nat.le_of_succ_le (h.assigns assign).2⟩⟩

end Scope.Term

section Operators

variable {scope : Scope} {l : Nat} {tag : NodeTag} {token : Option Token} {ts rest : List Lexeme}

theorem operatorTag?_token {t : TokenTag} (h : operatorTag? t = some tag) :
    tag.tokenTag? = some t ∧ tag ≠ .assign := by
  cases t <;> simp [operatorTag?] at h <;> subst h <;> decide

theorem operator?_token (h : scope.operator? l ts = some (tag, token, rest)) :
    token.map Token.tag = tag.tokenTag? ∧ (tag = .assign → scope = .attrs) := by
  rcases Scope.operator?_cases h with ⟨x, -, rfl, plain | ⟨equal, rfl, attrs⟩⟩ |
    ⟨x, -, -, rfl, ⟨-, rfl⟩ | ⟨y, -, -, rfl⟩⟩
  · obtain ⟨carries, other⟩ := operatorTag?_token plain
    exact ⟨carries.symm, fun assign => absurd assign other⟩
  · exact ⟨congrArg some equal, fun _ => attrs⟩
  · exact ⟨rfl, nofun⟩
  · exact ⟨rfl, nofun⟩

theorem operator?_attrs (h : Scope.attrs.operator? l ts = some (tag, token, rest)) :
    (tag.leftStrength ≤ NodeTag.assign.precedence → tag ∈ [.assign, .enumOr, .enumAnd]) ∧
      (tag.rightStrength ≤ NodeTag.assign.precedence → tag ∈ [.enumOr, .enumAnd]) := by
  rcases Scope.operator?_cases h with ⟨x, -, -, plain | ⟨-, rfl, -⟩⟩ | ⟨x, -, block, -⟩
  · cases kind : x.tag <;> simp [kind, operatorTag?] at plain <;> subst plain <;> decide
  · decide
  · cases block

theorem takes_two (h : scope.operator? l ts = some (tag, token, rest)) (x y : NodeTag) :
    tag.Takes [x, y] := by
  obtain ⟨shape, positive, -⟩ := operator?_binary h
  cases tag <;> simp [NodeTag.shape, NodeTag.precedence] at shape positive <;> simp [NodeTag.Takes]

theorem takes_grown (grows : tag.grows = true) {kids : List NodeTag} (many : 2 ≤ kids.length) :
    tag.Takes kids := by
  cases tag <;> first | exact many | cases grows

end Operators

namespace Tree

theorem Conforms.extend {t u : Tree} (ht : t.Conforms) (hu : u.Conforms)
    (grows : t.tag.grows = true) (stands : ∀ i, t.tag.MayStand i u.tag) : (t.extend u).Conforms := by
  obtain @⟨tag, token, kids, node, each⟩ := ht
  have many : 2 ≤ (kids.map Tree.tag).length := by
    have takes := node.children
    have grows : tag.grows = true := grows
    cases tag <;> first | exact takes | cases grows
  refine .node ⟨node.token, takes_grown grows ?_, ?_⟩ ?_
  · rw [List.map_append, List.length_append]
    omega
  · intro i child found
    rw [List.map_append, List.getElem?_append] at found
    split at found
    · exact node.placed i child found
    · have last := List.mem_of_getElem? found
      rw [List.map_singleton, List.mem_singleton] at last
      exact last ▸ stands i
  · intro v member
    rcases List.mem_append.mp member with member | member
    · exact each v member
    · obtain rfl := List.mem_singleton.mp member
      exact hu

theorem Conforms.pair {tag : NodeTag} {token : Option Token} {t u : Tree} (ht : t.Conforms)
    (hu : u.Conforms) (carries : token.map Token.tag = tag.tokenTag?) (takes : tag.Takes [t.tag, u.tag])
    (first : tag.MayStand 0 t.tag) (second : tag.MayStand 1 u.tag) :
    (Tree.node tag token [t, u]).Conforms := by
  refine .node ⟨carries, takes, ?_⟩ ?_
  · intro i child found
    rcases i with _ | _ | i
    · exact Option.some.inj found ▸ first
    · exact Option.some.inj found ▸ second
    · cases found
  · intro v member
    simp only [List.mem_cons, List.not_mem_nil, or_false] at member
    rcases member with rfl | rfl
    · exact ht
    · exact hu

end Tree

theorem Piece.join_tag (tag : NodeTag) (token : Option Token) (x y : Piece) :
    (x.join tag token y).tree.tag = tag := by
  unfold Piece.join
  split
  · rename_i grows
    simp only [Bool.and_eq_true, beq_iff_eq] at grows
    obtain ⟨⟨tree⟩, grouped⟩ := x
    exact grows.2
  · rfl

theorem Scope.Term.join {scope : Scope} {l : Nat} {tag : NodeTag} {token : Option Token}
    {ts rest : List Lexeme} {x y : Piece} (found : scope.operator? l ts = some (tag, token, rest))
    (left : scope.Term tag.leftStrength x.tree) (right : scope.Term tag.rightStrength y.tree) :
    scope.Term tag.precedence (x.join tag token y).tree := by
  obtain ⟨carries, assigns⟩ := operator?_token found
  have first : tag.MayStand 0 x.tree.tag := by
    refine ⟨fun other => (other.elim left.free.1 left.free.2).elim, fun assign => ?_⟩
    obtain ⟨rfl, weak⟩ := left.assigns assign
    have member := (operator?_attrs found).1 weak
    simp only [List.mem_cons, List.not_mem_nil, or_false] at member ⊢
    rcases member with rfl | rfl | rfl <;> simp
  have second : ∀ i, tag.MayStand i y.tree.tag := by
    refine fun i => ⟨fun other => (other.elim right.free.1 right.free.2).elim, fun assign => ?_⟩
    obtain ⟨rfl, weak⟩ := right.assigns assign
    have member := (operator?_attrs found).2 weak
    simp only [List.mem_cons, List.not_mem_nil, or_false] at member ⊢
    rcases member with rfl | rfl <;> simp
  have positive := (operator?_binary found).2.1
  refine ⟨?_, ?_, ?_⟩
  · unfold Piece.join
    split
    · rename_i grows
      simp only [Bool.and_eq_true, beq_iff_eq] at grows
      obtain ⟨⟨grows, -⟩, same⟩ := grows
      refine left.conforms.extend right.conforms (same ▸ grows) ?_
      exact same ▸ second
    · exact left.conforms.pair right.conforms carries (takes_two found _ _) first (second 1)
  · rw [Piece.join_tag]
    constructor <;> rintro rfl <;> cases positive
  · rw [Piece.join_tag]
    intro assign
    exact ⟨assigns assign, assign ▸ Nat.le_refl _⟩

/- What the trees of a phrase are like. The heading of a control construct says which construct it
is; its body is still to come. -/
def Phrase.Builds : Phrase → List Lexeme → List Tree → Prop
  | .term scope _ p, _, trees => ∀ t ∈ trees, scope.Term p t
  | .operand _, _, trees => ∀ t ∈ trees, t.Plain
  | .attributes _, _, trees => trees.map Tree.tag ∈ [[], [.attrs]] ∧ ∀ t ∈ trees, t.Conforms
  | .definition _ _, _, trees => trees.map Tree.tag ∈ [[], [.value]] ∧ ∀ t ∈ trees, t.Conforms
  | .heading tag _, ts, trees => (∃ k ∈ ts.head?, tag.tokenTag? = some k.tag) ∧
      (∀ body, tag.Takes (trees.map Tree.tag ++ [body])) ∧ ∀ t ∈ trees, t.Plain

theorem headerTag?_token {k : TokenTag} {tag : NodeTag} (h : headerTag? k = some tag) :
    tag.tokenTag? = some k ∧ ∀ x y, tag.Takes [x, y] := by
  cases k <;> simp [headerTag?] at h <;> subst h <;> exact ⟨rfl, fun _ _ => rfl⟩

theorem leafTag?_plain {t : Token} {tag : NodeTag} (h : leafTag? t.tag = some tag) :
    (Tree.node tag (some t) []).Plain := by
  have carries : (some t).map Token.tag = tag.tokenTag? := by
    rw [Option.map_some]
    cases kind : t.tag <;> simp [kind, leafTag?] at h <;> subst h <;> rfl
  have leaf : tag.Takes [] ∧ tag ≠ .attrs ∧ tag ≠ .value ∧ tag ≠ .assign := by
    cases kind : t.tag <;> simp [kind, leafTag?] at h <;> subst h <;> exact ⟨rfl, by decide⟩
  exact ⟨.of_plain carries leaf.1 (by simp), leaf.2⟩

variable {ends : Tail → List Lexeme → Prop} {l : Nat} {ts mid rest : List Lexeme}

theorem plain_name {n : Lexeme} {attributed : Bool} {A V : List Tree} (ident : n.tag = .identifier)
    (attrs : (Phrase.attributes l).Builds ts A)
    (defined : (Phrase.definition attributed l).Builds mid V) :
    (Tree.node .nameDef (some n.token) (A ++ V)).Plain := by
  obtain ⟨attrTags, attrs⟩ := attrs
  obtain ⟨valueTags, values⟩ := defined
  have tags : (A ++ V).map Tree.tag ∈ [[], [.attrs], [.value], [.attrs, NodeTag.value]] := by
    rw [List.map_append]
    simp only [List.mem_cons, List.not_mem_nil, or_false] at attrTags valueTags ⊢
    rcases attrTags with attrTags | attrTags <;> rcases valueTags with valueTags | valueTags <;>
      simp [attrTags, valueTags]
  refine ⟨.node ⟨congrArg some ident, tags, ?_⟩ ?_, nofun, nofun, nofun⟩
  · intro i child found
    refine ⟨fun _ => rfl, ?_⟩
    rintro rfl
    have member := List.mem_of_getElem? found
    have none : ∀ tags ∈ [[], [.attrs], [.value], [.attrs, NodeTag.value]], .assign ∉ tags := by
      decide
    exact absurd member (none _ tags)
  · intro t member
    exact (List.mem_append.mp member).elim (attrs t) (values t)

theorem plain_control {k n : Lexeme} {tag : NodeTag} {H : List Piece} {body : Tree}
    (heading : Derives ends (.heading tag l) (k :: ts) H (n :: mid))
    (heads : (Phrase.heading tag l).Builds (k :: ts) (H.map Piece.tree)) (plain : body.Plain) :
    (Tree.node tag (some k.token) (H.map Piece.tree ++ [body])).Plain := by
  obtain ⟨⟨_, ⟨⟩, carries⟩, takes, each⟩ := heads
  obtain ⟨shape, mark, other⟩ := heading_marker heading
  refine ⟨.of_plain carries.symm ?_ ?_, other, ?_, ?_⟩
  · rw [List.map_append]
    exact takes body.tag
  · intro t member
    rcases List.mem_append.mp member with member | member
    · exact each t member
    · exact List.mem_singleton.mp member ▸ plain
  · rintro rfl
    cases shape
  · rintro rfl
    cases shape

theorem conforms_single {tag : NodeTag} {t : Tree} (carries : tag.tokenTag? = none)
    (takes : tag.Takes [t.tag]) (inner : t.Conforms) (stands : tag.MayStand 0 t.tag) :
    (Tree.node tag none [t]).Conforms := by
  refine .node ⟨carries.symm, takes, ?_⟩ ?_
  · intro i child found
    rcases i with _ | i
    · exact Option.some.inj found ▸ stands
    · cases found
  · intro u member
    exact List.mem_singleton.mp member ▸ inner

theorem conforms_value {t : Tree} (plain : t.Plain) : (Tree.node .value none [t]).Conforms :=
  conforms_single rfl rfl plain.conforms (plain.stands .value 0)

/-- Every phrase is built as its kind demands. -/
theorem Derives.builds {phrase : Phrase} {X : List Piece} (h : Derives ends phrase ts X rest) :
    phrase.Builds ts (X.map Piece.tree) := by
  induction h with
  | weaken _ ih => exact fun t member => (ih t member).weaken
  | binary _ found _ left right =>
    simp only [Phrase.Builds, List.map_singleton, List.forall_mem_singleton] at left right ⊢
    exact NodeTag.strength_eq _ ▸ left.join found right
  | @negate scope l m ts rest x minus _ ih =>
    simp only [Phrase.Builds, List.map_singleton, List.forall_mem_singleton] at ih ⊢
    have inner := ih.plain_of_strong (by decide)
    have negated : (Tree.node .negate (some m.token) [x.tree]).Conforms :=
      .of_plain (congrArg some minus) rfl (List.forall_mem_singleton.mpr inner)
    exact .of_plain ⟨negated, nofun, nofun, nofun⟩
  | single _ ih => exact fun t member => .of_plain (ih t member)
  | leaf found =>
    simp only [Phrase.Builds, List.map_singleton, List.forall_mem_singleton]
    exact leafTag?_plain found
  | group _ _ _ ih =>
    simp only [Phrase.Builds, List.map_singleton, List.forall_mem_singleton] at ih ⊢
    exact ih.plain nofun
  | groupBlock _ _ _ _ ih =>
    simp only [Phrase.Builds, List.map_singleton, List.forall_mem_singleton] at ih ⊢
    exact ih.plain nofun
  | name _ ident _ _ attrs defined =>
    simp only [Phrase.Builds, List.map_singleton, List.forall_mem_singleton, List.map_append]
    exact plain_name ident attrs defined
  | control heading _ _ _ heads ih =>
    simp only [Phrase.Builds, List.map_singleton, List.forall_mem_singleton, List.map_append] at ih ⊢
    exact plain_control heading heads (ih.plain nofun)
  | unattributed => exact ⟨by simp, by simp⟩
  | noAttributes _ _ =>
    simp only [Phrase.Builds, List.map_singleton, List.forall_mem_singleton]
    exact ⟨by simp [Piece.ofNode, Tree.tag], .of_plain rfl (Nat.zero_le 1) (by simp)⟩
  | attributes _ _ _ ih =>
    simp only [Phrase.Builds, List.map_singleton, List.forall_mem_singleton] at ih ⊢
    refine ⟨by simp [Piece.ofNode, Tree.tag], conforms_single rfl (Nat.le_refl 1) ih.conforms ?_⟩
    exact ⟨fun other => (other.elim ih.free.1 ih.free.2).elim, fun _ => .inr (by simp)⟩
  | undefined _ => exact ⟨by simp, by simp⟩
  | value _ _ _ ih =>
    simp only [Phrase.Builds, List.map_singleton, List.forall_mem_singleton] at ih ⊢
    exact ⟨by simp [Piece.ofNode, Tree.tag], conforms_value (ih.plain nofun)⟩
  | body _ _ _ ih =>
    simp only [Phrase.Builds, List.map_singleton, List.forall_mem_singleton] at ih ⊢
    exact ⟨by simp [Piece.ofNode, Tree.tag], conforms_value (ih.plain nofun)⟩
  | header found _ ih =>
    simp only [Phrase.Builds, List.map_singleton, List.forall_mem_singleton] at ih ⊢
    obtain ⟨carries, takes⟩ := headerTag?_token found
    exact ⟨⟨_, rfl, carries⟩, fun body => takes _ body, ih.plain nofun⟩
  | otherwise word => exact ⟨⟨_, rfl, congrArg some word.symm⟩, fun _ => rfl, by simp⟩

namespace Arena

variable {a : Arena} {id child : NodeId} {t : Tree}

theorem Shows.tag? (h : a.Shows id t) : a.tag? id = some t.tag := by
  cases h with
  | node found => rw [Arena.tag?, found]; rfl

/-- Whatever is reached from a tree that conforms conforms itself. -/
theorem Shows.reached (h : a.Shows id t) (conforms : t.Conforms)
    (path : Relation.ReflTransGen a.Owns id child) : ∃ u, a.Shows child u ∧ u.Conforms := by
  induction path with
  | refl => exact ⟨t, h, conforms⟩
  | tail _ owns ih =>
    obtain ⟨u, shown, conforms⟩ := ih
    cases conforms with
    | node _ each =>
      obtain ⟨v, member, shown'⟩ := shown.kid owns
      exact ⟨v, shown', each v member⟩

theorem Shows.node_conforms (h : a.Shows id t) (conforms : t.Conforms) :
    ∃ n kids, a.get? id = some n ∧ n.children.map a.tag? = kids.map some ∧
      n.tag.Conforms n.token kids := by
  cases h with
  | @node _ n kids found length each =>
    cases conforms with
    | node conforms _ =>
      refine ⟨n, kids.map Tree.tag, found, ?_, conforms⟩
      refine List.ext_getElem (by simpa using length) ?_
      intro i hi hi'
      rw [List.length_map] at hi
      simp only [List.length_map] at hi'
      simpa using (each _ (getElem_mem_zip hi hi')).tag?

end Arena

/-- Every node of a parsed tree has the token and the children of its kind, and stands where its kind
may stand; the root is an expression. -/
theorem Source.parse_schema (s : Source) (a : Arena) (root : NodeId)
    (parsed : (s.parse a).outcome = .ok (some root)) :
    (∀ tag, (s.parse a).arena.tag? root = some tag → tag ∉ [.attrs, .value, .assign]) ∧
      ∀ id, Relation.ReflTransGen (s.parse a).arena.Owns root id →
        ∃ n kids, (s.parse a).arena.get? id = some n ∧
          n.children.map (s.parse a).arena.tag? = kids.map some ∧ n.tag.Conforms n.token kids := by
  obtain ⟨tree, ⟨ts, -, x, e, der, -, rfl⟩, shown⟩ := parse_shows parsed
  have plain : x.tree.Plain := (der.builds x.tree (by simp)).plain nofun
  constructor
  · intro tag found
    obtain rfl := Option.some.inj (found.symm.trans shown.tag?)
    simpa using plain.free
  · intro id path
    obtain ⟨u, shown', conforms⟩ := shown.reached plain.conforms path
    exact shown'.node_conforms conforms

theorem Source.parse_schema_attributes :
    ((ofText ".a[b=1]").parse .empty).outcome = .ok (some ⟨4⟩) ∧
      ∃ n kids, ((ofText ".a[b=1]").parse .empty).arena.get? ⟨4⟩ = some n ∧
        n.children.map ((ofText ".a[b=1]").parse .empty).arena.tag? = kids.map some ∧
        n.tag.Conforms n.token kids := by
  have parsed : ((ofText ".a[b=1]").parse .empty).outcome = .ok (some ⟨4⟩) :=
    outcome_of_within (n := 20) rfl
  exact ⟨parsed, (parse_schema _ _ _ parsed).2 _ .refl⟩

end Offside
