import Offside.Proofs.Bounded
import Offside.Proofs.Completeness
import Offside.Proofs.Ownership

/-! The parser and the grammar agree on every source, as long as there is room for the tree. -/
namespace Offside
namespace Source

variable {s : Source} {a : Arena} {tree : Tree}

theorem start_of_lexemes {ts : List Lexeme} (lexemes : s.lexemes? = some ts) (a : Arena) :
    ∃ c, Config.ofSource a s = .ok (some c) ∧
      c.Stands a.nodes.toList .operand [.root] [] [] 0 ts := by
  have line : ((Scanner.ofSource .layout s).nextFrom .lineStart).1.tag = .indent := by
    unfold lexemes? at lexemes
    dsimp only at lexemes
    split at lexemes
    · assumption
    · cases lexemes
  have start : ∃ c, Config.ofSource a s = .ok (some c) := by
    unfold Config.ofSource
    simp only [line]
    exact ⟨_, rfl⟩
  obtain ⟨c, start⟩ := start
  obtain ⟨ts', lexemes', goal, frames, level, ahead, operators, operands, arena⟩ :=
    Config.ofSource_some start
  obtain rfl : ts = ts' := Option.some.inj (lexemes.symm.trans lexemes')
  obtain ⟨_, _, carries, _⟩ := Config.ofSource_tracks start
  exact ⟨c, start, carries, goal, frames, operators, level, ahead⟩

theorem parse_shows {root : NodeId} (parsed : (s.parse a).outcome = .ok (some root)) :
    ∃ tree, s.Document Tail.Allows tree ∧ (s.parse a).arena.Shows root tree := by
  have grown := s.parse_grown a
  have length : a.nodes.toList.length = a.size := Array.length_toList
  rw [parsed] at grown
  generalize (s.parse a).arena = b at grown
  cases grown with
  | @tree t _ document fits within nodes =>
    refine ⟨t, document, ?_⟩
    rw [← length] at nodes ⊢
    exact (within.lies_single fits nodes).shows

theorem size_of_shows {root : NodeId} (parsed : (s.parse a).outcome = .ok (some root))
    (shown : (s.parse a).arena.Shows root tree) :
    (s.parse a).arena.size = a.size + tree.size := by
  have grown := s.parse_grown a
  have length : a.nodes.toList.length = a.size := Array.length_toList
  rw [parsed] at grown
  generalize (s.parse a).arena = b at grown shown ⊢
  cases grown with
  | @tree t _ _ fits within nodes =>
    have total := congrArg List.length nodes
    rw [List.length_append, Tree.length_lay, length] at total
    rw [← length] at nodes shown
    obtain rfl := shown.unique (within.lies_single fits nodes).shows
    exact total

/-- A derived source is parsed with the tree of its derivation. -/
theorem parse_document (document : s.Document Tail.Allows tree) (a : Arena) :
    (s.parse a).outcome = .error .outOfMemory ∨
      ∃ root, (s.parse a).outcome = .ok (some root) ∧ (s.parse a).arena.Shows root tree := by
  obtain ⟨ts, lexemes, document⟩ := document
  obtain ⟨c, start, stands⟩ := start_of_lexemes lexemes a
  rcases document.finishes stands with ⟨w, full⟩ | ⟨d, x, ran, carries, rfl⟩
  · exact .inl (parse_error start full).1
  · obtain ⟨outcome, arena⟩ := parse_ok start ran
    obtain ⟨nodes, fits⟩ := carries.2.laid
    refine .inr ⟨_, outcome, ?_⟩
    rw [arena]
    exact (carries.1.lies_single (fits x (by simp)) (by simpa [Tree.layAll] using nodes)).shows

/-- With room for the tree, a source is parsed exactly if the grammar derives it, and the root shows
the one tree that is derived. -/
theorem parse_iff_document (s : Source) (a : Arena)
    (room : (s.parse a).outcome ≠ .error .outOfMemory) :
    ((∃ root, (s.parse a).outcome = .ok (some root)) ↔ ∃ tree, s.Document Tail.Allows tree) ∧
      ∀ root, (s.parse a).outcome = .ok (some root) →
        ∀ tree, (s.parse a).arena.Shows root tree ↔ s.Document Tail.Allows tree := by
  refine ⟨⟨?_, ?_⟩, ?_⟩
  · rintro ⟨root, parsed⟩
    obtain ⟨tree, document, _⟩ := parse_shows parsed
    exact ⟨tree, document⟩
  · rintro ⟨tree, document⟩
    rcases parse_document document a with full | ⟨root, parsed, _⟩
    · exact absurd full room
    · exact ⟨root, parsed⟩
  · intro root parsed tree
    constructor
    · intro shows_
      obtain ⟨tree', document, shows'⟩ := parse_shows parsed
      rwa [shows_.unique shows']
    · intro document
      rcases parse_document document a with full | ⟨root', parsed', shows'⟩
      · exact absurd full room
      · obtain rfl : root = root' := by
          rw [parsed] at parsed'
          exact Option.some.inj (Except.ok.inj parsed')
        exact shows'

def constructs : Source := ofText "if (a + b * c)\n -d ^ e ^ 2, f\n.g[h = 1]\n| i"

def constructsTree : Tree :=
  let name (start stop : Nat) : Tree := .node .identifier (some ⟨.identifier, start, stop⟩) []
  let number (start stop : Nat) : Tree := .node .number (some ⟨.number, start, stop⟩) []
  let product := .node .mul (some ⟨.star, 10, 11⟩) [name 8 9, name 12 13]
  let sum := .node .add (some ⟨.plus, 6, 7⟩) [name 4 5, product]
  let powers := .node .pow (some ⟨.caret, 19, 20⟩)
    [.node .negate (some ⟨.minus, 16, 17⟩) [name 17 18],
      .node .pow (some ⟨.caret, 23, 24⟩) [name 21 22, number 25 26]]
  let body := .node .enumAnd (some ⟨.comma, 26, 27⟩) [powers, name 28 29]
  let attributes := .node .attrs none
    [.node .assign (some ⟨.equal, 35, 36⟩) [name 33 34, number 37 38]]
  .node .blockAnd none
    [.node .ifThen (some ⟨.kwIf, 0, 2⟩) [sum, body],
      .node .blockOr none
        [.node .nameDef (some ⟨.identifier, 31, 32⟩) [attributes], name 42 43]]

theorem parse_iff_document_constructs :
    (constructs.parse .empty).outcome ≠ .error .outOfMemory ∧
      (constructs.parse .empty).outcome = .ok (some ⟨21⟩) ∧
      (constructs.parse .empty).arena.Shows ⟨21⟩ constructsTree ∧
      constructs.Document Tail.Allows constructsTree := by
  have parsed : (constructs.parse .empty).outcome = .ok (some ⟨21⟩) :=
    outcome_of_within (n := 80) rfl
  have room : (constructs.parse .empty).outcome ≠ .error .outOfMemory := by
    rw [parsed]
    exact nofun
  have shown : (constructs.parse .empty).arena.Shows ⟨21⟩ constructsTree :=
    shows_of_within (n := 80) (m := 9) rfl
  have whole := (parse_iff_document constructs .empty room).2 ⟨21⟩ parsed constructsTree
  exact ⟨room, parsed, shown, whole.mp shown⟩

section Follow

/-- Without a condition on what follows a phrase, more is derived than is parsed. -/
abbrev Loose : Tail → List Lexeme → Prop := fun _ _ => True

def word (tag : TokenTag) (start stop : Nat) : Lexeme := ⟨⟨tag, start, stop⟩, none⟩

def line (start stop level : Nat) : Lexeme := ⟨⟨.indent, start, stop⟩, some level⟩

theorem dedent_loose : ∃ tree, (ofText ".a\n .b\n  1\n.c").Document Loose tree := by
  have first : Derives Loose (.term .block 0 NodeTag.blockAnd.leftStrength)
      [word .dot 0 1, word .identifier 1 2, line 3 4 1, word .dot 4 5, word .identifier 5 6,
        line 7 9 2, word .number 9 10, line 11 11 0, word .dot 11 12, word .identifier 12 13,
        word .eof 13 13] [_]
      [line 11 11 0, word .dot 11 12, word .identifier 12 13, word .eof 13 13] :=
    .lower (.single (.name rfl rfl .unattributed (.body ⟨rfl, rfl⟩ (.lower (.single
      (.name rfl rfl .unattributed (.body ⟨rfl, rfl⟩ (.lower (.single (.leaf rfl)) (by decide))
        trivial))) (by decide)) trivial))) (by decide)
  have second : Derives Loose (.term .block 0 NodeTag.blockAnd.rightStrength)
      [word .dot 11 12, word .identifier 12 13, word .eof 13 13] [_] [word .eof 13 13] :=
    .lower (.single (.name rfl rfl .unattributed (.undefined trivial))) (by decide)
  exact ⟨_, _, lexemes_of_within (n := 11) rfl, _, _, first.binary rfl second, rfl, rfl⟩

/- A value in an attribute list that goes on with an assignment. -/
theorem value_loose : ∃ tree, (ofText ".a[.b=1=2]").Document Loose tree := by
  have first : Derives Loose (.term .attrs 0 NodeTag.assign.leftStrength)
      [word .dot 3 4, word .identifier 4 5, word .equal 5 6, word .number 6 7, word .equal 7 8,
        word .number 8 9, word .rBracket 9 10, word .eof 10 10] [_]
      [word .equal 7 8, word .number 8 9, word .rBracket 9 10, word .eof 10 10] :=
    .lower (.single (.name rfl rfl .unattributed
      (.value rfl (.lower (.single (.leaf rfl)) (by decide)) trivial))) (by decide)
  have second : Derives Loose (.term .attrs 0 NodeTag.assign.rightStrength)
      [word .number 8 9, word .rBracket 9 10, word .eof 10 10] [_]
      [word .rBracket 9 10, word .eof 10 10] := .lower (.single (.leaf rfl)) (by decide)
  have whole : Derives Loose (.operand 0)
      [word .dot 0 1, word .identifier 1 2, word .lBracket 2 3, word .dot 3 4, word .identifier 4 5,
        word .equal 5 6, word .number 6 7, word .equal 7 8, word .number 8 9, word .rBracket 9 10,
        word .eof 10 10] [_] [word .eof 10 10] :=
    .name rfl rfl (.attributes rfl (.lower (first.binary rfl second) (by decide)) rfl)
      (.undefined trivial)
  exact ⟨_, _, lexemes_of_within (n := 11) rfl, _, _, .lower (.single whole) (by decide), rfl, rfl⟩

/- The body that a name could have had taken for that of a control construct. -/
theorem name_loose : ∃ tree, (ofText "if .a\n 2").Document Loose tree := by
  have whole : Derives Loose (.operand 0)
      [word .kwIf 0 2, word .dot 3 4, word .identifier 4 5, line 6 7 1, word .number 7 8,
        word .eof 8 8] [_] [word .eof 8 8] :=
    .control (.header rfl (.lower (.single (.name rfl rfl .unattributed (.undefined trivial)))
      (by decide))) ⟨rfl, rfl⟩ (.lower (.single (.leaf rfl)) (by decide)) trivial
  exact ⟨_, _, lexemes_of_within (n := 6) rfl, _, _, .lower (.single whole) (by decide), rfl, rfl⟩

/-- What may follow a phrase is part of the grammar: none of these sources is parsed. -/
theorem loose_not_parsed :
    ((∃ tree, (ofText ".a\n .b\n  1\n.c").Document Loose tree) ∧
      ((ofText ".a\n .b\n  1\n.c").parse .empty).outcome =
        .error (.unalignedIndent ⟨.indent, 11, 11⟩)) ∧
    ((∃ tree, (ofText ".a[.b=1=2]").Document Loose tree) ∧
      ((ofText ".a[.b=1=2]").parse .empty).outcome = .error (.unexpectedToken ⟨.equal, 7, 8⟩)) ∧
    (∃ tree, (ofText "if .a\n 2").Document Loose tree) ∧
      ((ofText "if .a\n 2").parse .empty).outcome = .error (.unexpectedToken ⟨.eof, 8, 8⟩) :=
  ⟨⟨dedent_loose, outcome_of_within (n := 30) rfl⟩,
    ⟨value_loose, outcome_of_within (n := 30) rfl⟩,
    name_loose, outcome_of_within (n := 30) rfl⟩

end Follow

end Source
end Offside
