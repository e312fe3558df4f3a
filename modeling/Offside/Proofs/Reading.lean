import Offside.Proofs.Grammar

/-! What a configuration still has to read. Measuring an indentation again gives the same level, so
that reading a token for one goal after the other does not change the lexemes ahead. -/
namespace Offside

theorem Scanner.tokens_eq (s : Scanner) :
    s.tokens = s.next.1 :: if s.next.1.tag = .eof then [] else s.next.2.tokens := by
  unfold tokens
  rw [entries]
  by_cases h : s.next.1.tag = .eof <;> simp [h, report]

namespace Grid

/-- Only what is known of the grid counts, not the level of the block. -/
theorem label_level (g : Grid) (level : Nat) (ts : List Token) :
    ({ g with level } : Grid).label ts = g.label ts := by
  induction ts generalizing g with
  | nil => rfl
  | cons t rest ih =>
    have shift : ({ g with level } : Grid).measure t =
        (g.measure t).map fun r => (r.1, { r.2 with level }) := by
      unfold measure
      split
      · rfl
      · dsimp only
        split
        · rfl
        · split
          · rfl
          · split <;> rfl
    simp only [label, shift, ih]
    cases g.measure t with
    | error e => rfl
    | ok r => simp [Except.map, ih]

end Grid

namespace Config

def input (c : Config) : List Token :=
  c.token :: if c.token.tag = .eof then [] else c.scanner.tokens

def ahead (c : Config) : List Lexeme := c.grid.label c.input

/- What comes behind the token at hand. -/
def behind (c : Config) : List Lexeme := c.grid.label c.scanner.tokens

theorem ahead_consume (c : Config) (goal : Goal) : (c.consume goal).ahead = c.behind := by
  rw [behind, Scanner.tokens_eq]
  rfl

theorem ahead_head (c : Config) : ∃ level rest, c.ahead = ⟨c.token, level⟩ :: rest := by
  unfold ahead input Grid.label
  split
  · split <;> exact ⟨_, _, rfl⟩
  · exact ⟨_, _, rfl⟩

theorem ahead_eof {c : Config} (h : c.token.tag = .eof) : c.ahead = [⟨c.token, none⟩] := by
  simp [ahead, input, Grid.label, h]

theorem ahead_plain {c : Config} (more : c.token.tag ≠ .eof) (plain : c.token.tag ≠ .indent) :
    c.ahead = ⟨c.token, none⟩ :: c.behind := by
  simp [ahead, input, Grid.label, more, plain, behind]

/-- Once it has been measured, an indentation has its level, and the lexemes are the same. -/
theorem ahead_measured {c : Config} {level : Nat} {g : Grid} (line : c.token.tag = .indent)
    (found : c.grid.measure c.token = .ok (level, g)) :
    ({ c with grid := g } : Config).ahead = c.ahead ∧
      c.ahead = ⟨c.token, some level⟩ :: ({ c with grid := g } : Config).behind := by
  have again := Grid.measure_again found
  constructor
  · simp [ahead, input, Grid.label, line, found, again]
  · simp [ahead, input, Grid.label, line, found, behind]

theorem measure_of_level {c : Config} {x : Lexeme} {rest : List Lexeme} {level : Nat}
    (ahead : c.ahead = x :: rest) (line : x.IsLine level) :
    ∃ g, c.grid.measure c.token = .ok (level, g) := by
  obtain ⟨_, _, head⟩ := c.ahead_head
  obtain ⟨token, -⟩ := List.cons.inj (ahead.symm.trans head)
  have token : x.token = c.token := by rw [token]
  have line' : c.token.tag = .indent := token ▸ line.1
  rcases c.grid.measure_cases c.token with ⟨k, g, found⟩ | missed
  · have cons := (ahead_measured line' found).2
    rw [ahead] at cons
    obtain ⟨rfl, -⟩ := List.cons.inj cons
    obtain rfl : k = level := Option.some.inj line.2
    exact ⟨g, found⟩
  · simp only [Config.ahead, input, Grid.label, line', missed, ↓reduceIte] at ahead
    obtain ⟨rfl, -⟩ := List.cons.inj ahead
    cases line.2

theorem behind_peek {c : Config} (more : c.scanner.peek.tag ≠ .eof)
    (plain : c.scanner.peek.tag ≠ .indent) :
    c.behind = ⟨c.scanner.peek, none⟩ :: c.dropToken.behind := by
  have more : c.scanner.next.1.tag ≠ .eof := more
  have plain : c.scanner.next.1.tag ≠ .indent := plain
  rw [behind, Scanner.tokens_eq]
  simp [Grid.label, more, plain, behind, dropToken, Scanner.peek]

theorem behind_head (c : Config) :
    ∃ y rest, c.behind = y :: rest ∧ y.token = c.scanner.peek := by
  rw [behind, Scanner.tokens_eq]
  unfold Grid.label
  split
  · split <;> exact ⟨_, _, rfl, rfl⟩
  · exact ⟨_, _, rfl, rfl⟩

theorem peek_of_behind {c : Config} {x : Lexeme} {rest : List Lexeme} (behind : c.behind = x :: rest) :
    c.scanner.peek = x.token := by
  obtain ⟨y, more, split, peek⟩ := c.behind_head
  obtain ⟨rfl, -⟩ := List.cons.inj (behind.symm.trans split)
  exact peek.symm

end Config
end Offside
