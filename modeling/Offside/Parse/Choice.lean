import Offside.Parse.Step

/-!
What the rules can do. A rule goes by the goal, the kind of the token, the level of its line and the
innermost constructs, and does one of a few things: `Config.choose` is the table of the rules, and
`dispatch_eq` says that the parser goes by it.
-/

namespace Offside

/-- What becomes of the trees under construction. A node or an operator that is marked so keeps the
token at hand. -/
inductive Act where
  | idle
  | push (tag : NodeTag) (keeps : Bool)
  | build (tag : NodeTag) (keeps : Bool)
  | binary (tag : NodeTag) (keeps : Bool)
  | wrap (marker tag : NodeTag)
  /-- Closes a definition and the name that has it. -/
  | define (marker : NodeTag)
  | complete (marker : NodeTag)
  | group

/-- A step that goes on: `level` is set and `opens` is entered if they are there. -/
structure Deed where
  act : Act := .idle
  level : Option Nat := none
  opens : Option Frame := none
  goal : Goal

inductive Reason where
  | unaligned
  | unexpected
  | unmatched

/-- What is done once the next token has been seen. -/
inductive Sight where
  | refuse
  | read (d : Deed)
  | pass (d : Deed)

inductive Choice where
  | refuse (why : Reason)
  | finish
  | leave
  | keep (d : Deed)
  | read (d : Deed)
  | look (tag : TokenTag) (found other : Sight)

def Token.kept (t : Token) : Bool → Option Token
  | true => some t
  | false => none

def Act.run (t : Token) (w : Assembly) : Act → Attempt Assembly
  | .idle => .ok w
  | .push tag keeps => .ok (w.push tag (t.kept keeps))
  | .build tag keeps => w.build tag (t.kept keeps) []
  | .binary tag keeps => w.binary tag (t.kept keeps) t
  | .wrap marker tag => w.wrap marker tag t
  | .define marker => do (← w.wrap marker .value t).complete .nameDef t
  | .complete marker => w.complete marker t
  | .group => do
    let (_, inner, w) ← w.takeScope .group t
    match inner with
    | [operand] => return { w with operands := { operand with grouped := true } :: w.operands }
    | _ => w.fail (.unexpectedToken t)

def Reason.error (t : Token) : Reason → ParseError
  | .unaligned => .unalignedIndent t
  | .unexpected => .unexpectedToken t
  | .unmatched => .unmatchedBracket t

def Deed.apply (d : Deed) (c : Config) (work : Assembly) : Config :=
  { c with
    work
    frames := d.opens.toList ++ c.frames
    grid := { c.grid with level := d.level.getD c.grid.level } }

def Deed.run (d : Deed) (c : Config) (go : Config → Goal → Config) : Attempt Next := do
  let work ← d.act.run c.token c.work
  return .move (go (d.apply c work) d.goal)

def Config.finish (c : Config) : Attempt Next :=
  match c.work.operators, c.work.operands with
  | [], [root] => .ok (.done root.node c)
  | _, _ => c.fail (.unexpectedToken c.token)

def Sight.run (c : Config) : Sight → Attempt Next
  | .refuse => c.fail (.unexpectedToken c.scanner.peek)
  | .read d => d.run c Config.consume
  | .pass d => d.run c.dropToken Config.consume

def Choice.run (c : Config) : Choice → Attempt Next
  | .refuse why => c.fail (why.error c.token)
  | .finish => c.finish
  | .leave => c.leave
  | .keep d => d.run c Config.redo
  | .read d => d.run c Config.consume
  | .look tag found other => if c.scanner.peek.tag = tag then found.run c else other.run c

namespace Config

variable (c : Config)

def blockChoice (level : Nat) (d : Deed) : Choice :=
  if level = c.grid.level + 1 then .read { d with level := some level }
  else if c.grid.level + 1 < level then .refuse .unaligned
  else .refuse .unexpected

def dedentChoice (level outer : Nat) (ended : Choice) : Choice :=
  if level < outer then .refuse .unaligned
  else if outer < level then .refuse .unexpected
  else ended

def bodyChoice (outer : Nat) : Choice :=
  .keep { act := .define .blockAssign, level := some outer, goal := .operator }

def controlChoice (outer : Nat) : Choice :=
  match c.work.innermost? with
  | some tag => .keep { act := .complete tag, level := some outer, goal := .operator }
  | none => .refuse .unexpected

def nameChoice : Choice := .keep { act := .complete .nameDef, goal := .operator }

/-- What a line does, once it has been measured. -/
def lineChoice (level : Nat) : Choice :=
  match c.goal with
  | .operand | .afterDot => .refuse .unexpected
  | .operator =>
    if level = c.grid.level ∧ c.holdsBlocks then
      .look .pipe (.pass { act := .binary .blockOr false, goal := .operand })
        (.read { act := .binary .blockAnd false, goal := .operand })
    else .leave
  | .afterParen =>
    c.blockChoice level { opens := some (.group c.grid.level true), goal := .operand }
  | .afterName _ =>
    if level ≤ c.grid.level then nameChoice
    else c.blockChoice level
      { act := .push .blockAssign false, opens := some (.body c.grid.level), goal := .operand }
  | .close (.group outer true) =>
    dedentChoice level outer
      (.look .rParen (.read { level := some outer, goal := .close (.group outer false) }) .refuse)
  | .close (.body outer) => dedentChoice level outer (bodyChoice outer)
  | .close .header =>
    if c.grid.level < level then
      c.blockChoice level { opens := some (.control c.grid.level), goal := .operand }
    else .refuse .unexpected
  | .close (.control outer) => dedentChoice level outer (c.controlChoice outer)
  | .close _ => .refuse .unexpected

def operandChoice : TokenTag → Choice
  | .number => .read { act := .build .number true, goal := .operator }
  | .string => .read { act := .build .string true, goal := .operator }
  | .char => .read { act := .build .char true, goal := .operator }
  | .identifier => .read { act := .build .identifier true, goal := .operator }
  | .minus => .read { act := .push .negate true, goal := .operand }
  | .lParen => .read { act := .push .group true, goal := .afterParen }
  | .dot => .read { goal := .afterDot }
  | .kwIf => .read { act := .push .ifThen true, opens := some .header, goal := .operand }
  | .kwElif => .read { act := .push .elifThen true, opens := some .header, goal := .operand }
  | .kwFor => .read { act := .push .forEach true, opens := some .header, goal := .operand }
  | .kwWhile => .read { act := .push .whileLoop true, opens := some .header, goal := .operand }
  | .kwElse => .read { act := .push .elseThen true, goal := .close .header }
  | _ => .refuse .unexpected

def operatorChoice : Choice :=
  match c.token.tag with
  | .rParen | .rBracket | .eof => .leave
  | .equal =>
    if c.work.innermost? = some .attrs then .read { act := .binary .assign true, goal := .operand }
    else .refuse .unexpected
  | tag =>
    match operatorTag? tag with
    | some operator => .read { act := .binary operator true, goal := .operand }
    | none => .refuse .unexpected

/-- What any other token does, and a line that ends a value. -/
def tokenChoice : Choice :=
  match c.goal with
  | .operand => operandChoice c.token.tag
  | .operator => c.operatorChoice
  | .afterParen => .keep { opens := some (.group c.grid.level false), goal := .operand }
  | .afterDot =>
    if c.token.tag = .identifier then .read { act := .push .nameDef true, goal := .afterName false }
    else .refuse .unexpected
  | .afterName attrs =>
    match c.token.tag with
    | .lBracket =>
      if attrs then nameChoice
      else .look .rBracket (.pass { act := .build .attrs false, goal := .afterName true })
        (.read { act := .push .attrs false, opens := some .attrs, goal := .operand })
    | .equal => .read { act := .push .value false, opens := some .value, goal := .operand }
    | _ => nameChoice
  | .close (.group outer _) =>
    match c.token.tag with
    | .rParen => .read { act := .group, level := some outer, goal := .operator }
    | .rBracket => .refuse .unmatched
    | _ => .refuse .unexpected
  | .close .attrs =>
    match c.token.tag with
    | .rBracket => .read { act := .wrap .attrs .attrs, goal := .afterName true }
    | .rParen => .refuse .unmatched
    | _ => .refuse .unexpected
  | .close .value => .keep { act := .define .value, goal := .operator }
  | .close (.body outer) => bodyChoice outer
  | .close .header => .refuse .unexpected
  | .close (.control outer) => c.controlChoice outer
  | .close .root =>
    match c.token.tag with
    | .eof => .finish
    | .rParen | .rBracket => .refuse .unmatched
    | _ => .refuse .unexpected

/-- The choice of the rules, with what is known of the grid once the line has been measured. The end
of a value does not look at its line, which was measured when the value was left. -/
def choice : Grid × Choice :=
  if c.token.tag = .indent ∧ c.goal ≠ .close .value then
    match c.grid.measure c.token with
    | .ok (level, grid) => (grid, lineChoice { c with grid } level)
    | .error _ => (c.grid, .refuse .unaligned)
  else (c.grid, c.tokenChoice)

def choose : Attempt Next := c.choice.2.run { c with grid := c.choice.1 }

variable {c} {d : Deed} {level outer : Nat}

theorem choice_token (plain : c.token.tag = .indent → c.goal = .close .value) :
    c.choice = (c.grid, c.tokenChoice) :=
  if_neg fun h => h.2 (plain h.1)

theorem choose_token (plain : c.token.tag ≠ .indent) : c.choose = c.tokenChoice.run c := by
  unfold choose
  rw [choice_token fun line => absurd line plain]

theorem unexpected_token {α : Type} (plain : c.token.tag ≠ .indent) :
    (c.unexpected : Attempt α) = c.fail (.unexpectedToken c.token) := if_neg plain

/-- A rule that measures its line goes by the table if it does so afterwards. -/
theorem choose_measured {f : Nat × Config → Attempt Next} (line : c.token.tag = .indent)
    (goal : c.goal ≠ .close .value)
    (agrees : ∀ level grid, grid.level = c.grid.level → grid.measure c.token = .ok (level, grid) →
      f (level, { c with grid }) = (lineChoice { c with grid } level).run { c with grid }) :
    c.measure >>= f = c.choose := by
  unfold choose choice measure
  rw [if_pos ⟨line, goal⟩]
  rcases c.grid.measure_cases c.token with ⟨level, grid, found⟩ | missed
  · rw [found]
    exact agrees level grid (Grid.measure_level found) (Grid.measure_again found)
  · rw [missed]
    rfl

theorem choose_unexpected (goal : c.goal ≠ .close .value)
    (refused : c.token.tag = .indent → ∀ level grid,
      lineChoice { c with grid } level = .refuse .unexpected)
    (other : c.token.tag ≠ .indent → c.tokenChoice = .refuse .unexpected) :
    c.unexpected = c.choose := by
  by_cases line : c.token.tag = .indent
  · unfold unexpected
    rw [if_pos line]
    apply choose_measured line goal
    intro level grid _ _
    rw [refused line]
    rfl
  · rw [unexpected_token line, choose_token line, other line]
    rfl

theorem run_blockChoice {f : Config → Attempt Next}
    (opened : f (c.atLevel level) = (Choice.read { d with level := some level }).run c) :
    c.openBlock level >>= f = (c.blockChoice level d).run c := by
  unfold openBlock blockChoice
  split
  · exact opened
  · split <;> rfl

theorem run_dedentChoice {ended : Choice} {f : Config → Attempt Next} (goes : f c = ended.run c) :
    (if level < outer then c.fail (.unalignedIndent c.token)
      else if outer < level then c.fail (.unexpectedToken c.token)
      else Except.ok c) >>= f = (dedentChoice level outer ended).run c := by
  unfold dedentChoice
  split
  · rfl
  · split
    · rfl
    · exact goes

theorem atOperand_eq (goal : c.goal = .operand) : c.atOperand = c.choose := by
  have lines : c.token.tag = .indent → c.unexpected = c.choose := fun line =>
    choose_unexpected (by simp [goal]) (by simp [lineChoice, goal]) fun h => absurd line h
  by_cases line : c.token.tag = .indent
  · simp only [atOperand, line, lines]
  · rw [choose_token line]
    simp only [atOperand, tokenChoice, goal]
    cases tag : c.token.tag <;>
      first | exact absurd tag line | exact unexpected_token line | rfl

theorem atLine_eq (goal : c.goal = .operator) (line : c.token.tag = .indent) :
    c.atLine = c.choose := by
  apply choose_measured line (by simp [goal])
  intro level grid _ _
  simp only [lineChoice, goal]
  split
  · simp only [Choice.run]
    split <;> rfl
  · rfl

theorem atOperator_eq (goal : c.goal = .operator) : c.atOperator = c.choose := by
  by_cases line : c.token.tag = .indent
  · simp only [atOperator, line, atLine_eq goal line]
  · rw [choose_token line]
    simp only [atOperator, tokenChoice, goal, operatorChoice]
    cases tag : c.token.tag with
    | indent => exact absurd tag line
    | equal =>
      dsimp only
      split
      · rfl
      · exact unexpected_token line
    | _ => first | exact unexpected_token line | rfl

theorem atParen_eq (goal : c.goal = .afterParen) : c.atParen = c.choose := by
  unfold atParen
  split
  · rename_i line
    apply choose_measured line (by simp [goal])
    intro level grid same _
    simp only [lineChoice, goal]
    apply run_blockChoice
    rw [same]
    rfl
  · rename_i plain
    rw [choose_token plain]
    simp only [tokenChoice, goal]
    rfl

theorem atDot_eq (goal : c.goal = .afterDot) : c.atDot = c.choose := by
  unfold atDot
  split
  · rename_i found
    rw [choose_token (by simp [found])]
    simp only [tokenChoice, goal, found]
    rfl
  · rename_i other
    apply choose_unexpected (by simp [goal])
    · simp [lineChoice, goal]
    · simp [tokenChoice, goal, other]

theorem atName_eq {attrs : Bool} (goal : c.goal = .afterName attrs) :
    c.atName attrs = c.choose := by
  unfold atName
  split
  · rename_i bracket
    rw [choose_token (by simp [bracket])]
    simp only [tokenChoice, goal, bracket]
    split
    · rfl
    · simp only [atAttrs, Choice.run]
      split <;> rfl
  · rename_i equal
    rw [choose_token (by simp [equal])]
    simp only [tokenChoice, goal, equal]
    rfl
  · rename_i line
    apply choose_measured line (by simp [goal])
    intro level grid _ _
    simp only [lineChoice, goal]
    split
    · rfl
    · apply run_blockChoice
      rfl
  · rename_i bracket equal line
    rw [choose_token line]
    simp only [tokenChoice, goal]
    rfl

theorem atGroupEnd_eq {block : Bool} (goal : c.goal = .close (.group outer block)) :
    c.atGroupEnd outer block = c.choose := by
  unfold atGroupEnd
  split
  · rename_i closed
    rw [choose_token (by simp [closed])]
    simp only [tokenChoice, goal, closed, Choice.run, Deed.run, Act.run, bind_assoc]
    congr
    funext r
    obtain ⟨top, - | ⟨operand, - | ⟨second, inner⟩⟩, w⟩ := r
    · rfl
    · rfl
    · rfl
  · rename_i line
    apply choose_measured line (by simp [goal])
    intro level grid _ _
    simp only [lineChoice, goal, dedentChoice]
    split
    · rfl
    · split
      · rfl
      · simp only [Choice.run]
        split <;> rfl
  · rename_i bracket
    rw [choose_token (by simp [bracket])]
    simp only [tokenChoice, goal, bracket]
    rfl
  · rename_i block _ _ paren bracket line
    apply choose_unexpected (by simp [goal])
    · intro found level grid
      obtain rfl : block = false := by simpa using line found
      simp only [lineChoice, goal]
    · simp [tokenChoice, goal]

theorem atAttrsEnd_eq (goal : c.goal = .close .attrs) : c.atAttrsEnd = c.choose := by
  unfold atAttrsEnd
  split
  · rename_i closed
    rw [choose_token (by simp [closed])]
    simp only [tokenChoice, goal, closed]
    rfl
  · rename_i paren
    rw [choose_token (by simp [paren])]
    simp only [tokenChoice, goal, paren]
    rfl
  · rename_i bracket paren
    apply choose_unexpected (by simp [goal])
    · simp [lineChoice, goal]
    · simp [tokenChoice, goal]

theorem atValueEnd_eq (goal : c.goal = .close .value) : c.atValueEnd = c.choose := by
  unfold choose
  rw [choice_token fun _ => goal]
  simp only [tokenChoice, goal, atValueEnd, finishName, Choice.run, Deed.run, Act.run, bind_assoc]
  rfl

theorem atBodyEnd_eq (goal : c.goal = .close (.body outer)) : c.atBodyEnd outer = c.choose := by
  unfold atBodyEnd checkDedent
  split
  · rename_i line
    rw [bind_assoc]
    apply choose_measured line (by simp [goal])
    intro level grid _ _
    simp only [lineChoice, goal]
    apply run_dedentChoice
    simp only [bodyChoice, finishName, Choice.run, Deed.run, Act.run, bind_assoc]
    rfl
  · rename_i plain
    rw [choose_token plain]
    simp only [tokenChoice, goal, bodyChoice, finishName, Choice.run, Deed.run, Act.run, bind_assoc]
    rfl

theorem atHeaderEnd_eq (goal : c.goal = .close .header) : c.atHeaderEnd = c.choose := by
  unfold atHeaderEnd
  split
  · rename_i line
    apply choose_measured line (by simp [goal])
    intro level grid same again
    simp only [lineChoice, goal]
    split
    · apply run_blockChoice
      rfl
    · simp only [unexpected, line, measure, again]
      rfl
  · rename_i plain
    rw [choose_token plain, unexpected_token plain]
    simp only [tokenChoice, goal]
    rfl

theorem run_controlChoice (c : Config) (outer : Nat) :
    (match c.work.innermost? with
      | some tag => do
        let work ← c.work.complete tag c.token
        return .move (({ c with work }.atLevel outer).redo .operator)
      | none => c.fail (.unexpectedToken c.token)) = (c.controlChoice outer).run c := by
  unfold controlChoice
  split <;> rfl

theorem atControlEnd_eq (goal : c.goal = .close (.control outer)) :
    c.atControlEnd outer = c.choose := by
  unfold atControlEnd checkDedent
  split
  · rename_i line
    rw [bind_assoc]
    apply choose_measured line (by simp [goal])
    intro level grid _ _
    simp only [lineChoice, goal]
    apply run_dedentChoice
    apply run_controlChoice
  · rename_i plain
    rw [choose_token plain]
    simp only [tokenChoice, goal]
    apply run_controlChoice

theorem atEnd_eq (goal : c.goal = .close .root) : c.atEnd = c.choose := by
  by_cases eof : c.token.tag = .eof
  · rw [choose_token (by simp [eof])]
    simp only [atEnd, tokenChoice, goal, eof, Choice.run, finish]
    rw [unexpected_token (by simp [eof])]
    rcases c.work.operators with - | ⟨operator, rest⟩
    · rcases c.work.operands with - | ⟨root, - | ⟨other, rest⟩⟩ <;> rfl
    · rfl
  · unfold atEnd
    split
    · exact absurd ‹_› eof
    · rename_i paren
      rw [choose_token (by simp [paren])]
      simp only [tokenChoice, goal, paren]
      rfl
    · rename_i bracket
      rw [choose_token (by simp [bracket])]
      simp only [tokenChoice, goal, bracket]
      rfl
    · rename_i paren bracket _
      apply choose_unexpected (by simp [goal])
      · simp [lineChoice, goal]
      · simp [tokenChoice, goal]

theorem dispatch_eq (c : Config) : c.dispatch = c.choose := by
  unfold dispatch
  split
  · exact atOperand_eq ‹_›
  · exact atOperator_eq ‹_›
  · exact atParen_eq ‹_›
  · exact atDot_eq ‹_›
  · exact atName_eq ‹_›
  · rename_i f goal
    cases f with
    | group outer block => exact atGroupEnd_eq goal
    | attrs => exact atAttrsEnd_eq goal
    | value => exact atValueEnd_eq goal
    | body outer => exact atBodyEnd_eq goal
    | header => exact atHeaderEnd_eq goal
    | control outer => exact atControlEnd_eq goal
    | root => exact atEnd_eq goal

/-- A step makes the choice of the rules. -/
theorem step_eq (c : Config) :
    c.step = c.noted.choice.2.run { c.noted with grid := c.noted.choice.1 } := c.noted.dispatch_eq

end Config
end Offside
