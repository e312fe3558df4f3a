import Offside.Proofs.Soundness

/-! Where a run goes on from a configuration whose lexemes are known. Only the arena can stop it. -/
namespace Offside

def TokenTag.opens : TokenTag → Bool
  | .number | .string | .char | .identifier | .minus | .lParen | .dot
  | .kwIf | .kwElif | .kwFor | .kwWhile | .kwElse => true
  | _ => false

/- Room for a term of strength `p` above the operators: whatever waits there binds less. -/
def Room (O : List Pending) (p : Nat) : Prop :=
  NodeTag.negate.precedence ≤ p ∨ ∀ top ∈ O.head?, top.tag.rightStrength ≤ p

def Scope.Ends (scope : Scope) (l : Nat) : List Lexeme → Prop
  | [] => False
  | x :: _ => x.tag.closes ∨ ∃ k, x.IsLine k ∧ ¬(k = l ∧ scope = .block)

namespace Config

/-- The run goes through a configuration as described, unless the arena is full before. -/
def Leads (c : Config) (Q : Config → Prop) : Prop :=
  (∃ w, c.run = .error ⟨.outOfMemory, w⟩) ∨ ∃ d, c.run = d.run ∧ Q d

variable {old : List Node} {c : Config} {goal : Goal} {F : List Frame} {O O' : List Pending}
  {P P' : List Piece} {l k : Nat} {ts rest : List Lexeme} {x : Lexeme} {d : Deed}
  {Q R : Config → Prop}

theorem Leads.here (h : Q c) : c.Leads Q := .inr ⟨c, rfl, h⟩

theorem Leads.trans (h : c.Leads Q) (next : ∀ d, Q d → d.Leads R) : c.Leads R := by
  rcases h with full | ⟨d, same, hd⟩
  · exact .inl full
  · rcases next d hd with ⟨w, full⟩ | ⟨e, same', he⟩
    · exact .inl ⟨w, same.trans full⟩
    · exact .inr ⟨e, same.trans same', he⟩

theorem Leads.choose (old : List Node)
    (h : Yields old Spared c.noted.choose fun n => ∃ d, n = .move d ∧ Q d) : c.Leads Q := by
  have same : c.step = c.noted.choose := c.noted.dispatch_eq
  cases ran : c.noted.choose with
  | error f =>
    rw [ran] at h
    obtain ⟨error, work⟩ := f
    obtain ⟨rfl, -⟩ := h
    exact .inl ⟨work, run_of_error (same.trans ran)⟩
  | ok n =>
    rw [ran] at h
    obtain ⟨d, rfl, hd⟩ := h
    exact .inr ⟨d, run_of_move (same.trans ran), hd⟩

section Rows

/-! The table is read where the goal and the lexeme are known. -/

theorem Stands.readsToken (h : c.Stands old goal F O P l (x :: rest)) (more : x.tag ≠ .eof)
    (plain : x.tag ≠ .indent)
    (row : ∀ e : Config, e.Stands old goal F O P l (x :: rest) →
      e.tokenChoice.run e = d.run e consume)
    (turns : d.act.Turns x.token P O P' O') :
    c.Leads fun e => e.Stands old d.goal (d.opens.toList ++ F) O' P' (d.level.getD l) rest := by
  refine Leads.choose old ?_
  rw [h.noted.choose_token plain, row _ h.noted]
  exact h.noted.reads (h.noted.behind_eq more plain) (h.noted.token_eq ▸ turns)

theorem Stands.keepsToken (h : c.Stands old goal F O P l (x :: rest)) (plain : x.tag ≠ .indent)
    (row : ∀ e : Config, e.Stands old goal F O P l (x :: rest) → e.tokenChoice.run e = d.run e redo)
    (turns : d.act.Turns x.token P O P' O') :
    c.Leads fun e =>
      e.Stands old d.goal (d.opens.toList ++ F) O' P' (d.level.getD l) (x :: rest) := by
  refine Leads.choose old ?_
  rw [h.noted.choose_token plain, row _ h.noted]
  exact h.noted.keeps (h.noted.token_eq ▸ turns)

theorem Stands.readsLine (h : c.Stands old goal F O P l (x :: rest)) (line : x.IsLine k)
    (other : goal ≠ .close .value)
    (row : ∀ e : Config, e.Stands old goal F O P l (x :: rest) → e.behind = rest →
      (e.lineChoice k).run e = d.run e consume)
    (turns : d.act.Turns x.token P O P' O') :
    c.Leads fun e => e.Stands old d.goal (d.opens.toList ++ F) O' P' (d.level.getD l) rest := by
  refine Leads.choose old ?_
  obtain ⟨e, same, he, behind⟩ := h.noted.choose_line line other
  rw [same, row e he behind]
  exact he.reads behind (he.token_eq ▸ turns)

theorem Stands.keepsLine (h : c.Stands old goal F O P l (x :: rest)) (line : x.IsLine k)
    (other : goal ≠ .close .value)
    (row : ∀ e : Config, e.Stands old goal F O P l (x :: rest) → (e.lineChoice k).run e = d.run e redo)
    (turns : d.act.Turns x.token P O P' O') :
    c.Leads fun e =>
      e.Stands old d.goal (d.opens.toList ++ F) O' P' (d.level.getD l) (x :: rest) := by
  refine Leads.choose old ?_
  obtain ⟨e, same, he, -⟩ := h.noted.choose_line line other
  rw [same, row e he]
  exact he.keeps (he.token_eq ▸ turns)

theorem Stands.refusesLine (h : c.Stands old goal F O P l (x :: rest)) (why : Reason)
    (line : x.IsLine k) (other : goal ≠ .close .value)
    (row : ∀ e : Config, e.Stands old goal F O P l (x :: rest) → e.lineChoice k = .refuse why) :
    ∃ w, c.run = .error ⟨why.error x.token, w⟩ := by
  obtain ⟨e, same, he, -⟩ := h.noted.choose_line line other
  rw [row e he] at same
  refine ⟨e.work, run_of_error ?_⟩
  rw [Config.step, dispatch_eq, same, ← he.token_eq]
  rfl

end Rows

/-- Where an expression does not go on, its construct is closed. -/
theorem Stands.ends {f : Frame} {ops : List Pending}
    (h : c.Stands old .operator (f :: F) (ops ++ O) P' l rest) (settled : Settled O)
    (plain : ∀ op ∈ ops, op.tag.isMarker = false) (fold : foldAll? ops P' = some P)
    (ended : f.scope.Ends l rest) : c.Leads fun d => d.Stands old (.close f) F O P l rest := by
  have whole : (ops ++ O).takeWhile (fun op => !op.tag.isMarker) = ops := by
    rw [List.takeWhile_append_of_pos fun op member => by simp [plain op member]]
    cases O with
    | nil => simp
    | cons top O => simp [settled top rfl]
  refine Leads.choose old ?_
  cases rest with
  | nil => exact ended.elim
  | cons x rest =>
    rcases ended with closes | ⟨k, line, other⟩
    · have solid : x.tag ≠ .indent := by
        intro line
        simp [line, TokenTag.closes] at closes
      have row : c.noted.tokenChoice = .leave := by
        simp only [tokenChoice, operatorChoice, h.noted.goal_eq, h.noted.tag_eq]
        cases last : x.tag <;> simp [last, TokenTag.closes] at closes <;> rfl
      rw [h.noted.choose_token solid, row]
      exact h.noted.leaves whole fold
    · obtain ⟨e, same, he, -⟩ := h.noted.choose_line line (by simp)
      have row : e.lineChoice k = .leave := by
        simp only [lineChoice, he.goal_eq]
        refine if_neg ?_
        rintro ⟨level, holds⟩
        refine other ⟨level.trans he.level, ?_⟩
        have block := (holdsBlocks_iff e).mp holds
        rwa [he.frames] at block
      rw [same, row]
      exact he.leaves whole fold

theorem reducesBefore_of_strong {op next : NodeTag} (positive : 1 ≤ next.precedence)
    (h : next.leftStrength ≤ op.precedence) : op.reducesBefore next = true := by
  simp only [NodeTag.reducesBefore, Bool.or_eq_true, decide_eq_true_eq, Bool.and_eq_true, beq_iff_eq,
    Bool.not_eq_true']
  rw [NodeTag.leftStrength_eq positive] at h
  split at h
  · exact .inl h
  · rename_i left
    rcases Nat.lt_or_eq_of_le h with more | same
    · exact .inl more
    · refine .inr ⟨same.symm, ?_⟩
      rw [isRightAssoc_eq] at left ⊢
      rw [← same]
      exact Bool.eq_false_iff.mpr left

theorem waits_of_room {top next : NodeTag} (h : top.rightStrength ≤ next.precedence) :
    top.reducesBefore next = false := by
  simp only [NodeTag.reducesBefore, Bool.or_eq_false_iff, decide_eq_false_iff_not, not_lt,
    Bool.and_eq_false_iff, beq_eq_false_iff_ne, Bool.not_eq_false']
  unfold NodeTag.rightStrength at h
  rw [NodeTag.strength_eq] at h
  split at h
  · rename_i power
    subst power
    exact ⟨h, .inr rfl⟩
  · exact ⟨by omega, .inl (by omega)⟩

theorem binary_turns_of {ops : List Pending} {tag : NodeTag} {near : Token} {keeps : Bool}
    (plain : ∀ op ∈ ops, op.tag.isMarker = false) (positive : 1 ≤ tag.precedence)
    (strong : ∀ op ∈ ops, tag.leftStrength ≤ op.tag.precedence)
    (room : ∀ top ∈ O.head?, top.tag.rightStrength ≤ tag.precedence)
    (fold : foldAll? ops P' = some P) :
    (Act.binary tag keeps).Turns near P' (ops ++ O) P (⟨tag, near.kept keeps, P.length⟩ :: O) := by
  refine .binary ?_ plain fold
  rw [List.takeWhile_append_of_pos fun op member => reducesBefore_of_strong positive (strong op member)]
  cases O with
  | nil => simp
  | cons top O => simp [waits_of_room (room top rfl)]

theorem innermost_append {ops : List Pending} (plain : ∀ op ∈ ops, op.tag.isMarker = false) :
    (ops ++ O).find? (fun op => op.tag.isMarker) = O.find? fun op => op.tag.isMarker := by
  rw [List.find?_append, List.find?_eq_none.mpr]
  · rfl
  · intro op ho
    simp [plain op ho]

theorem operatorChoice_plain {tag : NodeTag} (found : operatorTag? c.token.tag = some tag) :
    c.operatorChoice = .read { act := .binary tag true, goal := .operand } := by
  unfold operatorChoice
  split
  · simp [‹c.token.tag = _›, operatorTag?] at found
  · simp [‹c.token.tag = _›, operatorTag?] at found
  · simp [‹c.token.tag = _›, operatorTag?] at found
  · simp [‹c.token.tag = _›, operatorTag?] at found
  · simp [found]

/-- An operator is read, and those that come before it are applied. -/
theorem Stands.joins {ops : List Pending} {y : Piece} {tag : NodeTag} {token : Option Token}
    {mid : List Lexeme} (h : c.Stands old .operator F (ops ++ O) P' l mid)
    (plain : ∀ op ∈ ops, op.tag.isMarker = false)
    (strong : ∀ op ∈ ops, tag.leftStrength ≤ op.tag.precedence)
    (room : ∀ top ∈ O.head?, top.tag.rightStrength ≤ tag.precedence)
    (fold : foldAll? ops P' = some (y :: P))
    (found : (scopeOf F).operator? l mid = some (tag, token, rest))
    (inside : scopeOf F = .attrs →
      (O.find? fun op => op.tag.isMarker).map Pending.tag = some .attrs) :
    c.Leads fun d =>
      d.Stands old .operand F (⟨tag, token, (y :: P).length⟩ :: O) (y :: P) l rest := by
  have positive := (operator?_binary found).2.1
  have turns (near : Token) (keeps : Bool) : (Act.binary tag keeps).Turns near P' (ops ++ O) (y :: P)
      (⟨tag, near.kept keeps, (y :: P).length⟩ :: O) :=
    binary_turns_of plain positive strong room fold
  have holds {e : Config} {ts : List Lexeme} (he : e.Stands old .operator F (ops ++ O) P' l ts)
      (block : scopeOf F = .block) : l = e.grid.level ∧ e.holdsBlocks :=
    ⟨he.level.symm, (holdsBlocks_iff e).mpr (by rw [he.frames, block])⟩
  rcases Scope.operator?_cases found with ⟨x, rfl, rfl, operator | ⟨equal, rfl, attrs⟩⟩ |
    ⟨x, line, block, rfl, ⟨rfl, rfl⟩ | ⟨z, bar, rfl, rfl⟩⟩
  · have more : x.tag ≠ .eof := by
      intro eof
      simp [eof, operatorTag?] at operator
    have solid : x.tag ≠ .indent := by
      intro line
      simp [line, operatorTag?] at operator
    refine h.readsToken (d := { act := .binary tag true, goal := .operand }) more solid ?_ (turns _ _)
    intro e he
    rw [← he.tag_eq] at operator
    simp only [tokenChoice, he.goal_eq, operatorChoice_plain operator, Choice.run]
  · refine h.readsToken (d := { act := .binary .assign true, goal := .operand }) (by simp [equal])
      (by simp [equal]) ?_ (turns _ _)
    intro e he
    have innermost : e.work.innermost? = some .attrs := by
      rw [Assembly.innermost?, he.operators, innermost_append plain]
      exact inside attrs
    simp only [tokenChoice, operatorChoice, he.goal_eq, he.tag_eq, equal, innermost, ↓reduceIte,
      Choice.run]
  · refine h.readsLine (d := { act := .binary .blockAnd false, goal := .operand }) line (by simp) ?_
      (turns _ _)
    intro e he behind
    obtain ⟨z, more, split, peek⟩ := e.behind_head
    rw [behind] at split
    rw [split, operator?_line line block] at found
    have other : e.scanner.peek.tag ≠ .pipe := by
      rw [← peek]
      intro bar
      have bar : z.tag = .pipe := bar
      rw [if_pos bar] at found
      cases found
    simp only [lineChoice, he.goal_eq, if_pos (holds he block), Choice.run, if_neg other, Sight.run]
  · refine Leads.choose old ?_
    obtain ⟨e, same, he, behind⟩ := h.noted.choose_line line (by simp)
    have peek : e.scanner.peek.tag = .pipe := (congrArg Token.tag (peek_of_behind behind)).trans bar
    have cons := e.behind_peek (by simp [peek]) (by simp [peek])
    rw [behind] at cons
    rw [same]
    simp only [lineChoice, he.goal_eq, if_pos (holds he block), Choice.run, if_pos peek, Sight.run]
    exact he.dropped.reads (List.cons.inj cons).2.symm (turns _ _)

end Config
end Offside
