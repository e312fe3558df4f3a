import Offside.Proofs.Context
import Offside.Proofs.Deeds

/-! How the parser keeps track of what has been read: what each goal stands for, and the choices
that read an operand, an operator, a new line or the beginning of a construct. -/
namespace Offside

/- What has been read when a token is at hand for a goal. -/
inductive Expects (stream : List Lexeme) :
    Goal → List Frame → List Pending → List Piece → Nat → List Lexeme → Prop where
  | operand {F O P l q ts} : Context stream F O P l q ts → Expects stream .operand F O P l ts
  | operator {F O P l q ts rest x} :
      Context stream F O P l q ts → Reads (.operand l) ts [x] rest →
      Expects stream .operator F O (x :: P) l rest
  | afterParen {F O P l q o ts} :
      Context stream F O P l q (o :: ts) → o.tag = .lParen →
      Expects stream .afterParen F (⟨.group, some o.token, P.length⟩ :: O) P l ts
  | afterDot {F O P l q d ts} :
      Context stream F O P l q (d :: ts) → d.tag = .dot → Expects stream .afterDot F O P l ts
  | afterName {F O P l q d n ts rest A} :
      Context stream F O P l q (d :: n :: ts) → d.tag = .dot → n.tag = .identifier →
      Reads (.attributes l) ts A rest →
      Expects stream (.afterName (!A.isEmpty)) F (⟨.nameDef, some n.token, P.length⟩ :: O)
        (A ++ P) l rest
  | close {f F O P l q ts rest x} :
      Context stream (f :: F) O P l q ts → Settled O → Reads (.term f.scope l 1) ts [x] rest →
      Tail.value.Allows rest → Expects stream (.close f) F O (x :: P) l rest
  | closeLine {F O P l q o n i ts z rest x} :
      Context stream F O P l q (o :: n :: ts) → o.tag = .lParen → n.IsLine (l + 1) →
      Reads (.term .block (l + 1) 1) ts [x] (i :: z :: rest) → i.IsLine l → z.tag = .rParen →
      Expects stream (.close (.group l false)) F (⟨.group, some o.token, P.length⟩ :: O) (x :: P) l
        (z :: rest)
  | closeHeading {F O P l q k ts} :
      Context stream F O P l q (k :: ts) → k.tag = .kwElse →
      Expects stream (.close .header) F (⟨.elseThen, some k.token, P.length⟩ :: O) P l ts

namespace Config

def Tracks (stream : List Lexeme) (old : List Node) (c : Config) (P : List Piece) : Prop :=
  c.work.Carries old P ∧ Expects stream c.goal c.frames c.work.operators P c.grid.level c.ahead

end Config

/-- A step goes on with what has been read, or has read a whole document. -/
def Next.Reached (stream : List Lexeme) (old : List Node) : Next → Prop
  | .move d => ∃ P, d.Tracks stream old P
  | .done root d => ∃ x : Piece, d.work.Carries old [x] ∧ root = x.tree.root old.length ∧
      Document Tail.Allows stream x.tree

abbrev Any : ParseError → Prop := fun _ => True

namespace Config

variable {stream : List Lexeme} {old : List Node} {c : Config} {goal : Goal} {F : List Frame}
  {O : List Pending} {P : List Piece} {x : Piece} {l k q : Nat} {ts mid rest : List Lexeme}
  {i : Lexeme}

theorem fail_yields {α : Type} {Q : α → Prop} (carries : c.work.Carries old P) (e : ParseError) :
    Yields old Any (c.fail e) Q := ⟨trivial, carries.laid⟩

theorem Stands.tracks (h : c.Stands old goal F O P l ts)
    (expects : Expects stream goal F O P l ts) : c.Tracks stream old P := by
  obtain ⟨carries, rfl, rfl, rfl, rfl, rfl⟩ := h
  exact ⟨carries, expects⟩

theorem yields_reached {r : Attempt Next} (expects : Expects stream goal F O P l ts)
    (stands : Yields old Spared r (Next.Stands old goal F O P l ts)) :
    Yields old Any r (Next.Reached stream old) := by
  refine stands.mono (fun _ _ => trivial) ?_
  rintro _ ⟨d, rfl, h⟩
  exact ⟨P, h.tracks expects⟩

theorem Stands.plain (h : c.Stands old goal F O P l ts) (more : c.token.tag ≠ .eof)
    (solid : c.token.tag ≠ .indent) : ts = ⟨c.token, none⟩ :: c.behind :=
  h.ahead.symm.trans (ahead_plain more solid)

theorem Stands.dropped (h : c.Stands old goal F O P l ts) :
    c.dropToken.Stands old goal F O P l c.dropToken.ahead :=
  ⟨h.carries, h.goal_eq, h.frames, h.operators, h.level, rfl⟩

theorem leaf_yields {tag : NodeTag} (h : c.Stands old .operand F O P l ts)
    (ctx : Context stream F O P l q ts) (found : leafTag? c.token.tag = some tag)
    (shape : tag.shape = .void) :
    Yields old Any ((Choice.read { act := .build tag true, goal := .operator }).run c)
      (Next.Reached stream old) := by
  obtain rfl := h.plain (by intro eof; simp [eof, leafTag?] at found)
    (by intro line; simp [line, leafTag?] at found)
  have made : Assembly.Makes tag 0 :=
    ⟨by simp [NodeTag.Admits, shape], by simp [NodeTag.grows_eq, shape]⟩
  exact yields_reached (.operator ctx (.leaf found)) (h.reads rfl (.build made))

theorem header_yields {tag : NodeTag} (h : c.Stands old .operand F O P l ts)
    (ctx : Context stream F O P l q ts) (found : headerTag? c.token.tag = some tag) :
    Yields old Any
      ((Choice.read { act := .push tag true, opens := some .header, goal := .operand }).run c)
      (Next.Reached stream old) := by
  obtain rfl := h.plain (by intro eof; simp [eof, headerTag?] at found)
    (by intro line; simp [line, headerTag?] at found)
  exact yields_reached (.operand (.header ctx found)) (h.reads rfl .push)

theorem operand_yields (h : c.Stands old .operand F O P l ts) (ctx : Context stream F O P l q ts) :
    Yields old Any ((operandChoice c.token.tag).run c) (Next.Reached stream old) := by
  unfold operandChoice
  split
  · exact leaf_yields h ctx (by simp [*, leafTag?]) rfl
  · exact leaf_yields h ctx (by simp [*, leafTag?]) rfl
  · exact leaf_yields h ctx (by simp [*, leafTag?]) rfl
  · exact leaf_yields h ctx (by simp [*, leafTag?]) rfl
  · rename_i minus
    obtain rfl := h.plain (by simp [minus]) (by simp [minus])
    exact yields_reached (.operand (.negate ctx minus)) (h.reads rfl .push)
  · rename_i paren
    obtain rfl := h.plain (by simp [paren]) (by simp [paren])
    exact yields_reached (.afterParen ctx paren) (h.reads rfl .push)
  · rename_i dot
    obtain rfl := h.plain (by simp [dot]) (by simp [dot])
    exact yields_reached (.afterDot ctx dot) (h.reads rfl .idle)
  · exact header_yields h ctx (by simp [*, headerTag?])
  · exact header_yields h ctx (by simp [*, headerTag?])
  · exact header_yields h ctx (by simp [*, headerTag?])
  · exact header_yields h ctx (by simp [*, headerTag?])
  · rename_i word
    obtain rfl := h.plain (by simp [word]) (by simp [word])
    exact yields_reached (.closeHeading ctx word) (h.reads rfl .push)
  · exact fail_yields h.carries _

/-- The operators that bind at least as tightly as the new one are applied. -/
theorem binary_turns {tag : NodeTag} {token : Option Token} {near : Token} {keeps : Bool}
    (ctx : Context stream F O P l q ts) (der : Reads (.operand l) ts [x] mid)
    (found : (scopeOf F).operator? l mid = some (tag, token, rest)) (kept : near.kept keeps = token) :
    ∃ P' O', (Act.binary tag keeps).Turns near (x :: P) O P' O' ∧
      Context stream F O' P' l tag.rightStrength rest := by
  subst kept
  obtain ⟨_, positive, small⟩ := operator?_binary found
  generalize above : O.takeWhile (fun op => op.tag.reducesBefore tag) = ops
  generalize rest : O.dropWhile (fun op => op.tag.reducesBefore tag) = O'
  have split : O = ops ++ O' := by rw [← above, ← rest, List.takeWhile_append_dropWhile]
  have each : ∀ op ∈ ops, tag.leftStrength ≤ op.tag.precedence ∧ op.tag.isMarker = false := by
    intro op member
    rw [← above] at member
    exact leftStrength_le_of_reducesBefore positive
      (List.mem_takeWhile_imp (p := fun op : Pending => op.tag.reducesBefore tag) member)
  have waits : ∀ top ∈ O'.head?, top.tag.reducesBefore tag = false := by
    intro top member
    rw [← rest] at member
    have stop := List.head?_dropWhile_not (fun op : Pending => op.tag.reducesBefore tag) O
    rw [Option.mem_def.mp member] at stop
    simpa using stop
  rw [split] at ctx above
  obtain ⟨y, P', q', ts', p', fold, below, le, bound, der'⟩ :=
    ctx.fold_all der.single ctx.strength_le (fun op h => (each op h).2) (strengths small).2
      (fun op h => (each op h).1)
  rw [split]
  refine ⟨y :: P', _, .binary above (fun op h => (each op h).2) fold, ?_⟩
  exact .binary below (der'.lower bound) found (below.strength_le_of_waits positive small waits)

theorem join_yields {tag : NodeTag} {token : Option Token} {keeps : Bool}
    (h : c.Stands old .operator F O (x :: P) l mid) (ctx : Context stream F O P l q ts)
    (der : Reads (.operand l) ts [x] mid) (kept : c.token.kept keeps = token)
    (found : (scopeOf F).operator? l mid = some (tag, token, c.behind)) :
    Yields old Any ((Choice.read { act := .binary tag keeps, goal := .operand }).run c)
      (Next.Reached stream old) := by
  obtain ⟨P', O', turns, ctx'⟩ := binary_turns ctx der found kept
  exact yields_reached (.operand ctx') (h.reads rfl turns)

/-- Where a construct ends, all operators above its marker are applied. -/
theorem leave_yields (h : c.Stands old goal F O (x :: P) l rest) (ctx : Context stream F O P l q ts)
    (der : Reads (.operand l) ts [x] rest) (ended : Tail.value.Allows rest) :
    Yields old Any c.leave (Next.Reached stream old) := by
  generalize above : O.takeWhile (fun op => !op.tag.isMarker) = ops
  generalize below : O.dropWhile (fun op => !op.tag.isMarker) = O'
  have split : O = ops ++ O' := by rw [← above, ← below, List.takeWhile_append_dropWhile]
  have plain : ∀ op ∈ ops, op.tag.isMarker = false := by
    intro op member
    rw [← above] at member
    simpa using List.mem_takeWhile_imp member
  have each : ∀ op ∈ ops, 1 ≤ op.tag.precedence := by
    intro op member
    exact Nat.pos_of_ne_zero (beq_eq_false_iff_ne.mp (plain op member))
  have settled : Settled O' := by
    intro top member
    rw [← below] at member
    have stop := List.head?_dropWhile_not (fun op : Pending => !op.tag.isMarker) O
    rw [Option.mem_def.mp member] at stop
    simpa using stop
  rw [split] at ctx above h
  obtain ⟨y, P', q', ts', p', fold, below, _, le, der'⟩ :=
    ctx.fold_all der.single ctx.strength_le plain (by decide) each
  cases F with
  | nil => exact absurd rfl ctx.frames_ne_nil
  | cons f F =>
    exact yields_reached (.close below settled (der'.lower le) ended) (h.leaves above fold)

theorem holdsBlocks_iff (c : Config) : c.holdsBlocks = true ↔ scopeOf c.frames = .block := by
  unfold holdsBlocks
  cases c.frames with
  | nil => simp [scopeOf]
  | cons f rest =>
    cases f with
    | group _ block => cases block <;> simp [scopeOf, Frame.holdsBlocks, Frame.scope]
    | _ => simp [scopeOf, Frame.holdsBlocks, Frame.scope]

theorem operator?_line {scope : Scope} {l : Nat} {i : Lexeme} (line : i.IsLine l)
    (block : scope = .block) (y : Lexeme) (behind : List Lexeme) :
    scope.operator? l (i :: y :: behind) =
      if y.tag = .pipe then some (.blockOr, none, behind) else some (.blockAnd, none, y :: behind) := by
  simp [Scope.operator?, line.1, line.2, block]

theorem operatorLine_yields (h : c.Stands old .operator F O (x :: P) l (i :: c.behind))
    (ctx : Context stream F O P l q ts) (der : Reads (.operand l) ts [x] (i :: c.behind))
    (line : i.IsLine k) : Yields old Any ((c.lineChoice k).run c) (Next.Reached stream old) := by
  simp only [lineChoice, h.goal_eq]
  split
  · rename_i goes
    have block : scopeOf F = .block := h.frames ▸ (holdsBlocks_iff c).mp goes.2
    obtain rfl : k = l := goes.1.trans h.level
    obtain ⟨y, behind, split, peek⟩ := c.behind_head
    simp only [Choice.run]
    split
    · rename_i bar
      have cons := c.behind_peek (by simp [bar]) (by simp [bar])
      have found := (operator?_line line block ⟨c.scanner.peek, none⟩ c.dropToken.behind).trans
        (if_pos bar)
      obtain ⟨P', O', turns, ctx'⟩ :=
        binary_turns ctx der (cons ▸ found) (rfl : c.token.kept false = none)
      exact yields_reached (.operand ctx') (h.dropped.reads rfl turns)
    · rename_i other
      have other : y.tag ≠ .pipe := by simpa [Lexeme.tag, peek] using other
      refine join_yields h ctx der rfl ?_
      rw [split, operator?_line line block, if_neg other]
      rfl
  · exact leave_yields h ctx der (.inl ⟨line.1, by rw [line.2]; rfl⟩)

theorem operator?_plain {scope : Scope} {l : Nat} {x : Lexeme} {rest : List Lexeme} {tag : NodeTag}
    (h : operatorTag? x.tag = some tag) :
    scope.operator? l (x :: rest) = some (tag, some x.token, rest) := by
  unfold Scope.operator?
  dsimp only
  split
  · rename_i line
    simp [line, operatorTag?] at h
  · rename_i equal
    simp [equal, operatorTag?] at h
  · simp [binaryTag?_eq, h]

theorem Stands.closes_allows (h : c.Stands old goal F O P l ts) (closes : c.token.tag.closes = true) :
    Tail.value.Allows ts := by
  obtain ⟨level, rest, ahead⟩ := c.ahead_head
  rw [← h.ahead, ahead]
  exact .inr closes

theorem operator_yields (h : c.Stands old .operator F O (x :: P) l mid)
    (ctx : Context stream F O P l q ts) (der : Reads (.operand l) ts [x] mid)
    (plain : c.token.tag ≠ .indent) :
    Yields old Any (c.operatorChoice.run c) (Next.Reached stream old) := by
  unfold operatorChoice
  split
  · exact leave_yields h ctx der (h.closes_allows (by simp [*, TokenTag.closes]))
  · exact leave_yields h ctx der (h.closes_allows (by simp [*, TokenTag.closes]))
  · exact leave_yields h ctx der (h.closes_allows (by simp [*, TokenTag.closes]))
  · rename_i equal
    split
    · rename_i inside
      obtain rfl := h.plain (by simp [equal]) plain
      rw [Assembly.innermost?, h.operators] at inside
      refine join_yields h ctx der rfl ?_
      simp [Scope.operator?, Lexeme.tag, equal, ctx.innermost_attrs.mp inside, Token.kept]
    · exact fail_yields h.carries _
  · rename_i eof _
    split
    · rename_i found
      obtain rfl := h.plain eof plain
      exact join_yields h ctx der rfl (operator?_plain found)
    · exact fail_yields h.carries _

/-- A block begins on the next level. -/
theorem block_yields {Q : Next → Prop} {d : Deed} (h : c.Stands old goal F O P l ts)
    (opened : k = l + 1 → Yields old Any ((Choice.read { d with level := some k }).run c) Q) :
    Yields old Any ((c.blockChoice k d).run c) Q := by
  unfold blockChoice
  rw [h.level]
  split
  · exact opened ‹_›
  · split <;> exact fail_yields h.carries _

theorem parenLine_yields {o : Lexeme}
    (h : c.Stands old .afterParen F (⟨.group, some o.token, P.length⟩ :: O) P l (i :: c.behind))
    (ctx : Context stream F O P l q (o :: i :: c.behind)) (paren : o.tag = .lParen)
    (line : i.IsLine k) : Yields old Any ((c.lineChoice k).run c) (Next.Reached stream old) := by
  simp only [lineChoice, h.goal_eq]
  refine block_yields h ?_
  rintro rfl
  rw [h.level]
  exact yields_reached (.operand (.groupBlock ctx paren line)) (h.reads rfl .idle)

theorem dot_yields {d : Lexeme} (h : c.Stands old .afterDot F O P l ts)
    (ctx : Context stream F O P l q (d :: ts)) (dot : d.tag = .dot) :
    Yields old Any (c.tokenChoice.run c) (Next.Reached stream old) := by
  simp only [tokenChoice, h.goal_eq]
  split
  · rename_i named
    obtain rfl := h.plain (by simp [named]) (by simp [named])
    exact yields_reached (.afterName ctx dot named .unattributed) (h.reads rfl .push)
  · exact fail_yields h.carries _

section Names

variable {d n : Lexeme} {A : List Piece}

/-- Nothing more is said of the name, so that it ends here. -/
theorem name_yields (h : c.Stands old goal F (⟨.nameDef, some n.token, P.length⟩ :: O) (A ++ P) l rest)
    (ctx : Context stream F O P l q (d :: n :: ts)) (dot : d.tag = .dot)
    (ident : n.tag = .identifier) (attrs : Reads (.attributes l) ts A rest)
    (allowed : (Tail.name (!A.isEmpty) l).Allows rest) :
    Yields old Any (nameChoice.run c) (Next.Reached stream old) := by
  have whole := Derives.name dot ident attrs (.undefined allowed)
  rw [List.append_nil, ← attrs.reverse_attributes] at whole
  exact yields_reached (.operator ctx whole) (h.keeps (.complete rfl rfl))

theorem nameLine_yields
    (h : c.Stands old (.afterName (!A.isEmpty)) F (⟨.nameDef, some n.token, P.length⟩ :: O) (A ++ P) l
      (i :: c.behind))
    (ctx : Context stream F O P l q (d :: n :: ts)) (dot : d.tag = .dot)
    (ident : n.tag = .identifier) (attrs : Reads (.attributes l) ts A (i :: c.behind))
    (line : i.IsLine k) : Yields old Any ((c.lineChoice k).run c) (Next.Reached stream old) := by
  simp only [lineChoice, h.goal_eq]
  rw [h.level]
  split
  · rename_i shallow
    refine name_yields h ctx dot ident attrs ⟨?_, ?_, fun _ => ⟨k, line.2, shallow⟩⟩
    · simp [line.1]
    · simp [line.1]
  · refine block_yields h ?_
    rintro rfl
    exact yields_reached (.operand (.body ctx dot ident attrs line)) (h.reads rfl .push)

theorem nameToken_yields
    (h : c.Stands old (.afterName (!A.isEmpty)) F (⟨.nameDef, some n.token, P.length⟩ :: O) (A ++ P) l
      rest)
    (ctx : Context stream F O P l q (d :: n :: ts)) (dot : d.tag = .dot)
    (ident : n.tag = .identifier) (attrs : Reads (.attributes l) ts A rest)
    (plain : c.token.tag ≠ .indent) :
    Yields old Any (c.tokenChoice.run c) (Next.Reached stream old) := by
  obtain ⟨level, more, head⟩ := c.ahead_head
  rw [h.ahead] at head
  simp only [tokenChoice, h.goal_eq]
  split
  · rename_i bracket
    split
    · rename_i given
      refine name_yields h ctx dot ident attrs ?_
      rw [head, given]
      exact ⟨by simp [Lexeme.tag, bracket], fun _ => rfl, by simp [Lexeme.tag, bracket]⟩
    · rename_i bare
      obtain rfl : A = [] := by simpa using bare
      obtain rfl := attrs.unattributed_eq
      obtain rfl := h.plain (by simp [bracket]) plain
      simp only [Choice.run]
      split
      · rename_i closed
        rw [c.behind_peek (by simp [closed]) (by simp [closed])] at ctx
        have made : Assembly.Makes .attrs 0 := ⟨.inr ⟨rfl, rfl⟩, by decide⟩
        exact yields_reached (.afterName ctx dot ident (.noAttributes bracket closed))
          (h.dropped.reads rfl (.build made))
      · exact yields_reached (.operand (.attrs ctx dot ident bracket)) (h.reads rfl .push)
  · rename_i equal
    obtain rfl := h.plain (by simp [equal]) plain
    exact yields_reached (.operand (.value ctx dot ident attrs equal)) (h.reads rfl .push)
  · rename_i notBracket notEqual
    refine name_yields h ctx dot ident attrs ?_
    rw [head]
    exact ⟨notEqual, fun bracket => absurd bracket notBracket, fun line => absurd line plain⟩

end Names

end Config
end Offside
