import Offside.Proofs.Tracking

/-! The choices that end a construct: the piece in its scope goes into the derivation of the operand
that the construct is. With them, every choice of the rules keeps track of what has been read. -/
namespace Offside

theorem Settled.not_binary {scope : Scope} {l base : Nat} {mid rest : List Lexeme} {tag : NodeTag}
    {token : Option Token} {O : List Pending} (settled : Settled (⟨tag, token, base⟩ :: O))
    (found : scope.operator? l mid = some (tag, token, rest)) : False := by
  have mark : tag.isMarker = true := settled _ rfl
  have positive := (operator?_binary found).2.1
  simp only [NodeTag.isMarker, beq_iff_eq] at mark
  omega

theorem Settled.not_negate {base : Nat} {token : Option Token} {O : List Pending}
    (settled : Settled (⟨.negate, token, base⟩ :: O)) : False := by
  cases settled _ rfl

namespace Config

variable {stream : List Lexeme} {old : List Node} {c : Config} {goal : Goal} {F : List Frame}
  {O : List Pending} {P : List Piece} {x : Piece} {l k q outer : Nat} {ts rest : List Lexeme}
  {o i n : Lexeme} {block : Bool}

theorem groupEnd_yields
    (h : c.Stands old (.close (.group outer block)) F (⟨.group, some o.token, P.length⟩ :: O) (x :: P) l
      rest)
    (ctx : Context stream F O P outer q (o :: ts)) (plain : c.token.tag ≠ .indent)
    (der : ∀ z, z.tag = .rParen → rest = z :: c.behind →
      Reads (.operand outer) (o :: ts) [⟨x.tree, true⟩] c.behind) :
    Yields old Any (c.tokenChoice.run c) (Next.Reached stream old) := by
  simp only [tokenChoice, h.goal_eq]
  split
  · rename_i closed
    have split := h.plain (by simp [closed]) plain
    exact yields_reached (.operator ctx (der ⟨c.token, none⟩ closed split)) (h.reads rfl .group)
  · exact fail_yields h.carries _
  · exact fail_yields h.carries _

theorem dedent_yields {Q : Next → Prop} {ended : Choice} (h : c.Stands old goal F O P l ts)
    (closes : k = outer → Yields old Any (ended.run c) Q) :
    Yields old Any ((dedentChoice k outer ended).run c) Q := by
  unfold dedentChoice
  split
  · exact fail_yields h.carries _
  · split
    · exact fail_yields h.carries _
    · exact closes (by omega)

/-- A group that is a block may have its parenthesis on the next line. -/
theorem groupLine_yields
    (h : c.Stands old (.close (.group outer true)) F (⟨.group, some o.token, P.length⟩ :: O) (x :: P) l
      (i :: c.behind))
    (ctx : Context stream F O P outer q (o :: n :: ts)) (paren : o.tag = .lParen)
    (deeper : n.IsLine (outer + 1)) (der : Reads (.term .block (outer + 1) 1) ts [x] (i :: c.behind))
    (line : i.IsLine k) : Yields old Any ((c.lineChoice k).run c) (Next.Reached stream old) := by
  simp only [lineChoice, h.goal_eq]
  refine dedent_yields h ?_
  rintro rfl
  simp only [Choice.run]
  split
  · rename_i closed
    have behind := c.behind_peek (by simp [closed]) (by simp [closed])
    rw [behind] at der
    exact yields_reached (.closeLine ctx paren deeper der line closed) (h.reads behind .idle)
  · exact fail_yields h.carries _

theorem attrsEnd_yields {d : Lexeme}
    (h : c.Stands old (.close .attrs) F
      (⟨.attrs, none, P.length⟩ :: ⟨.nameDef, some n.token, P.length⟩ :: O) (x :: P) l rest)
    (ctx : Context stream F O P l q (d :: n :: o :: ts)) (dot : d.tag = .dot)
    (ident : n.tag = .identifier) (bracket : o.tag = .lBracket)
    (der : Reads (.term .attrs l 1) ts [x] rest) (plain : c.token.tag ≠ .indent) :
    Yields old Any (c.tokenChoice.run c) (Next.Reached stream old) := by
  simp only [tokenChoice, h.goal_eq]
  split
  · rename_i closed
    obtain rfl := h.plain (by simp [closed]) plain
    exact yields_reached (.afterName ctx dot ident (.attributes bracket der closed))
      (h.reads rfl (.wrap rfl))
  · exact fail_yields h.carries _
  · exact fail_yields h.carries _

section Definitions

variable {d : Lexeme} {mid : List Lexeme} {A : List Piece} {marker : NodeTag}

/-- The value or the body of a name goes into its node behind the attributes. -/
theorem define_yields {level : Option Nat}
    (h : c.Stands old goal F
      (⟨marker, none, (A ++ P).length⟩ :: ⟨.nameDef, some n.token, P.length⟩ :: O) (x :: (A ++ P)) l rest)
    (ctx : Context stream F O P (level.getD l) q (d :: n :: ts)) (dot : d.tag = .dot)
    (ident : n.tag = .identifier) (attrs : Reads (.attributes (level.getD l)) ts A mid)
    (defined : Reads (.definition (!A.isEmpty) (level.getD l)) mid [.ofNode .value none [x.tree]] rest) :
    Yields old Any ((Choice.keep { act := .define marker, level, goal := .operator }).run c)
      (Next.Reached stream old) := by
  have whole := Derives.name dot ident attrs defined
  rw [← attrs.reverse_attributes, ← List.reverse_cons] at whole
  exact yields_reached (.operator ctx whole) (h.keeps .define)

end Definitions

theorem Stands.ended (h : c.Stands old goal F O P l rest) (allowed : Tail.value.Allows rest)
    (plain : c.token.tag ≠ .indent) : (Tail.body outer).Allows rest := by
  obtain ⟨level, more, head⟩ := c.ahead_head
  rw [← h.ahead, head] at allowed ⊢
  rcases allowed with ⟨line, -⟩ | closes
  · exact absurd line plain
  · exact .inr closes

theorem headerEnd_yields {tag : NodeTag} {H : List Piece}
    (h : c.Stands old (.close .header) F (⟨tag, some o.token, P.length⟩ :: O) (H ++ P) l (i :: c.behind))
    (ctx : Context stream F O P l q (o :: ts))
    (der : Reads (.heading tag l) (o :: ts) H (i :: c.behind)) (line : i.IsLine k) :
    Yields old Any ((c.lineChoice k).run c) (Next.Reached stream old) := by
  simp only [lineChoice, h.goal_eq]
  split
  · refine block_yields h ?_
    rintro rfl
    rw [h.level]
    exact yields_reached (.operand (.control ctx der line)) (h.reads rfl .idle)
  · exact fail_yields h.carries _

theorem controlEnd_yields {tag : NodeTag} {H : List Piece} {mid : List Lexeme}
    (h : c.Stands old (.close (.control outer)) F (⟨tag, some o.token, P.length⟩ :: O)
      (x :: (H ++ P)) l rest)
    (ctx : Context stream F O P outer q (o :: ts))
    (heading : Reads (.heading tag outer) (o :: ts) H (i :: mid)) (deeper : i.IsLine (outer + 1))
    (der : Reads (.term .block (outer + 1) 1) mid [x] rest) (allowed : (Tail.body outer).Allows rest) :
    Yields old Any ((c.controlChoice outer).run c) (Next.Reached stream old) := by
  obtain ⟨shape, mark, -⟩ := heading_marker heading
  have innermost : c.work.innermost? = some tag := by
    simp [Assembly.innermost?, h.operators, mark]
  have whole := Derives.control heading deeper der allowed
  rw [← heading.reverse_heading, ← List.reverse_cons] at whole
  simp only [controlChoice, innermost]
  exact yields_reached (.operator ctx whole) (h.keeps (.complete (Q := x :: H) shape mark))

/-- One tree must be left, and nothing that waits for another. -/
theorem finish_yields (h : c.Stands old goal [] [] [x] l rest)
    (der : Reads (.term .block 0 1) stream [x] rest) (eof : c.token.tag = .eof) :
    Yields old Any c.finish (Next.Reached stream old) := by
  rw [← h.ahead, ahead_eof eof] at der
  obtain ⟨os, ns, operands, -, below, -⟩ := h.carries.2.uncons
  cases below
  simp only [finish, h.operators, operands]
  exact ⟨x, h.carries, rfl, x, _, der, eof, rfl⟩

/-- A line, once measured. -/
theorem line_yields (h : c.Stands old goal F O P l (i :: c.behind))
    (expects : Expects stream goal F O P l (i :: c.behind)) (line : i.IsLine k)
    (other : goal ≠ .close .value) :
    Yields old Any ((c.lineChoice k).run c) (Next.Reached stream old) := by
  have refused (refuses : c.lineChoice k = .refuse .unexpected) :
      Yields old Any ((c.lineChoice k).run c) (Next.Reached stream old) := by
    rw [refuses]
    exact fail_yields h.carries _
  cases expects with
  | operand => exact refused (by simp only [lineChoice, h.goal_eq])
  | operator ctx der => exact operatorLine_yields h ctx der line
  | afterParen ctx paren => exact parenLine_yields h ctx paren line
  | afterDot => exact refused (by simp only [lineChoice, h.goal_eq])
  | afterName ctx dot ident attrs => exact nameLine_yields h ctx dot ident attrs line
  | close ctx settled der ended =>
    cases ctx with
    | binary _ _ found _ => exact (settled.not_binary found).elim
    | negate => exact settled.not_negate.elim
    | start => exact refused (by simp only [lineChoice, h.goal_eq])
    | group => exact refused (by simp only [lineChoice, h.goal_eq])
    | groupBlock ctx paren deeper => exact groupLine_yields h ctx paren deeper der line
    | attrs => exact refused (by simp only [lineChoice, h.goal_eq])
    | value => exact absurd rfl other
    | body ctx dot ident attrs deeper =>
      simp only [lineChoice, h.goal_eq]
      refine dedent_yields h ?_
      rintro rfl
      exact define_yields h ctx dot ident attrs (.body deeper der (.inl line))
    | header ctx found => exact headerEnd_yields (H := [_]) h ctx (.header found der) line
    | control ctx heading deeper =>
      simp only [lineChoice, h.goal_eq]
      refine dedent_yields h ?_
      rintro rfl
      exact controlEnd_yields h ctx heading deeper der (.inl line)
  | closeLine _ _ _ _ _ closed => simp [line.1] at closed
  | closeHeading ctx word => exact headerEnd_yields (H := []) h ctx (.otherwise word) line

theorem token_yields (h : c.Stands old goal F O P l rest) (expects : Expects stream goal F O P l rest)
    (plain : c.token.tag = .indent → goal = .close .value) :
    Yields old Any (c.tokenChoice.run c) (Next.Reached stream old) := by
  have solid (other : goal ≠ .close .value) : c.token.tag ≠ .indent := mt plain other
  cases expects with
  | operand ctx =>
    simp only [tokenChoice, h.goal_eq]
    exact operand_yields h ctx
  | operator ctx der =>
    simp only [tokenChoice, h.goal_eq]
    exact operator_yields h ctx der (solid (by simp))
  | afterParen ctx paren =>
    simp only [tokenChoice, h.goal_eq, h.level]
    exact yields_reached (.operand (.group ctx paren)) (h.keeps .idle)
  | afterDot ctx dot => exact dot_yields h ctx dot
  | afterName ctx dot ident attrs => exact nameToken_yields h ctx dot ident attrs (solid (by simp))
  | close ctx settled der ended =>
    cases ctx with
    | binary _ _ found _ => exact (settled.not_binary found).elim
    | negate => exact settled.not_negate.elim
    | start =>
      simp only [tokenChoice, h.goal_eq]
      split
      · exact finish_yields h der ‹_›
      · exact fail_yields h.carries _
      · exact fail_yields h.carries _
      · exact fail_yields h.carries _
    | group ctx paren =>
      refine groupEnd_yields h ctx (solid (by simp)) ?_
      rintro z closed rfl
      exact .group paren der closed
    | groupBlock ctx paren deeper =>
      refine groupEnd_yields h ctx (solid (by simp)) ?_
      rintro z closed rfl
      exact .groupBlock paren deeper der ⟨z, closed, .inl rfl⟩
    | attrs ctx dot ident bracket =>
      exact attrsEnd_yields h ctx dot ident bracket der (solid (by simp))
    | value ctx dot ident attrs equal =>
      simp only [tokenChoice, h.goal_eq]
      exact define_yields h ctx dot ident attrs (.value equal der ended)
    | body ctx dot ident attrs deeper =>
      simp only [tokenChoice, h.goal_eq]
      exact define_yields h ctx dot ident attrs (.body deeper der (h.ended ended (solid (by simp))))
    | header =>
      simp only [tokenChoice, h.goal_eq]
      exact fail_yields h.carries _
    | control ctx heading deeper =>
      simp only [tokenChoice, h.goal_eq]
      exact controlEnd_yields h ctx heading deeper der (h.ended ended (solid (by simp)))
  | closeLine ctx paren deeper der around closed =>
    refine groupEnd_yields h ctx (solid (by simp)) ?_
    rintro z closed' split
    obtain ⟨rfl, rfl⟩ := List.cons.inj split
    exact .groupBlock paren deeper der ⟨_, closed, .inr ⟨_, around, rfl⟩⟩
  | closeHeading =>
    simp only [tokenChoice, h.goal_eq]
    exact fail_yields h.carries _

/-- Every choice of the rules keeps track of what has been read. -/
theorem choose_yields (tracks : c.Tracks stream old P) :
    Yields old Any c.choose (Next.Reached stream old) := by
  obtain ⟨carries, expects⟩ := tracks
  have h : c.Stands old c.goal c.frames c.work.operators P c.grid.level c.ahead :=
    ⟨carries, rfl, rfl, rfl, rfl, rfl⟩
  unfold choose choice
  split
  · rename_i measures
    obtain ⟨line, other⟩ := measures
    rcases c.grid.measure_cases c.token with ⟨k, g, found⟩ | missed
    · have cons := (ahead_measured line found).2
      rw [cons] at h expects
      obtain ⟨h, behind⟩ := h.measured ⟨line, rfl⟩ found
      rw [found]
      exact line_yields h expects ⟨line, rfl⟩ other
    · rw [missed]
      exact fail_yields carries _
  · rename_i other
    refine token_yields h expects ?_
    intro line
    exact Decidable.byContradiction fun goal => other ⟨line, goal⟩

end Config
end Offside
