import Offside.Proofs.Leading

/-! Whatever the grammar derives, the parser reads. -/
namespace Offside
namespace Config

variable {old : List Node} {c : Config} {goal : Goal} {F : List Frame} {O : List Pending}
  {P : List Piece} {x : Piece} {l outer : Nat} {ts rest : List Lexeme}

theorem Stands.readsLeaf {t : Lexeme} {tag : NodeTag}
    (h : c.Stands old .operand F O P l (t :: rest)) (found : leafTag? t.tag = some tag) :
    c.Leads fun d => d.Stands old .operator F O (.ofNode tag (some t.token) [] :: P) l rest := by
  have made : Assembly.Makes tag 0 := by
    cases kind : t.tag <;> simp [kind, leafTag?] at found <;> subst found <;> exact ⟨rfl, by decide⟩
  refine h.readsToken (d := { act := .build tag true, goal := .operator }) ?_ ?_ ?_ (.build made)
  · intro eof
    simp [eof, leafTag?] at found
  · intro line
    simp [line, leafTag?] at found
  · intro e he
    simp only [tokenChoice, he.goal_eq, he.tag_eq]
    cases kind : t.tag <;> simp [kind, leafTag?] at found <;> subst found <;> rfl

theorem Stands.opensGroup {o : Lexeme} (h : c.Stands old .operand F O P l (o :: ts))
    (paren : o.tag = .lParen) :
    c.Leads fun d => d.Stands old .afterParen F (⟨.group, some o.token, P.length⟩ :: O) P l ts := by
  refine h.readsToken (d := { act := .push .group true, goal := .afterParen }) (by simp [paren])
    (by simp [paren]) ?_ .push
  intro e he
  simp only [tokenChoice, he.goal_eq, he.tag_eq, paren]
  rfl

theorem Stands.closesGroup {z : Lexeme} {token : Option Token} {block : Bool}
    (h : c.Stands old (.close (.group outer block)) F (⟨.group, token, P.length⟩ :: O) (x :: P) l
      (z :: rest)) (closed : z.tag = .rParen) :
    c.Leads fun d => d.Stands old .operator F O (⟨x.tree, true⟩ :: P) outer rest := by
  refine h.readsToken (d := { act := .group, level := some outer, goal := .operator })
    (by simp [closed]) (by simp [closed]) ?_ .group
  intro e he
  simp only [tokenChoice, he.goal_eq, he.tag_eq, closed]
  rfl

theorem dedentChoice_self (ended : Choice) : dedentChoice outer outer ended = ended := by
  simp [dedentChoice]

theorem Stands.blockChoice_next {d : Deed} (h : c.Stands old goal F O P l ts) :
    c.blockChoice (l + 1) d = .read { d with level := some (l + 1) } := by
  rw [blockChoice, h.level, if_pos rfl]

theorem Stands.closesLine {n z : Lexeme}
    (h : c.Stands old (.close (.group outer true)) F O P l (n :: z :: rest)) (line : n.IsLine outer)
    (closed : z.tag = .rParen) :
    c.Leads fun d => d.Stands old (.close (.group outer false)) F O P outer (z :: rest) := by
  refine h.readsLine (d := { level := some outer, goal := .close (.group outer false) }) line (by simp)
    ?_ .idle
  intro e he behind
  have peek : e.scanner.peek.tag = .rParen := (congrArg Token.tag (peek_of_behind behind)).trans closed
  simp only [lineChoice, he.goal_eq, dedentChoice_self, Choice.run, if_pos peek, Sight.run]

theorem Stands.closesAttrs {z : Lexeme}
    (h : c.Stands old (.close .attrs) F (⟨.attrs, none, P.length⟩ :: O) (x :: P) l (z :: rest))
    (closed : z.tag = .rBracket) :
    c.Leads fun d =>
      d.Stands old (.afterName true) F O (.ofNode .attrs none [x.tree] :: P) l rest := by
  refine h.readsToken (d := { act := .wrap .attrs .attrs, goal := .afterName true })
    (by simp [closed]) (by simp [closed]) ?_ (.wrap rfl)
  intro e he
  simp only [tokenChoice, he.goal_eq, he.tag_eq, closed]
  rfl

/-- A construct with lines of its own ends with a line on the level around it or with a token that
ends everything. -/
theorem Stands.dedents {d : Deed} {O' : List Pending} {P' : List Piece}
    (h : c.Stands old goal F O P l rest) (allowed : (Tail.body outer).Allows rest)
    (other : goal ≠ .close .value)
    (line : ∀ e : Config, e.Stands old goal F O P l rest →
      (e.lineChoice outer).run e = d.run e redo)
    (token : ∀ e : Config, e.Stands old goal F O P l rest → e.tokenChoice.run e = d.run e redo)
    (turns : ∀ near, d.act.Turns near P O P' O') :
    c.Leads fun e => e.Stands old d.goal (d.opens.toList ++ F) O' P' (d.level.getD l) rest := by
  cases rest with
  | nil => exact allowed.elim
  | cons y rest =>
    rcases allowed with around | closes
    · exact h.keepsLine around other line (turns _)
    · refine h.keepsToken ?_ token (turns _)
      intro line
      simp [line, TokenTag.closes] at closes

section Names

variable {Q : List Piece} {token : Option Token}

theorem Stands.closesValue
    (h : c.Stands old (.close .value) F
      (⟨.value, none, (Q ++ P).length⟩ :: ⟨.nameDef, token, P.length⟩ :: O) (x :: (Q ++ P)) l rest) :
    c.Leads fun d => d.Stands old .operator F O
      (.ofNode .nameDef token ((.ofNode .value none [x.tree] :: Q).reverse.map Piece.tree) :: P) l
        rest := by
  refine Leads.choose old ?_
  have row : c.noted.tokenChoice = .keep { act := .define .value, goal := .operator } := by
    simp only [tokenChoice, h.noted.goal_eq]
  unfold choose
  rw [choice_token fun _ => h.noted.goal_eq, row]
  exact h.noted.keeps .define

theorem Stands.closesBody
    (h : c.Stands old (.close (.body outer)) F
      (⟨.blockAssign, none, (Q ++ P).length⟩ :: ⟨.nameDef, token, P.length⟩ :: O) (x :: (Q ++ P)) l
        rest) (allowed : (Tail.body outer).Allows rest) :
    c.Leads fun d => d.Stands old .operator F O
      (.ofNode .nameDef token ((.ofNode .value none [x.tree] :: Q).reverse.map Piece.tree) :: P)
        outer rest := by
  refine h.dedents (d := { act := .define .blockAssign, level := some outer, goal := .operator })
    allowed (by simp) ?_ ?_ fun _ => .define
  · intro e he
    simp only [lineChoice, he.goal_eq, dedentChoice_self]
    rfl
  · intro e he
    simp only [tokenChoice, he.goal_eq]
    rfl

end Names

theorem Stands.readsName {d n : Lexeme} (h : c.Stands old .operand F O P l (d :: n :: ts))
    (dot : d.tag = .dot) (ident : n.tag = .identifier) :
    c.Leads fun e =>
      e.Stands old (.afterName false) F (⟨.nameDef, some n.token, P.length⟩ :: O) P l ts := by
  have dotted := h.readsToken (d := { goal := .afterDot }) (by simp [dot]) (by simp [dot]) (by
    intro e he
    simp only [tokenChoice, he.goal_eq, he.tag_eq, dot]
    rfl) .idle
  refine dotted.trans ?_
  intro e he
  refine he.readsToken (d := { act := .push .nameDef true, goal := .afterName false })
    (by simp [ident]) (by simp [ident]) ?_ .push
  intro e he
  simp only [tokenChoice, he.goal_eq, he.tag_eq, ident]
  rfl

theorem Stands.opensBody {attributed : Bool} {n : Lexeme}
    (h : c.Stands old (.afterName attributed) F O P l (n :: rest)) (deeper : n.IsLine (l + 1)) :
    c.Leads fun d => d.Stands old .operand (.body l :: F) (⟨.blockAssign, none, P.length⟩ :: O) P (l + 1)
      rest := by
  refine h.readsLine
    (d := { act := .push .blockAssign false, level := some (l + 1), opens := some (.body l)
            goal := .operand })
    deeper (by simp) ?_ .push
  intro e he _
  simp only [lineChoice, he.goal_eq, he.level, he.blockChoice_next, Choice.run]
  rw [if_neg (Nat.not_succ_le_self l)]

theorem Stands.opensControl {n : Lexeme} (h : c.Stands old (.close .header) F O P l (n :: rest))
    (deeper : n.IsLine (l + 1)) :
    c.Leads fun d => d.Stands old .operand (.control l :: F) O P (l + 1) rest := by
  refine h.readsLine (d := { level := some (l + 1), opens := some (.control l), goal := .operand })
    deeper (by simp) ?_ .idle
  intro e he _
  simp only [lineChoice, he.goal_eq, he.level, he.blockChoice_next]
  rw [if_pos (Nat.lt_succ_self l)]
  rfl

theorem Stands.closesControl {Q : List Piece} {tag : NodeTag} {token : Option Token}
    (h : c.Stands old (.close (.control outer)) F (⟨tag, token, P.length⟩ :: O) (Q ++ P) l rest)
    (shape : tag.shape = .list) (mark : tag.isMarker = true)
    (allowed : (Tail.body outer).Allows rest) :
    c.Leads fun d =>
      d.Stands old .operator F O (.ofNode tag token (Q.reverse.map Piece.tree) :: P) outer rest := by
  have chosen (e : Config)
      (he : e.Stands old (.close (.control outer)) F (⟨tag, token, P.length⟩ :: O) (Q ++ P) l rest) :
      e.controlChoice outer = .keep { act := .complete tag, level := some outer, goal := .operator } := by
    have innermost : e.work.innermost? = some tag := by
      simp [Assembly.innermost?, he.operators, mark]
    simp only [controlChoice, innermost]
  refine h.dedents (d := { act := .complete tag, level := some outer, goal := .operator }) allowed
    (by simp) ?_ ?_ fun _ => .complete shape mark
  · intro e he
    simp only [lineChoice, he.goal_eq, dedentChoice_self, chosen e he]
    rfl
  · intro e he
    simp only [tokenChoice, he.goal_eq, chosen e he]
    rfl

end Config

def Phrase.IsWhole : Phrase → Prop
  | .term _ _ _ | .operand _ | .heading _ _ => True
  | .attributes _ | .definition _ _ => False

/- What a derivation promises of every configuration that stands before its lexemes. The operators
that a term leaves behind are still to be applied. -/
def Runs (old : List Node) : Phrase → List Lexeme → List Piece → List Lexeme → Prop
  | .term scope l p, ts, X, rest => ∀ (c : Config) F O P, scopeOf F = scope →
      (scope = .attrs → (O.find? fun op => op.tag.isMarker).map Pending.tag = some .attrs) →
      Room O p → c.Stands old .operand F O P l ts →
      c.Leads fun d => ∃ ops P', d.Stands old .operator F (ops ++ O) P' l rest ∧
        foldAll? ops P' = some (X ++ P) ∧
        ∀ op ∈ ops, op.tag.isMarker = false ∧ p ≤ op.tag.precedence
  | .operand l, ts, X, rest => ∀ (c : Config) F O P, c.Stands old .operand F O P l ts →
      c.Leads fun d => d.Stands old .operator F O (X ++ P) l rest
  | .attributes l, ts, X, rest => ∀ (c : Config) F O P, c.Stands old (.afterName false) F O P l ts →
      c.Leads fun d => d.Stands old (.afterName (!X.isEmpty)) F O (X ++ P) l rest
  | .definition attributed l, ts, X, rest => ∀ (c : Config) F O P Q token,
      c.Stands old (.afterName attributed) F (⟨.nameDef, token, P.length⟩ :: O) (Q ++ P) l ts →
      c.Leads fun d => d.Stands old .operator F O
        (.ofNode .nameDef token ((X ++ Q).reverse.map Piece.tree) :: P) l rest
  | .heading tag l, ts, X, rest => Scope.inline.Ends l rest → ∀ (c : Config) F O P,
      c.Stands old .operand F O P l ts →
      c.Leads fun d => ∃ k ∈ ts.head?, d.Stands old (.close .header) F
        (⟨tag, some k.token, P.length⟩ :: O) (X ++ P) l rest

variable {old : List Node} {l p : Nat} {ts rest : List Lexeme} {x y : Piece} {scope : Scope}

theorem foldAll?_append (ops : List Pending) (op : Pending) (ps : List Piece) :
    foldAll? (ops ++ [op]) ps = (foldAll? ops ps).bind op.fold? := by
  induction ops generalizing ps with
  | nil => cases h : op.fold? ps <;> simp [foldAll?, h]
  | cons o ops ih =>
    simp only [List.cons_append, foldAll?]
    cases o.fold? ps with
    | none => rfl
    | some qs => exact ih qs

theorem Room.below {O : List Pending} {tag : NodeTag} (h : Room O tag.precedence)
    (small : tag.precedence ≤ 8) : ∀ top ∈ O.head?, top.tag.rightStrength ≤ tag.precedence := by
  rcases h with high | low
  · have nine : NodeTag.negate.precedence = 9 := rfl
    omega
  · exact low

theorem Room.of_marker {O : List Pending} {top : Pending} (mark : top.tag.isMarker = true) :
    Room (top :: O) 1 := by
  refine .inr ?_
  rintro _ ⟨⟩
  have zero : top.tag.precedence = 0 := beq_iff_eq.mp mark
  unfold NodeTag.rightStrength
  rw [NodeTag.strength_eq, zero]
  split <;> decide

theorem Runs.weaken {X : List Piece} (h : Runs old (.term scope l (p + 1)) ts X rest) :
    Runs old (.term scope l p) ts X rest := by
  intro c F O P hs inside room stands
  have room' : Room O (p + 1) := by
    rcases room with high | low
    · exact .inl (by omega)
    · exact .inr fun top htop => Nat.le_succ_of_le (low top htop)
  refine (h c F O P hs inside room' stands).trans ?_
  rintro d ⟨ops, P', hd, fold, each⟩
  exact .here ⟨ops, P', hd, fold, fun op ho => ⟨(each op ho).1, Nat.le_of_succ_le (each op ho).2⟩⟩

theorem Runs.binary {tag : NodeTag} {token : Option Token} {mid mid' : List Lexeme}
    (left : Runs old (.term scope l tag.leftStrength) ts [x] mid)
    (found : scope.operator? l mid = some (tag, token, mid'))
    (right : Runs old (.term scope l tag.rightStrength) mid' [y] rest) :
    Runs old (.term scope l tag.strength) ts [x.join tag token y] rest := by
  rw [NodeTag.strength_eq]
  intro c F O P hs inside room stands
  obtain ⟨shape, positive, small⟩ := operator?_binary found
  have below := room.below small
  have precedes : tag.precedence ≤ tag.leftStrength ∧ tag.precedence ≤ tag.rightStrength := by
    unfold NodeTag.leftStrength NodeTag.rightStrength
    rw [NodeTag.strength_eq]
    split <;> omega
  have room₁ : Room O tag.leftStrength :=
    .inr fun top htop => Nat.le_trans (below top htop) precedes.1
  refine (left c F O P hs inside room₁ stands).trans ?_
  rintro d ⟨ops, P', hd, fold, each⟩
  rw [← hs] at found inside
  refine (hd.joins (fun op ho => (each op ho).1) (fun op ho => (each op ho).2) below fold found
    inside).trans ?_
  intro e he
  have plain : tag.isMarker = false := beq_eq_false_iff_ne.mpr (Nat.ne_of_gt positive)
  have inside' : scope = .attrs →
      ((⟨tag, token, (x :: P).length⟩ :: O).find? fun op => op.tag.isMarker).map Pending.tag =
        some .attrs := by
    intro attrs
    rw [List.find?_cons_of_neg (by simp [plain])]
    exact inside (hs.trans attrs)
  have room₂ : Room (⟨tag, token, (x :: P).length⟩ :: O) tag.rightStrength := by
    refine .inr ?_
    rintro _ ⟨⟩
    exact Nat.le_refl _
  refine (right e F _ _ hs inside' room₂ he).trans ?_
  rintro e' ⟨ops', P'', he', fold', each'⟩
  -- The operator waits below whatever its right operand has left behind.
  refine .here ⟨ops' ++ [⟨tag, token, (x :: P).length⟩], P'', ?_, ?_, ?_⟩
  · simpa using he'
  · rw [foldAll?_append, fold']
    rcases shape with shape | shape <;> simp [Pending.fold?, shape]
  · intro op ho
    rcases List.mem_append.mp ho with ho | ho
    · exact ⟨(each' op ho).1, Nat.le_trans precedes.2 (each' op ho).2⟩
    · obtain rfl := List.mem_singleton.mp ho
      exact ⟨plain, Nat.le_refl _⟩

theorem Runs.negate {m : Lexeme} (minus : m.tag = .minus)
    (h : Runs old (.term scope l NodeTag.negate.precedence) ts [x] rest) :
    Runs old (.term scope l NodeTag.negate.precedence) (m :: ts)
      [.ofNode .negate (some m.token) [x.tree]] rest := by
  intro c F O P hs inside _ stands
  have read := stands.readsToken (d := { act := .push .negate true, goal := .operand })
    (by simp [minus]) (by simp [minus]) (by
      intro e he
      simp only [Config.tokenChoice, he.goal_eq, he.tag_eq, minus]
      rfl) .push
  refine read.trans ?_
  intro e he
  refine (h e F _ P hs ?_ (.inl (Nat.le_refl _)) he).trans ?_
  · intro attrs
    rw [List.find?_cons_of_neg Bool.false_ne_true]
    exact inside attrs
  · rintro d ⟨ops, P', hd, fold, each⟩
    refine .here ⟨ops ++ [⟨.negate, some m.token, P.length⟩], P', ?_, ?_, ?_⟩
    · simpa [Token.kept] using hd
    · rw [foldAll?_append, fold]
      rfl
    · intro op ho
      rcases List.mem_append.mp ho with ho | ho
      · exact each op ho
      · obtain rfl := List.mem_singleton.mp ho
        exact ⟨rfl, Nat.le_refl _⟩

theorem Runs.single (h : Runs old (.operand l) ts [x] rest) :
    Runs old (.term scope l NodeTag.negate.precedence) ts [x] rest := by
  intro c F O P _ _ _ stands
  refine (h c F O P stands).trans ?_
  intro d hd
  exact .here ⟨[], _, hd, rfl, by simp⟩

theorem Derives.opens {ends : Tail → List Lexeme → Prop} {phrase : Phrase} {X : List Piece}
    (h : Derives ends phrase ts X rest) (whole : phrase.IsWhole) :
    ∃ t behind, ts = t :: behind ∧ t.tag.opens = true := by
  induction h with
  | weaken _ ih => exact ih trivial
  | binary _ _ _ ih _ => exact ih trivial
  | negate minus => exact ⟨_, _, rfl, by rw [minus]; rfl⟩
  | single _ ih => exact ih trivial
  | @leaf _ t _ _ found =>
    refine ⟨_, _, rfl, ?_⟩
    cases kind : t.tag <;> simp [kind, leafTag?] at found <;> rfl
  | group paren => exact ⟨_, _, rfl, by rw [paren]; rfl⟩
  | groupBlock paren => exact ⟨_, _, rfl, by rw [paren]; rfl⟩
  | name dot => exact ⟨_, _, rfl, by rw [dot]; rfl⟩
  | control _ _ _ _ ih _ => exact ih trivial
  | @header _ k _ _ _ _ found =>
    refine ⟨_, _, rfl, ?_⟩
    cases kind : k.tag <;> simp [kind, headerTag?] at found <;> rfl
  | otherwise word => exact ⟨_, _, rfl, by rw [word]; rfl⟩
  | _ => exact whole.elim

theorem Tail.Allows.ends_inline (h : Tail.value.Allows rest) : Scope.inline.Ends l rest := by
  cases rest with
  | nil => exact h.elim
  | cons y rest =>
    rcases h with ⟨line, leveled⟩ | closes
    · obtain ⟨k, level⟩ := Option.isSome_iff_exists.mp leveled
      exact .inr ⟨k, ⟨line, level⟩, by simp⟩
    · exact .inl closes

theorem Tail.Allows.ends_block (h : (Tail.body l).Allows rest) : Scope.block.Ends (l + 1) rest := by
  cases rest with
  | nil => exact h.elim
  | cons y rest =>
    rcases h with line | closes
    · exact .inr ⟨l, line, by omega⟩
    · exact .inl closes

/-- A whole construct: its marker is on the stack, its expression is read, and it is left. -/
theorem Runs.inside {f : Frame} {F : List Frame} {O : List Pending} {P : List Piece} {top : Pending}
    {c : Config} (h : Runs old (.term f.scope l 1) ts [x] rest) (mark : top.tag.isMarker = true)
    (attrs : f.scope = .attrs → top.tag = .attrs)
    (stands : c.Stands old .operand (f :: F) (top :: O) P l ts) (ended : f.scope.Ends l rest) :
    c.Leads fun d => d.Stands old (.close f) F (top :: O) (x :: P) l rest := by
  have inside : f.scope = .attrs →
      ((top :: O).find? fun op => op.tag.isMarker).map Pending.tag = some .attrs := by
    intro hf
    simp only [List.find?_cons, mark]
    exact congrArg some (attrs hf)
  refine (h c (f :: F) _ P rfl inside (.of_marker mark) stands).trans ?_
  rintro d ⟨ops, P', hd, fold, each⟩
  have settled : Settled (top :: O) := by
    rintro _ ⟨⟩
    exact mark
  exact hd.ends settled (fun op ho => (each op ho).1) fold ended

theorem Runs.group {o z : Lexeme} (paren : o.tag = .lParen)
    (der : Reads (.term .inline l 1) ts [x] (z :: rest))
    (h : Runs old (.term .inline l 1) ts [x] (z :: rest)) (closed : z.tag = .rParen) :
    Runs old (.operand l) (o :: ts) [⟨x.tree, true⟩] rest := by
  intro c F O P stands
  refine (stands.opensGroup paren).trans ?_
  intro d hd
  obtain ⟨t, behind, rfl, opens⟩ := der.opens trivial
  have plain : t.tag ≠ .indent := by
    intro line
    simp [line, TokenTag.opens] at opens
  have entered := hd.keepsToken (d := { opens := some (.group l false), goal := .operand }) plain (by
    intro e he
    simp only [Config.tokenChoice, he.goal_eq, he.level]
    rfl) .idle
  refine entered.trans ?_
  intro e he
  refine (Runs.inside (f := .group l false) h rfl (by simp [Frame.scope]) he
    (.inl (by rw [closed]; rfl))).trans ?_
  intro g hg
  exact hg.closesGroup closed

theorem Runs.groupBlock {o n : Lexeme} {mid : List Lexeme} (paren : o.tag = .lParen)
    (deeper : n.IsLine (l + 1)) (h : Runs old (.term .block (l + 1) 1) ts [x] mid)
    (closes : ClosesGroup l mid rest) :
    Runs old (.operand l) (o :: n :: ts) [⟨x.tree, true⟩] rest := by
  intro c F O P stands
  refine (stands.opensGroup paren).trans ?_
  intro d hd
  have entered := hd.readsLine
    (d := { level := some (l + 1), opens := some (.group l true), goal := .operand })
    deeper (by simp) (by
      intro e he _
      simp only [Config.lineChoice, he.goal_eq, he.level, he.blockChoice_next]
      rfl) .idle
  refine entered.trans ?_
  intro e he
  obtain ⟨z, closed, rfl | ⟨i, line, rfl⟩⟩ := closes
  · refine (Runs.inside (f := .group l true) h rfl (by simp [Frame.scope]) he
      (.inl (by rw [closed]; rfl))).trans ?_
    intro g hg
    exact hg.closesGroup closed
  · refine (Runs.inside (f := .group l true) h rfl (by simp [Frame.scope]) he
      (.inr ⟨l, line, by omega⟩)).trans ?_
    intro g hg
    refine (hg.closesLine line closed).trans ?_
    intro g' hg'
    exact hg'.closesGroup closed

theorem Runs.name {d n : Lexeme} {mid : List Lexeme} {A V : List Piece} (dot : d.tag = .dot)
    (ident : n.tag = .identifier) (order : (V ++ A).reverse = A ++ V)
    (attrs : Runs old (.attributes l) ts A mid)
    (defined : Runs old (.definition (!A.isEmpty) l) mid V rest) :
    Runs old (.operand l) (d :: n :: ts)
      [.ofNode .nameDef (some n.token) ((A ++ V).map Piece.tree)] rest := by
  intro c F O P stands
  refine (stands.readsName dot ident).trans ?_
  intro e he
  refine (attrs e _ _ _ he).trans ?_
  intro g hg
  refine (defined g _ _ _ _ _ hg).trans ?_
  intro g' hg'
  rw [order] at hg'
  exact .here hg'

theorem Runs.unattributed : Runs old (.attributes l) ts [] ts := by
  intro c F O P stands
  exact .here stands

theorem Runs.noAttributes {o z : Lexeme} (bracket : o.tag = .lBracket) (closed : z.tag = .rBracket) :
    Runs old (.attributes l) (o :: z :: rest) [.ofNode .attrs none []] rest := by
  intro c F O P stands
  refine Config.Leads.choose old ?_
  have behind := stands.noted.behind_eq (by simp [bracket]) (by simp [bracket])
  have peek : c.noted.scanner.peek.tag = .rBracket :=
    (congrArg Token.tag (Config.peek_of_behind behind)).trans closed
  have cons := c.noted.behind_peek (by simp [peek]) (by simp [peek])
  rw [behind] at cons
  have made : Assembly.Makes .attrs 0 := ⟨.inr ⟨rfl, rfl⟩, by decide⟩
  rw [stands.noted.choose_token (by simp [bracket])]
  simp only [Config.tokenChoice, stands.noted.goal_eq, stands.noted.tag_eq, bracket,
    Bool.false_eq_true, ↓reduceIte, Choice.run, peek, Sight.run]
  exact stands.noted.dropped.reads (List.cons.inj cons).2.symm (.build made)

theorem Runs.attributes {o z : Lexeme} (bracket : o.tag = .lBracket)
    (der : Reads (.term .attrs l 1) ts [x] (z :: rest))
    (h : Runs old (.term .attrs l 1) ts [x] (z :: rest)) (closed : z.tag = .rBracket) :
    Runs old (.attributes l) (o :: ts) [.ofNode .attrs none [x.tree]] rest := by
  intro c F O P stands
  obtain ⟨t, more, rfl, opens⟩ := der.opens trivial
  have entered := stands.readsToken
    (d := { act := .push .attrs false, opens := some .attrs, goal := .operand })
    (by simp [bracket]) (by simp [bracket]) (by
      intro e he
      have peek : e.scanner.peek = t.token :=
        Config.peek_of_behind (he.behind_eq (by simp [bracket]) (by simp [bracket]))
      have other : e.scanner.peek.tag ≠ .rBracket := by
        rw [peek]
        intro other
        have other : t.tag = .rBracket := other
        simp [other, TokenTag.opens] at opens
      simp only [Config.tokenChoice, he.goal_eq, he.tag_eq, bracket, Bool.false_eq_true, ↓reduceIte,
        Choice.run, other, Sight.run]) .push
  refine entered.trans ?_
  intro e he
  refine (Runs.inside (f := .attrs) h rfl (fun _ => rfl) he (.inl (by rw [closed]; rfl))).trans ?_
  intro g hg
  exact hg.closesAttrs closed

theorem Runs.undefined {attributed : Bool} (allowed : (Tail.name attributed l).Allows ts) :
    Runs old (.definition attributed l) ts [] ts := by
  intro c F O P Q token stands
  cases ts with
  | nil => exact allowed.elim
  | cons y ts =>
    obtain ⟨notEqual, bracket, line⟩ := allowed
    by_cases indent : y.tag = .indent
    · obtain ⟨k, level, shallow⟩ := line indent
      refine stands.keepsLine (d := { act := .complete .nameDef, goal := .operator }) ⟨indent, level⟩
        (by simp) ?_ (.complete rfl rfl)
      intro e he
      simp only [Config.lineChoice, he.goal_eq, he.level, if_pos shallow]
      rfl
    · refine stands.keepsToken (d := { act := .complete .nameDef, goal := .operator }) indent ?_
        (.complete rfl rfl)
      intro e he
      simp only [Config.tokenChoice, he.goal_eq, he.tag_eq]
      split
      · rename_i open_
        rw [if_pos (bracket open_)]
        rfl
      · exact absurd ‹_› notEqual
      · rfl

theorem Runs.value {attributed : Bool} {e : Lexeme} (equal : e.tag = .equal)
    (h : Runs old (.term .inline l 1) ts [x] rest) (allowed : Tail.value.Allows rest) :
    Runs old (.definition attributed l) (e :: ts) [.ofNode .value none [x.tree]] rest := by
  intro c F O P Q token stands
  have entered := stands.readsToken
    (d := { act := .push .value false, opens := some .value, goal := .operand })
    (by simp [equal]) (by simp [equal]) (by
      intro e he
      simp only [Config.tokenChoice, he.goal_eq, he.tag_eq, equal]
      rfl) .push
  refine entered.trans ?_
  intro e he
  refine (Runs.inside (f := .value) h rfl (by simp [Frame.scope]) he allowed.ends_inline).trans ?_
  intro d hd
  exact hd.closesValue

theorem Runs.body {attributed : Bool} {n : Lexeme} (deeper : n.IsLine (l + 1))
    (h : Runs old (.term .block (l + 1) 1) ts [x] rest) (allowed : (Tail.body l).Allows rest) :
    Runs old (.definition attributed l) (n :: ts) [.ofNode .value none [x.tree]] rest := by
  intro c F O P Q token stands
  refine (stands.opensBody deeper).trans ?_
  intro d hd
  refine (Runs.inside (f := .body l) h rfl (by simp [Frame.scope]) hd allowed.ends_block).trans ?_
  intro e he
  exact he.closesBody allowed

theorem Runs.header {k : Lexeme} {tag : NodeTag} (found : headerTag? k.tag = some tag)
    (h : Runs old (.term .inline l 1) ts [x] rest) : Runs old (.heading tag l) (k :: ts) [x] rest := by
  intro ended c F O P stands
  have entered := stands.readsToken
    (d := { act := .push tag true, opens := some .header, goal := .operand })
    (by intro eof; simp [eof, headerTag?] at found)
    (by intro line; simp [line, headerTag?] at found) (by
      intro e he
      simp only [Config.tokenChoice, he.goal_eq, he.tag_eq]
      cases kind : k.tag <;> simp [kind, headerTag?] at found <;> subst found <;> rfl) .push
  refine entered.trans ?_
  intro e he
  refine (Runs.inside (f := .header) h (headerTag?_marker found).2.1 (by simp [Frame.scope]) he
    ended).trans ?_
  intro d hd
  exact .here ⟨k, rfl, hd⟩

theorem Runs.otherwise {k : Lexeme} (word : k.tag = .kwElse) :
    Runs old (.heading .elseThen l) (k :: rest) [] rest := by
  intro _ c F O P stands
  have read := stands.readsToken (d := { act := .push .elseThen true, goal := .close .header })
    (by simp [word]) (by simp [word]) (by
      intro e he
      simp only [Config.tokenChoice, he.goal_eq, he.tag_eq, word]
      rfl) .push
  refine read.trans ?_
  intro d hd
  exact .here ⟨k, rfl, hd⟩

theorem Runs.control {k n : Lexeme} {mid : List Lexeme} {tag : NodeTag} {H : List Piece}
    (heading : Reads (.heading tag l) (k :: ts) H (n :: mid))
    (heads : Runs old (.heading tag l) (k :: ts) H (n :: mid)) (deeper : n.IsLine (l + 1))
    (h : Runs old (.term .block (l + 1) 1) mid [x] rest) (allowed : (Tail.body l).Allows rest) :
    Runs old (.operand l) (k :: ts)
      [.ofNode tag (some k.token) ((H ++ [x]).map Piece.tree)] rest := by
  intro c F O P stands
  obtain ⟨shape, mark, other⟩ := heading_marker heading
  refine (heads (.inr ⟨l + 1, deeper, by simp⟩) c F O P stands).trans ?_
  rintro d ⟨_, ⟨⟩, hd⟩
  refine (hd.opensControl deeper).trans ?_
  intro e he
  refine (Runs.inside (f := .control l) h mark (by simp [Frame.scope]) he allowed.ends_block).trans ?_
  intro g hg
  rw [← List.cons_append] at hg
  refine (hg.closesControl shape mark allowed).trans ?_
  intro g' hg'
  rw [List.reverse_cons, heading.reverse_heading] at hg'
  exact .here hg'

/-- Every derivation is followed by the parser. -/
theorem Derives.runs {phrase : Phrase} {X : List Piece} (h : Reads phrase ts X rest) :
    Runs old phrase ts X rest := by
  induction h with
  | weaken _ ih => exact ih.weaken
  | binary _ found _ left right => exact left.binary found right
  | negate minus _ ih => exact ih.negate minus
  | single _ ih => exact ih.single
  | leaf found => exact fun c F O P stands => stands.readsLeaf found
  | group paren der closed ih => exact .group paren der ih closed
  | groupBlock paren deeper _ closes ih => exact .groupBlock paren deeper ih closes
  | name dot ident attrs defined ihAttrs ihDefined =>
    refine .name dot ident ?_ ihAttrs ihDefined
    rw [List.reverse_append, attrs.reverse_attributes, defined.reverse_definition]
  | control heading deeper _ allowed heads ih => exact .control heading heads deeper ih allowed
  | unattributed => exact .unattributed
  | noAttributes bracket closed => exact .noAttributes bracket closed
  | attributes bracket der closed ih => exact .attributes bracket der ih closed
  | undefined allowed => exact .undefined allowed
  | value equal _ allowed ih => exact .value equal ih allowed
  | body deeper _ allowed ih => exact .body deeper ih allowed
  | header found _ ih => exact .header found ih
  | otherwise word => exact .otherwise word

/-- A document is read to its end, and its tree is the only one on the stack. -/
theorem Config.Stands.finishes {c : Config} {e : Lexeme}
    (h : c.Stands old (.close .root) [] [] [x] l [e]) (last : e.tag = .eof) :
    ∃ d, c.run = .ok (x.tree.root old.length, d) ∧ d.work.Carries old [x] := by
  obtain ⟨os, ns, operands, -, below, -⟩ := h.noted.carries.2.uncons
  cases below
  have finished : c.step = .ok (.done (x.tree.root old.length) c.noted) := by
    rw [Config.step, Config.dispatch_eq, h.noted.choose_token (by simp [last])]
    simp only [Config.tokenChoice, h.noted.goal_eq, h.noted.tag_eq, last, Choice.run, Config.finish,
      h.noted.operators, operands]
    rfl
  exact ⟨_, run_of_done finished, h.noted.carries⟩

theorem Document.finishes {c : Config} {tree : Tree} (document : Document Tail.Allows ts tree)
    (stands : c.Stands old .operand [.root] [] [] 0 ts) :
    (∃ w, c.run = .error ⟨.outOfMemory, w⟩) ∨
      ∃ d y, c.run = .ok (tree.root old.length, d) ∧ d.work.Carries old [y] ∧ y.tree = tree := by
  obtain ⟨x, e, der, last, rfl⟩ := document
  have started : c.Leads fun d => d.Stands old (.close .root) [] [] [x] 0 [e] := by
    refine (der.runs c [.root] [] [] rfl (by simp) (.inr (by simp)) stands).trans ?_
    rintro d ⟨ops, P', hd, fold, each⟩
    exact hd.ends (by simp [Settled]) (fun op ho => (each op ho).1) fold
      (.inl (by rw [last]; rfl))
  rcases started with full | ⟨d, same, hd⟩
  · exact .inl full
  · obtain ⟨d', ran, carries⟩ := hd.finishes last
    exact .inr ⟨d', x, same.trans ran, carries, rfl⟩

end Offside
