import Mathlib.Data.List.TakeWhile
import Offside.Proofs.Reading

/-! What has been read when an operand is expected: the open constructs with their markers, the
operators waiting in them and the pieces on the stack, each with the derivation of the lexemes it
was made from. The hole that is left must be filled by a term that binds strongly enough. -/
namespace Offside

abbrev Reads : Phrase → List Lexeme → List Piece → List Lexeme → Prop := Derives Tail.Allows

def Frame.scope : Frame → Scope
  | .root | .body _ | .control _ | .group _ true => .block
  | .group _ false | .value | .header => .inline
  | .attrs => .attrs

def scopeOf : List Frame → Scope
  | [] => .inline
  | f :: _ => f.scope

/- The indices: frames, operators and pieces with the latest first, the level of the block, the
strength that the next term must have, and the lexemes from which it is to be read. -/
inductive Context (stream : List Lexeme) :
    List Frame → List Pending → List Piece → Nat → Nat → List Lexeme → Prop where
  | start : Context stream [.root] [] [] 0 1 stream
  | binary {F O P l q ts mid rest x tag token} :
      Context stream F O P l q ts → Reads (.term (scopeOf F) l tag.leftStrength) ts [x] mid →
      (scopeOf F).operator? l mid = some (tag, token, rest) → q ≤ tag.precedence →
      Context stream F (⟨tag, token, (x :: P).length⟩ :: O) (x :: P) l tag.rightStrength rest
  | negate {F O P l q m ts} :
      Context stream F O P l q (m :: ts) → m.tag = .minus →
      Context stream F (⟨.negate, some m.token, P.length⟩ :: O) P l NodeTag.negate.precedence ts
  | group {F O P l q o ts} :
      Context stream F O P l q (o :: ts) → o.tag = .lParen →
      Context stream (.group l false :: F) (⟨.group, some o.token, P.length⟩ :: O) P l 1 ts
  | groupBlock {F O P l q o n ts} :
      Context stream F O P l q (o :: n :: ts) → o.tag = .lParen → n.IsLine (l + 1) →
      Context stream (.group l true :: F) (⟨.group, some o.token, P.length⟩ :: O) P (l + 1) 1 ts
  | attrs {F O P l q d n o ts} :
      Context stream F O P l q (d :: n :: o :: ts) → d.tag = .dot → n.tag = .identifier →
      o.tag = .lBracket →
      Context stream (.attrs :: F)
        (⟨.attrs, none, P.length⟩ :: ⟨.nameDef, some n.token, P.length⟩ :: O) P l 1 ts
  | value {F O P l q d n e ts rest A} :
      Context stream F O P l q (d :: n :: ts) → d.tag = .dot → n.tag = .identifier →
      Reads (.attributes l) ts A (e :: rest) → e.tag = .equal →
      Context stream (.value :: F)
        (⟨.value, none, (A ++ P).length⟩ :: ⟨.nameDef, some n.token, P.length⟩ :: O) (A ++ P) l 1 rest
  | body {F O P l q d n i ts rest A} :
      Context stream F O P l q (d :: n :: ts) → d.tag = .dot → n.tag = .identifier →
      Reads (.attributes l) ts A (i :: rest) → i.IsLine (l + 1) →
      Context stream (.body l :: F)
        (⟨.blockAssign, none, (A ++ P).length⟩ :: ⟨.nameDef, some n.token, P.length⟩ :: O)
        (A ++ P) (l + 1) 1 rest
  | header {F O P l q k ts tag} :
      Context stream F O P l q (k :: ts) → headerTag? k.tag = some tag →
      Context stream (.header :: F) (⟨tag, some k.token, P.length⟩ :: O) P l 1 ts
  | control {F O P l q k i ts rest tag H} :
      Context stream F O P l q (k :: ts) → Reads (.heading tag l) (k :: ts) H (i :: rest) →
      i.IsLine (l + 1) →
      Context stream (.control l :: F) (⟨tag, some k.token, P.length⟩ :: O) (H ++ P) (l + 1) 1 rest

/- Nothing waits above the innermost marker. -/
def Settled (O : List Pending) : Prop := ∀ top ∈ O.head?, top.tag.isMarker = true

theorem headerTag?_marker {k : TokenTag} {tag : NodeTag} (h : headerTag? k = some tag) :
    tag.shape = .list ∧ tag.isMarker = true ∧ tag ≠ .attrs := by
  cases k <;> simp [headerTag?] at h <;> subst h <;> decide

theorem heading_marker {ends : Tail → List Lexeme → Prop} {tag : NodeTag} {l : Nat}
    {ts rest : List Lexeme} {H : List Piece} (h : Derives ends (.heading tag l) ts H rest) :
    tag.shape = .list ∧ tag.isMarker = true ∧ tag ≠ .attrs := by
  cases h with
  | header found _ => exact headerTag?_marker found
  | otherwise => decide

theorem operatorTag?_binary {t : TokenTag} {tag : NodeTag} (h : operatorTag? t = some tag) :
    (tag.shape = .pair ∨ tag.shape = .list) ∧ 1 ≤ tag.precedence ∧ tag.precedence ≤ 8 := by
  cases t <;> simp [operatorTag?] at h <;> subst h <;> decide

theorem operator?_binary {scope : Scope} {l : Nat} {ts rest : List Lexeme} {tag : NodeTag}
    {token : Option Token} (h : scope.operator? l ts = some (tag, token, rest)) :
    (tag.shape = .pair ∨ tag.shape = .list) ∧ 1 ≤ tag.precedence ∧ tag.precedence ≤ 8 := by
  rcases Scope.operator?_cases h with ⟨x, -, -, found | ⟨-, rfl, -⟩⟩ |
    ⟨x, -, -, -, ⟨-, rfl⟩ | ⟨y, -, -, rfl⟩⟩
  · exact operatorTag?_binary found
  · decide
  · decide
  · decide

theorem strengths {tag : NodeTag} (h : tag.precedence ≤ 8) :
    tag.rightStrength ≤ NodeTag.negate.precedence ∧
      tag.leftStrength ≤ NodeTag.negate.precedence := by
  have nine : NodeTag.negate.precedence = 9 := rfl
  unfold NodeTag.rightStrength NodeTag.leftStrength
  rw [NodeTag.strength_eq]
  split <;> omega

theorem strengths_pos {tag : NodeTag} (h : 1 ≤ tag.precedence) : 1 ≤ tag.leftStrength := by
  unfold NodeTag.leftStrength
  rw [NodeTag.strength_eq]
  split <;> omega

theorem isRightAssoc_eq (tag : NodeTag) :
    tag.isRightAssoc = (tag.precedence == 8 || tag.precedence == 0) := by
  cases tag <;> rfl

theorem leftStrength_le_of_reducesBefore {pending next : NodeTag} (positive : 1 ≤ next.precedence)
    (h : pending.reducesBefore next = true) :
    next.leftStrength ≤ pending.precedence ∧ pending.isMarker = false := by
  simp only [NodeTag.reducesBefore, Bool.or_eq_true, decide_eq_true_eq, Bool.and_eq_true,
    beq_iff_eq, Bool.not_eq_true'] at h
  have le : next.leftStrength ≤ pending.precedence := by
    rw [NodeTag.leftStrength_eq positive]
    rcases h with more | ⟨same, left⟩
    · split <;> omega
    · rw [isRightAssoc_eq] at left ⊢
      rw [← same, left]
      simp
  refine ⟨le, beq_eq_false_iff_ne.mpr ?_⟩
  have := strengths_pos positive
  omega

namespace Context

variable {stream : List Lexeme} {F : List Frame} {O : List Pending} {P : List Piece} {l q : Nat}
  {ts rest : List Lexeme} {x : Piece}

theorem strength_le (ctx : Context stream F O P l q ts) : q ≤ NodeTag.negate.precedence := by
  cases ctx with
  | binary _ _ op _ => exact (strengths (operator?_binary op).2.2).1
  | negate => exact Nat.le_refl _
  | _ => decide

theorem frames_ne_nil (ctx : Context stream F O P l q ts) : F ≠ [] := by
  induction ctx with
  | binary _ _ _ _ ih => exact ih
  | negate _ _ ih => exact ih
  | _ => simp

theorem innermost_attrs (ctx : Context stream F O P l q ts) :
    (O.find? fun op => op.tag.isMarker).map Pending.tag = some .attrs ↔ scopeOf F = .attrs := by
  induction ctx with
  | start => simp [scopeOf, Frame.scope]
  | binary _ _ op _ ih =>
    have plain := (operator?_binary op).2.1
    have plain : NodeTag.isMarker _ = false := beq_eq_false_iff_ne.mpr (Nat.ne_of_gt plain)
    simpa [List.find?_cons, plain] using ih
  | negate _ _ ih => simpa [List.find?_cons, NodeTag.isMarker, NodeTag.precedence] using ih
  | header _ found =>
    obtain ⟨_, mark, other⟩ := headerTag?_marker found
    simp [mark, other, scopeOf, Frame.scope]
  | control _ found =>
    obtain ⟨_, mark, other⟩ := heading_marker found
    simp [mark, other, scopeOf, Frame.scope]
  | _ => simp [NodeTag.isMarker, NodeTag.precedence, scopeOf, Frame.scope]

/-- An operator that is not applied first leaves room for one that binds more strongly. -/
theorem strength_le_of_waits {next : NodeTag} (ctx : Context stream F O P l q ts)
    (positive : 1 ≤ next.precedence) (small : next.precedence ≤ 8)
    (waits : ∀ top ∈ O.head?, top.tag.reducesBefore next = false) : q ≤ next.precedence := by
  cases ctx with
  | binary _ _ found _ =>
    have plain := (operator?_binary found).2.1
    have h := waits _ rfl
    simp only [NodeTag.reducesBefore, Bool.or_eq_false_iff, decide_eq_false_iff_not, not_lt,
      Bool.and_eq_false_iff, beq_eq_false_iff_ne, Bool.not_eq_false'] at h
    rw [NodeTag.rightStrength_eq plain]
    split
    · exact h.1
    · rename_i left
      rcases h.2 with ne | right
      · omega
      · exact absurd right left
  | negate =>
    have h := waits _ rfl
    have nine : NodeTag.negate.precedence = 9 := rfl
    simp only [NodeTag.reducesBefore, Bool.or_eq_false_iff, decide_eq_false_iff_not, not_lt, nine] at h
    omega
  | _ => exact positive

theorem fold_top {op : Pending} (ctx : Context stream F (op :: O) P l q ts)
    (plain : op.tag.isMarker = false) (der : Reads (.term (scopeOf F) l q) ts [x] rest) :
    ∃ y P' q' ts', op.fold? (x :: P) = some (y :: P') ∧ Context stream F O P' l q' ts' ∧
      q' ≤ op.tag.precedence ∧ Reads (.term (scopeOf F) l op.tag.precedence) ts' [y] rest := by
  cases ctx with
  | binary below left found le =>
    have whole := left.binary found der
    rw [NodeTag.strength_eq] at whole
    refine ⟨_, _, _, _, ?_, below, le, whole⟩
    rcases (operator?_binary found).1 with shape | shape <;> simp [Pending.fold?, shape]
  | negate below minus =>
    exact ⟨_, _, _, _, rfl, below, below.strength_le, der.negate minus⟩
  | group => cases plain
  | groupBlock => cases plain
  | attrs => cases plain
  | value => cases plain
  | body => cases plain
  | header _ found => simp [(headerTag?_marker found).2.1] at plain
  | control _ found => simp [(heading_marker found).2.1] at plain

/-- Applying several operators keeps the bound that they all meet. -/
theorem fold_all {ops : List Pending} {p m : Nat} (ctx : Context stream F (ops ++ O) P l q ts)
    (der : Reads (.term (scopeOf F) l p) ts [x] rest) (le : q ≤ p)
    (plain : ∀ op ∈ ops, op.tag.isMarker = false) (bound : m ≤ p)
    (each : ∀ op ∈ ops, m ≤ op.tag.precedence) :
    ∃ y P' q' ts' p', foldAll? ops (x :: P) = some (y :: P') ∧ Context stream F O P' l q' ts' ∧
      q' ≤ p' ∧ m ≤ p' ∧ Reads (.term (scopeOf F) l p') ts' [y] rest := by
  induction ops generalizing P q ts x p with
  | nil => exact ⟨x, P, q, ts, p, rfl, ctx, le, bound, der⟩
  -- The operand of the next operator is the phrase that this one completes.
  | cons op ops ih =>
    obtain ⟨y, P', q', ts', fold, below, le', der'⟩ :=
      fold_top ctx (plain op (by simp)) (der.lower le)
    obtain ⟨z, P'', q'', ts'', p'', folds, result⟩ :=
      ih below der' le' (fun o ho => plain o (by simp [ho])) (each op (by simp))
        (fun o ho => each o (by simp [ho]))
    refine ⟨z, P'', q'', ts'', p'', ?_, result⟩
    simp only [foldAll?, fold, Option.bind_some, folds]

end Context
end Offside
