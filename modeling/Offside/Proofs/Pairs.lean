import Offside.Proofs.Tracking

/-! Brackets in pairs. No frame records the token that opened it, yet the open groups and attribute
lists are just the brackets that the tokens read so far leave open; every rule of the grammar takes
brackets in pairs, and no rule takes a token that is stray. -/
namespace Offside

inductive Bracket where
  | round
  | square
  deriving DecidableEq, Repr

namespace TokenTag

def opens? : TokenTag → Option Bracket
  | .lParen => some .round
  | .lBracket => some .square
  | _ => none

def shuts? : TokenTag → Option Bracket
  | .rParen => some .round
  | .rBracket => some .square
  | _ => none

/-- Tokens that no rule takes. -/
def isStray : TokenTag → Bool
  | .emptyParens | .lBrace | .rBrace | .colon | .semicolon | .invalid | .incomplete => true
  | _ => false

def isLone (tag : TokenTag) : Bool := tag.opens?.isNone && tag.shuts?.isNone && !tag.isStray

theorem opens?_of_shuts? {tag : TokenTag} {b : Bracket} (h : tag.shuts? = some b) :
    tag.opens? = none ∧ tag.isStray = false := by
  cases tag <;> simp [shuts?] at h <;> exact ⟨rfl, rfl⟩

theorem isStray_of_opens? {tag : TokenTag} {b : Bracket} (h : tag.opens? = some b) :
    tag.isStray = false := by
  cases tag <;> simp [opens?] at h <;> rfl

end TokenTag

namespace Bracket

def closer : Bracket → TokenTag
  | .round => .rParen
  | .square => .rBracket

theorem shuts?_closer (b : Bracket) : b.closer.shuts? = some b := by
  cases b <;> rfl

end Bracket

/-- Brackets in pairs, each pair around brackets in pairs, with anything else between them. -/
inductive WellNested : List TokenTag → Prop where
  | nil : WellNested []
  | plain {x : TokenTag} : x.opens? = none → x.shuts? = none → WellNested [x]
  | append {xs ys : List TokenTag} : WellNested xs → WellNested ys → WellNested (xs ++ ys)
  | wrap {o z : TokenTag} {b : Bracket} {xs : List TokenTag} :
      o.opens? = some b → z.shuts? = some b → WellNested xs → WellNested (o :: xs ++ [z])

/-- The brackets that are open behind the tokens, innermost first, if those before them were open;
none if one is closed that is not the innermost. -/
def unclosed : List Bracket → List TokenTag → Option (List Bracket)
  | stack, [] => some stack
  | stack, x :: rest =>
    match x.opens?, x.shuts?, stack with
    | some b, _, _ => unclosed (b :: stack) rest
    | none, some b, top :: below => if top = b then unclosed below rest else none
    | none, some _, [] => none
    | none, none, _ => unclosed stack rest

theorem WellNested.unclosed_append {xs : List TokenTag} (h : WellNested xs) (stack : List Bracket)
    (rest : List TokenTag) : unclosed stack (xs ++ rest) = unclosed stack rest := by
  induction h generalizing stack rest with
  | nil => rfl
  | plain opens shuts => simp [unclosed, opens, shuts]
  | append _ _ left right => rw [List.append_assoc, left, right]
  | wrap opens shuts _ ih =>
    have closed := (TokenTag.opens?_of_shuts? shuts).1
    simp [unclosed, opens, shuts, closed, ih]

/- Tokens that leave brackets open, with those in pairs in front of and behind each of them. -/
inductive LeavesOpen : List Bracket → List TokenTag → Prop where
  | none {xs : List TokenTag} : WellNested xs → LeavesOpen [] xs
  | one {stack : List Bracket} {b : Bracket} {xs ys : List TokenTag} {o : TokenTag} :
      LeavesOpen stack xs → o.opens? = some b → WellNested ys →
      LeavesOpen (b :: stack) (xs ++ o :: ys)

namespace LeavesOpen

variable {stack : List Bracket} {xs ys : List TokenTag}

theorem append (h : LeavesOpen stack xs) (nested : WellNested ys) : LeavesOpen stack (xs ++ ys) := by
  cases h with
  | none first => exact .none (first.append nested)
  | one below opens inner =>
    rw [List.append_assoc, List.cons_append]
    exact .one below opens (inner.append nested)

theorem prepend (h : LeavesOpen stack xs) (nested : WellNested ys) :
    LeavesOpen stack (ys ++ xs) := by
  induction h with
  | none first => exact .none (nested.append first)
  | one _ opens inner ih =>
    rw [← List.append_assoc]
    exact .one ih opens inner

theorem unclosed_append (h : LeavesOpen stack xs) (rest : List TokenTag) :
    unclosed [] (xs ++ rest) = unclosed stack rest := by
  induction h generalizing rest with
  | none nested => exact nested.unclosed_append [] rest
  | one _ opens inner ih =>
    rw [List.append_assoc, ih]
    simp [unclosed, opens, inner.unclosed_append]

theorem unclosed_eq (h : LeavesOpen stack xs) : unclosed [] xs = some stack := by
  have left := h.unclosed_append []
  rw [List.append_nil] at left
  exact left

/-- What is open can be closed, whatever pairs come before that. -/
theorem exists_closing (h : LeavesOpen stack xs) :
    ∃ more, ∀ ys, WellNested ys → WellNested (xs ++ (ys ++ more)) := by
  induction h with
  | none nested => exact ⟨[], fun ys inner => nested.append (inner.append .nil)⟩
  | @one stack b xs inner o _ opens nested ih =>
    -- The bracket, what is inside and its partner are one more pair for the brackets around them.
    obtain ⟨more, closes⟩ := ih
    refine ⟨b.closer :: more, fun ys inside => ?_⟩
    have pair := WellNested.wrap opens b.shuts?_closer (nested.append inside)
    simpa using closes _ pair

end LeavesOpen

def Tidy (xs : List Lexeme) : Prop :=
  WellNested (xs.map Lexeme.tag) ∧ ∀ x ∈ xs, x.tag.isStray = false

def Paired (ts rest : List Lexeme) : Prop := ∃ used, ts = used ++ rest ∧ Tidy used

section Derived

variable {ends : Tail → List Lexeme → Prop} {phrase : Phrase} {x o z : Lexeme} {l : Nat}
  {ts mid rest : List Lexeme} {X : List Piece} {b : Bracket}

theorem Tidy.append {xs ys : List Lexeme} (h : Tidy xs) (h' : Tidy ys) : Tidy (xs ++ ys) := by
  refine ⟨?_, List.forall_mem_append.mpr ⟨h.2, h'.2⟩⟩
  rw [List.map_append]
  exact h.1.append h'.1

theorem Paired.refl (ts : List Lexeme) : Paired ts ts := ⟨[], rfl, .nil, nofun⟩

theorem Paired.trans (h : Paired ts mid) (h' : Paired mid rest) : Paired ts rest := by
  obtain ⟨xs, rfl, tidy⟩ := h
  obtain ⟨ys, rfl, tidy'⟩ := h'
  exact ⟨xs ++ ys, (List.append_assoc _ _ _).symm, tidy.append tidy'⟩

theorem tidy_lone (lone : x.tag.isLone = true) : Tidy [x] := by
  simp only [TokenTag.isLone, Bool.and_eq_true, Option.isNone_iff_eq_none,
    Bool.not_eq_true'] at lone
  exact ⟨.plain lone.1.1 lone.1.2, by simpa using lone.2⟩

theorem paired_lone (lone : x.tag.isLone = true) : Paired (x :: rest) rest :=
  ⟨[x], rfl, tidy_lone lone⟩

theorem paired_token {tag : TokenTag} (found : x.tag = tag) (lone : tag.isLone = true) :
    Paired (x :: rest) rest :=
  paired_lone (by rw [found]; exact lone)

theorem paired_line (line : x.IsLine l) : Paired (x :: rest) rest := paired_token line.1 rfl

theorem paired_name {d n : Lexeme} (dot : d.tag = .dot) (ident : n.tag = .identifier) :
    Paired (d :: n :: rest) rest :=
  (paired_token dot rfl).trans (paired_token ident rfl)

theorem paired_wrap (opens : o.tag.opens? = some b) (inner : Paired ts (z :: rest))
    (shuts : z.tag.shuts? = some b) : Paired (o :: ts) rest := by
  obtain ⟨used, rfl, nested, taken⟩ := inner
  refine ⟨o :: used ++ [z], by simp, ?_, ?_⟩
  · simpa using nested.wrap opens shuts
  · simp only [List.cons_append, List.forall_mem_cons, List.forall_mem_append, List.mem_singleton,
      forall_eq]
    exact ⟨TokenTag.isStray_of_opens? opens, taken, (TokenTag.opens?_of_shuts? shuts).2⟩

theorem operatorTag?_lone {t : TokenTag} {tag : NodeTag} (h : operatorTag? t = some tag) :
    t.isLone = true := by
  cases t <;> simp [operatorTag?] at h <;> rfl

theorem leafTag?_lone {t : TokenTag} {tag : NodeTag} (h : leafTag? t = some tag) :
    t.isLone = true := by
  cases t <;> simp [leafTag?] at h <;> rfl

theorem headerTag?_lone {t : TokenTag} {tag : NodeTag} (h : headerTag? t = some tag) :
    t.isLone = true := by
  cases t <;> simp [headerTag?] at h <;> rfl

theorem paired_operator {scope : Scope} {tag : NodeTag} {token : Option Token}
    (found : scope.operator? l ts = some (tag, token, rest)) : Paired ts rest := by
  rcases Scope.operator?_cases found with ⟨x, rfl, -, lone | ⟨equal, -⟩⟩ |
    ⟨x, line, -, -, ⟨rfl, -⟩ | ⟨y, bar, rfl, -⟩⟩
  · exact paired_lone (operatorTag?_lone lone)
  · exact paired_token equal rfl
  · exact paired_line line
  · exact (paired_line line).trans (paired_token bar rfl)

/-- Every rule takes brackets in pairs. -/
theorem Derives.paired (h : Derives ends phrase ts X rest) : Paired ts rest := by
  induction h with
  | weaken _ ih => exact ih
  | binary _ found _ left right => exact left.trans ((paired_operator found).trans right)
  | negate minus _ ih => exact (paired_token minus rfl).trans ih
  | single _ ih => exact ih
  | leaf found => exact paired_lone (leafTag?_lone found)
  | group paren _ closed ih => exact paired_wrap (by rw [paren]; rfl) ih (by rw [closed]; rfl)
  | groupBlock paren line _ closes ih =>
    obtain ⟨z, closed, rfl | ⟨n, line', rfl⟩⟩ := closes
    · exact paired_wrap (by rw [paren]; rfl) ((paired_line line).trans ih) (by rw [closed]; rfl)
    · exact paired_wrap (by rw [paren]; rfl)
        ((paired_line line).trans (ih.trans (paired_line line'))) (by rw [closed]; rfl)
  | name dot ident _ _ attrs defined =>
    exact (paired_name dot ident).trans (attrs.trans defined)
  | control _ line _ _ heads ih => exact heads.trans ((paired_line line).trans ih)
  | unattributed => exact .refl _
  | noAttributes bracket closed =>
    exact paired_wrap (by rw [bracket]; rfl) (.refl _) (by rw [closed]; rfl)
  | attributes bracket _ closed ih =>
    exact paired_wrap (by rw [bracket]; rfl) ih (by rw [closed]; rfl)
  | undefined _ => exact .refl _
  | value equal _ _ ih => exact (paired_token equal rfl).trans ih
  | body line _ _ ih => exact (paired_line line).trans ih
  | header found _ ih => exact (paired_lone (headerTag?_lone found)).trans ih
  | otherwise word => exact paired_token word rfl

end Derived

def Frame.bracket? : Frame → Option Bracket
  | .group _ _ => some .round
  | .attrs => some .square
  | _ => none

def Opened (stream : List Lexeme) (F : List Frame) (ts : List Lexeme) : Prop :=
  ∃ used, stream = used ++ ts ∧ LeavesOpen (F.filterMap Frame.bracket?) (used.map Lexeme.tag)

section Opened

variable {stream ts rest : List Lexeme} {F : List Frame} {f : Frame} {o : Lexeme} {b : Bracket}

theorem Opened.past (h : Opened stream F ts) (paired : Paired ts rest) : Opened stream F rest := by
  obtain ⟨front, rfl, leaves⟩ := h
  obtain ⟨used, rfl, nested, -⟩ := paired
  refine ⟨front ++ used, (List.append_assoc _ _ _).symm, ?_⟩
  rw [List.map_append]
  exact leaves.append nested

theorem Opened.bracket (h : Opened stream F (o :: ts)) (opens : o.tag.opens? = some b)
    (waits : f.bracket? = some b) : Opened stream (f :: F) ts := by
  obtain ⟨front, rfl, leaves⟩ := h
  refine ⟨front ++ [o], by simp, ?_⟩
  rw [List.filterMap_cons_some waits, List.map_append]
  exact leaves.one opens .nil

theorem Opened.frame (h : Opened stream F ts) (free : f.bracket? = none) :
    Opened stream (f :: F) ts := by
  unfold Opened
  rw [List.filterMap_cons_none free]
  exact h

theorem Context.opened {O : List Pending} {P : List Piece} {l q : Nat}
    (ctx : Context stream F O P l q ts) : Opened stream F ts := by
  induction ctx with
  | start => exact ⟨[], rfl, .none .nil⟩
  | binary _ reads found _ ih => exact ih.past (reads.paired.trans (paired_operator found))
  | negate _ minus ih => exact ih.past (paired_token minus rfl)
  | group _ paren ih => exact ih.bracket (by rw [paren]; rfl) rfl
  | groupBlock _ paren line ih =>
    exact (ih.bracket (f := .group _ true) (by rw [paren]; rfl) rfl).past (paired_line line)
  | attrs _ dot ident bracket ih =>
    exact (ih.past (paired_name dot ident)).bracket (by rw [bracket]; rfl) rfl
  | value _ dot ident attrs equal ih =>
    have attributed := (ih.past (paired_name dot ident)).past attrs.paired
    exact (attributed.past (paired_token equal rfl)).frame rfl
  | body _ dot ident attrs line ih =>
    have attributed := (ih.past (paired_name dot ident)).past attrs.paired
    exact (attributed.past (paired_line line)).frame rfl
  | header _ found ih => exact (ih.past (paired_lone (headerTag?_lone found))).frame rfl
  | control _ heading line ih =>
    exact ((ih.past heading.paired).past (paired_line line)).frame rfl

theorem Expects.opened {O : List Pending} {P : List Piece} {l : Nat}
    (h : Expects stream (.close f) F O P l ts) : Opened stream (f :: F) ts := by
  cases h with
  | close ctx _ reads _ => exact ctx.opened.past reads.paired
  | closeLine ctx paren line reads line' _ =>
    have inside := ctx.opened.bracket (f := .group l false) (by rw [paren]; rfl) rfl
    exact inside.past ((paired_line line).trans (reads.paired.trans (paired_line line')))
  | closeHeading ctx word => exact (ctx.opened.past (paired_token word rfl)).frame rfl

theorem Expects.opened_operator {O : List Pending} {P : List Piece} {l : Nat}
    (h : Expects stream .operator F O P l ts) : Opened stream F ts := by
  cases h with
  | operator ctx reads => exact ctx.opened.past reads.paired

end Opened

end Offside
