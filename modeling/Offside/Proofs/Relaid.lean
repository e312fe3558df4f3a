import Offside.Proofs.Abreast
import Offside.Proofs.Words

/-! Two texts that differ only in how their lines are laid out: in the width of the levels, in blank
lines and in the ends of the lines. The tokens read from them are the same but for their places and
for the widths of the indentations. -/
namespace Offside

structure Layout where
  trim : Nat
  unit : Nat
  unit_pos : 0 < unit

def Layout.width (lay : Layout) (level : Nat) : Nat := lay.trim + lay.unit * level

/-- How two texts correspond. -/
structure Relayout where
  left : Layout
  right : Layout
  meets : List Byte → List Byte → Prop

/- Where the reading of both texts has come to: inside a line, or behind some of the spaces that
begin one. -/
inductive Zone where
  | inside
  | margin (width width' : Nat)

inductive LineEnd : List Byte → Prop where
  | feed : LineEnd [Byte.lineFeed]
  | returned : LineEnd [Byte.carriageReturn, Byte.lineFeed]

def Opens : List Byte → Prop
  | [] => False
  | b :: rest => b ≠ Byte.space ∧ b ≠ Byte.lineFeed ∧
      ¬(b = Byte.carriageReturn ∧ rest.head? = some Byte.lineFeed)

namespace Relayout

variable (R : Relayout)

def Widths (w w' : Nat) : Prop := ∃ level, w = R.left.width level ∧ w' = R.right.width level

/-- Each line has the same bytes behind its margin, and the margin of the same level. -/
inductive Relaid : Zone → List Byte → List Byte → Prop where
  | done {zone : Zone} : R.meets [] [] → Relaid zone [] []
  | byte {b : Byte} {x x' : List Byte} : b ≠ Byte.lineFeed → R.meets (b :: x) (b :: x') →
      Relaid .inside x x' → Relaid .inside (b :: x) (b :: x')
  | feed {e e' y y' : List Byte} : LineEnd e → LineEnd e' → Relaid (.margin 0 0) y y' →
      Relaid .inside (e ++ y) (e' ++ y')
  | spaceLeft {w w' : Nat} {x x' : List Byte} : Relaid (.margin (w + 1) w') x x' →
      Relaid (.margin w w') (Byte.space :: x) x'
  | spaceRight {w w' : Nat} {x x' : List Byte} : Relaid (.margin w (w' + 1)) x x' →
      Relaid (.margin w w') x (Byte.space :: x')
  | blankLeft {w w' : Nat} {e y y' : List Byte} : LineEnd e → Relaid (.margin 0 w') y y' →
      Relaid (.margin w w') (e ++ y) y'
  | blankRight {w w' : Nat} {e' y y' : List Byte} : LineEnd e' → Relaid (.margin w 0) y y' →
      Relaid (.margin w w') y (e' ++ y')
  | line {w w' : Nat} {z z' : List Byte} : R.meets (margin w ++ z) (margin w' ++ z') →
      R.Widths w w' → Opens z → Opens z' → Relaid .inside z z' → Relaid (.margin w w') z z'

/- Two scans that find the same token. Nothing is said of what is behind an invalid one. -/
structure Scans (f f' : Scan) : Prop where
  tag : f.tag = f'.tag
  start : R.meets (f.text ++ f.rest) (f'.text ++ f'.rest)
  text : f.tag ≠ .indent → f.tag ≠ .invalid → f.text = f'.text
  width : f.tag = .indent → R.Widths f.text.length f'.text.length
  behind : f.tag ≠ .invalid → R.Relaid .inside f.rest f'.rest

end Relayout

def Move.Inline : Move → Prop
  | .shift _ => True
  | .close tag | .take tag => tag ≠ .indent

theorem opening_ne_indent {b : Byte} {tag : TokenTag} (h : opening b = .whole tag) :
    tag ≠ .indent := by
  unfold opening at h
  repeat' split at h
  all_goals cases h
  unfold symbol?
  split <;> nofun

theorem TokenTag.resolved_eq {raw tag : TokenTag} (w : List Byte) (plain : tag.isWordLike = false) :
    raw.resolved w = tag ↔ raw = tag := by
  have named : ∀ kind : TokenTag, kind.isWordLike = true → kind ≠ tag := by
    rintro kind wordLike rfl
    rw [wordLike] at plain
    cases plain
  unfold resolved
  split
  · rename_i word
    subst word
    have other : TokenTag.identifier ≠ tag := named _ rfl
    cases found : keyword? w with
    | none => rfl
    | some kind =>
      have differs := named kind (keyword_wordLike found)
      exact ⟨fun same => absurd same differs, fun same => absurd same other⟩
  · rfl

namespace Part

theorem move_inline (p : Part) (b : Byte) : (p.move b).Inline := by
  have settles : ∀ tag, tag ≠ .indent → (settle tag b).Inline := by
    intro tag plain
    unfold settle
    split
    · exact plain
    · nofun
  have demands : ∀ test q, (demand test q).Inline := by
    intro test q
    cases test with
    | true => trivial
    | false => nofun
  cases p <;> simp only [move] <;> repeat' split
  all_goals first | exact settles _ nofun | exact demands _ _ | trivial | nofun

theorem munch_ne_indent (p : Part) (input : List Byte) : (munch false p input).tag ≠ .indent := by
  induction input generalizing p with
  | nil => cases p <;> nofun
  | cons b rest ih =>
    have inline := p.move_inline b
    rw [munch]
    split
    · exact ih _
    · rename_i moved
      rw [moved] at inline
      exact inline
    · rename_i moved
      rw [moved] at inline
      exact inline

def atLineEnd (p : Part) : Move :=
  match p.ending? with
  | some tag => .close tag
  | none => .take .invalid

theorem move_lineFeed (p : Part) : p.move Byte.lineFeed = p.atLineEnd := by
  cases p with
  | baseMark r | integer r | point r | fraction r => cases r <;> rfl
  | _ => rfl

theorem move_carriageReturn (p : Part) : p.move Byte.carriageReturn = p.atLineEnd := by
  cases p with
  | baseMark r | integer r | point r | fraction r => cases r <;> rfl
  | _ => rfl

theorem munch_lineEnd (p : Part) {e : List Byte} (h : LineEnd e) (y : List Byte) :
    ∃ b rest, e ++ y = b :: rest ∧ munch false p (e ++ y) =
      match p.ending? with
      | some tag => .token [] (e ++ y) tag
      | none => .token [b] rest .invalid := by
  cases h with
  | feed =>
    refine ⟨_, _, rfl, ?_⟩
    simp only [List.cons_append, munch, move_lineFeed, atLineEnd]
    cases p.ending? <;> rfl
  | returned =>
    refine ⟨_, _, rfl, ?_⟩
    simp only [List.cons_append, munch, move_carriageReturn, atLineEnd]
    cases p.ending? <;> rfl

end Part

section Leading

variable {chunked : Bool} {e y z : List Byte} (w : Nat)

theorem leading_space (x : List Byte) :
    leading chunked w (Byte.space :: x) = leading chunked (w + 1) x := by
  cases x <;> rfl

theorem leading_lineEnd (h : LineEnd e) :
    leading chunked w (e ++ y) = (leading chunked 0 y).skip (margin w ++ e) := by
  cases h with
  | feed => cases y <;> rfl
  | returned => rfl

theorem leading_opens (h : Opens z) :
    leading chunked w z =
      if z.head? = some Byte.tab then .token (margin w ++ [Byte.tab]) z.tail .invalid
      else .token (margin w) z .indent := by
  obtain - | ⟨b, - | ⟨c, rest⟩⟩ := z
  · exact h.elim
  · obtain ⟨space, feed, -⟩ := h
    simp only [leading, beq_iff_eq, space, feed, ↓reduceIte, List.head?_cons, Option.some.injEq]
    split <;> simp_all
  · obtain ⟨space, feed, blank⟩ := h
    have blank : ¬(b = Byte.carriageReturn ∧ c = Byte.lineFeed) := by simpa using blank
    simp only [leading, beq_iff_eq, space, feed, blank, ↓reduceIte, List.head?_cons,
      Option.some.injEq, Bool.and_eq_true]
    split <;> simp_all

@[elab_as_elim]
theorem leading_cases {motive : List Byte → Prop} (input : List Byte) (nil : motive [])
    (space : ∀ z, motive z → motive (Byte.space :: z))
    (ended : ∀ e z, LineEnd e → motive z → motive (e ++ z))
    (opens : ∀ z, Opens z → motive z) : motive input := by
  match input with
  | [] => exact nil
  | b :: z =>
    have ih : motive z := leading_cases z nil space ended opens
    by_cases isSpace : b = Byte.space
    · exact isSpace ▸ space z ih
    by_cases isFeed : b = Byte.lineFeed
    · exact isFeed ▸ ended _ z .feed ih
    by_cases isLong : b = Byte.carriageReturn ∧ z.head? = some Byte.lineFeed
    · obtain ⟨rfl, head⟩ := isLong
      obtain ⟨z, rfl⟩ := List.head?_eq_some_iff.mp head
      exact ended _ z .returned (leading_cases z nil space ended opens)
    · exact opens (b :: z) ⟨isSpace, isFeed, isLong⟩

end Leading

namespace Relayout

variable {R : Relayout} {x x' : List Byte} {f f' : Scan}

theorem Scans.skip (h : R.Scans f f') (passed passed' : List Byte) :
    R.Scans (f.skip passed) (f'.skip passed') :=
  ⟨h.tag, h.start, h.text, h.width, h.behind⟩

theorem Scans.resolve (h : R.Scans f f') : R.Scans f.resolve f'.resolve := by
  obtain ⟨-, text, rest, -⟩ := f.resolve_eq
  obtain ⟨-, text', rest', -⟩ := f'.resolve_eq
  have valid : f.resolve.tag = .invalid ↔ f.tag = .invalid := by
    rw [Scan.resolve_tag, TokenTag.resolved_eq _ rfl]
  have line : f.resolve.tag = .indent ↔ f.tag = .indent := by
    rw [Scan.resolve_tag, TokenTag.resolved_eq _ rfl]
  have tag : f.resolve.tag = f'.resolve.tag := by
    rw [Scan.resolve_tag, Scan.resolve_tag, ← h.tag]
    by_cases word : f.tag = .identifier
    · rw [h.text (by rw [word]; nofun) (by rw [word]; nofun)]
    · rw [TokenTag.resolved, TokenTag.resolved, if_neg word, if_neg word]
  constructor
  · exact tag
  · rw [text, text', rest, rest']
    exact h.start
  · rw [text, text', Ne, Ne, line, valid]
    exact h.text
  · rw [text, text', line]
    exact h.width
  · rw [rest, rest', Ne, valid]
    exact h.behind

theorem Relaid.margins {w w' n n' : Nat} (h : R.Relaid (.margin (w + n) (w' + n')) x x') :
    R.Relaid (.margin w w') (margin n ++ x) (margin n' ++ x') := by
  induction n generalizing w with
  | zero =>
    induction n' generalizing w' with
    | zero => exact h
    | succ n' ih =>
      rw [show w' + (n' + 1) = w' + 1 + n' by omega] at h
      exact .spaceRight (ih h)
  | succ n ih =>
    rw [show w + (n + 1) = w + 1 + n by omega] at h
    exact .spaceLeft (ih h)

theorem Relaid.munch (h : R.Relaid .inside x x') (p : Part) :
    (munch false p x).tag = (munch false p x').tag ∧
      ((munch false p x).tag ≠ .invalid → (munch false p x).text = (munch false p x').text ∧
        R.Relaid .inside (munch false p x).rest (munch false p x').rest) := by
  generalize here : Zone.inside = zone at h
  induction h generalizing p with
  | done meets =>
    refine ⟨rfl, fun _ => ⟨rfl, ?_⟩⟩
    cases p <;> exact .done meets
  | @byte b x x' inline meets more ih =>
    simp only [Offside.munch]
    cases p.move b with
    | shift q =>
      refine ⟨(ih q rfl).1, fun valid => ?_⟩
      obtain ⟨text, rest⟩ := (ih q rfl).2 valid
      exact ⟨congrArg (b :: ·) text, rest⟩
    | close tag => exact ⟨rfl, fun _ => ⟨rfl, .byte inline meets more⟩⟩
    | take tag => exact ⟨rfl, fun _ => ⟨rfl, more⟩⟩
  | @feed e e' y y' ends ends' more =>
    obtain ⟨b, rest, -, read⟩ := p.munch_lineEnd ends y
    obtain ⟨b', rest', -, read'⟩ := p.munch_lineEnd ends' y'
    rw [read, read']
    cases p.ending? with
    | some tag => exact ⟨rfl, fun _ => ⟨rfl, .feed ends ends' more⟩⟩
    | none => exact ⟨rfl, fun valid => absurd rfl valid⟩
  | _ => cases here

theorem Relaid.head_eq (h : R.Relaid .inside x x') (opens : Opens x) :
    ∃ b y y', x = b :: y ∧ x' = b :: y' := by
  generalize here : Zone.inside = zone at h
  cases h with
  | done => exact opens.elim
  | byte => exact ⟨_, _, _, rfl, rfl⟩
  | feed ends =>
    cases ends with
    | feed => exact absurd rfl opens.2.1
    | returned => exact absurd ⟨rfl, rfl⟩ opens.2.2
  | _ => cases here

theorem scans_push {b : Byte} (p : Part) (meets : R.meets (b :: x) (b :: x'))
    (h : R.Relaid .inside x x') :
    R.Scans ((munch false p x).push b) ((munch false p x').push b) := by
  obtain ⟨tag, rest⟩ := h.munch p
  have whole : ∀ y, (munch false p y).text ++ (munch false p y).rest = y := by
    intro y
    have bytes := munch_bytes false p y
    rwa [Scan.bytes, munch_skipped] at bytes
  refine ⟨tag, ?_, ?_, ?_, ?_⟩
  · simp only [Scan.push, List.cons_append, whole]
    exact meets
  · exact fun _ valid => congrArg (b :: ·) (rest valid).1
  · exact fun line => absurd line (p.munch_ne_indent x)
  · exact fun valid => (rest valid).2

variable (R) in
def Reads : Zone → List Byte → List Byte → Prop
  | .inside, x, x' => R.Scans (between .layout x) (between .layout x')
  | .margin w w', x, x' => R.Scans (leading false w x) (leading false w' x')

theorem scans_finish (h : R.meets [] []) (skipped skipped' : List Byte) (state : ScanState) :
    R.Scans (.finish skipped state) (.finish skipped' state) :=
  ⟨rfl, h, fun _ _ => rfl, nofun, fun _ => .done h⟩

theorem between_lineEnd {e : List Byte} (h : LineEnd e) (y : List Byte) :
    ∃ passed, between .layout (e ++ y) = (leading false 0 y).skip passed := by
  cases h with
  | feed => exact ⟨[Byte.lineFeed], rfl⟩
  | returned => exact ⟨[Byte.carriageReturn, Byte.lineFeed], rfl⟩

theorem scans_byte {b : Byte} (inline : b ≠ Byte.lineFeed) (meets : R.meets (b :: x) (b :: x'))
    (h : R.Relaid .inside x x') (rest : R.Scans (between .layout x) (between .layout x')) :
    R.Scans (between .layout (b :: x)) (between .layout (b :: x')) := by
  have feed : (b == Byte.lineFeed) = false := beq_false_of_ne inline
  simp only [between, feed, Bool.false_eq_true, ↓reduceIte, Flags.layout]
  split
  · exact rest.skip _ _
  · split
    · exact rest.skip _ _
    · cases opens : opening b with
      | part p => exact scans_push p meets h
      | whole tag =>
        refine ⟨rfl, meets, fun _ _ => rfl, ?_, fun _ => h⟩
        exact fun line => absurd line (opening_ne_indent opens)

/-- By the rules of the layout: every byte is read on both sides, or it is blank. -/
theorem Relaid.reads {zone : Zone} (h : R.Relaid zone x x') : R.Reads zone x x' := by
  induction h with
  | @done zone meets =>
    cases zone with
    | inside => exact scans_finish meets _ _ _
    | margin w w' => exact scans_finish meets _ _ _
  | byte inline meets more ih => exact scans_byte inline meets more ih
  | @feed e e' y y' ends ends' more ih =>
    obtain ⟨passed, read⟩ := between_lineEnd ends y
    obtain ⟨passed', read'⟩ := between_lineEnd ends' y'
    simp only [Reads, read, read']
    exact Scans.skip ih passed passed'
  | @spaceLeft w w' x x' _ ih =>
    simp only [Reads, leading_space]
    exact ih
  | @spaceRight w w' x x' _ ih =>
    simp only [Reads, leading_space]
    exact ih
  | @blankLeft w w' e y y' ends _ ih =>
    simp only [Reads, leading_lineEnd w ends]
    exact Scans.skip ih _ []
  | @blankRight w w' e' y y' ends _ ih =>
    simp only [Reads, leading_lineEnd w' ends]
    exact Scans.skip ih [] _
  | @line w w' z z' meets widths opens opens' more _ =>
    obtain ⟨b, y, y', rfl, rfl⟩ := more.head_eq opens
    simp only [Reads, leading_opens _ opens, leading_opens _ opens', List.head?_cons,
      Option.some.injEq]
    by_cases tab : b = Byte.tab
    · subst tab
      rw [if_pos rfl, if_pos rfl]
      refine ⟨rfl, ?_, fun _ valid => absurd rfl valid, nofun, fun valid => absurd rfl valid⟩
      simpa [Scan.token] using meets
    · rw [if_neg tab, if_neg tab]
      refine ⟨rfl, meets, fun plain => absurd rfl plain, fun _ => ?_, fun _ => more⟩
      simpa [Scan.token, margin] using widths

end Relayout
end Offside
