import Offside.Proofs.Shown

/-! Blank lines and the ends of lines do not matter: a text with one more line of spaces, or with a
carriage return before each line feed, is parsed to the same tree, or fails at the same token. -/
namespace Offside

def Layout.plain : Layout := ⟨0, 1, Nat.one_pos⟩

namespace Relayout

inductive Filler : List Byte → Prop where
  | none : Filler []
  | line (width : Nat) : Filler (margin width ++ [Byte.lineFeed])

def editing (meets : List Byte → List Byte → Prop) : Relayout := ⟨.plain, .plain, meets⟩

/-- The right text is the left one with other line ends and with more blank lines. A carriage return
must not come to stand before a line feed, nor lose the one behind it. -/
inductive Edited (meets : List Byte → List Byte → Prop) : List Byte → List Byte → Prop where
  | done : meets [] [] → Edited meets [] []
  | byte {b : Byte} {x x' : List Byte} : b ≠ Byte.lineFeed →
      (b = Byte.carriageReturn → (x.head? = some Byte.lineFeed ↔ x'.head? = some Byte.lineFeed)) →
      meets (b :: x) (b :: x') → Edited meets x x' → Edited meets (b :: x) (b :: x')
  | feed {e i y y' : List Byte} : LineEnd e → Filler i →
      meets (Byte.lineFeed :: y) (e ++ (i ++ y')) → Edited meets y y' →
      Edited meets (Byte.lineFeed :: y) (e ++ (i ++ y'))

variable {meets : List Byte → List Byte → Prop} {x x' y y' : List Byte}

theorem editing_widths (w : Nat) : (editing meets).Widths w w := by
  refine ⟨w, ?_, ?_⟩ <;> simp [editing, Layout.plain, Layout.width]

theorem Filler.relaid {i : List Byte} (h : Filler i)
    (more : (editing meets).Relaid (.margin 0 0) y y') :
    (editing meets).Relaid (.margin 0 0) y (i ++ y') := by
  cases h with
  | none => exact more
  | line width =>
    rw [List.append_assoc]
    exact Relaid.margins (n := 0) (.blankRight .feed more)

theorem Edited.start (h : Edited meets x x') : meets x x' := by
  cases h with
  | done meets => exact meets
  | byte _ _ meets _ => exact meets
  | feed _ _ meets _ => exact meets

structure Follows (meets : List Byte → List Byte → Prop) (x x' : List Byte) : Prop where
  inside : (editing meets).Relaid .inside x x'
  behind : ∀ y y', x = Byte.lineFeed :: y → x' = Byte.lineFeed :: y' →
    (editing meets).Relaid (.margin 0 0) y y'
  margin : ∀ w, meets (margin w ++ x) (margin w ++ x') → (editing meets).Relaid (.margin w w) x x'

theorem follows_byte {b : Byte} (inline : b ≠ Byte.lineFeed)
    (returns : b = Byte.carriageReturn →
      (x.head? = some Byte.lineFeed ↔ x'.head? = some Byte.lineFeed))
    (meet : meets (b :: x) (b :: x')) (more : Follows meets x x') :
    Follows meets (b :: x) (b :: x') := by
  have inside : (editing meets).Relaid .inside (b :: x) (b :: x') := .byte inline meet more.inside
  refine ⟨inside, fun _ _ first => absurd (List.cons.inj first).1 inline, fun w start => ?_⟩
  by_cases space : b = Byte.space
  · subst space
    refine .spaceLeft (.spaceRight (more.margin (w + 1) ?_))
    rwa [margin_succ, margin_succ]
  by_cases blank : b = Byte.carriageReturn ∧ x.head? = some Byte.lineFeed
  · obtain ⟨rfl, feed⟩ := blank
    obtain ⟨y, rfl⟩ := List.head?_eq_some_iff.mp feed
    obtain ⟨y', rfl⟩ := List.head?_eq_some_iff.mp ((returns rfl).mp feed)
    exact .blankLeft (e := [Byte.carriageReturn, Byte.lineFeed]) .returned
      (.blankRight .returned (more.behind y y' rfl rfl))
  · refine .line start (editing_widths w) ⟨space, inline, blank⟩ ⟨space, inline, ?_⟩ inside
    rintro ⟨rfl, feed⟩
    exact blank ⟨rfl, (returns rfl).mpr feed⟩

theorem follows_feed {e i : List Byte} (ends : LineEnd e) (filler : Filler i)
    (meet : meets y y') (more : Follows meets y y') :
    Follows meets (Byte.lineFeed :: y) (e ++ (i ++ y')) := by
  have start := filler.relaid (more.margin 0 meet)
  refine ⟨.feed (e := [Byte.lineFeed]) .feed ends start, ?_, fun w _ =>
    .blankLeft (e := [Byte.lineFeed]) .feed (.blankRight ends start)⟩
  rintro z z' left right
  obtain rfl := (List.cons.inj left).2
  cases ends with
  | feed =>
    obtain rfl := (List.cons.inj right).2
    exact start
  | returned => exact absurd (List.cons.inj right).1 (by decide)

theorem Edited.follows (h : Edited meets x x') : Follows meets x x' := by
  induction h with
  | done meet => exact ⟨.done meet, nofun, fun _ _ => .done meet⟩
  | byte inline returns meet _ ih => exact follows_byte inline returns meet ih
  | feed ends filler _ more ih => exact follows_feed ends filler more.start ih

theorem Edited.relaid (h : Edited meets y y') {i : List Byte} (filler : Filler i) :
    (editing meets).Relaid (.margin 0 0) y (i ++ y') :=
  filler.relaid (h.follows.margin 0 h.start)

end Relayout

namespace Source

variable {s : Source}

def StartsLine (s : Source) (offset : Nat) : Prop :=
  offset = 0 ∨ ∃ i, s.bytes[i]? = some Byte.lineFeed ∧ offset = i + 1

def insertBlank (s : Source) (offset width : Nat) : Source :=
  ⟨s.bytes.take offset ++ (margin width ++ [Byte.lineFeed] ++ s.bytes.drop offset)⟩

def behindBlank (offset width o : Nat) : Nat := if o < offset then o else o + (width + 1)

def withReturns (s : Source) : Source :=
  ⟨s.bytes.flatMap fun b => if b = Byte.lineFeed then [Byte.carriageReturn, b] else [b]⟩

def behindReturns (s : Source) (o : Nat) : Nat := o + (s.bytes.take o).count Byte.lineFeed

def blankMeets (n width : Nat) (x x' : List Byte) : Prop :=
  x'.length = if x.length ≤ n then x.length else x.length + (width + 1)

def returnsMeet (x x' : List Byte) : Prop := x'.length = x.length + x.count Byte.lineFeed

section Edits

variable {n width : Nat} {x y : List Byte}

theorem edited_same (short : x.length ≤ n) : Relayout.Edited (blankMeets n width) x x := by
  have meets : ∀ z : List Byte, z.length ≤ n → blankMeets n width z z := fun z le => (if_pos le).symm
  induction x with
  | nil => exact .done (meets [] short)
  | cons b x ih =>
    have more := ih (Nat.le_of_succ_le short)
    by_cases feed : b = Byte.lineFeed
    · subst feed
      exact .feed .feed .none (meets _ short) more
    · exact .byte feed (fun _ => Iff.rfl) (meets _ short) more

theorem edited_blank (width : Nat) (before after : List Byte) :
    Relayout.Edited (blankMeets after.length width) (before ++ Byte.lineFeed :: after)
      (before ++ Byte.lineFeed :: (margin width ++ [Byte.lineFeed] ++ after)) := by
  have meets : ∀ z : List Byte, blankMeets after.length width (z ++ Byte.lineFeed :: after)
      (z ++ Byte.lineFeed :: (margin width ++ [Byte.lineFeed] ++ after)) := by
    intro z
    simp only [blankMeets, margin, List.length_append, List.length_cons, List.length_nil,
      List.length_replicate]
    rw [if_neg (by omega)]
    omega
  induction before with
  | nil => exact .feed .feed (.line width) (meets []) (edited_same (Nat.le_refl _))
  | cons b before ih =>
    by_cases feed : b = Byte.lineFeed
    · subst feed
      exact .feed (e := [Byte.lineFeed]) (i := []) .feed .none (meets (Byte.lineFeed :: before)) ih
    · refine .byte feed (fun _ => ?_) (meets (b :: before)) ih
      cases before <;> exact Iff.rfl

theorem length_withReturns (s : Source) :
    s.withReturns.bytes.length = s.bytes.length + s.bytes.count Byte.lineFeed := by
  obtain ⟨bytes⟩ := s
  simp only [withReturns]
  induction bytes with
  | nil => rfl
  | cons b bytes ih =>
    rw [List.flatMap_cons, List.length_append, ih]
    by_cases feed : b = Byte.lineFeed
    · subst feed
      simp only [↓reduceIte, List.length_cons, List.length_nil, List.count_cons_self]
      omega
    · simp only [feed, ↓reduceIte, List.length_cons, List.length_nil,
        List.count_cons_of_ne feed]
      omega

theorem edited_returns (plain : Byte.carriageReturn ∉ x) :
    Relayout.Edited returnsMeet x (withReturns ⟨x⟩).bytes := by
  induction x with
  | nil => exact .done rfl
  | cons b x ih =>
    simp only [List.mem_cons, not_or] at plain
    have more := ih plain.2
    have meets : returnsMeet (b :: x) (withReturns ⟨b :: x⟩).bytes := length_withReturns ⟨b :: x⟩
    by_cases feed : b = Byte.lineFeed
    · subst feed
      exact .feed .returned .none meets more
    · have bytes : (withReturns ⟨b :: x⟩).bytes = b :: (withReturns ⟨x⟩).bytes := by
        simp [withReturns, feed]
      rw [bytes] at meets ⊢
      exact .byte feed (fun same => absurd same.symm plain.1) meets more

end Edits

theorem relaid_blank {offset : Nat} (width : Nat) (starts : s.StartsLine offset) :
    (Relayout.editing (blankMeets (s.bytes.length - offset) width)).Relaid (.margin 0 0) s.bytes
      (s.insertBlank offset width).bytes := by
  rcases starts with rfl | ⟨i, feed, rfl⟩
  · have same : Relayout.Edited (blankMeets s.bytes.length width) s.bytes s.bytes :=
      edited_same (Nat.le_refl _)
    exact same.relaid (.line width)
  · obtain ⟨within, here⟩ := List.getElem?_eq_some_iff.mp feed
    have split : s.bytes.take (i + 1) = s.bytes.take i ++ [Byte.lineFeed] := by
      rw [List.take_add_one, feed, Option.toList_some]
    have whole : s.bytes = s.bytes.take i ++ Byte.lineFeed :: s.bytes.drop (i + 1) := by
      rw [← here, List.cons_getElem_drop_succ, List.take_append_drop]
    have edited := edited_blank width (s.bytes.take i) (s.bytes.drop (i + 1))
    rw [List.length_drop, ← whole] at edited
    have relaid := edited.relaid .none
    simpa [insertBlank, split] using relaid

theorem relaid_returns (plain : Byte.carriageReturn ∉ s.bytes) :
    (Relayout.editing returnsMeet).Relaid (.margin 0 0) s.bytes s.withReturns.bytes :=
  (edited_returns plain).relaid .none

theorem behindBlank_eq {offset width i i' : Nat} (inside : offset ≤ s.bytes.length)
    (h : (Relayout.editing (blankMeets (s.bytes.length - offset) width)).Places s
      (s.insertBlank offset width) i i') : behindBlank offset width i = i' := by
  obtain ⟨front, front', rest, rest', bytes, bytes', rfl, rfl, meets⟩ := h
  have meets : rest'.length = if rest.length ≤ s.bytes.length - offset then rest.length
    else rest.length + (width + 1) := meets
  have total : (s.insertBlank offset width).bytes.length = s.bytes.length + (width + 1) := by
    simp only [insertBlank, margin, List.length_append, List.length_take, List.length_drop,
      List.length_replicate, List.length_singleton]
    omega
  rw [bytes', List.length_append] at total
  have length := congrArg List.length bytes
  rw [List.length_append] at length
  unfold behindBlank
  split at meets <;> split <;> omega

theorem behindReturns_eq {i i' : Nat}
    (h : (Relayout.editing returnsMeet).Places s s.withReturns i i') : s.behindReturns i = i' := by
  obtain ⟨front, front', rest, rest', bytes, bytes', rfl, rfl, meets⟩ := h
  have meets : rest'.length = rest.length + rest.count Byte.lineFeed := meets
  have total := s.length_withReturns
  rw [bytes', bytes, List.length_append, List.length_append, List.count_append] at total
  rw [behindReturns, bytes, List.take_left]
  omega

theorem StartsLine.inside {offset : Nat} (h : s.StartsLine offset) : offset ≤ s.bytes.length := by
  rcases h with rfl | ⟨i, feed, rfl⟩
  · exact Nat.zero_le _
  · exact (List.getElem?_eq_some_iff.mp feed).1

theorem shown_insertBlank (a : Arena) {offset : Nat} (width : Nat) (starts : s.StartsLine offset) :
    (s.insertBlank offset width).shown a id = s.shown a (behindBlank offset width) := by
  refine (Relayout.shown_eq_of_relaid a (relaid_blank width starts) fun i i' places => ?_).symm
  exact behindBlank_eq starts.inside places

theorem shown_withReturns (a : Arena) (plain : Byte.carriageReturn ∉ s.bytes) :
    s.withReturns.shown a id = s.shown a s.behindReturns := by
  refine (Relayout.shown_eq_of_relaid a (relaid_returns plain) fun i i' places => ?_).symm
  exact behindReturns_eq places

/-- One more blank line, or a carriage return before each line feed: the parse shows the same nodes
and the same root, or that there is none, or the same error with the same kind of token, where that
token has come to stand. -/
theorem parse_line_ends (s : Source) (a : Arena) :
    (∀ offset width, s.StartsLine offset →
      (s.insertBlank offset width).shown a id = s.shown a (behindBlank offset width)) ∧
    (Byte.carriageReturn ∉ s.bytes → s.withReturns.shown a id = s.shown a s.behindReturns) := by
  constructor
  · intro offset width starts
    exact shown_insertBlank a width starts
  · intro plain
    exact shown_withReturns a plain

/- The second line of the text is at fault, and moves behind a line of three spaces. -/
theorem parse_line_ends_fault :
    let s := ofText "1\n)"
    s.StartsLine 2 ∧ Byte.carriageReturn ∉ s.bytes ∧
      ((s.insertBlank 2 3).shown .empty id).outcome =
        .error ("unexpected-token", some (.rParen, 6)) ∧
      (s.withReturns.shown .empty id).outcome =
        .error ("unexpected-token", some (.rParen, 3)) := by
  intro s
  have starts : s.StartsLine 2 := .inr ⟨1, rfl, rfl⟩
  have plain : Byte.carriageReturn ∉ s.bytes := by decide
  have fails : (s.parse .empty).outcome = .error (.unexpectedToken ⟨.rParen, 2, 3⟩) :=
    outcome_of_within (n := 15) rfl
  refine ⟨starts, plain, ?_, ?_⟩
  · rw [(parse_line_ends s .empty).1 2 3 starts, shown, fails]
    rfl
  · rw [(parse_line_ends s .empty).2 plain, shown, fails]
    rfl

theorem shown_ofBytes_edited (s : Source) (a : Arena) :
    (∀ offset width, s.StartsLine offset → (s.insertBlank offset width).bytes.length ≤ capacity →
      (ofBytes (s.insertBlank offset width).bytes).shown a id =
        s.shown a (behindBlank offset width)) ∧
    (Byte.carriageReturn ∉ s.bytes → s.withReturns.bytes.length ≤ capacity →
      (ofBytes s.withReturns.bytes).shown a id = s.shown a s.behindReturns) := by
  constructor
  · intro offset width starts fits
    rw [ofBytes_eq fits]
    exact shown_insertBlank a width starts
  · intro plain fits
    rw [ofBytes_eq fits]
    exact shown_withReturns a plain

end Source
end Offside
