import Offside.Proofs.Lines

/-! What the layout adds to a reading. A source read with its blanks or its indentation as tokens has the
tokens of the same source read without them, in the same places, as long as no line gets a tab among its
leading spaces; so whoever leaves the layout out again has lost nothing. -/
namespace Offside

def TokenTag.isLayout : TokenTag → Bool
  | .space | .indent => true
  | _ => false

def TextLine.isTabbed (l : TextLine) : Bool :=
  (l.content.dropWhile (· == Byte.space)).head? == some Byte.tab

def Scanner.located (u : Scanner) : List (Token × Location) :=
  (u.entries fun _ => false).map fun e => (e.token, e.location)

namespace Source

def located (s : Source) (flags : Flags) : List (Token × Location) :=
  (Scanner.ofSource flags s).located

/-- What is left of the tokens without the layout. -/
def sifted (s : Source) (flags : Flags) : List (Token × Location) :=
  (s.located flags).filter fun e => !e.1.tag.isLayout

end Source

def Scan.unhalted (f : Scan) : Scan := { f with halted := none }

/-- How a scan stands to the bare one, which takes no notice of the layout: it found a piece of layout
with nothing but blanks in it and in front of it, or it found the same token. -/
inductive Sifts (f bare : Scan) : Prop where
  | layout : f.tag.isLayout = true → (∀ b ∈ f.skipped ++ f.text, isGap b = true) → Sifts f bare
  | plain : f.tag.isLayout = false → f.unhalted = bare.unhalted → Sifts f bare

def Untabbed (input : List Byte) : Prop :=
  ∀ front w back, input ≠ front ++ Byte.lineFeed :: (margin w ++ Byte.tab :: back)

section Scans

variable {flags : Flags} {f bare : Scan} {xs ys : List Byte}

theorem Untabbed.behind (xs : List Byte) (h : Untabbed (xs ++ ys)) : Untabbed ys := by
  rintro front w back rfl
  exact h (xs ++ front) w back (List.append_assoc _ _ _).symm

theorem Untabbed.line {rest : List Byte} (h : Untabbed (Byte.lineFeed :: rest)) (w : Nat)
    (back : List Byte) : rest ≠ margin w ++ Byte.tab :: back := by
  rintro rfl
  exact h [] w back rfl

theorem isGap_margin (w : Nat) : ∀ b ∈ margin w, isGap b = true := by
  intro b member
  obtain ⟨-, rfl⟩ := List.mem_replicate.mp member
  rfl

theorem between_gap {b : Byte} (gap : isGap b = true) (rest : List Byte) :
    between {} (b :: rest) = (between {} rest).skip [b] := by
  simp only [isGap, Bool.or_eq_true] at gap
  rw [between]
  rcases gap with (blank | returned) | feed
  · rw [if_pos blank]
    rfl
  · rw [if_pos returned]
    split <;> rfl
  · rw [if_pos feed]
    split
    · rfl
    · split <;> rfl

theorem between_gaps (blank : ∀ b ∈ xs, isGap b = true) (ys : List Byte) :
    between {} (xs ++ ys) = (between {} ys).skip xs := by
  induction xs with
  | nil => rfl
  | cons b xs ih =>
    obtain ⟨first, rest⟩ := List.forall_mem_cons.mp blank
    rw [List.cons_append, between_gap first, ih rest]
    rfl

theorem Sifts.skip (h : Sifts f bare) (blank : ∀ b ∈ xs, isGap b = true) :
    Sifts (f.skip xs) (bare.skip xs) := by
  cases h with
  | layout tag gaps =>
    refine .layout tag ?_
    rw [Scan.skip, List.append_assoc]
    exact List.forall_mem_append.mpr ⟨blank, gaps⟩
  | plain tag same => exact .plain tag (congrArg (Scan.skip xs) same)

theorem leading_sifts (w : Nat) {input : List Byte} (untabbed : Untabbed input)
    (clear : ∀ w back, input ≠ margin w ++ Byte.tab :: back) :
    Sifts (leading false w input) (between {} (margin w ++ input)) := by
  induction input using leading_cases generalizing w with
  | nil =>
    refine .plain rfl ?_
    rw [between_gaps (isGap_margin w)]
    exact congrArg (Scan.mk · [] [] .eof none) (List.append_nil _).symm
  | space z ih =>
    rw [leading_space, ← margin_succ]
    refine ih (w + 1) (untabbed.behind [_]) fun k back found => ?_
    exact clear (k + 1) back (congrArg (Byte.space :: ·) found)
  | ended e z ends ih =>
    have gaps : ∀ b ∈ margin w ++ e, isGap b = true := by
      refine List.forall_mem_append.mpr ⟨isGap_margin w, ?_⟩
      cases ends <;> simp [isGap]
    have next : Sifts (leading false 0 z) (between {} z) := by
      refine ih 0 (untabbed.behind e) (Untabbed.line ?_)
      cases ends with
      | feed => exact untabbed
      | returned => exact untabbed.behind [_]
    rw [leading_lineEnd _ ends, ← List.append_assoc, between_gaps gaps]
    exact next.skip gaps
  | opens z opens =>
    have inked : z.head? ≠ some Byte.tab := by
      intro tab
      obtain ⟨back, rfl⟩ := List.head?_eq_some_iff.mp tab
      exact clear 0 back rfl
    rw [leading_opens _ opens, if_neg inked]
    exact .layout rfl (isGap_margin w)

theorem munch_blanks (rest : List Byte) :
    (munch false .blanks rest).tag = .space ∧
      ∀ b ∈ (munch false .blanks rest).text, Byte.isInlineBlank b = true := by
  induction rest with
  | nil => exact ⟨rfl, by rintro b ⟨⟩⟩
  | cons b rest ih =>
    rw [munch, Part.move]
    by_cases blank : Byte.isInlineBlank b = true
    · rw [if_pos blank]
      exact ⟨ih.1, List.forall_mem_cons.mpr ⟨blank, ih.2⟩⟩
    · rw [if_neg blank]
      exact ⟨rfl, by rintro b ⟨⟩⟩

def Move.Solid : Move → Prop
  | .shift p => p ≠ .blanks
  | .close tag | .take tag => tag.isLayout = false

theorem Part.move_solid {p : Part} (solid : p ≠ .blanks) (b : Byte) : (p.move b).Solid := by
  have settles : ∀ tag : TokenTag, tag.isLayout = false → (settle tag b).Solid := by
    intro tag plain
    unfold settle
    split
    · exact plain
    · rfl
  have demands : ∀ test q, q ≠ Part.blanks → (demand test q).Solid := by
    intro test q other
    cases test with
    | true => exact other
    | false => rfl
  cases p with
  | blanks => exact absurd rfl solid
  | _ =>
    simp only [move]
    repeat' split
    all_goals first | exact settles _ rfl | exact demands _ _ nofun | rfl | exact nofun

theorem munch_solid {p : Part} (solid : p ≠ .blanks) (input : List Byte) :
    (munch false p input).tag.isLayout = false := by
  induction input generalizing p with
  | nil =>
    cases p with
    | blanks => exact absurd rfl solid
    | _ => rfl
  | cons b rest ih =>
    have moves := Part.move_solid solid b
    rw [munch]
    cases moved : p.move b with
    | shift q =>
      rw [moved] at moves
      exact ih moves
    | close tag =>
      rw [moved] at moves
      exact moves
    | take tag =>
      rw [moved] at moves
      exact moves

theorem opening_solid (b : Byte) :
    opening b ≠ .part .blanks ∧ ∀ tag, opening b = .whole tag → tag.isLayout = false := by
  unfold opening
  repeat' split
  all_goals refine ⟨nofun, ?_⟩
  all_goals rintro tag ⟨⟩
  unfold symbol?
  split <;> rfl

/-- Between tokens, a scan finds a piece of layout or what is found without the layout. -/
theorem between_sifts (whole : flags.chunked = false) (input : List Byte)
    (clear : flags.indent = true → Untabbed input) :
    Sifts (between flags input) (between {} input) := by
  have passes : ∀ {b : Byte} {rest : List Byte} {f : Scan}, isGap b = true →
      Sifts f (between {} rest) → Sifts (f.skip [b]) (between {} (b :: rest)) := by
    intro b rest f gap h
    rw [between_gap gap]
    exact h.skip (List.forall_mem_singleton.mpr gap)
  fun_induction between flags input with
  | case1 => exact .plain rfl rfl
  | case2 b rest blank _ =>
    obtain ⟨tag, blanks⟩ := munch_blanks rest
    have gaps : ∀ c ∈ b :: (munch false .blanks rest).text, isGap c = true := by
      intro c member
      have inline : Byte.isInlineBlank c = true := by
        rcases List.mem_cons.mp member with rfl | member
        · exact blank
        · exact blanks c member
      rw [isGap, inline]
      rfl
    rw [whole]
    refine .layout (by rw [Scan.push, tag]; rfl) ?_
    rw [Scan.push, munch_skipped]
    exact gaps
  | case3 b rest blank _ ih =>
    have gap : isGap b = true := by rw [isGap, blank]; rfl
    exact passes gap (ih fun tracked => (clear tracked).behind [b])
  | case4 b rest _ returned ih =>
    have gap : isGap b = true := by rw [eq_of_beq returned]; rfl
    exact passes gap (ih fun tracked => (clear tracked).behind [b])
  | case5 b rest _ _ feed tracked =>
    obtain rfl := eq_of_beq feed
    have untabbed := clear tracked
    rw [whole]
    exact passes rfl (leading_sifts 0 (untabbed.behind [_]) untabbed.line)
  | case6 b rest _ _ feed _ ih =>
    have gap : isGap b = true := by rw [eq_of_beq feed]; rfl
    exact passes gap (ih fun tracked => (clear tracked).behind [b])
  | case7 b rest blank returned feed p opens =>
    have solid : p ≠ .blanks := by
      rintro rfl
      exact (opening_solid b).1 opens
    rw [whole]
    refine .plain (munch_solid solid rest) ?_
    rw [between, if_neg blank, if_neg returned, if_neg feed]
    simp only [opens]
  | case8 b rest blank returned feed tag opens =>
    refine .plain ((opening_solid b).2 tag opens) ?_
    rw [between, if_neg blank, if_neg returned, if_neg feed]
    simp only [opens]

theorem isLayout_resolved (raw : TokenTag) (w : List Byte) :
    (raw.resolved w).isLayout = raw.isLayout := by
  unfold TokenTag.resolved
  split
  · rename_i word
    rw [word]
    unfold keyword?
    split <;> rfl
  · rfl

theorem Scan.unhalted_resolve (f : Scan) : f.resolve.unhalted = f.unhalted.resolve := by
  unfold unhalted resolve
  dsimp only
  split <;> rfl

theorem Sifts.resolve (h : Sifts f bare) : Sifts f.resolve bare.resolve := by
  have layout : f.resolve.tag.isLayout = f.tag.isLayout := by
    rw [Scan.resolve_tag, isLayout_resolved]
  cases h with
  | layout tag gaps =>
    obtain ⟨skipped, text, -⟩ := f.resolve_eq
    refine .layout (layout.trans tag) ?_
    rw [skipped, text]
    exact gaps
  | plain tag same =>
    refine .plain (layout.trans tag) ?_
    rw [Scan.unhalted_resolve, same, Scan.unhalted_resolve]

end Scans

namespace Scanner

variable {u v : Scanner}

theorem located_eq (u : Scanner) :
    u.located = (u.next.1, u.next.2.location) ::
      if u.next.1.tag = .eof then [] else u.next.2.located := by
  unfold located
  rw [entries]
  by_cases eof : u.next.1.tag = .eof <;> simp [eof, report]

/- Two scanners in the same place before the same text, the second of them without layout. -/
structure Alongside (u v : Scanner) : Prop where
  bare : v.flags = {}
  rest : u.rest = v.rest
  here : u.here = v.here

theorem Alongside.past (level : u.Alongside v)
    (gaps : ∀ b ∈ (scan u.flags .gap u.rest).skipped ++ (scan u.flags .gap u.rest).text,
      isGap b = true) :
    ∃ v', u.next.2.Alongside v' ∧ v'.next = v.next := by
  refine ⟨{ v with rest := u.next.2.rest, here := u.next.2.here }, ⟨level.bare, rfl, rfl⟩, ?_⟩
  have whole := scan_bytes u.flags .gap u.rest
  have passed : scan v.flags .gap v.rest = (scan v.flags .gap (scan u.flags .gap u.rest).rest).skip
      ((scan u.flags .gap u.rest).skipped ++ (scan u.flags .gap u.rest).text) := by
    rw [← level.rest, level.bare]
    nth_rewrite 1 [← whole]
    rw [Scan.bytes, scan, between_gaps gaps, Scan.resolve_skip]
    rfl
  simp only [next, nextFrom, passed, Scan.skip, Place.advance_append, level.here]

theorem Alongside.same (level : u.Alongside v)
    (same : (scan u.flags .gap u.rest).unhalted = (scan {} .gap u.rest).unhalted) :
    u.next.1 = v.next.1 ∧ u.next.2.location = v.next.2.location ∧ u.next.2.Alongside v.next.2 := by
  rw [level.rest] at same
  simp only [Scan.unhalted, Scan.mk.injEq] at same
  obtain ⟨skipped, text, rest, tag, -⟩ := same
  have here : u.next.2.here = v.next.2.here := by
    simp only [next, nextFrom, level.bare, level.rest, level.here, skipped, text]
  refine ⟨?_, ?_, level.bare, ?_, here⟩
  · simp only [next, nextFrom, level.bare, level.rest, level.here, skipped, text, tag]
  · simp only [location, next, nextFrom, level.bare, level.rest, level.here, skipped]
  · simp only [next, nextFrom, level.bare, level.rest, rest]

/-- Without the layout among its tokens, a scanner lists what the other one lists. -/
theorem Alongside.sifted (whole : u.flags.chunked = false)
    (clear : u.flags.indent = true → Untabbed u.rest) :
    ∀ {v : Scanner}, u.Alongside v → (u.located.filter fun e => !e.1.tag.isLayout) = v.located := by
  induction u using entries.induct fun _ => false with
  | case1 u step last =>
    intro v level
    have eof : u.next.1.tag = .eof := by simpa using last
    have sifts : Sifts (scan u.flags .gap u.rest) (scan {} .gap u.rest) :=
      (between_sifts whole u.rest clear).resolve
    cases sifts with
    | layout tag _ =>
      have tag : u.next.1.tag.isLayout = true := tag
      rw [eof] at tag
      cases tag
    | plain _ same =>
      obtain ⟨token, location, -⟩ := level.same same
      rw [u.located_eq, v.located_eq, if_pos eof, ← token, if_pos eof, location,
        List.filter_cons_of_pos (by rw [eof]; rfl)]
      rfl
  | case2 u step more ih =>
    intro v level
    have going : ¬u.next.1.tag = .eof := by simpa using more
    have onward : u.flags.indent = true → Untabbed u.next.2.rest := by
      intro tracked
      have untabbed := clear tracked
      rw [← scan_bytes u.flags .gap u.rest] at untabbed
      exact untabbed.behind _
    have sifts : Sifts (scan u.flags .gap u.rest) (scan {} .gap u.rest) :=
      (between_sifts whole u.rest clear).resolve
    rw [u.located_eq, if_neg going]
    cases sifts with
    | layout tag gaps =>
      obtain ⟨v', ahead, same⟩ := level.past gaps
      have tag : u.next.1.tag.isLayout = true := tag
      rw [List.filter_cons_of_neg (by rw [tag]; decide), ih whole onward ahead, v'.located_eq, same,
        ← v.located_eq]
    | plain tag same =>
      obtain ⟨token, location, ahead⟩ := level.same same
      have tag : u.next.1.tag.isLayout = false := tag
      rw [List.filter_cons_of_pos (by rw [tag]; rfl), ih whole onward ahead, v.located_eq, ← token,
        if_neg going, location]

end Scanner

theorem linesFrom_tabbed (start : Nat) (content front : List Byte) (w : Nat) (back : List Byte) :
    ∃ l ∈ (linesFrom start content
        (front ++ Byte.lineFeed :: (margin w ++ Byte.tab :: back))).tail, l.isTabbed = true := by
  induction front generalizing start content with
  | nil =>
    have unbroken : ∀ b ∈ margin w ++ [Byte.tab], b ≠ Byte.lineFeed := by
      refine List.forall_mem_append.mpr ⟨fun b member => ?_, List.forall_mem_singleton.mpr (by decide)⟩
      obtain ⟨-, rfl⟩ := List.mem_replicate.mp member
      decide
    obtain ⟨tail, more, lines⟩ : ∃ tail more,
        linesFrom (start + content.length + 1) (margin w ++ [Byte.tab]) back =
          ⟨start + content.length + 1, margin w ++ [Byte.tab] ++ tail⟩ :: more := by
      refine linesFrom_kept fun _ => ?_
      rw [List.getLast?_concat]
      decide
    rw [List.nil_append, linesFrom, if_pos rfl, List.tail_cons, List.append_cons,
      linesFrom_append unbroken, List.nil_append, lines]
    refine ⟨_, List.mem_cons_self, ?_⟩
    rw [TextLine.isTabbed, List.append_assoc, List.dropWhile_append_of_pos (by simp [margin])]
    rfl
  | cons b front ih =>
    rw [List.cons_append, linesFrom]
    split
    · obtain ⟨l, member, tabbed⟩ := ih (start + content.length + 1) []
      exact ⟨l, List.mem_of_mem_tail member, tabbed⟩
    · exact ih start (content ++ [b])

/-- However the layout is read, the other tokens are those of the source without it: the same, in the
same places, to the end. Where lines are laid out, none but the first may have a tab among its leading
spaces. -/
theorem Source.sifted_eq_bare (s : Source) (flags : Flags) (whole : flags.chunked = false)
    (clear : flags.indent = true → ∀ l ∈ s.lines.tail, l.isTabbed = false) :
    s.sifted flags = s.located {} := by
  refine Scanner.Alongside.sifted whole (fun tracked => ?_) ⟨rfl, rfl, rfl⟩
  intro front w back found
  have found : s.bytes = front ++ Byte.lineFeed :: (margin w ++ Byte.tab :: back) := found
  obtain ⟨l, member, tabbed⟩ := linesFrom_tabbed 0 [] front w back
  rw [← found] at member
  rw [clear tracked l member] at tabbed
  cases tabbed

/-- A tab inside a line, a quote that the end of its line spoils, a blank line, an indented word and
spaces at the end. -/
theorem Source.sifted_eq_bare_spoilt :
    (∀ l ∈ (lines ⟨[0x61, 0x20, 0x09, 0x27, 0x0A, 0x20, 0x0D, 0x0A, 0x20, 0x62, 0x0A, 0x20]⟩).tail,
        l.isTabbed = false) ∧
      sifted ⟨[0x61, 0x20, 0x09, 0x27, 0x0A, 0x20, 0x0D, 0x0A, 0x20, 0x62, 0x0A, 0x20]⟩
          { spaces := true, indent := true } =
        located ⟨[0x61, 0x20, 0x09, 0x27, 0x0A, 0x20, 0x0D, 0x0A, 0x20, 0x62, 0x0A, 0x20]⟩ {} :=
  ⟨by decide, sifted_eq_bare _ _ rfl fun _ => by decide⟩

end Offside
