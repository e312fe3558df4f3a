import Offside.Proofs.Chunks
import Offside.Proofs.Relaid

/-! The tokens of a source, call by call. They come in the order of the text, none over another, and
leave out nothing but blanks; behind the last of them every call finds the end. -/
namespace Offside

/-- The bytes that no token need cover. Where runs of blanks are tokens, a blank can be left out only
among the leading spaces of a line. -/
def Flags.Passes (flags : Flags) (b : Byte) : Prop :=
  b = Byte.carriageReturn ∨ b = Byte.lineFeed ∨
    ((b = Byte.space ∨ b = Byte.tab) ∧ (flags.spaces = true → flags.indent = true))

/- What one scan passes over, and which tokens are empty. -/
structure Scan.Sound (flags : Flags) (s : Scan) : Prop where
  passed : ∀ b ∈ s.skipped, flags.Passes b
  full : s.tag ≠ .indent → s.tag ≠ .eof → s.text ≠ []
  ended : s.tag = .eof → s.text = [] ∧ s.rest = []

namespace Scan

variable {flags : Flags} {s : Scan}

theorem sound_token {text : List Byte} (rest : List Byte) {tag : TokenTag} (more : tag ≠ .eof)
    (full : tag ≠ .indent → text ≠ []) : (Scan.token text rest tag).Sound flags :=
  ⟨nofun, fun inside _ => full inside, fun eof => absurd eof more⟩

theorem Sound.skip (h : s.Sound flags) {passed : List Byte} (blank : ∀ b ∈ passed, flags.Passes b) :
    (s.skip passed).Sound flags := by
  refine ⟨?_, h.full, h.ended⟩
  intro b member
  rcases List.mem_append.mp member with member | member
  · exact blank b member
  · exact h.passed b member

theorem Sound.resolve (h : s.Sound flags) : s.resolve.Sound flags := by
  obtain ⟨skipped, text, rest, -⟩ := s.resolve_eq
  have same : ∀ tag : TokenTag, tag.isWordLike = false → (s.resolve.tag = tag ↔ s.tag = tag) := by
    intro tag plain
    rw [resolve_tag, TokenTag.resolved_eq _ plain]
  refine ⟨?_, ?_, ?_⟩
  · rw [skipped]
    exact h.passed
  · rw [text, Ne, Ne, same .indent rfl, same .eof rfl]
    exact h.full
  · rw [text, rest, same .eof rfl]
    exact h.ended

end Scan

section Sound

variable {flags : Flags}

theorem passes_blank {b : Byte} (blank : Byte.isInlineBlank b = true)
    (loose : flags.spaces = true → flags.indent = true) : flags.Passes b := by
  refine .inr (.inr ⟨?_, loose⟩)
  simpa [Byte.isInlineBlank] using blank

theorem passes_line (tracked : flags.indent = true) (width : Nat) {tail : List Byte}
    (ends : ∀ b ∈ tail, b = Byte.carriageReturn ∨ b = Byte.lineFeed) :
    ∀ b ∈ margin width ++ tail, flags.Passes b := by
  intro b member
  rcases List.mem_append.mp member with space | member
  · obtain ⟨-, rfl⟩ := List.mem_replicate.mp space
    exact passes_blank rfl fun _ => tracked
  · rcases ends b member with rfl | rfl
    · exact .inl rfl
    · exact .inr (.inl rfl)

theorem leading_sound (tracked : flags.indent = true) (chunked : Bool) (width : Nat)
    (input : List Byte) : (leading chunked width input).Sound flags := by
  fun_induction leading chunked width input with
  | case1 width cut =>
    refine ⟨by simp [Scan.cut], fun _ _ => ?_, by simp [Scan.cut]⟩
    simp only [Bool.and_eq_true, bne_iff_ne, ne_eq] at cut
    simpa [Scan.cut, margin] using cut.2
  | case2 width _ =>
    have blank : ∀ b ∈ margin width ++ [], flags.Passes b := passes_line tracked width (by simp)
    rw [List.append_nil] at blank
    exact ⟨blank, fun _ more => absurd rfl more, fun _ => ⟨rfl, rfl⟩⟩
  | case3 _ _ _ ih => exact ih
  | case4 width b _ feed ih =>
    obtain rfl := eq_of_beq feed
    exact ih.skip (passes_line tracked width (by simp))
  | case5 => exact Scan.sound_token _ (by decide) (by simp)
  | case6 => exact Scan.sound_token _ (by decide) (fun other => absurd rfl other)
  | case7 _ _ _ _ _ ih => exact ih
  | case8 width b _ _ _ feed ih =>
    obtain rfl := eq_of_beq feed
    exact ih.skip (passes_line tracked width (by simp))
  | case9 width b c _ _ _ ended ih =>
    simp only [Bool.and_eq_true, beq_iff_eq] at ended
    obtain ⟨rfl, rfl⟩ := ended
    exact ih.skip (passes_line tracked width (by simp))
  | case10 => exact Scan.sound_token _ (by decide) (by simp)
  | case11 => exact Scan.sound_token _ (by decide) (fun other => absurd rfl other)

theorem munch_sound (chunked : Bool) (p : Part) (input : List Byte) (b : Byte) :
    ((munch chunked p input).push b).Sound flags := by
  refine ⟨?_, fun _ _ => List.cons_ne_nil _ _, ?_⟩
  · intro c member
    have none : ((munch chunked p input).push b).skipped = [] := munch_skipped chunked p input
    rw [none] at member
    cases member
  · intro eof
    have eof : (munch chunked p input).tag = .eof := eof
    rcases munch_ends chunked p input with ⟨-, going⟩ | ⟨-, -, cut, -⟩
    · rw [eof] at going
      cases going
    · rw [eof] at cut
      cases cut

theorem between_sound (flags : Flags) (input : List Byte) : (between flags input).Sound flags := by
  have ends : ∀ {b : Byte}, b = Byte.carriageReturn ∨ b = Byte.lineFeed →
      ∀ c ∈ [b], flags.Passes c := by
    intro b line c member
    obtain rfl := List.mem_singleton.mp member
    exact line.elim .inl fun feed => .inr (.inl feed)
  fun_induction between flags input with
  | case1 => exact ⟨by simp [Scan.finish], fun _ more => absurd rfl more, fun _ => ⟨rfl, rfl⟩⟩
  | case2 b rest _ _ => exact munch_sound flags.chunked .blanks rest b
  | case3 b rest blank joined ih =>
    refine ih.skip ?_
    intro c member
    obtain rfl := List.mem_singleton.mp member
    exact passes_blank blank fun spaces => absurd spaces joined
  | case4 b rest _ return_ ih => exact ih.skip (ends (.inl (eq_of_beq return_)))
  | case5 b rest _ _ feed tracked =>
    exact (leading_sound tracked flags.chunked 0 rest).skip (ends (.inr (eq_of_beq feed)))
  | case6 b rest _ _ feed _ ih => exact ih.skip (ends (.inr (eq_of_beq feed)))
  | case7 b rest _ _ _ p _ => exact munch_sound flags.chunked p rest b
  | case8 b rest _ _ _ tag opens =>
    refine Scan.sound_token rest ?_ fun _ => List.cons_ne_nil _ _
    rintro rfl
    cases opening_settles opens

theorem scan_sound (flags : Flags) (input : List Byte) : (scan flags .gap input).Sound flags :=
  (between_sound flags input).resolve

end Sound

namespace Scanner

def after (u : Scanner) : Nat → Scanner
  | 0 => u
  | n + 1 => (u.after n).next.2

def call (u : Scanner) (n : Nat) : Token := (u.after n).next.1

/-- The calls of a scanner split the source into tokens and blanks. -/
structure Partitions (u : Scanner) (s : Source) : Prop where
  ends : ∃ n ≤ s.length, (u.call n).tag = .eof ∧ u.tokens = (List.range (n + 1)).map u.call
  advances : ∀ n, (u.call n).tag ≠ .eof → (u.after n).here.offset < (u.after (n + 1)).here.offset
  ordered : ∀ n, (u.call n).start ≤ (u.call n).stop ∧ (u.call n).stop ≤ (u.call (n + 1)).start ∧
    (u.call (n + 1)).start ≤ s.length
  full : ∀ n, (u.call n).tag ≠ .indent → (u.call n).tag ≠ .eof → (u.call n).start < (u.call n).stop
  final : ∀ n, (u.call n).tag = .eof → u.call n = ⟨.eof, s.length, s.length⟩ ∧
    ∀ m, n ≤ m → u.call m = u.call n
  blank : ∀ i b, s.bytes[i]? = some b →
    (∀ n, ¬((u.call n).start ≤ i ∧ i < (u.call n).stop)) → u.flags.Passes b

variable {u : Scanner} {s : Source}

theorem after_succ (u : Scanner) (n : Nat) : u.after (n + 1) = u.next.2.after n := by
  induction n with
  | zero => rfl
  | succ n ih => rw [after, ih, after]

theorem call_succ (u : Scanner) (n : Nat) : u.call (n + 1) = u.next.2.call n := by
  rw [call, call, after_succ]

theorem next_spans (u : Scanner) :
    u.next.1.start = u.here.offset + (scan u.flags .gap u.rest).skipped.length ∧
      u.next.1.stop = u.next.1.start + (scan u.flags .gap u.rest).text.length ∧
      u.next.2.here.offset = u.next.1.stop ∧
      u.next.1.stop + u.next.2.rest.length = u.here.offset + u.rest.length := by
  have whole := congrArg List.length (scan_bytes u.flags .gap u.rest)
  simp only [Scan.bytes, List.length_append] at whole
  simp only [next, nextFrom, Place.offset_advance, true_and]
  omega

theorem next_of_eof (eof : u.next.1.tag = .eof) :
    u.next.1 = ⟨.eof, u.here.offset + u.rest.length, u.here.offset + u.rest.length⟩ ∧
      u.next.2.rest = [] := by
  obtain ⟨text, rest⟩ := (scan_sound u.flags u.rest).ended eof
  obtain ⟨-, stop, -, whole⟩ := u.next_spans
  have rest : u.next.2.rest = [] := rest
  rw [text, List.length_nil] at stop
  rw [rest, List.length_nil] at whole
  have here : u.next.1.start = u.here.offset + u.rest.length := by omega
  refine ⟨?_, rest⟩
  calc u.next.1 = ⟨u.next.1.tag, u.next.1.start, u.next.1.stop⟩ := rfl
    _ = ⟨.eof, u.here.offset + u.rest.length, u.here.offset + u.rest.length⟩ := by
      rw [eof, stop, here, Nat.add_zero]

/-- Nothing is behind the end, so that it is found again in the same place. -/
theorem next_again (eof : u.next.1.tag = .eof) : u.next.2.next.1 = u.next.1 := by
  obtain ⟨token, none⟩ := next_of_eof eof
  obtain ⟨-, -, offset, whole⟩ := u.next_spans
  have again : u.next.2.next.1.tag = .eof := by
    show (scan u.next.2.flags .gap u.next.2.rest).tag = .eof
    rw [none]
    rfl
  rw [(next_of_eof again).1, token, offset, whole]

theorem tokens_eq_calls (u : Scanner) :
    ∃ n ≤ u.rest.length, (u.call n).tag = .eof ∧ u.tokens = (List.range (n + 1)).map u.call := by
  induction u using entries.induct fun _ => false with
  | case1 u step last =>
    have eof : u.next.1.tag = .eof := by simpa using last
    refine ⟨0, Nat.zero_le _, eof, ?_⟩
    rw [tokens_eq, if_pos eof]
    rfl
  | case2 u step more ih =>
    have going : ¬u.next.1.tag = .eof := by simpa using more
    obtain ⟨n, few, eof, listed⟩ := ih
    refine ⟨n + 1, Nat.lt_of_le_of_lt few (u.rest_next_lt going), ?_, ?_⟩
    · rw [call_succ]
      exact eof
    · have later : u.call ∘ Nat.succ = u.next.2.call := funext u.call_succ
      rw [tokens_eq, if_neg going, List.range_succ_eq_map, List.map_cons, List.map_map, later]
      exact congrArg (u.next.1 :: ·) listed

theorem next_cases {i : Nat} {b : Byte} (faces : u.Faces s) (reached : u.here.offset ≤ i)
    (found : s.bytes[i]? = some b) :
    u.flags.Passes b ∨ (u.next.1.start ≤ i ∧ i < u.next.1.stop) ∨
      (u.next.2.here.offset ≤ i ∧ u.next.2.rest ≠ []) := by
  obtain ⟨start, stop, offset, -⟩ := u.next_spans
  obtain ⟨k, rfl⟩ := Nat.exists_eq_add_of_le reached
  have whole := scan_bytes u.flags .gap u.rest
  have inside : u.rest[k]? = some b := by
    rw [← faces, List.getElem?_drop]
    exact found
  rw [← whole, Scan.bytes, List.append_assoc] at inside
  by_cases before : k < (scan u.flags .gap u.rest).skipped.length
  · rw [List.getElem?_append_left before] at inside
    exact .inl ((scan_sound u.flags u.rest).passed b (List.mem_of_getElem? inside))
  · rw [List.getElem?_append_right (by omega)] at inside
    by_cases within : k < (scan u.flags .gap u.rest).skipped.length +
        (scan u.flags .gap u.rest).text.length
    · exact .inr (.inl (by omega))
    · rw [List.getElem?_append_right (by omega)] at inside
      refine .inr (.inr ⟨by omega, fun none => ?_⟩)
      have none : (scan u.flags .gap u.rest).rest = [] := none
      simp [none] at inside

theorem passes_of_uncovered {i : Nat} {b : Byte} (faces : u.Faces s) (reached : u.here.offset ≤ i)
    (found : s.bytes[i]? = some b)
    (bare : ∀ n, ¬((u.call n).start ≤ i ∧ i < (u.call n).stop)) : u.flags.Passes b := by
  induction u using entries.induct fun _ => false with
  | case1 u step last =>
    have eof : u.next.1.tag = .eof := by simpa using last
    rcases next_cases faces reached found with passed | covered | ⟨-, more⟩
    · exact passed
    · exact absurd covered (bare 0)
    · exact absurd (next_of_eof eof).2 more
  | case2 u step more ih =>
    rcases next_cases faces reached found with passed | covered | ⟨behind, -⟩
    · exact passed
    · exact absurd covered (bare 0)
    · refine ih (faces.next .gap).2 behind ?_
      intro n
      have later := bare (n + 1)
      rwa [call_succ] at later

theorem after_faces (faces : u.Faces s) (whole : u.here.offset + u.rest.length = s.length) (n : Nat) :
    (u.after n).Faces s ∧ (u.after n).here.offset + (u.after n).rest.length = s.length := by
  induction n with
  | zero => exact ⟨faces, whole⟩
  | succ n ih =>
    obtain ⟨-, -, offset, same⟩ := (u.after n).next_spans
    refine ⟨(ih.1.next .gap).2, ?_⟩
    show (u.after n).next.2.here.offset + (u.after n).next.2.rest.length = s.length
    omega

theorem call_again {n : Nat} (eof : (u.call n).tag = .eof) {m : Nat} (later : n ≤ m) :
    u.call m = u.call n := by
  induction m, later using Nat.le_induction with
  | base => rfl
  | succ m _ ih =>
    have again : (u.after m).next.1.tag = .eof := by
      rw [← eof, ← ih]
      rfl
    exact (next_again again).trans ih

end Scanner

/-- Whatever a source is read with, call after call splits it into tokens and blanks, up to its end
and no further. -/
theorem Source.calls_partition (s : Source) (flags : Flags) :
    (Scanner.ofSource flags s).Partitions s := by
  have faces : (Scanner.ofSource flags s).Faces s := rfl
  have start : (Scanner.ofSource flags s).here.offset = 0 := rfl
  have whole : (Scanner.ofSource flags s).here.offset + (Scanner.ofSource flags s).rest.length =
      s.length := Nat.zero_add _
  generalize Scanner.ofSource flags s = u at faces start whole
  have stays := Scanner.after_faces faces whole
  constructor
  · obtain ⟨n, few, ended⟩ := u.tokens_eq_calls
    exact ⟨n, by omega, ended⟩
  · intro n more
    obtain ⟨-, -, offset, same⟩ := (u.after n).next_spans
    have shorter := (u.after n).rest_next_lt more
    show (u.after n).here.offset < (u.after n).next.2.here.offset
    omega
  · intro n
    obtain ⟨-, stop, offset, -⟩ := (u.after n).next_spans
    obtain ⟨start', stop', -, same'⟩ := (u.after (n + 1)).next_spans
    have same := (stays (n + 1)).2
    have offset : (u.after (n + 1)).here.offset = (u.call n).stop := offset
    unfold Scanner.call at *
    omega
  · intro n inside more
    obtain ⟨-, stop, -, -⟩ := (u.after n).next_spans
    have full := (scan_sound (u.after n).flags (u.after n).rest).full inside more
    have longer := List.length_pos_iff.mpr full
    show (u.after n).next.1.start < (u.after n).next.1.stop
    omega
  · intro n eof
    have token := (Scanner.next_of_eof eof).1
    rw [(stays n).2] at token
    exact ⟨token, fun m later => Scanner.call_again eof later⟩
  · intro i b found bare
    exact Scanner.passes_of_uncovered faces (by omega) found bare

end Offside
