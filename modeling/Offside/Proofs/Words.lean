import Offside.Proofs.Frontier
import Offside.Proofs.Munch

/-! Words with one space between each two of them, and how they are read: a word is not cut short or
drawn out by the space behind it, so the words come back one by one. -/
namespace Offside

structure Word where
  tag : TokenTag
  text : List Byte
  spelled : Spells false tag text

/- What is compared: the kind and the text. -/
def Word.wording (w : Word) : TokenTag × List Byte := (w.tag, w.text)

def Source.wording (s : Source) (t : Token) : TokenTag × List Byte := (t.tag, s.text t)

def spaced : List Word → List Byte
  | [] => []
  | w :: ws => w.text ++ ws.flatMap fun v => Byte.space :: v.text

theorem Spells.plain {tag : TokenTag} {w : List Byte} (h : Spells false tag w) :
    tag ≠ .space ∧ tag ≠ .eof := by
  cases h with
  | keyword listed =>
    have wordLike := keyword_wordLike (Lexicon.keyword?_iff.mpr ⟨_, listed, rfl⟩)
    constructor <;> rintro rfl <;> cases wordLike
  | symbol listed =>
    have plain : ∀ s ∈ Lexicon.symbols, s.2 ≠ .space ∧ s.2 ≠ .eof := by decide
    exact plain _ listed
  | blanks asked _ => cases asked
  | _ => exact ⟨nofun, nofun⟩

def EndsWord (rest : List Byte) : Prop := ∀ b ∈ rest.head?, b = Byte.space

theorem endsWord_flatMap (ws : List Word) : EndsWord (ws.flatMap fun v => Byte.space :: v.text) := by
  cases ws with
  | nil => simp [EndsWord]
  | cons w ws => simp [EndsWord]

namespace Part

theorem move_space {p : Part} {tag : TokenTag} (ending : p.ending? = some tag)
    (word : tag ≠ .space) : p.move Byte.space = .close tag := by
  cases p with
  | blanks => cases ending; exact absurd rfl word
  | integer r => cases ending; cases r <;> rfl
  | fraction r => cases ending; cases r <;> rfl
  | _ => cases ending <;> rfl

theorem munch_accepts {p : Part} {w rest : List Byte} {tag : TokenTag}
    (accepted : p.accepts w = some tag) (word : tag ≠ .space) (ended : EndsWord rest) :
    munch false p (w ++ rest) = .token w rest tag := by
  induction w generalizing p with
  | nil =>
    cases rest with
    | nil => simp only [List.append_nil, munch, show p.ending? = some tag from accepted]; rfl
    | cons b rest =>
      obtain rfl : b = Byte.space := ended b rfl
      simp only [List.nil_append, munch, move_space accepted word]
  | cons b w ih =>
    rw [List.cons_append, munch]
    unfold accepts at accepted
    split at accepted
    · rename_i q moved
      simp only [moved, ih accepted]
      rfl
    · rename_i t moved
      split at accepted
      · rename_i last
        obtain ⟨-, rfl⟩ := last
        obtain rfl := Option.some.inj accepted
        simp only [moved]
        rfl
      · cases accepted
    · cases accepted

end Part

theorem Scan.resolve_token (text rest : List Byte) (raw : TokenTag) :
    (Scan.token text rest raw).resolve = .token text rest (raw.resolved text) := by
  unfold Scan.resolve TokenTag.resolved
  cases raw <;> rfl

theorem Scan.resolve_skip (passed : List Byte) (s : Scan) :
    (s.skip passed).resolve = s.resolve.skip passed := by
  cases tag : s.tag <;> simp [Scan.resolve, Scan.skip, tag]

namespace Word

variable {rest : List Byte}

theorem text_cons (w : Word) : ∃ b more, w.text = b :: more ∧ isGap b = false := by
  obtain ⟨raw, begins, -⟩ := begins_of_spells w.spelled
  cases text : w.text with
  | nil =>
    rw [text] at begins
    exact begins.elim
  | cons b more =>
    refine ⟨b, more, rfl, ?_⟩
    by_contra gap
    simp [text, Begins, gap] at begins

/-- A word is read whole, whatever comes behind the space after it. -/
theorem scan_text (w : Word) (ended : EndsWord rest) :
    scan .layout .gap (w.text ++ rest) = .token w.text rest w.tag := by
  obtain ⟨raw, begins, same⟩ := begins_of_spells w.spelled
  obtain ⟨b, more, text, plain⟩ := w.text_cons
  have read : between .layout (w.text ++ rest) = .token w.text rest raw := by
    rw [text] at begins ⊢
    simp only [Begins, plain, Bool.false_eq_true, ↓reduceIte] at begins
    simp only [isGap, Bool.or_eq_false_iff] at plain
    obtain ⟨⟨blank, return_⟩, feed⟩ := plain
    rw [List.cons_append, between]
    simp only [blank, return_, feed, Bool.false_eq_true, ↓reduceIte]
    cases opens : opening b with
    | part p =>
      rw [opens] at begins
      have accepted := (p.completes_iff_accepts more raw).mp begins
      have word : raw ≠ .space := by
        rintro rfl
        exact w.spelled.plain.1 same
      simp only [Flags.layout, Part.munch_accepts accepted word ended]
      rfl
    | whole tag =>
      rw [opens] at begins
      obtain ⟨-, rfl, rfl⟩ := begins
      rfl
  rw [scan, read, Scan.resolve_token, same]

end Word

namespace Scanner

variable {s : Scanner} {src : Source}

def Faces (src : Source) (s : Scanner) : Prop := src.bytes.drop s.here.offset = s.rest

theorem Faces.next (h : s.Faces src) (state : ScanState) :
    src.text (s.nextFrom state).1 = (scan s.flags state s.rest).text ∧
      (s.nextFrom state).2.Faces src := by
  have whole := scan_bytes s.flags state s.rest
  unfold Faces at h
  simp only [Faces, nextFrom, Source.text, Place.offset_advance, Nat.add_sub_cancel_left]
  generalize scan s.flags state s.rest = found at whole ⊢
  simp only [← List.drop_drop, h, ← whole]
  simp [Scan.bytes]

theorem Faces.word {w : Word} {gap tail : List Byte} (h : s.Faces src) (flags : s.flags = .layout)
    (rest : s.rest = gap ++ (w.text ++ tail)) (blank : gap = [] ∨ gap = [Byte.space])
    (ended : EndsWord tail) :
    s.tokens.map src.wording = w.wording :: s.next.2.tokens.map src.wording ∧
      s.next.2.rest = tail := by
  have read : scan s.flags .gap s.rest = (Scan.token w.text tail w.tag).skip gap := by
    rw [flags, rest]
    rcases blank with rfl | rfl
    · exact w.scan_text ended
    · exact (Scan.resolve_skip _ _).trans (congrArg (Scan.skip [Byte.space]) (w.scan_text ended))
  have tag : s.next.1.tag = w.tag := congrArg Scan.tag read
  have text : src.text s.next.1 = w.text := (h.next .gap).1.trans (congrArg Scan.text read)
  have more : s.next.1.tag ≠ .eof := by
    rw [tag]
    exact w.spelled.plain.2
  refine ⟨?_, congrArg Scan.rest read⟩
  rw [tokens_eq, if_neg more, List.map_cons, Source.wording, tag, text]
  rfl

theorem Faces.words {ws : List Word} (h : s.Faces src) (flags : s.flags = .layout)
    (rest : s.rest = ws.flatMap fun w => Byte.space :: w.text) :
    s.tokens.map src.wording = ws.map Word.wording ++ [(.eof, [])] := by
  induction ws generalizing s with
  | nil =>
    have read : scan s.flags .gap s.rest = .finish [] .gap := by
      rw [flags, rest]
      rfl
    have last : s.next.1.tag = .eof := congrArg Scan.tag read
    have text : src.text s.next.1 = [] := (h.next .gap).1.trans (congrArg Scan.text read)
    rw [tokens_eq, if_pos last, List.map_singleton, Source.wording, last, text]
    rfl
  | cons w ws ih =>
    have rest : s.rest = [Byte.space] ++ (w.text ++ ws.flatMap fun v => Byte.space :: v.text) := rest
    obtain ⟨tokens, behind⟩ := h.word flags rest (.inr rfl) (endsWord_flatMap ws)
    have others : s.next.2.tokens.map src.wording = _ := ih (h.next .gap).2 flags behind
    rw [tokens, others]
    rfl

end Scanner

theorem scan_line (w : Word) (ws : List Word) :
    scan .layout .lineStart (spaced (w :: ws)) = .token [] (spaced (w :: ws)) .indent := by
  obtain ⟨b, more, text, plain⟩ := w.text_cons
  simp only [isGap, Byte.isInlineBlank, Bool.or_eq_false_iff] at plain
  obtain ⟨⟨⟨space, tab⟩, return_⟩, feed⟩ := plain
  simp only [spaced, text, List.cons_append, scan]
  cases more ++ ws.flatMap fun v => Byte.space :: v.text with
  | nil => simp [leading, space, tab, feed, margin]
  | cons c rest => simp [leading, space, tab, feed, return_, margin]

/-- The lexemes of a line of words are the words, and the end. -/
theorem Source.lexemes_spaced {ws : List Word} (nonempty : ws ≠ []) :
    ∃ ts, Source.lexemes? ⟨spaced ws⟩ = some ts ∧
      ts.map (fun x => Source.wording ⟨spaced ws⟩ x.token) =
        ws.map Word.wording ++ [(.eof, [])] := by
  obtain ⟨w, ws, rfl⟩ := List.exists_cons_of_ne_nil nonempty
  have line := scan_line w ws
  have first : ((Scanner.ofSource .layout ⟨spaced (w :: ws)⟩).nextFrom .lineStart).1.tag = .indent :=
    congrArg Scan.tag line
  have rest : ((Scanner.ofSource .layout ⟨spaced (w :: ws)⟩).nextFrom .lineStart).2.rest =
      [] ++ (w.text ++ ws.flatMap fun v => Byte.space :: v.text) := congrArg Scan.rest line
  have faces : (Scanner.ofSource .layout ⟨spaced (w :: ws)⟩).Faces ⟨spaced (w :: ws)⟩ := rfl
  have begun := (faces.next .lineStart).2
  obtain ⟨tokens, behind⟩ := begun.word rfl rest (.inl rfl) (endsWord_flatMap ws)
  have others := Scanner.Faces.words (s := Scanner.next _ |>.2) (begun.next .gap).2 rfl behind
  refine ⟨_, if_pos first, ?_⟩
  rw [← Function.comp_def, ← List.map_map, Grid.label_tokens, tokens, others]
  rfl

end Offside
