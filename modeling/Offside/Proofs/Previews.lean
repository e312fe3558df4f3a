import Offside.Proofs.Encoding
import Offside.Proofs.Faithful
import Offside.Proofs.Splicing

/-! Previews of encoded text. A token that is kept begins and ends with a byte of ASCII, so it is cut
out of its source between characters, and a preview is cut at the last of those that fits. An outline
then shows a replacement character only where the source has one. -/
namespace Offside
open scoped Computability

section Spellings

def Ascii (L : Language Byte) : Prop := ∀ w ∈ L, ∀ b ∈ w, b < 0x80

namespace Ascii

variable {L M : Language Byte}

theorem one {test : Byte → Bool} (none : ∀ n < 0x80, test (UInt8.ofNat (n + 0x80)) = false) :
    Ascii (one test) := by
  rintro w ⟨b, pass, rfl⟩ c member
  obtain rfl := List.mem_singleton.mp member
  by_contra high
  have above : 0x80 ≤ c.toNat := by simpa [UInt8.lt_iff_toNat_lt] using high
  have same : UInt8.ofNat (c.toNat - 0x80 + 0x80) = c := by
    rw [Nat.sub_add_cancel above]
    exact UInt8.ofNat_toNat
  have fails := none (c.toNat - 0x80) (by have := c.toNat_lt; omega)
  rw [same, pass] at fails
  cases fails

theorem unit : Ascii 1 := by
  intro w empty b member
  rw [(Language.mem_one w).mp empty] at member
  cases member

theorem add (hL : Ascii L) (hM : Ascii M) : Ascii (L + M) := by
  rintro w (left | right)
  · exact hL w left
  · exact hM w right

theorem mul (hL : Ascii L) (hM : Ascii M) : Ascii (L * M) := by
  rintro w member b inside
  obtain ⟨u, left, v, right, rfl⟩ := Language.mem_mul.mp member
  rcases List.mem_append.mp inside with front | back
  · exact hL u left b front
  · exact hM v right b back

theorem star (hL : Ascii L) : Ascii L∗ := by
  rintro w member b inside
  obtain ⟨words, rfl, each⟩ := Language.mem_kstar.mp member
  obtain ⟨u, word, inside⟩ := List.mem_flatten.mp inside
  exact hL u (each u word) b inside

theorem word : Ascii Lexicon.word := by
  apply mul
  · exact one (by decide)
  · exact star (one (by decide))

theorem number (r : Radix) : Ascii (Lexicon.number r) := by
  have digit : Ascii (Offside.one r.isDigit) := one (by cases r <;> decide)
  have digits : Ascii (Lexicon.digits r) := digit.mul digit.star
  have decimal : Ascii (Lexicon.digits .decimal) := (one (by decide)).mul (one (by decide)).star
  have signed : Ascii Lexicon.signed := (unit.add (one (by decide))).mul decimal
  have exponent : Ascii (Lexicon.exponent r) := (one (by cases r <;> decide)).mul signed
  have fraction : Ascii (Lexicon.fraction r) := (one (by decide)).mul digits
  have mark : Ascii (Lexicon.mark r) := by
    cases r with
    | decimal => exact unit
    | _ => exact (one (by decide)).mul (one (by decide))
  exact mark.mul (digits.mul ((unit.add fraction).mul (unit.add exponent)))

theorem char : Ascii Lexicon.char := by
  have quote : Ascii (Offside.one (· == Byte.singleQuote)) := one (by decide)
  have escaped : Ascii (Offside.one (· == Byte.backslash) * Offside.one Lexicon.isEscape) :=
    (one (by decide)).mul (one (by decide))
  exact quote.mul (((one (by decide)).add escaped).mul quote)

end Ascii

variable {w : List Byte} {tag : TokenTag}

theorem framed_of_ascii (some : w ≠ []) (ascii : ∀ b ∈ w, b < 0x80) : Utf8.Framed w := by
  constructor
  · obtain ⟨b, rest, rfl⟩ := List.exists_cons_of_ne_nil some
    exact ⟨b, rest, rfl, ascii b List.mem_cons_self⟩
  · exact ⟨w.dropLast, w.getLast some, (List.dropLast_append_getLast some).symm,
      ascii _ (List.getLast_mem some)⟩

theorem framed_string (h : w ∈ Lexicon.string) : Utf8.Framed w := by
  obtain ⟨v, rfl, inside⟩ := mem_byte_mul.mp h
  obtain ⟨items, -, v, ⟨b, quote, rfl⟩, rfl⟩ := Language.mem_mul.mp inside
  obtain rfl := eq_of_beq quote
  exact ⟨⟨_, _, rfl, by decide⟩, Byte.doubleQuote :: items, _, rfl, by decide⟩

/-- Every token but the indentation of a line begins and ends with a byte of ASCII. -/
theorem Spells.framed (h : Spells false tag w) : Utf8.Framed w := by
  obtain ⟨b, more, text, -⟩ := (Word.mk tag w h).text_cons
  have some : w ≠ [] := by
    rintro rfl
    cases text
  cases h with
  | keyword listed => exact framed_of_ascii some (Ascii.word _ (Lexicon.keyword_mem_word listed))
  | identifier h => exact framed_of_ascii some (Ascii.word _ h)
  | number h => exact framed_of_ascii some (Ascii.number _ _ h)
  | string h => exact framed_string h
  | char h => exact framed_of_ascii some (Ascii.char _ h)
  | symbol listed =>
    have ascii : ∀ s ∈ Lexicon.symbols, Lexicon.byte s.1 < 0x80 := by decide
    apply framed_of_ascii some
    exact List.forall_mem_singleton.mpr (ascii _ listed)
  | emptyParens => exact ⟨⟨_, _, rfl, by decide⟩, [Byte.leftParen], _, rfl, by decide⟩
  | plusPlus => exact ⟨⟨_, _, rfl, by decide⟩, [Byte.plus], _, rfl, by decide⟩
  | blanks asked => cases asked

end Spellings

section Scans

variable {tag : TokenTag} {input text : List Byte} {behind : List TextLine} {o : Nat} {f : Scan}

theorem Munched.framed (h : Munched (Begins false) false input tag text)
    (sound : tag ≠ .invalid ∧ tag ≠ .incomplete) : Utf8.Framed text := by
  cases h with
  | token _ _ begins _ => exact (spells_of_begins begins).framed
  | invalid => exact absurd rfl sound.1
  | last _ begins _ => exact (spells_of_begins begins).framed
  | cut => exact absurd rfl sound.2

theorem framed_margin (w : Nat) : margin w = [] ∨ Utf8.Framed (margin w) := by
  by_cases empty : margin w = []
  · exact .inl empty
  · apply Or.inr
    apply framed_of_ascii empty
    intro b member
    rw [List.eq_of_mem_replicate member]
    decide

theorem Beyond.framed (h : Beyond behind o f) (sound : f.tag ≠ .invalid ∧ f.tag ≠ .incomplete)
    (ended : f.tag = .eof → f.text = []) : f.text = [] ∨ Utf8.Framed f.text := by
  cases h with
  | fault fault => exact absurd fault (not_or.mpr sound)
  | ended eof => exact .inl (ended eof)
  | line w tag text =>
    rw [text]
    exact framed_margin w

theorem leading_framed (input : List Byte)
    (sound : (leading false 0 input).tag ≠ .invalid ∧ (leading false 0 input).tag ≠ .incomplete) :
    (leading false 0 input).text = [] ∨ Utf8.Framed (leading false 0 input).text := by
  have beyond := leading_beyond 0 0 input
  have clear : (leading false 0 input).Sound .layout := leading_sound rfl false 0 input
  exact beyond.framed sound fun eof => (clear.ended eof).1

theorem between_framed (input : List Byte) (sound : (between .layout input).tag ≠ .invalid ∧
      (between .layout input).tag ≠ .incomplete) :
    (between .layout input).text = [] ∨ Utf8.Framed (between .layout input).text := by
  induction input with
  | nil => exact .inl rfl
  | cons b rest ih =>
    cases blank : isBlank b with
    | true =>
      rw [between_blank blank] at sound ⊢
      exact ih sound
    | false =>
      by_cases feed : b = Byte.lineFeed
      · subst feed
        exact leading_framed rest sound
      · have kept : Flags.layout.skips b = false := by
          simp only [isBlank, Bool.or_eq_false_iff] at blank
          simp [Flags.skips_eq, blank, feed]
        exact .inr ((between_munched rest kept).2.framed sound)

theorem tells_framed : Tells fun text => text = [] ∨ Utf8.Framed text := by
  rintro state (rfl | rfl) rest sound
  · rw [Ne, Ne, scan_tag_iff rfl, scan_tag_iff rfl] at sound
    have text : (scan .layout .gap rest).text = (between .layout rest).text :=
      (between .layout rest).resolve_eq.2.1
    rw [text]
    exact between_framed rest sound
  · exact leading_framed rest sound

end Scans

namespace Outline

variable {text : List Byte} {place j : Nat}

theorem cutBefore_le (text : List Byte) (place : Nat) : cutBefore text place ≤ place := by
  fun_induction cutBefore text place with
  | case1 => exact Nat.le_refl 0
  | case2 place _ _ _ ih => exact Nat.le_succ_of_le ih
  | case3 => exact Nat.le_refl _
  | case4 => exact Nat.le_refl _

theorem cutBefore_first (text : List Byte) (place : Nat) : cutBefore text place = 0 ∨
    ∀ b ∈ text[cutBefore text place]?, Byte.isContinuation b = false := by
  fun_induction cutBefore text place with
  | case1 => exact .inl rfl
  | case2 place _ _ _ ih => exact ih
  | case3 place b found first =>
    apply Or.inr
    intro c found'
    obtain rfl : b = c := Option.some.inj (found.symm.trans found')
    simpa using first
  | case4 place none =>
    apply Or.inr
    intro c found
    cases none.symm.trans found

theorem cutBefore_passes (behind : cutBefore text place < j) (upto : j ≤ place) :
    ∃ b, text[j]? = some b ∧ Byte.isContinuation b = true := by
  fun_induction cutBefore text place with
  | case1 => omega
  | case2 place b found continues ih =>
    rcases Nat.le_succ_iff.mp upto with before | rfl
    · exact ih behind before
    · exact ⟨b, found, continues⟩
  | case3 => omega
  | case4 => omega

theorem preview_longest {bytes : List Byte} (valid : Utf8.Valid bytes) :
    Utf8.LongestWhole 10 bytes (preview bytes) := by
  have le := cutBefore_le bytes (min bytes.length 10)
  have inside : cutBefore bytes (min bytes.length 10) ≤ bytes.length :=
    Nat.le_trans le (Nat.min_le_left _ _)
  have length : (preview bytes).length = cutBefore bytes (min bytes.length 10) := by
    rw [preview, List.length_take]
    exact Nat.min_eq_left inside
  constructor
  · exact List.take_prefix _ _
  · rw [length]
    exact Nat.le_trans le (Nat.min_le_right _ _)
  · rw [length]
    rcases cutBefore_first bytes (min bytes.length 10) with start | first
    · rw [start]
      exact .start valid
    · exact (Utf8.boundary_iff valid inside).mpr first
  · intro other initial short boundary
    rw [length]
    by_contra longer
    have fits : other.length ≤ bytes.length := initial.length_le
    have upto : other.length ≤ min bytes.length 10 := Nat.le_min.mpr ⟨fits, short⟩
    obtain ⟨b, found, continues⟩ := cutBefore_passes (Nat.lt_of_not_le longer) upto
    have first := (Utf8.boundary_iff valid fits).mp boundary b found
    cases first.symm.trans continues

theorem decode_preview (run : List Char) : ∃ front back, run = front ++ back ∧
    Utf8.decode (preview (Utf8.encoded run)) = front := by
  have cut : Utf8.LongestWhole 10 (Utf8.encoded run) (preview (Utf8.encoded run)) :=
    preview_longest ⟨run, rfl⟩
  obtain ⟨front, back, whole, place⟩ := cut.whole
  have same : run = front ++ back := Utf8.encoded_inj whole
  have shown : preview (Utf8.encoded run) = Utf8.encoded front := by
    calc preview (Utf8.encoded run)
        = (Utf8.encoded run).take (preview (Utf8.encoded run)).length :=
          List.prefix_iff_eq_take.mp cut.initial
      _ = (Utf8.encoded front ++ Utf8.encoded back).take (Utf8.encoded front).length := by
          rw [place, ← Utf8.encoded_append, ← whole]
      _ = Utf8.encoded front := List.take_left
  refine ⟨front, back, same, ?_⟩
  rw [shown, Utf8.decode_encoded]

end Outline

namespace Source

variable {s : Source} {t : Token} {text : List Char}

theorem text_cut (some : s.text t ≠ []) :
    ∃ x z, s.bytes = x ++ s.text t ++ z ∧ x.length = t.start := by
  have inside : t.start < s.bytes.length := by
    by_contra beyond
    apply some
    rw [Source.text, List.drop_eq_nil_of_le (Nat.le_of_not_lt beyond), List.take_nil]
  refine ⟨s.bytes.take t.start, (s.bytes.drop t.start).drop (t.stop - t.start), ?_, ?_⟩
  · rw [Source.text, List.append_assoc, List.take_append_drop, List.take_append_drop]
  · exact List.length_take_of_le (Nat.le_of_lt inside)

theorem text_stands (whole : s.bytes = Utf8.encoded text) (framed : Utf8.Framed (s.text t)) :
    ∃ run, s.text t = Utf8.encoded run ∧ Utf8.StandsAt text run t.start := by
  have some : s.text t ≠ [] := by
    obtain ⟨⟨b, rest, first, -⟩, -⟩ := framed
    rw [first]
    exact List.cons_ne_nil _ _
  obtain ⟨x, z, cut, place⟩ := text_cut some
  obtain ⟨front, run, back, split, before, inside⟩ := Utf8.encoded_part (whole.symm.trans cut) framed
  refine ⟨run, inside.symm, front, back, split, ?_⟩
  rw [before, place]

theorem preview_stands (whole : s.bytes = Utf8.encoded text)
    (framed : s.text t = [] ∨ Utf8.Framed (s.text t)) :
    Utf8.Valid (s.text t) ∧ (s.preview t = [] ∨ Utf8.StandsAt text (s.preview t) t.start) := by
  rcases framed with empty | framed
  · rw [preview_eq, empty]
    exact ⟨⟨[], rfl⟩, .inl rfl⟩
  · obtain ⟨run, bytes, stands⟩ := text_stands whole framed
    obtain ⟨front, back, rfl, shown⟩ := Outline.decode_preview run
    refine ⟨⟨_, bytes⟩, .inr ?_⟩
    rw [Source.preview_eq, bytes, shown]
    exact stands.front

end Source

section Places

variable {α : Type} {c : Char} {front back inner outer before after : List Char}

theorem place_append (whole : front ++ back = before ++ c :: after) :
    (∃ m, front = before ++ c :: m ∧ after = m ++ back) ∨
      ∃ m, before = front ++ m ∧ back = m ++ c :: after := by
  rcases List.append_eq_append_iff.mp whole with second | ⟨m, first, rest⟩
  · exact .inr second
  · cases m with
    | nil =>
      rw [List.append_nil] at first
      exact .inr ⟨[], by rw [first, List.append_nil], rest.symm⟩
    | cons d m =>
      obtain ⟨rfl, behind⟩ := List.cons.inj rest
      exact .inl ⟨m, first, behind⟩

def Carries (c : Char) (inner outer : List Char) : Prop :=
  ∀ before after, outer = before ++ c :: after →
    ∃ x y, inner = x ++ c :: y ∧ x <:+ before ∧ y <+: after

namespace Carries

theorem refl (c : Char) (inner : List Char) : Carries c inner inner := by
  intro before after split
  exact ⟨before, after, split, List.suffix_rfl, List.prefix_rfl⟩

theorem of_none (none : c ∉ outer) : Carries c inner outer := by
  rintro before after rfl
  exact absurd (List.mem_append_right _ List.mem_cons_self) none

theorem prepend (none : c ∉ front) (h : Carries c inner outer) : Carries c inner (front ++ outer) := by
  intro before after split
  rcases place_append split with ⟨m, rfl, -⟩ | ⟨m, rfl, rest⟩
  · exact absurd (List.mem_append_right _ List.mem_cons_self) none
  · obtain ⟨x, y, found, initial, final⟩ := h m after rest
    exact ⟨x, y, found, initial.trans (List.suffix_append _ _), final⟩

theorem append (h : Carries c inner outer) (none : c ∉ back) : Carries c inner (outer ++ back) := by
  intro before after split
  rcases place_append split with ⟨m, first, rfl⟩ | ⟨m, -, rfl⟩
  · obtain ⟨x, y, found, initial, final⟩ := h before m first
    exact ⟨x, y, found, initial, final.trans (List.prefix_append _ _)⟩
  · exact absurd (List.mem_append_right _ List.mem_cons_self) none

end Carries

theorem place_flatMap {ls : List α} {f : α → List Char}
    (whole : ls.flatMap f = before ++ c :: after) :
    ∃ l ∈ ls, ∃ x y, f l = x ++ c :: y ∧ x <:+ before ∧ y <+: after := by
  induction ls generalizing before with
  | nil => exact absurd whole.symm (List.append_ne_nil_of_right_ne_nil _ (List.cons_ne_nil _ _))
  | cons l ls ih =>
    rw [List.flatMap_cons] at whole
    rcases place_append whole with ⟨m, here, rfl⟩ | ⟨m, rfl, later⟩
    · exact ⟨l, List.mem_cons_self, before, m, here, List.suffix_rfl, List.prefix_append _ _⟩
    · obtain ⟨l', member, x, y, found, initial, final⟩ := ih later
      exact ⟨l', List.mem_cons_of_mem _ member, x, y, found,
        initial.trans (List.suffix_append _ _), final⟩

end Places

namespace Level

theorem name_foreign (tag : NodeTag) : Utf8.replacement ∉ tag.name.toList := by
  cases tag <;> decide

/-- A line of an outline shows a replacement character only inside a preview. -/
theorem text_carries (depth : Nat) (l : Level) :
    Carries Utf8.replacement (l.preview.getD []) (l.text depth ++ ['\n']) := by
  apply Carries.append _ (by decide)
  apply Carries.prepend
  · intro member
    cases List.eq_of_mem_replicate member
  · split
    · have quoted : Carries Utf8.replacement (l.preview.getD [])
          (l.preview.elim [] fun text => ' ' :: '\'' :: (text ++ ['\''])) := by
        cases l.preview with
        | none => exact .refl _ _
        | some text =>
          have closed : Carries Utf8.replacement text (text ++ ['\'']) := .append (.refl _ _) (by decide)
          exact closed.prepend (show Utf8.replacement ∉ [' ', '\''] by decide)
      exact .prepend (show Utf8.replacement ∉ ['·', ' '] by decide)
        (quoted.prepend (name_foreign l.tag))
    · exact .of_none (by decide)

end Level

namespace Arena

variable {a : Arena} {root id : NodeId} {tree : Tree} {t : Token}

/-- The token is that of a node that is reached from the root. -/
def Keeps (a : Arena) (root : NodeId) (t : Token) : Prop :=
  ∃ id n, Relation.ReflTransGen a.Owns root id ∧ a.get? id = some n ∧ n.token = some t

theorem Shows.reached_tokens (h : a.Shows root tree) (path : Relation.ReflTransGen a.Owns root id) :
    ∃ u, a.Shows id u ∧ ∀ t ∈ u.tokens, t ∈ tree.tokens := by
  induction path with
  | refl => exact ⟨tree, h, fun _ member => member⟩
  | tail _ owns ih =>
    obtain ⟨⟨tag, token, kids⟩, shown, kept⟩ := ih
    obtain ⟨u, kid, shown'⟩ := shown.kid owns
    refine ⟨u, shown', ?_⟩
    intro t member
    exact kept t (Tree.mem_tokens_node.mpr (.inr ⟨u, kid, member⟩))

theorem Shows.tokens_of_keeps (h : a.Shows root tree) (keeps : a.Keeps root t) : t ∈ tree.tokens := by
  obtain ⟨id, n, path, found, token⟩ := keeps
  obtain ⟨u, shown, kept⟩ := h.reached_tokens path
  cases shown with
  | @node _ n' kids found' _ _ =>
    obtain rfl : n = n' := Option.some.inj (found.symm.trans found')
    exact kept t (Tree.mem_tokens_node.mpr (.inl token))

theorem Shows.keeps_of_tokens (h : a.Shows root tree) (member : t ∈ tree.tokens) : a.Keeps root t := by
  induction h with
  | @node id n kids found length each ih =>
    rcases Tree.mem_tokens_node.mp member with token | ⟨u, kid, member⟩
    · exact ⟨id, n, .refl, found, token⟩
    · obtain ⟨i, hi, rfl⟩ := List.mem_iff_getElem.mp kid
      have hi' : i < n.children.length := length ▸ hi
      obtain ⟨child, n', path, found', token⟩ := ih _ (getElem_mem_zip hi' hi) member
      have owns : a.Owns id n.children[i] := ⟨n, found, List.getElem_mem hi'⟩
      exact ⟨child, n', .head owns path, found', token⟩

end Arena

namespace Source

/-- Previews keep characters whole. If the source is encoded text, so is the token of every node, and
its preview is the longest beginning of ten bytes at most that divides no character. A replacement
character in an outline stands in a preview, and that stands in the text at the place of its token. -/
theorem previews_whole (s : Source) (a : Arena) (root : NodeId) (text : List Char)
    (whole : s.bytes = Utf8.encoded text) (parsed : (s.parse a).outcome = .ok (some root)) :
    (∀ t, (s.parse a).arena.Keeps root t → Utf8.Valid (s.text t) ∧
      Utf8.LongestWhole 10 (s.text t) (Outline.preview (s.text t))) ∧
    ∀ depth, ∃ dump, Outline.render? (s.parse a).arena s depth root = some dump ∧
      ∀ before after, dump.toList = before ++ Utf8.replacement :: after →
        ∃ t x y, (s.parse a).arena.Keeps root t ∧ s.preview t = x ++ Utf8.replacement :: y ∧
          x <:+ before ∧ y <+: after ∧ Utf8.StandsAt text (s.preview t) t.start := by
  obtain ⟨tree, document, shown⟩ := parse_shows parsed
  have stands : ∀ t ∈ tree.tokens, Utf8.Valid (s.text t) ∧
      (s.preview t = [] ∨ Utf8.StandsAt text (s.preview t) t.start) := by
    intro t member
    exact preview_stands whole (document.told tells_framed t member)
  constructor
  · intro t keeps
    have valid := (stands t (shown.tokens_of_keeps keeps)).1
    exact ⟨valid, Outline.preview_longest valid⟩
  · intro depth
    obtain ⟨dump, found, lines, -⟩ := document.outline shown depth
    refine ⟨dump, found, ?_⟩
    intro before after split
    rw [lines, List.flatMap_map] at split
    obtain ⟨l, inside, x, y, line, initial, final⟩ := place_flatMap split
    obtain ⟨x', y', place, initial', final'⟩ := Level.text_carries depth l x y line
    cases preview : l.preview with
    | none => simp [preview] at place
    | some shown_text =>
      rw [preview, Option.getD_some] at place
      obtain ⟨t, member, rfl⟩ :=
        Tree.levels_preview tree l (List.mem_of_mem_filter inside) shown_text preview
      have some : s.preview t ≠ [] := by
        rw [place]
        exact List.append_ne_nil_of_right_ne_nil _ (List.cons_ne_nil _ _)
      exact ⟨t, x', y', shown.keeps_of_tokens member, place, initial'.trans initial,
        final'.trans final, (stands t member).2.resolve_left some⟩

/- Of two replacement characters, one fits into the preview. -/
theorem previews_whole_string :
    let s := ofText "\"é\uFFFDwö\uFFFD\""
    let t : Token := ⟨.string, 0, 13⟩
    let text := ['"', 'é', '\uFFFD', 'w', 'ö', '\uFFFD', '"']
    s.bytes = Utf8.encoded text ∧ (s.parse .empty).outcome = .ok (some ⟨0⟩) ∧
      s.preview t = ['"', 'é', '\uFFFD', 'w', 'ö'] ∧
      Utf8.LongestWhole 10 (s.text t) (Outline.preview (s.text t)) ∧
      ∃ dump, Outline.render? (s.parse .empty).arena s 1 ⟨0⟩ = some dump ∧
        ∀ before after, dump.toList = before ++ Utf8.replacement :: after →
          ∃ t x y, (s.parse .empty).arena.Keeps ⟨0⟩ t ∧ s.preview t = x ++ Utf8.replacement :: y ∧
            x <:+ before ∧ y <+: after ∧ Utf8.StandsAt text (s.preview t) t.start := by
  intro s t text
  obtain ⟨parsed, arena⟩ := parse_ok (s := s) (a := .empty) rfl (Config.run_of_within (n := 20) rfl)
  have parsed : (s.parse .empty).outcome = .ok (some ⟨0⟩) := parsed
  have whole : s.bytes = Utf8.encoded text := rfl
  obtain ⟨kept, outlines⟩ := previews_whole s .empty ⟨0⟩ text whole parsed
  have keeps : (s.parse .empty).arena.Keeps ⟨0⟩ t := by
    rw [arena]
    exact ⟨⟨0⟩, _, .refl, rfl, rfl⟩
  exact ⟨whole, parsed, by decide +kernel, (kept t keeps).2, outlines 1⟩

end Source
end Offside
