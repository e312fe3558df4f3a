import Offside.Proofs.Lexicon
import Offside.Scan.Scanner

/-! Tokens are as long as they can be. A scan reads the longest part of the input with which some
token begins; whether that part is a token, and what comes behind it, decides the rest. -/
namespace Offside

def TokenTag.isWordLike : TokenTag → Bool
  | .identifier | .number | .kwIf | .kwElif | .kwElse | .kwFor | .kwWhile => true
  | _ => false

section Language

variable (L : TokenTag → List Byte → Prop)

def Viable (w : List Byte) : Prop := ∃ more tag, L tag (w ++ more)

/-- The longest part of the input that some token begins like. -/
def Longest (input p : List Byte) : Prop :=
  p <+: input ∧ Viable L p ∧ ∀ q, q <+: input → Viable L q → q.length ≤ p.length

/- The tag and the text of the token at the front of an input that is not empty. -/
inductive Munched (chunked : Bool) (input : List Byte) : TokenTag → List Byte → Prop where
  | token {p tail : List Byte} {c : Byte} {tag : TokenTag} :
      input = p ++ c :: tail → Longest L input p → L tag p →
      (tag.isWordLike = true → Lexicon.delimits c = true) → Munched chunked input tag p
  | invalid {p tail : List Byte} {c : Byte} : input = p ++ c :: tail → Longest L input p →
      (∀ tag, L tag p → tag.isWordLike = true ∧ Lexicon.delimits c = false) →
      Munched chunked input .invalid (p ++ [c])
  | last {tag : TokenTag} : Longest L input input → L tag input →
      (chunked = true → ¬∃ b, Viable L (input ++ [b])) → Munched chunked input tag input
  | cut : Longest L input input →
      (∀ tag, L tag input → chunked = true ∧ ∃ b, Viable L (input ++ [b])) →
      Munched chunked input .incomplete input

end Language

variable {L : TokenTag → List Byte → Prop} {chunked : Bool} {input rest text : List Byte} {b : Byte}
  {tag : TokenTag}

theorem Longest.unique {p q : List Byte} (hp : Longest L input p) (hq : Longest L input q) :
    p = q := by
  obtain ⟨prefixp, viablep, longestp⟩ := hp
  obtain ⟨prefixq, viableq, longestq⟩ := hq
  have same : p.length = q.length :=
    Nat.le_antisymm (longestq p prefixp viablep) (longestp q prefixq viableq)
  exact (List.prefix_of_prefix_length_le prefixp prefixq (Nat.le_of_eq same)).eq_of_length same

/-- The longest part after a byte that every such token begins with. -/
theorem Longest.cons {p : List Byte} (h : Longest (fun tag w => L tag (b :: w)) rest p) :
    Longest L (b :: rest) (b :: p) := by
  obtain ⟨front, viable, longest⟩ := h
  refine ⟨List.cons_prefix_cons.mpr ⟨rfl, front⟩, viable, ?_⟩
  intro q hq viable'
  cases q with
  | nil => exact Nat.zero_le _
  | cons c q =>
    obtain ⟨rfl, front'⟩ := List.cons_prefix_cons.mp hq
    exact Nat.succ_le_succ (longest q front' viable')

theorem Munched.cons (h : Munched (fun tag w => L tag (b :: w)) chunked rest tag text) :
    Munched L chunked (b :: rest) tag (b :: text) := by
  cases h with
  | token split longest spelled delimited =>
    exact .token (by rw [split]; rfl) longest.cons spelled delimited
  | invalid split longest other => exact .invalid (by rw [split]; rfl) longest.cons other
  | last longest spelled whole => exact .last longest.cons spelled whole
  | cut longest open_ => exact .cut longest.cons open_

theorem Longest.split_unique {p p' tail tail' : List Byte} {c c' : Byte}
    (longest : Longest L input p) (split : input = p ++ c :: tail)
    (longest' : Longest L input p') (split' : input = p' ++ c' :: tail') : p = p' ∧ c = c' := by
  obtain rfl := longest.unique longest'
  rw [split] at split'
  exact ⟨rfl, (List.cons.inj (List.append_cancel_left split')).1⟩

theorem Longest.not_whole {p tail : List Byte} {c : Byte} (longest : Longest L input p)
    (split : input = p ++ c :: tail) : ¬Longest L input input := by
  intro whole
  have same := congrArg List.length (longest.unique whole)
  rw [split] at same
  simp at same

theorem Munched.unique (single : ∀ w t u, L t w → L u w → t = u) {tag' : TokenTag}
    {text' : List Byte} (h : Munched L chunked input tag text)
    (h' : Munched L chunked input tag' text') : tag = tag' ∧ text = text' := by
  cases h with
  | token split longest spelled delimited =>
    cases h' with
    | token split' longest' spelled' _ =>
      obtain ⟨rfl, rfl⟩ := longest.split_unique split longest' split'
      exact ⟨single _ _ _ spelled spelled', rfl⟩
    | invalid split' longest' other =>
      obtain ⟨rfl, rfl⟩ := longest.split_unique split longest' split'
      obtain ⟨wordLike, plain⟩ := other _ spelled
      simp [delimited wordLike] at plain
    | last longest' => exact (longest.not_whole split longest').elim
    | cut longest' => exact (longest.not_whole split longest').elim
  | invalid split longest other =>
    cases h' with
    | token split' longest' spelled delimited =>
      obtain ⟨rfl, rfl⟩ := longest.split_unique split longest' split'
      obtain ⟨wordLike, plain⟩ := other _ spelled
      simp [delimited wordLike] at plain
    | invalid split' longest' =>
      obtain ⟨rfl, rfl⟩ := longest.split_unique split longest' split'
      exact ⟨rfl, rfl⟩
    | last longest' => exact (longest.not_whole split longest').elim
    | cut longest' => exact (longest.not_whole split longest').elim
  | last longest spelled whole =>
    cases h' with
    | token split' longest' => exact (longest'.not_whole split' longest).elim
    | invalid split' longest' => exact (longest'.not_whole split' longest).elim
    | last _ spelled' => exact ⟨single _ _ _ spelled spelled', rfl⟩
    | cut _ open_ =>
      obtain ⟨more, grows⟩ := open_ _ spelled
      exact (whole more grows).elim
  | cut longest open_ =>
    cases h' with
    | token split' longest' => exact (longest'.not_whole split' longest).elim
    | invalid split' longest' => exact (longest'.not_whole split' longest).elim
    | last _ spelled whole =>
      obtain ⟨more, grows⟩ := open_ _ spelled
      exact (whole more grows).elim
    | cut => exact ⟨rfl, rfl⟩

theorem Longest.nil (viable : Viable L [])
    (stuck : ∀ b rest, input = b :: rest → ∀ w tag, ¬L tag (b :: w)) : Longest L input [] := by
  refine ⟨List.nil_prefix, viable, ?_⟩
  intro q front viable'
  cases q with
  | nil => exact Nat.le_refl _
  | cons b q =>
    obtain ⟨rest, rfl⟩ := front
    obtain ⟨w, tag, spelled⟩ := viable'
    exact absurd spelled (stuck b _ rfl _ tag)

theorem Munched.single {t : TokenTag} (viable : Viable L [])
    (reads : ∀ tag w, L tag (b :: w) ↔ t ≠ .invalid ∧ tag = t ∧ w = [])
    (plain : t ≠ .invalid → t.isWordLike = false)
    (spoils : t = .invalid → ∀ tag, L tag [] → tag.isWordLike = true ∧ Lexicon.delimits b = false) :
    Munched L chunked (b :: rest) t [b] := by
  by_cases valid : t = .invalid
  · have longest : Longest L (b :: rest) [] := by
      refine .nil viable ?_
      rintro _ _ ⟨⟩ w tag spelled
      exact ((reads tag w).mp spelled).1 valid
    subst valid
    exact .invalid (p := []) rfl longest (spoils rfl)
  · have spelled : L t [b] := (reads t []).mpr ⟨valid, rfl, rfl⟩
    have short : ∀ c w, ¬Viable L (b :: c :: w) := by
      rintro c w ⟨more, tag, spelled⟩
      cases ((reads tag _).mp spelled).2.2
    have longest : Longest L (b :: rest) [b] := by
      refine ⟨⟨rest, rfl⟩, ⟨[], t, spelled⟩, ?_⟩
      intro q front viable'
      rcases q with _ | ⟨c, _ | ⟨d, q⟩⟩
      · exact Nat.zero_le _
      · exact Nat.le_refl _
      · obtain ⟨rfl, -⟩ := List.cons_prefix_cons.mp front
        exact absurd viable' (short d q)
    cases rest with
    | nil => exact .last longest spelled fun _ ⟨c, viable'⟩ => short c [] viable'
    | cons c tail =>
      refine .token (p := [b]) rfl longest spelled fun wordLike => ?_
      rw [plain valid] at wordLike
      cases wordLike

/- What a move says about the token that the part is: it ends before the byte only if it is whole, and
a byte spoils a whole token only if that is a word or a number with no delimiter behind it. -/
def Move.Agrees (whole : Option TokenTag) (b : Byte) : Move → Prop
  | .shift _ => True
  | .close tag => whole = some tag ∧ (tag.isWordLike = true → Lexicon.delimits b = true)
  | .take .invalid => ∀ tag, whole = some tag → tag.isWordLike = true ∧ Lexicon.delimits b = false
  | .take tag => tag.isWordLike = false

theorem settle_agrees (wordLike : tag.isWordLike = true) : (settle tag b).Agrees (some tag) b := by
  unfold settle
  rw [← Lexicon.delimits_eq]
  split
  · exact ⟨rfl, fun _ => ‹_›⟩
  · rintro _ ⟨⟩
    exact ⟨wordLike, Bool.eq_false_iff.mpr ‹_›⟩

theorem close_agrees (plain : tag.isWordLike = false) : (Move.close tag).Agrees (some tag) b := by
  refine ⟨rfl, fun wordLike => ?_⟩
  rw [plain] at wordLike
  cases wordLike

theorem take_agrees (b : Byte) : (Move.take .invalid).Agrees none b := by
  intro tag none
  cases none

theorem demand_agrees (test : Bool) (q : Part) : (demand test q).Agrees none b := by
  cases test with
  | true => trivial
  | false => exact take_agrees b

namespace Part

theorem move_agrees (p : Part) (b : Byte) : (p.move b).Agrees p.ending? b := by
  cases p <;> simp only [move, ending?] <;> repeat' split
  all_goals
    first
    | exact trivial
    | exact settle_agrees rfl
    | exact demand_agrees _ _
    | exact close_agrees rfl
    | exact take_agrees b
    | rfl

def accepts : Part → List Byte → Option TokenTag
  | p, [] => p.ending?
  | p, b :: w =>
    match p.move b with
    | .shift q => q.accepts w
    | .take tag => if tag ≠ .invalid ∧ w = [] then some tag else none
    | .close _ => none

theorem completes_iff_accepts (p : Part) (w : List Byte) (tag : TokenTag) :
    p.Completes tag w ↔ p.accepts w = some tag := by
  induction w generalizing p with
  | nil => exact completes_nil p tag
  | cons b w ih =>
    rw [completes_cons, accepts]
    cases p.move b with
    | shift q => exact ih q
    | close _ => simp [Move.Completes]
    | take t =>
      simp only [Move.Completes]
      split
      · simp [*, eq_comm]
      · rename_i other
        simp only [reduceCtorEq, iff_false]
        rintro ⟨valid, -, rest⟩
        exact other ⟨valid, rest⟩

theorem grows (p : Part) : ∃ b, Viable p.Completes [b] := by
  have found : ∃ b w, (p.accepts (b :: w)).isSome = true := by
    cases p with
    | blanks => exact ⟨Byte.space, [], rfl⟩
    | word => exact ⟨0x61, [], rfl⟩
    | zero => exact ⟨0x30, [], rfl⟩
    | baseMark r => exact ⟨0x30, [], by cases r <;> rfl⟩
    | integer r => exact ⟨0x30, [], by cases r <;> rfl⟩
    | point r => exact ⟨0x30, [], by cases r <;> rfl⟩
    | fraction r => exact ⟨0x30, [], by cases r <;> rfl⟩
    | exponentMark => exact ⟨0x30, [], rfl⟩
    | exponentSign => exact ⟨0x30, [], rfl⟩
    | exponent => exact ⟨0x30, [], rfl⟩
    | string => exact ⟨Byte.doubleQuote, [], rfl⟩
    | stringEscape => exact ⟨Byte.space, [Byte.doubleQuote], rfl⟩
    | charOpen => exact ⟨Byte.space, [Byte.singleQuote], rfl⟩
    | charEscape => exact ⟨Byte.singleQuote, [Byte.singleQuote], rfl⟩
    | charClose => exact ⟨Byte.singleQuote, [], rfl⟩
    | paren => exact ⟨Byte.rightParen, [], rfl⟩
    | plus => exact ⟨Byte.plus, [], rfl⟩
  obtain ⟨b, w, some⟩ := found
  obtain ⟨tag, accepted⟩ := Option.isSome_iff_exists.mp some
  exact ⟨b, w, tag, (p.completes_iff_accepts _ _).mpr accepted⟩

theorem viable_nil (p : Part) : Viable p.Completes [] := by
  obtain ⟨b, w, tag, h⟩ := p.grows
  exact ⟨b :: w, tag, h⟩

theorem completes_unique (p : Part) (w : List Byte) (t u : TokenTag) (ht : p.Completes t w)
    (hu : p.Completes u w) : t = u := by
  rw [completes_iff_accepts] at ht hu
  exact Option.some.inj (ht.symm.trans hu)

end Part

/-- Reading on inside a token follows the rule of the longest match. -/
theorem munch_munched (chunked : Bool) (p : Part) (input : List Byte) :
    Munched p.Completes chunked input (munch chunked p input).tag (munch chunked p input).text := by
  induction input generalizing p with
  | nil =>
    have longest : Longest p.Completes [] [] := .nil p.viable_nil nofun
    unfold munch
    split
    · rename_i tag ending
      have spelled : p.Completes tag [] := (p.completes_nil tag).mpr ending
      split
      · exact .cut longest fun _ _ => ⟨‹_›, p.grows⟩
      · exact .last longest spelled fun h => absurd h ‹_›
    · rename_i ending
      refine .cut longest fun tag spelled => ?_
      rw [p.completes_nil, ending] at spelled
      cases spelled
  | cons b rest ih =>
    have agrees := p.move_agrees b
    have reads := fun tag w => p.completes_cons b w tag
    unfold munch
    cases moved : p.move b with
    | shift q =>
      rw [moved] at reads
      -- What completes the longer part is what completes this one behind the byte.
      have same : q.Completes = fun tag w => p.Completes tag (b :: w) := by
        funext tag w
        exact propext (reads tag w).symm
      have inner := ih q
      rw [same] at inner
      exact inner.cons
    | close tag =>
      rw [moved] at agrees reads
      have longest : Longest p.Completes (b :: rest) [] := by
        refine .nil p.viable_nil ?_
        rintro _ _ ⟨⟩ w t spelled
        exact (reads t w).mp spelled
      exact .token rfl longest ((p.completes_nil tag).mpr agrees.1) agrees.2
    | take tag =>
      rw [moved] at agrees reads
      refine .single p.viable_nil reads ?_ ?_
      · intro valid
        cases tag <;> first | exact agrees | exact absurd rfl valid
      · rintro rfl t spelled
        exact agrees t ((p.completes_nil t).mp spelled)

def Flags.skips (flags : Flags) (b : Byte) : Bool :=
  (Lexicon.isInlineBlank b && !flags.spaces) || Lexicon.isLineBreak b

theorem Flags.skips_eq (flags : Flags) : flags.skips = fun b =>
    (Byte.isInlineBlank b && !flags.spaces) || b == Byte.carriageReturn || b == Byte.lineFeed := by
  funext b
  simp only [skips, Lexicon.isInlineBlank_eq, Lexicon.isLineBreak_eq, Bool.or_assoc]

theorem begins_viable (spaces : Bool) : Viable (Begins spaces) [] := by
  obtain ⟨b, w, tag, completes⟩ := Part.word.grows
  exact ⟨0x61 :: b :: w, tag, completes⟩

theorem opening_plain (b : Byte) : ∀ tag, opening b = .whole tag → tag.isWordLike = false := by
  intro tag whole
  unfold opening at whole
  repeat' split at whole
  all_goals cases whole
  unfold symbol?
  split <;> rfl

theorem between_munched {flags : Flags} (rest : List Byte) (kept : flags.skips b = false) :
    (between flags (b :: rest)).skipped = [] ∧
      Munched (Begins flags.spaces) flags.chunked (b :: rest) (between flags (b :: rest)).tag
        (between flags (b :: rest)).text := by
  unfold between
  by_cases blank : Byte.isInlineBlank b = true
  · have gap : isGap b = true := by simp [isGap, blank]
    have spaces : flags.spaces = true := by
      by_contra other
      simp [Flags.skips_eq, blank, other] at kept
    have same : Part.blanks.Completes = fun tag w => Begins flags.spaces tag (b :: w) := by
      funext tag w
      simp [Begins, gap, spaces, blank]
    have inner := munch_munched flags.chunked .blanks rest
    rw [same] at inner
    simp only [blank, spaces, ↓reduceIte]
    exact ⟨munch_skipped _ _ _, spaces ▸ inner.cons⟩
  · have breaks : (b == Byte.carriageReturn) = false ∧ (b == Byte.lineFeed) = false := by
      simpa [Flags.skips_eq, blank] using kept
    have gap : isGap b = false := by simp [isGap, blank, breaks]
    simp only [blank, breaks, Bool.false_eq_true, ↓reduceIte]
    have reads : ∀ tag w, Begins flags.spaces tag (b :: w) ↔ (opening b).Completes tag w := by
      intro tag w
      simp [Begins, gap]
    cases opens : opening b with
    | part p =>
      rw [opens] at reads
      have same : p.Completes = fun tag w => Begins flags.spaces tag (b :: w) := by
        funext tag w
        exact propext (reads tag w).symm
      have inner := munch_munched flags.chunked p rest
      rw [same] at inner
      exact ⟨munch_skipped _ _ _, inner.cons⟩
    | whole tag =>
      rw [opens] at reads
      exact ⟨rfl, .single (begins_viable _) reads (fun _ => opening_plain b tag opens)
        fun _ _ none => none.elim⟩

theorem between_skips {flags : Flags} (flat : flags.indent = false) (input : List Byte) :
    between flags input =
      (between flags (input.dropWhile flags.skips)).skip (input.takeWhile flags.skips) := by
  induction input with
  | nil => rfl
  | cons b rest ih =>
    by_cases skipped : flags.skips b = true
    · have step : between flags (b :: rest) = (between flags rest).skip [b] := by
        rw [between]
        by_cases blank : Byte.isInlineBlank b = true
        · by_cases spaces : flags.spaces = true
          · have breaks : b = Byte.carriageReturn ∨ b = Byte.lineFeed := by
              simpa [Flags.skips_eq, spaces] using skipped
            rcases breaks with rfl | rfl <;> cases blank
          · simp [blank, spaces]
        · by_cases return_ : b = Byte.carriageReturn
          · subst return_
            simp [blank]
          · have feed : b = Byte.lineFeed := by simpa [Flags.skips_eq, blank, return_] using skipped
            subst feed
            simp [blank, return_, flat]
      rw [step, ih]
      simp [skipped, Scan.skip]
    · simp [skipped, Scan.skip]

section Resolve

variable {spaces : Bool} {w : List Byte} {raw : TokenTag}

theorem Scan.resolve_tag (s : Scan) : s.resolve.tag = s.tag.resolved s.text := by
  unfold resolve TokenTag.resolved
  split
  · rename_i word
    simp [word]
  · rename_i other
    rw [if_neg other]

theorem keyword_wordLike {kind : TokenTag} (h : keyword? w = some kind) : kind.isWordLike = true := by
  unfold keyword? at h
  split at h <;> cases h <;> rfl

theorem resolved_wordLike (raw : TokenTag) (w : List Byte) :
    (raw.resolved w).isWordLike = raw.isWordLike := by
  unfold TokenTag.resolved
  split
  · rename_i word
    subst word
    cases found : keyword? w with
    | none => rfl
    | some kind => exact keyword_wordLike found
  · rfl

theorem begins_unique {t u : TokenTag} (ht : Begins spaces t w) (hu : Begins spaces u w) : t = u := by
  cases w with
  | nil => exact ht.elim
  | cons b w =>
    simp only [Begins] at ht hu
    split at ht
    · rename_i gap
      rw [if_pos gap] at hu
      exact Part.completes_unique _ _ _ _ ht.2.2 hu.2.2
    · rename_i plain
      rw [if_neg plain] at hu
      cases opens : opening b with
      | part p =>
        rw [opens] at ht hu
        exact p.completes_unique _ _ _ ht hu
      | whole tag =>
        rw [opens] at ht hu
        exact ht.2.1.trans hu.2.1.symm

theorem spells_unique (w : List Byte) (t u : TokenTag) (ht : Spells spaces t w)
    (hu : Spells spaces u w) : t = u := by
  obtain ⟨raw, begins, rfl⟩ := spells_iff_begins.mp ht
  obtain ⟨raw', begins', rfl⟩ := spells_iff_begins.mp hu
  rw [begins_unique begins begins']

theorem viable_spells : Viable (Spells spaces) w ↔ Viable (Begins spaces) w := by
  constructor
  · rintro ⟨more, tag, spelled⟩
    obtain ⟨raw, begins, _⟩ := spells_iff_begins.mp spelled
    exact ⟨more, raw, begins⟩
  · rintro ⟨more, raw, begins⟩
    exact ⟨more, _, spells_of_begins begins⟩

theorem longest_spells (h : Longest (Begins spaces) input w) : Longest (Spells spaces) input w := by
  obtain ⟨front, viable, longest⟩ := h
  exact ⟨front, viable_spells.mpr viable, fun q hq viable' => longest q hq (viable_spells.mp viable')⟩

/-- Keywords are told from other words once the whole word has been read. -/
theorem Munched.resolve (h : Munched (Begins spaces) chunked input raw text) :
    Munched (Spells spaces) chunked input (raw.resolved text) text := by
  cases h with
  | token split longest begins delimited =>
    refine .token split (longest_spells longest) (spells_of_begins begins) ?_
    rw [resolved_wordLike]
    exact delimited
  | invalid split longest other =>
    refine .invalid split (longest_spells longest) ?_
    intro tag spelled
    obtain ⟨raw, begins, rfl⟩ := spells_iff_begins.mp spelled
    rw [resolved_wordLike]
    exact other raw begins
  | last longest begins whole =>
    refine .last (longest_spells longest) (spells_of_begins begins) ?_
    rintro more ⟨b, viable⟩
    exact whole more ⟨b, viable_spells.mp viable⟩
  | cut longest open_ =>
    refine .cut (longest_spells longest) ?_
    intro tag spelled
    obtain ⟨raw, begins, rfl⟩ := spells_iff_begins.mp spelled
    obtain ⟨more, b, viable⟩ := open_ raw begins
    exact ⟨more, b, viable_spells.mpr viable⟩

end Resolve

/-- The tag and the text of the token at the front of an input from which everything before its
first token has been taken off. -/
def Lexed (flags : Flags) (input : List Byte) (tag : TokenTag) (text : List Byte) : Prop :=
  (input = [] ∧ tag = .eof ∧ text = []) ∨
    (input ≠ [] ∧ Munched (Spells flags.spaces) flags.chunked input tag text)

theorem Lexed.unique {flags : Flags} {tag' : TokenTag} {text' : List Byte}
    (h : Lexed flags input tag text) (h' : Lexed flags input tag' text') :
    tag = tag' ∧ text = text' := by
  rcases h with ⟨rfl, rfl, rfl⟩ | ⟨some, munched⟩
  · rcases h' with ⟨-, rfl, rfl⟩ | ⟨some, -⟩
    · exact ⟨rfl, rfl⟩
    · exact absurd rfl some
  · rcases h' with ⟨rfl, -⟩ | ⟨-, munched'⟩
    · exact absurd rfl some
    · exact munched.unique spells_unique munched'

theorem scan_lexed {flags : Flags} (flat : flags.indent = false) (input : List Byte) :
    (scan flags .gap input).skipped = input.takeWhile flags.skips ∧
      Lexed flags (input.dropWhile flags.skips) (scan flags .gap input).tag
        (scan flags .gap input).text := by
  obtain ⟨skipped, text, _, _⟩ := (between flags input).resolve_eq
  simp only [scan, skipped, text, Scan.resolve_tag]
  rw [between_skips flat]
  cases core : input.dropWhile flags.skips with
  | nil => exact ⟨by simp [between, Scan.finish, Scan.skip], .inl ⟨rfl, rfl, rfl⟩⟩
  | cons b rest =>
    have kept : flags.skips b = false := by
      have first := List.head?_dropWhile_not flags.skips input
      rw [core] at first
      simpa using first
    obtain ⟨none, munched⟩ := between_munched rest kept
    exact ⟨by simp [Scan.skip, none], .inr ⟨by simp, munched.resolve⟩⟩

/-- Without layout, the next token is that of the longest match behind the blanks: its tag, its text
and its range. -/
theorem Scanner.next_lexed (s : Scanner) (flat : s.flags.indent = false) :
    ∃ text, s.rest = s.rest.takeWhile s.flags.skips ++ text ++ s.next.2.rest ∧
      s.next.1.start = s.here.offset + (s.rest.takeWhile s.flags.skips).length ∧
      s.next.1.stop = s.next.1.start + text.length ∧
      ∀ tag word, Lexed s.flags (s.rest.dropWhile s.flags.skips) tag word ↔
        tag = s.next.1.tag ∧ word = text := by
  obtain ⟨skipped, lexed⟩ := scan_lexed flat s.rest
  refine ⟨(scan s.flags .gap s.rest).text, ?_, ?_, ?_, ?_⟩
  · have whole := scan_bytes s.flags .gap s.rest
    rw [Scan.bytes, skipped] at whole
    exact whole.symm
  · rw [← skipped]
    exact Place.offset_advance _ _
  · exact Place.offset_advance _ _
  · intro tag word
    constructor
    · exact fun other => other.unique lexed
    · rintro ⟨rfl, rfl⟩
      exact lexed

theorem Scanner.next_lexed_spoiled :
    ((Scanner.ofSource {} ⟨[0x20, 0x31, 0x2E, 0x78, 0x20]⟩).flags.indent = false ∧
      Lexed {} [0x31, 0x2E, 0x78, 0x20] .invalid [0x31, 0x2E, 0x78]) ∧
    (Scanner.ofSource {} ⟨[0x0A, 0x65, 0x6C, 0x69, 0x66, 0x28]⟩).flags.indent = false ∧
      Lexed {} [0x65, 0x6C, 0x69, 0x66, 0x28] .kwElif [0x65, 0x6C, 0x69, 0x66] := by
  refine ⟨⟨rfl, ?_⟩, rfl, ?_⟩
  · obtain ⟨text, split, -, -, lexed⟩ :=
      Scanner.next_lexed (.ofSource {} ⟨[0x20, 0x31, 0x2E, 0x78, 0x20]⟩) rfl
    have split : [0x20] ++ [0x31, 0x2E, 0x78] ++ [0x20] = [0x20] ++ text ++ [0x20] := split
    exact (lexed _ _).mpr ⟨rfl, List.append_cancel_left (List.append_cancel_right split)⟩
  · obtain ⟨text, split, -, -, lexed⟩ :=
      Scanner.next_lexed (.ofSource {} ⟨[0x0A, 0x65, 0x6C, 0x69, 0x66, 0x28]⟩) rfl
    have split : [0x0A] ++ [0x65, 0x6C, 0x69, 0x66] ++ [0x28] = [0x0A] ++ text ++ [0x28] := split
    exact (lexed _ _).mpr ⟨rfl, List.append_cancel_left (List.append_cancel_right split)⟩

end Offside
