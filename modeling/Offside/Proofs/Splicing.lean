import Offside.Proofs.Chunks
import Offside.Proofs.Relaid

/-! The tokens of a line with something behind it that closes a group. They are the tokens that the
line has alone, further on, and then come those of what is behind it. -/
namespace Offside

def Closes (back : List Byte) : Prop :=
  ∃ b more, back = b :: more ∧ (b = Byte.rightParen ∨ b = Byte.lineFeed)

def Scan.followedBy (back : List Byte) (s : Scan) : Scan := { s with rest := s.rest ++ back }

/- Nothing but the end may come behind an opening parenthesis, which a closing one would join. -/
structure Scan.Apart (s : Scan) : Prop where
  whole : s.tag ≠ .incomplete
  apart : s.tag = .lParen → s.rest ≠ []

section Bytes

variable {z back : List Byte}

theorem Part.move_rightParen {p : Part} {tag : TokenTag} (ending : p.ending? = some tag)
    (other : tag ≠ .lParen) : p.move Byte.rightParen = .close tag := by
  cases p with
  | paren => cases ending; exact absurd rfl other
  | integer r => cases ending; cases r <;> rfl
  | fraction r => cases ending; cases r <;> rfl
  | _ => cases ending <;> rfl

theorem Part.munch_followed (closes : Closes back) (p : Part) (apart : (munch false p z).Apart) :
    munch false p (z ++ back) = (munch false p z).followedBy back := by
  induction z generalizing p with
  | nil =>
    obtain ⟨b, more, rfl, closer⟩ := closes
    cases ending : p.ending? with
    | none =>
      have cut : (munch false p []).tag = .incomplete := by
        simp only [munch, ending]
        rfl
      exact absurd cut apart.whole
    | some tag =>
      have found : munch false p [] = .token [] [] tag := by
        simp only [munch, ending]
        rfl
      have other : tag ≠ .lParen := by
        rintro rfl
        rw [found] at apart
        exact apart.apart rfl rfl
      have moved : p.move b = .close tag := by
        rcases closer with rfl | rfl
        · exact move_rightParen ending other
        · rw [move_lineFeed, atLineEnd, ending]
      rw [found, List.nil_append, munch, moved]
      rfl
  | cons c z ih =>
    rw [List.cons_append, munch, munch]
    rw [munch] at apart
    cases moved : p.move c with
    | shift q =>
      rw [moved] at apart
      dsimp only at apart ⊢
      rw [ih q ⟨apart.whole, apart.apart⟩]
      rfl
    | close tag => rfl
    | take tag => rfl

def isBlank (b : Byte) : Bool := Byte.isInlineBlank b || b == Byte.carriageReturn

theorem between_blank {b : Byte} (blank : isBlank b = true) (x : List Byte) :
    between .layout (b :: x) = (between .layout x).skip [b] := by
  simp only [isBlank, Bool.or_eq_true] at blank
  rw [between]
  split
  · rfl
  · rename_i plain
    rw [if_pos (blank.resolve_left plain)]

theorem between_blanks {x : List Byte} (blank : ∀ b ∈ x, isBlank b = true) (y : List Byte) :
    between .layout (x ++ y) = (between .layout y).skip x := by
  induction x with
  | nil => rfl
  | cons b x ih =>
    obtain ⟨first, rest⟩ := List.forall_mem_cons.mp blank
    rw [List.cons_append, between_blank first, ih rest]
    rfl

theorem between_part {b : Byte} {p : Part} (plain : isBlank b = false)
    (inline : b ≠ Byte.lineFeed) (x : List Byte) (opens : opening b = .part p) :
    between .layout (b :: x) = (munch false p x).push b := by
  simp only [isBlank, Bool.or_eq_false_iff] at plain
  simp only [between, plain, beq_false_of_ne inline, opens, Bool.false_eq_true, ↓reduceIte,
    Flags.layout]

theorem between_whole {b : Byte} {tag : TokenTag} (plain : isBlank b = false)
    (inline : b ≠ Byte.lineFeed) (x : List Byte) (opens : opening b = .whole tag) :
    between .layout (b :: x) = .token [b] x tag := by
  simp only [isBlank, Bool.or_eq_false_iff] at plain
  simp only [between, plain, beq_false_of_ne inline, opens, Bool.false_eq_true, ↓reduceIte]

theorem blank_of_eof (unbroken : Byte.lineFeed ∉ z) (ended : (between .layout z).tag = .eof) :
    ∀ b ∈ z, isBlank b = true := by
  induction z with
  | nil => nofun
  | cons b z ih =>
    simp only [List.mem_cons, not_or] at unbroken
    cases blank : isBlank b with
    | true =>
      rw [between_blank blank] at ended
      exact List.forall_mem_cons.mpr ⟨blank, ih unbroken.2 ended⟩
    | false =>
      exfalso
      have inline := Ne.symm unbroken.1
      cases opens : opening b with
      | part p =>
        rw [between_part blank inline z opens] at ended
        have ended : (munch false p z).tag = .eof := ended
        rcases munch_ends false p z with ⟨-, going⟩ | ⟨_, -, cut, -⟩
        · rw [ended] at going
          cases going
        · rw [ended] at cut
          cases cut
      | whole tag =>
        rw [between_whole blank inline z opens] at ended
        obtain rfl : tag = .eof := ended
        cases opening_settles opens

theorem between_followed (closes : Closes back) (unbroken : Byte.lineFeed ∉ z)
    (more : (between .layout z).tag ≠ .eof) (apart : (between .layout z).Apart) :
    between .layout (z ++ back) = (between .layout z).followedBy back := by
  induction z with
  | nil => exact absurd rfl more
  | cons b z ih =>
    simp only [List.mem_cons, not_or] at unbroken
    rw [List.cons_append]
    cases blank : isBlank b with
    | true =>
      rw [between_blank blank] at more apart ⊢
      rw [between_blank blank, ih unbroken.2 more ⟨apart.whole, apart.apart⟩]
      rfl
    | false =>
      have inline := Ne.symm unbroken.1
      cases opens : opening b with
      | part p =>
        have first := between_part blank inline z opens
        rw [first] at apart
        rw [between_part blank inline (z ++ back) opens, first,
          p.munch_followed closes ⟨apart.whole, apart.apart⟩]
        rfl
      | whole tag =>
        rw [between_whole blank inline (z ++ back) opens, between_whole blank inline z opens]
        rfl

/- Without a line feed there is no second line. -/
theorem between_ne_indent (unbroken : Byte.lineFeed ∉ z) : (between .layout z).tag ≠ .indent := by
  induction z with
  | nil => nofun
  | cons b z ih =>
    simp only [List.mem_cons, not_or] at unbroken
    cases blank : isBlank b with
    | true =>
      rw [between_blank blank]
      exact ih unbroken.2
    | false =>
      have inline := Ne.symm unbroken.1
      cases opens : opening b with
      | part p =>
        rw [between_part blank inline z opens]
        exact p.munch_ne_indent z
      | whole tag =>
        rw [between_whole blank inline z opens]
        exact opening_ne_indent opens

theorem scan_tag_iff {tag : TokenTag} (plain : tag.isWordLike = false) :
    (scan .layout .gap z).tag = tag ↔ (between .layout z).tag = tag := by
  rw [scan, Scan.resolve_tag, TokenTag.resolved_eq _ plain]

theorem scan_followed (closes : Closes back) (unbroken : Byte.lineFeed ∉ z)
    (more : (scan .layout .gap z).tag ≠ .eof) (apart : (scan .layout .gap z).Apart) :
    scan .layout .gap (z ++ back) = (scan .layout .gap z).followedBy back := by
  have rest : (scan .layout .gap z).rest = (between .layout z).rest :=
    (between .layout z).resolve_eq.2.2.1
  obtain ⟨whole, apart⟩ := apart
  rw [Ne, scan_tag_iff rfl] at more whole
  rw [scan_tag_iff rfl, rest] at apart
  rw [scan, scan, between_followed closes unbroken more ⟨whole, apart⟩]
  cases tag : (between .layout z).tag <;> simp [Scan.resolve, Scan.followedBy, tag]

end Bytes

namespace Scanner

variable {u u' : Scanner} {back : List Byte}

theorem tokens_blanks {x y : List Byte} (flags : u.flags = .layout) (rest : u.rest = x ++ y)
    (blank : ∀ b ∈ x, isBlank b = true) :
    ∃ v : Scanner, v.flags = .layout ∧ v.rest = y ∧ v.here.offset = u.here.offset + x.length ∧
      u.tokens = v.tokens := by
  let v : Scanner := { u with rest := y, here := u.here.advance x }
  have read : scan u.flags .gap u.rest = (scan u.flags .gap y).skip x := by
    rw [rest, flags, scan, scan, between_blanks blank, Scan.resolve_skip]
  have same : u.next = v.next := by
    simp only [next, nextFrom, read, Scan.skip, Place.advance_append, v]
  refine ⟨v, flags, rfl, Place.offset_advance _ _, ?_⟩
  rw [tokens_eq, tokens_eq v, same]

theorem tokens_unbroken (flags : u.flags = .layout) (unbroken : Byte.lineFeed ∉ u.rest) :
    ∀ t ∈ u.tokens, t.tag ≠ .indent := by
  induction u using entries.induct fun _ => false with
  | case1 u step last =>
    have eof : u.next.1.tag = .eof := by simpa using last
    rw [tokens_eq, if_pos eof]
    intro t member
    obtain rfl := List.mem_singleton.mp member
    rw [eof]
    decide
  | case2 u step more ih =>
    have going : ¬u.next.1.tag = .eof := by simpa using more
    have whole := scan_bytes u.flags .gap u.rest
    rw [tokens_eq, if_neg going]
    intro t member
    rcases List.mem_cons.mp member with rfl | member
    · show (scan u.flags .gap u.rest).tag ≠ .indent
      rw [flags, Ne, scan_tag_iff rfl]
      exact between_ne_indent unbroken
    · refine ih flags (fun feed => unbroken ?_) t member
      rw [← whole]
      exact List.mem_append_right _ feed

theorem tokens_within (u : Scanner) : ∀ t ∈ u.tokens, t.stop ≤ u.here.offset + u.rest.length := by
  have stop : ∀ u : Scanner,
      u.next.1.stop + u.next.2.rest.length = u.here.offset + u.rest.length := by
    intro u
    have whole := congrArg List.length (scan_bytes u.flags .gap u.rest)
    simp only [Scan.bytes, List.length_append] at whole
    simp only [next, nextFrom, Place.offset_advance]
    omega
  induction u using entries.induct fun _ => false with
  | case1 u step last =>
    have eof : u.next.1.tag = .eof := by simpa using last
    have bound := stop u
    rw [tokens_eq, if_pos eof]
    intro t member
    obtain rfl := List.mem_singleton.mp member
    omega
  | case2 u step more ih =>
    have going : ¬u.next.1.tag = .eof := by simpa using more
    have bound := stop u
    rw [tokens_eq, if_neg going]
    intro t member
    rcases List.mem_cons.mp member with rfl | member
    · omega
    · have later : t.stop ≤ u.next.1.stop + u.next.2.rest.length := ih t member
      omega

end Scanner

structure Enclosable (tags : List TokenTag) : Prop where
  sound : ∀ tag ∈ tags, tag ≠ .eof ∧ tag ≠ .incomplete
  last : tags.getLast? ≠ some .lParen

theorem Enclosable.tail {tag : TokenTag} {tags : List TokenTag} (h : Enclosable (tag :: tags)) :
    Enclosable tags := by
  refine ⟨fun t member => h.sound t (List.mem_cons_of_mem _ member), ?_⟩
  cases tags with
  | nil => nofun
  | cons t tags => simpa [List.getLast?_cons_cons] using h.last

theorem Enclosable.more {tag : TokenTag} {tags : List TokenTag} (h : Enclosable (tag :: tags)) :
    tag ≠ .eof := (h.sound tag List.mem_cons_self).1

namespace Scanner

variable {u u' : Scanner} {back : List Byte} {d : Nat}

theorem next_apart {t : Token} {front : List Token} {e : Token}
    (tokens : u.tokens = t :: (front ++ [e])) (sound : Enclosable ((t :: front).map Token.tag)) :
    (scan u.flags .gap u.rest).tag ≠ .eof ∧ (scan u.flags .gap u.rest).Apart ∧ u.next.1 = t ∧
      u.next.2.tokens = front ++ [e] := by
  rw [tokens_eq] at tokens
  obtain ⟨first, others⟩ := List.cons.inj tokens
  obtain ⟨more, whole⟩ := sound.sound t.tag (by simp)
  rw [first, if_neg more] at others
  have tag : (scan u.flags .gap u.rest).tag = t.tag := congrArg Token.tag first
  rw [tag]
  refine ⟨more, ⟨tag ▸ whole, fun paren none => ?_⟩, first, others⟩
  -- With nothing behind it, the parenthesis would be the last token.
  have ended : u.next.2.next.1.tag = .eof := by
    show (scan u.flags .gap (scan u.flags .gap u.rest).rest).tag = .eof
    rw [none]
    rfl
  rw [tokens_eq, if_pos ended] at others
  cases front with
  | nil => exact sound.last (by simp [← tag, paren])
  | cons t' front => simp at others

theorem tokens_followed {front : List Token} {e : Token} (closes : Closes back)
    (flags : u.flags = .layout) (flags' : u'.flags = .layout) (rest : u'.rest = u.rest ++ back)
    (offset : u'.here.offset = u.here.offset + d) (unbroken : Byte.lineFeed ∉ u.rest)
    (tokens : u.tokens = front ++ [e]) (last : e.tag = .eof)
    (sound : Enclosable (front.map Token.tag)) :
    ∃ v : Scanner, v.flags = .layout ∧ v.rest = back ∧
      u'.tokens = front.map (Token.shift d) ++ v.tokens := by
  induction front generalizing u u' with
  | nil =>
    rw [tokens_eq] at tokens
    have ended : u.next.1.tag = .eof := by
      rw [(List.cons.inj tokens).1]
      exact last
    rw [next, tag_nextFrom, flags, scan_tag_iff rfl] at ended
    obtain ⟨v, layout, left, -, same⟩ := tokens_blanks flags' rest (blank_of_eof unbroken ended)
    exact ⟨v, layout, left, same⟩
  | cons t front ih =>
    obtain ⟨more, apart, first, others⟩ := next_apart tokens sound
    have whole := scan_bytes u.flags .gap u.rest
    rw [flags] at more apart whole
    have read : scan u'.flags .gap u'.rest = (scan .layout .gap u.rest).followedBy back := by
      rw [rest, flags', scan_followed closes unbroken more apart]
    have read' : scan u.flags .gap u.rest = scan .layout .gap u.rest := by rw [flags]
    have shifted : u'.next.1 = t.shift d := by
      rw [← first]
      simp only [next, nextFrom, read, read', Scan.followedBy, Token.shift, Place.offset_advance,
        offset, Token.mk.injEq, true_and]
      omega
    have behind : u'.next.2.rest = u.next.2.rest ++ back := by
      simp only [next, rest_nextFrom, read, read', Scan.followedBy]
    have further : u'.next.2.here.offset = u.next.2.here.offset + d := by
      simp only [next, nextFrom, read, read', Scan.followedBy, Place.offset_advance, offset]
      omega
    have inside : Byte.lineFeed ∉ u.next.2.rest := by
      intro feed
      rw [next, rest_nextFrom, flags] at feed
      apply unbroken
      rw [← whole]
      exact List.mem_append_right _ feed
    obtain ⟨v, layout, left, later⟩ :=
      @ih u.next.2 u'.next.2 flags flags' behind further inside others sound.tail
    have going : ¬u'.next.1.tag = .eof := by
      rw [shifted]
      exact sound.more
    exact ⟨v, layout, left, by rw [tokens_eq, if_neg going, shifted, later]; rfl⟩

end Scanner
end Offside
