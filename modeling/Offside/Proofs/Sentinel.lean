import Offside.Proofs.Head
import Offside.Proofs.Relaid

/-! The zero byte behind a source stops a reading head from every state: no part of a token takes it up,
and it is no blank. So the head reads inside the padded source, comes to an end, and finds the token and
the place that a scan of the rest finds. -/
namespace Offside

namespace Place

theorem advance_single (p : Place) (b : Byte) : p.advance [b] = p.next b := rfl

theorem advance_unbroken (p : Place) {xs : List Byte} (unbroken : ∀ b ∈ xs, b ≠ Byte.lineFeed) :
    p.advance xs = { p with offset := p.offset + xs.length } := by
  induction xs generalizing p with
  | nil => rfl
  | cons b xs ih =>
    have first : p.next b = { p with offset := p.offset + 1 } := by
      rw [next, if_neg (by simpa using unbroken b List.mem_cons_self)]
    show (p.next b).advance xs = _
    rw [ih _ fun c member => unbroken c (List.mem_cons_of_mem b member), first, List.length_cons]
    simp only [Nat.add_assoc, Nat.add_comm 1]

end Place

theorem takeWhile_stopped {test : Byte → Bool} {y : Byte} (stop : test y = false)
    (xs ys : List Byte) : (xs ++ y :: ys).takeWhile test = xs.takeWhile test := by
  induction xs with
  | nil => simp [stop]
  | cons x xs ih => simp only [List.cons_append, List.takeWhile_cons, ih]

namespace Part

/- What a part takes up in one go it would take up byte by byte, and it is neither a line feed nor the
zero byte. -/
theorem stays_moves (p : Part) {b : Byte} (stays : p.stays b = true) :
    p.move b = .shift p ∧ b ≠ Byte.lineFeed ∧ b ≠ 0 := by
  refine ⟨?_, ?_, ?_⟩
  · cases p <;> simp_all [Part.stays, move]
  · rintro rfl
    cases p with
    | integer r | fraction r => cases r <;> cases stays
    | _ => cases stays
  · rintro rfl
    cases p with
    | integer r | fraction r => cases r <;> cases stays
    | _ => cases stays

/- The zero byte ends a part as the end of the source does, or is at fault. -/
theorem move_zero (p : Part) :
    p.move 0 = .take .invalid ∨ ∃ tag, p.move 0 = .close tag ∧ p.ending? = some tag := by
  cases p with
  | blanks => exact .inr ⟨_, rfl, rfl⟩
  | paren => exact .inr ⟨_, rfl, rfl⟩
  | plus => exact .inr ⟨_, rfl, rfl⟩
  | baseMark r | integer r | point r | fraction r => cases r <;> exact .inl rfl
  | _ => exact .inl rfl

theorem move_unbroken {p : Part} {b : Byte} :
    (∀ q, p.move b = .shift q → b ≠ Byte.lineFeed) ∧
      ∀ tag, p.move b = .take tag → tag ≠ .invalid → b ≠ Byte.lineFeed := by
  constructor
  · rintro q moved rfl
    rw [move_lineFeed, atLineEnd] at moved
    split at moved <;> cases moved
  · rintro tag moved sound rfl
    rw [move_lineFeed, atLineEnd] at moved
    split at moved <;> cases moved
    exact sound rfl

theorem move_take {p : Part} {b : Byte} {tag : TokenTag} (moved : p.move b = .take tag) :
    tag ≠ .identifier := by
  rintro rfl
  have agrees := p.move_agrees b
  rw [moved] at agrees
  cases agrees

end Part

namespace Scan

def prepend (front : List Byte) (s : Scan) : Scan := { s with text := front ++ s.text }

theorem prepend_prepend (xs ys : List Byte) (s : Scan) :
    (s.prepend ys).prepend xs = s.prepend (xs ++ ys) := by
  simp [prepend]

theorem push_eq_prepend (b : Byte) (s : Scan) : s.push b = s.prepend [b] := rfl

end Scan

theorem leading_resolve (chunked : Bool) (w : Nat) (input : List Byte) :
    (leading chunked w input).resolve = leading chunked w input := by
  induction input using leading_cases generalizing w with
  | nil =>
    rw [leading]
    split <;> rfl
  | space z ih =>
    rw [leading_space]
    exact ih (w + 1)
  | ended e z h ih =>
    rw [leading_lineEnd _ h, Scan.resolve_skip, ih]
  | opens z h =>
    rw [leading_opens _ h]
    split <;> rfl

theorem opening_whole {b : Byte} {tag : TokenTag} (h : opening b = .whole tag) :
    tag = (symbol? b).getD .invalid := by
  unfold opening at h
  repeat' split at h
  all_goals cases h
  rfl

theorem opening_ne_word {b : Byte} {tag : TokenTag} (h : opening b = .whole tag) :
    tag ≠ .identifier := by
  rintro rfl
  cases opening_plain b _ h

theorem munch_stays (chunked : Bool) (p : Part) {xs : List Byte} (rest : List Byte)
    (stays : ∀ b ∈ xs, p.stays b = true) :
    munch chunked p (xs ++ rest) = (munch chunked p rest).prepend xs := by
  induction xs with
  | nil => rfl
  | cons b xs ih =>
    obtain ⟨moved, -⟩ := p.stays_moves (stays b List.mem_cons_self)
    rw [List.cons_append, munch, moved]
    dsimp only
    rw [ih fun c member => stays c (List.mem_cons_of_mem b member)]
    rfl

namespace Source

variable {s : Source} {i : Nat}

theorem padded_length (s : Source) : s.padded.length = s.paddedLength ∧ s.length < s.paddedLength := by
  have room : s.length < (s.length / lineBytes + 1) * lineBytes := by
    have := Nat.div_add_mod s.length lineBytes
    have := Nat.mod_lt s.length (show 0 < lineBytes by decide)
    rw [Nat.add_mul, Nat.mul_comm]
    omega
  refine ⟨?_, room⟩
  rw [padded, List.length_append, List.length_replicate]
  unfold paddedLength length at *
  omega

theorem padded_drop {rest : List Byte} (drop : s.bytes.drop i = rest) (inside : i ≤ s.length) :
    ∃ n, 0 < n ∧ s.padded.drop i = rest ++ List.replicate n 0 := by
  refine ⟨s.paddedLength - s.length, Nat.sub_pos_of_lt s.padded_length.2, ?_⟩
  rw [padded, List.drop_append_of_le_length inside, drop]

end Source

namespace Head

variable {h next : Head} {m : Place} {pre rest : List Byte} {b : Byte}

/-- The head has read `pre` since it marked the place `m`, and `rest` is ahead of it. -/
structure At (h : Head) (m : Place) (pre rest : List Byte) : Prop where
  mark : h.mark = m
  place : h.place = m.advance pre
  bytes : h.reader.source.bytes.drop m.offset = pre ++ rest
  whole : m.offset + (pre ++ rest).length = h.reader.source.length
  fits : h.reader.source.length ≤ Source.capacity

namespace At

theorem position (at_ : h.At m pre rest) : h.position = m.offset + pre.length := by
  have offset := congrArg Place.offset at_.place
  rwa [Place.offset_advance] at offset

theorem left (at_ : h.At m pre rest) : h.position + rest.length = h.reader.source.length := by
  have whole := at_.whole
  have position := at_.position
  rw [List.length_append] at whole
  omega

theorem inside (at_ : h.At m pre rest) : h.Inside :=
  Nat.le.intro at_.left

theorem drop (at_ : h.At m pre rest) : h.reader.source.bytes.drop h.position = rest := by
  rw [at_.position, ← List.drop_drop, at_.bytes, List.drop_left]

theorem padded (at_ : h.At m pre rest) :
    ∃ n, 0 < n ∧ h.reader.source.padded.drop h.position = rest ++ List.replicate n 0 :=
  Source.padded_drop at_.drop at_.inside

theorem read (at_ : h.At m pre rest) : h.reader.current? = some (rest.head?.getD 0) := by
  obtain ⟨n, positive, ahead⟩ := at_.padded
  have first := congrArg List.head? ahead
  rw [List.head?_drop] at first
  have current : h.reader.current? = h.reader.source.padded[h.position]? := rfl
  rw [current, first]
  cases rest with
  | nil => simp [List.head?_replicate, Nat.ne_of_gt positive]
  | cons b rest => rfl

theorem atEnd (at_ : h.At m pre rest) : h.reader.atEnd? = some rest.isEmpty := by
  have left := at_.left
  have position : h.position = h.reader.position := rfl
  rw [Reader.atEnd?, at_.read, Option.map_some]
  cases rest with
  | nil =>
    have reached : h.reader.source.length ≤ h.reader.position := by
      rw [List.length_nil] at left
      omega
    simp [reached]
  | cons b rest =>
    have before : ¬h.reader.source.length ≤ h.reader.position := by
      rw [List.length_cons] at left
      omega
    simp [before]

theorem peek (at_ : h.At m pre (b :: rest)) : h.reader.peek? = some (rest.head?.getD 0) := by
  obtain ⟨n, positive, ahead⟩ := at_.padded
  have second := congrArg (fun bytes => (List.drop 1 bytes).head?) ahead
  simp only [List.drop_drop, List.head?_drop] at second
  have peek : h.reader.peek? = h.reader.source.padded[h.position + 1]? := rfl
  rw [peek, second]
  cases rest with
  | nil => simp [positive]
  | cons c rest => rfl

theorem position_advance (at_ : h.At m pre (b :: rest)) : h.advance.position = h.position + 1 := by
  have left := at_.left
  have fits := at_.fits
  rw [List.length_cons] at left
  have small : h.position + 1 < Token.wordSize := by
    have room : Source.capacity + 1 < Token.wordSize := by decide
    omega
  exact Nat.mod_eq_of_lt small

theorem moved (at_ : h.At m pre (b :: rest)) (mark : next.mark = h.mark)
    (source : next.reader.source = h.reader.source) (place : next.place = h.place.next b) :
    next.At m (pre ++ [b]) rest := by
  refine ⟨mark.trans at_.mark, ?_, ?_, ?_, ?_⟩
  · rw [place, at_.place, Place.advance_append, Place.advance_single]
  · rw [source, at_.bytes, List.append_assoc, List.singleton_append]
  · rw [source, ← at_.whole, List.append_assoc, List.singleton_append]
  · rw [source]
    exact at_.fits

theorem advance (at_ : h.At m pre (b :: rest)) (unbroken : b ≠ Byte.lineFeed) :
    h.advance.At m (pre ++ [b]) rest := by
  refine at_.moved rfl rfl ?_
  have position := at_.position_advance
  rw [Head.place, position, Place.next, if_neg (by simpa using unbroken)]
  rfl

theorem bump (at_ : h.At m pre (b :: rest)) :
    ∃ next, h.bump? = some next ∧ next.At m (pre ++ [b]) rest ∧ next.flags = h.flags ∧
      next.reader.source = h.reader.source ∧ next.halted = h.halted := by
  have read : h.reader.current? = some b := at_.read
  simp only [bump?, read, Option.bind_eq_bind, Option.bind_some, Option.pure_def]
  by_cases feed : b = Byte.lineFeed
  · rw [if_pos (by simpa using feed)]
    refine ⟨_, rfl, at_.moved rfl rfl ?_, rfl, rfl, rfl⟩
    have position := at_.position_advance
    rw [Place.next, if_pos (by simpa using feed), ← show h.position = h.place.offset from rfl,
      ← position]
    rfl
  · rw [if_neg (by simpa using feed)]
    exact ⟨_, rfl, at_.advance feed, rfl, rfl, rfl⟩

theorem marked (at_ : h.At m pre rest) : h.marked.At (m.advance pre) [] rest := by
  have left := at_.left
  refine ⟨at_.place, at_.place, ?_, ?_, at_.fits⟩
  · rw [Place.offset_advance, ← at_.position]
    exact at_.drop
  · rw [Place.offset_advance, ← at_.position]
    exact left

theorem skip (at_ : h.At m pre rest) {p : Part} (zero : p.stays 0 = false)
    (unbroken : ∀ b, p.stays b = true → b ≠ Byte.lineFeed) :
    ∃ next : Head, h.turnWithin? p = next.turnPart? p ∧
      next.At m (pre ++ rest.takeWhile p.stays) (rest.dropWhile p.stays) ∧
      next.flags = h.flags ∧ next.reader.source = h.reader.source ∧ next.halted = h.halted := by
  obtain ⟨n, positive, ahead⟩ := at_.padded
  obtain ⟨n, rfl⟩ := Nat.exists_eq_succ_of_ne_zero (Nat.ne_of_gt positive)
  have ends : (rest ++ List.replicate (n + 1) 0).takeWhile p.stays = rest.takeWhile p.stays :=
    takeWhile_stopped zero rest (List.replicate n 0)
  have stops : (rest ++ List.replicate (n + 1) 0).all p.stays = false := by
    simp [zero]
  have skipped : h.reader.skipWhile? p.stays =
      some { h.reader with position := h.reader.position + (rest.takeWhile p.stays).length } := by
    have ahead : h.reader.source.padded.drop h.reader.position = _ := ahead
    simp only [Reader.skipWhile?, ahead, stops, ends, Bool.false_eq_true, ↓reduceIte]
  have turn : h.turnWithin? p = Head.turnPart? { h with
      reader.position := h.reader.position + (rest.takeWhile p.stays).length } p := by
    rw [turnWithin?, skipped]
    rfl
  refine ⟨_, turn, ⟨at_.mark, ?_, ?_, ?_, at_.fits⟩, rfl, rfl, rfl⟩
  · rw [Place.advance_append, ← at_.place,
      Place.advance_unbroken _ fun b member => unbroken b (List.mem_takeWhile_imp member)]
    rfl
  · rw [List.append_assoc, List.takeWhile_append_dropWhile]
    exact at_.bytes
  · rw [List.append_assoc, List.takeWhile_append_dropWhile]
    exact at_.whole

end At

/-- The token and the head are those of a scan from the marked place. -/
structure Ends (h : Head) (m : Place) (found : Scan) (t : Token) (h' : Head) : Prop where
  token : t = ⟨found.tag, (m.advance found.skipped).offset,
    ((m.advance found.skipped).advance found.text).offset⟩
  place : h'.place = (m.advance found.skipped).advance found.text
  line : h'.mark.line = (m.advance found.skipped).line
  lineStart : h'.mark.lineStart = (m.advance found.skipped).lineStart
  flags : h'.flags = h.flags
  source : h'.reader.source = h.reader.source
  halted : h'.halted = found.halted.getD h.halted

def Reaches (h : Head) (state : ScanState) (m : Place) (found : Scan) : Prop :=
  ∃ t h', Runs state h t h' ∧ h.Ends m found t h'

section Turns

variable {state state' : ScanState} {s : Scan} {p : Part} {tag : TokenTag}
  {w : Nat} {z : List Byte}

theorem Reaches.again (at_ : h.At m pre rest) (turn : h.turn? state = some (.again state' next))
    (flags : next.flags = h.flags) (source : next.reader.source = h.reader.source)
    (halted : next.halted = h.halted) (reaches : next.Reaches state' m s) :
    h.Reaches state m s := by
  obtain ⟨t, h', runs, ends⟩ := reaches
  refine ⟨t, h', .again at_.inside turn runs, ends.token, ends.place, ends.line, ends.lineStart,
    ends.flags.trans flags, ends.source.trans source, ?_⟩
  rw [ends.halted, halted]

theorem Reaches.skip {xs : List Byte} (reaches : h.Reaches state (m.advance xs) s) :
    h.Reaches state m (s.skip xs) := by
  obtain ⟨t, h', runs, ends⟩ := reaches
  have skipped : m.advance (s.skip xs).skipped = (m.advance xs).advance s.skipped :=
    Place.advance_append m xs s.skipped
  refine ⟨t, h', runs, ?_, ?_, ?_, ?_, ends.flags, ends.source, ends.halted⟩
  · rw [skipped]
    exact ends.token
  · rw [skipped]
    exact ends.place
  · rw [skipped]
    exact ends.line
  · rw [skipped]
    exact ends.lineStart

theorem Reaches.found (begun : h.Inside) (at_ : next.At m pre rest) (last : Option ScanState)
    (turn : h.turn? state =
      some (.found (next.token tag) { next with halted := last.getD next.halted }))
    (flags : next.flags = h.flags) (source : next.reader.source = h.reader.source)
    (halted : next.halted = h.halted) : h.Reaches state m ⟨[], pre, rest, tag, last⟩ := by
  refine ⟨_, _, .found begun turn at_.inside, ?_, at_.place, ?_, ?_, flags, source, ?_⟩
  · show Token.mk tag next.mark.offset next.position = ⟨tag, m.offset, (m.advance pre).offset⟩
    rw [at_.mark, at_.position, Place.offset_advance]
  · show next.mark.line = m.line
    rw [at_.mark]
  · show next.mark.lineStart = m.lineStart
    rw [at_.mark]
  · show last.getD next.halted = last.getD h.halted
    rw [halted]

theorem slice (at_ : h.At m pre rest) : h.reader.slice? h.mark.offset h.position = some pre := by
  have left := at_.left
  have position := at_.position
  have room := h.reader.source.padded_length.2
  have within : m.offset ≤ h.position ∧ h.position ≤ h.reader.source.paddedLength := by omega
  have length : h.position - m.offset = pre.length := by omega
  obtain ⟨n, -, ahead⟩ := Source.padded_drop at_.bytes (show m.offset ≤ _ by omega)
  rw [at_.mark, Reader.slice?, if_pos within, List.drop_take, ahead, length, List.append_assoc,
    List.take_left]

theorem close_eq (at_ : h.At m pre rest) (tag : TokenTag) :
    h.close? tag = some (.found (h.token (tag.resolved pre)) h) := by
  unfold close? TokenTag.resolved
  by_cases word : tag = .identifier
  · rw [if_pos word, if_pos word, slice at_]
    rfl
  · rw [if_neg word, if_neg word]

theorem Reaches.spoil (begun : h.Inside) (at_ : next.At m pre (b :: rest))
    (turn : h.turn? state = next.spoil?) (flags : next.flags = h.flags)
    (source : next.reader.source = h.reader.source) (halted : next.halted = h.halted) :
    h.Reaches state m (.token (pre ++ [b]) rest .invalid) := by
  obtain ⟨after, bumped, at', flags', source', halted'⟩ := at_.bump
  refine Reaches.found begun at' none ?_ (flags'.trans flags) (source'.trans source)
    (halted'.trans halted)
  rw [turn, spoil?, bumped]
  rfl

theorem Reaches.close (begun : h.Inside) (at_ : next.At m pre rest)
    (turn : h.turn? state = next.close? tag) (flags : next.flags = h.flags)
    (source : next.reader.source = h.reader.source) (halted : next.halted = h.halted) :
    h.Reaches state m (Scan.token pre rest tag).resolve := by
  rw [Scan.resolve_token]
  exact Reaches.found begun at_ none (turn.trans (close_eq at_ tag)) flags source halted

theorem Reaches.cut (begun : h.Inside) (at_ : next.At m pre [])
    (turn : h.turn? state = some (next.cut (.within p))) (flags : next.flags = h.flags)
    (source : next.reader.source = h.reader.source) (halted : next.halted = h.halted) :
    h.Reaches state m ((Scan.cut [] (.within p)).prepend pre).resolve := by
  have whole : ((Scan.cut [] (.within p)).prepend pre).resolve =
      ⟨[], pre, [], .incomplete, some (.within p)⟩ := by
    simp [Scan.cut, Scan.prepend, Scan.resolve]
  rw [whole]
  exact Reaches.found begun at_ (some (.within p)) turn flags source halted

theorem Reaches.breakOff (begun : h.Inside) (at_ : next.At m pre [])
    (turn : h.turn? state = next.breakOff? p) (flags : next.flags = h.flags)
    (source : next.reader.source = h.reader.source) (halted : next.halted = h.halted) :
    h.Reaches state m ((munch h.flags.chunked p []).prepend pre).resolve := by
  rw [breakOff?, flags] at turn
  rw [munch]
  cases ending : p.ending? with
  | none =>
    rw [ending] at turn
    exact Reaches.cut begun at_ turn flags source halted
  | some tag =>
    rw [ending] at turn
    cases chunked : h.flags.chunked with
    | true =>
      rw [chunked] at turn
      exact Reaches.cut begun at_ turn flags source halted
    | false =>
      rw [chunked] at turn
      have close := Reaches.close begun at_ turn flags source halted
      simpa [Scan.prepend, Scan.token] using close

theorem follow_take (sound : tag ≠ .invalid) :
    h.follow? p (.take tag) = some (.found (h.advance.token tag) h.advance) := by
  cases tag <;> first | exact absurd rfl sound | rfl

theorem within_reaches (at_ : h.At m pre rest) (p : Part) :
    h.Reaches (.within p) m ((munch h.flags.chunked p rest).prepend pre).resolve := by
  induction size : rest.length using Nat.strong_induction_on generalizing h pre rest p with
  | _ size ih =>
    have zero : p.stays 0 = false := by
      by_contra stays
      exact (p.stays_moves (by simpa using stays)).2.2 rfl
    obtain ⟨next, turn, at', flags, source, halted⟩ := at_.skip zero fun b stays =>
      (p.stays_moves stays).2.1
    have split := List.takeWhile_append_dropWhile (p := p.stays) (l := rest)
    have shorter : (rest.dropWhile p.stays).length ≤ rest.length := List.length_dropWhile_le _ _
    have stays : ∀ b ∈ rest.takeWhile p.stays, p.stays b = true :=
      fun b member => List.mem_takeWhile_imp member
    generalize rest.takeWhile p.stays = xs at at' split stays
    generalize rest.dropWhile p.stays = ys at at' split shorter
    rw [← split, munch_stays _ _ _ stays, Scan.prepend_prepend]
    have turn : h.turn? (.within p) = next.turnPart? p := turn
    rw [turnPart?, at'.read] at turn
    have atEnd := at'.atEnd
    cases ys with
    | nil =>
      refine Reaches.breakOff at_.inside at' (turn.trans ?_) flags source halted
      show next.follow? p (p.move 0) = _
      rcases p.move_zero with moved | ⟨tag, moved, -⟩
      · rw [moved, follow?, atEnd]
        rfl
      · rw [moved, follow?, atEnd]
        rfl
    | cons b ys =>
      have turn : h.turn? (.within p) = next.follow? p (p.move b) := turn
      rw [munch]
      cases moved : p.move b with
      | shift q =>
        rw [moved] at turn
        have turn : h.turn? (.within p) = some (.again (.within q) next.advance) := turn
        have plain : b ≠ Byte.lineFeed := Part.move_unbroken.1 q moved
        have more := ih ys.length (by rw [List.length_cons] at shorter; omega) (at'.advance plain) q rfl
        dsimp only
        rw [Scan.push_eq_prepend, Scan.prepend_prepend, ← flags]
        exact Reaches.again at_ turn flags source halted more
      | close tag =>
        rw [moved, follow?, atEnd] at turn
        have close := Reaches.close at_.inside at' turn flags source halted
        simpa [Scan.prepend, Scan.token] using close
      | take tag =>
        rw [moved] at turn
        by_cases sound : tag = .invalid
        · subst sound
          rw [follow?, atEnd] at turn
          exact Reaches.spoil at_.inside at' turn flags source halted
        · have plain : b ≠ Byte.lineFeed := Part.move_unbroken.2 tag moved sound
          rw [follow_take sound] at turn
          have whole : ((Scan.token [b] ys tag).prepend (pre ++ xs)).resolve =
              ⟨[], pre ++ xs ++ [b], ys, tag, none⟩ := by
            show (Scan.token (pre ++ xs ++ [b]) ys tag).resolve = _
            rw [Scan.resolve_token, TokenTag.resolved, if_neg (Part.move_take moved)]
            rfl
          dsimp only
          rw [whole]
          exact Reaches.found at_.inside (at'.advance plain) none turn flags source halted

theorem Reaches.finish (at_ : h.At m pre []) (unbroken : ∀ b ∈ pre, b ≠ Byte.lineFeed)
    {last : ScanState} (turn : h.turn? state = some (h.finish last)) :
    h.Reaches state m (.finish pre last) := by
  have offset : (m.advance pre).offset = h.position := by rw [at_.position, Place.offset_advance]
  have line : m.advance pre = { m with offset := m.offset + pre.length } :=
    m.advance_unbroken unbroken
  refine ⟨_, _, .found at_.inside turn at_.inside, ?_, at_.place, ?_, ?_, rfl, rfl, rfl⟩
  · show Token.mk .eof h.position h.position = ⟨.eof, (m.advance pre).offset, (m.advance pre).offset⟩
    rw [offset]
  · show h.mark.line = (m.advance pre).line
    rw [at_.mark, line]
  · show h.mark.lineStart = (m.advance pre).lineStart
    rw [at_.mark, line]

theorem margin_unbroken (w : Nat) : ∀ b ∈ margin w, b ≠ Byte.lineFeed := by
  intro b member
  obtain ⟨-, rfl⟩ := List.mem_replicate.mp member
  decide

/-- At the start of a line the head finds its leading spaces, or those of the first line behind it
that is not blank. -/
theorem line_reaches (at_ : h.At m (margin w) rest) :
    h.Reaches .lineStart m (leading h.flags.chunked w rest) := by
  have read := at_.read
  induction rest using leading_cases generalizing h m w with
  | nil =>
    have read : h.reader.current? = some 0 := read
    have atEnd : h.reader.atEnd? = some true := at_.atEnd
    have begun : h.mark.offset < h.position ↔ w ≠ 0 := by
      rw [at_.position, at_.mark, margin, List.length_replicate]
      omega
    have turn : h.turn? .lineStart = some (if h.flags.chunked && w != 0 then h.cut .lineStart
        else h.finish .lineStart) := by
      simp [turn?, turnLine?, read, atEnd, begun, Byte.space, Byte.lineFeed, Byte.carriageReturn,
        Byte.tab]
      split <;> rfl
    rw [leading]
    by_cases cut : (h.flags.chunked && w != 0) = true
    · rw [if_pos cut] at turn ⊢
      exact Reaches.found at_.inside at_ (some .lineStart) turn rfl rfl rfl
    · rw [if_neg cut] at turn ⊢
      exact Reaches.finish at_ (margin_unbroken w) turn
  | space z ih =>
    have turn : h.turn? .lineStart = some (.again .lineStart h.advance) := by
      simp [turn?, turnLine?, read]
    have at' := at_.advance (by decide)
    rw [leading_space]
    rw [← margin_succ, List.append_nil] at at'
    exact Reaches.again at_ turn rfl rfl rfl (ih at' at'.read)
  | ended e z hz ih =>
    rw [leading_lineEnd _ hz]
    cases hz with
    | feed =>
      obtain ⟨next, bumped, at', flags, source, halted⟩ := at_.bump
      have turn : h.turn? .lineStart = some (.again .lineStart next.marked) := by
        simp [turn?, turnLine?, read, bumped, Byte.space, Byte.lineFeed]
      rw [← flags]
      exact Reaches.again at_ turn flags source halted (ih (w := 0) at'.marked at'.marked.read).skip
    | returned =>
      have at_ : h.At m (margin w) (Byte.carriageReturn :: Byte.lineFeed :: z) := at_
      have peek : h.reader.peek? = some Byte.lineFeed := at_.peek
      obtain ⟨next, bumped, at', flags, source, halted⟩ := (at_.advance (by decide)).bump
      have turn : h.turn? .lineStart = some (.again .lineStart next.marked) := by
        simp [turn?, turnLine?, read, peek, bumped, Byte.space, Byte.lineFeed, Byte.carriageReturn]
      have behind := ih (w := 0) at'.marked at'.marked.read
      rw [List.append_assoc] at behind
      rw [← show next.marked.flags = h.flags from flags]
      exact Reaches.again at_ turn flags source halted behind.skip
  | opens z hz =>
    obtain - | ⟨b, z⟩ := z
    · exact hz.elim
    rw [leading_opens _ hz]
    obtain ⟨space, feed, blank⟩ := hz
    have read : h.reader.current? = some b := read
    have peek : h.reader.peek? = some (z.head?.getD 0) := at_.peek
    have atEnd : h.reader.atEnd? = some false := at_.atEnd
    by_cases tab : b = Byte.tab
    · subst tab
      rw [if_pos (show (Byte.tab :: z).head? = some Byte.tab from rfl)]
      have turn : h.turn? .lineStart = h.spoil? := by
        simp [turn?, turnLine?, read, Byte.space, Byte.lineFeed, Byte.carriageReturn, Byte.tab]
      exact Reaches.spoil at_.inside at_ turn rfl rfl rfl
    · rw [if_neg (by simpa using tab)]
      have turn : h.turn? .lineStart = some (.found (h.token .indent) h) := by
        by_cases returned : b = Byte.carriageReturn
        · have alone : z.head?.getD 0 ≠ Byte.lineFeed := by
            intro same
            refine blank ⟨returned, ?_⟩
            cases z with
            | nil => cases same
            | cons c z => exact congrArg some same
          subst returned
          simp [turn?, turnLine?, read, peek, space, feed, alone]
        · simp [turn?, turnLine?, read, atEnd, space, feed, returned, tab]
      exact Reaches.found at_.inside at_ none turn rfl rfl rfl

theorem gap_reaches (at_ : h.At m [] rest) :
    h.Reaches .gap m (between h.flags rest).resolve := by
  have read := at_.read
  induction rest generalizing h m with
  | nil =>
    have read : h.reader.current? = some 0 := read
    have atEnd : h.reader.atEnd? = some true := at_.atEnd
    refine Reaches.finish at_ (by simp) ?_
    simp [turn?, turnGap?, read, atEnd]
  | cons b rest ih =>
    have read : h.reader.current? = some b := read
    have atEnd : h.reader.atEnd? = some false := at_.atEnd
    have skips : b ≠ Byte.lineFeed → h.turn? .gap = some (.again .gap h.advance.marked) →
        h.Reaches .gap m ((between h.flags rest).skip [b]).resolve := by
      intro unbroken turn
      have at' := (at_.advance unbroken).marked
      rw [Scan.resolve_skip]
      exact Reaches.again at_ turn rfl rfl rfl (ih at' at'.read).skip
    rw [between]
    by_cases blank : Byte.isInlineBlank b = true
    · rw [if_pos blank]
      by_cases spaces : h.flags.spaces = true
      · rw [if_pos spaces]
        have turn : h.turn? .gap = some (.again (.within .blanks) h) := by
          simp [turn?, turnGap?, read, atEnd, blank, spaces]
        have moved : Part.blanks.move b = .shift .blanks := if_pos blank
        have more := within_reaches at_ .blanks
        rw [munch, moved] at more
        exact Reaches.again at_ turn rfl rfl rfl more
      · rw [if_neg spaces]
        refine skips ?_ (by simp [turn?, turnGap?, read, atEnd, blank, spaces])
        rintro rfl
        cases blank
    rw [if_neg blank]
    by_cases returned : b = Byte.carriageReturn
    · rw [if_pos (by simpa using returned)]
      refine skips ?_ (by simp [turn?, turnGap?, read, atEnd, blank, ← returned])
      rw [returned]
      decide
    rw [if_neg (by simpa using returned)]
    by_cases feed : b = Byte.lineFeed
    · rw [if_pos (by simpa using feed)]
      obtain ⟨next, bumped, at', flags, source, halted⟩ := at_.bump
      have turn : h.turn? .gap =
          some (.again (if h.flags.indent then .lineStart else .gap) next.marked) := by
        simp [turn?, turnGap?, read, atEnd, blank, returned, ← feed, bumped]
      rw [← flags] at turn ⊢
      by_cases tracked : next.flags.indent = true
      · rw [if_pos tracked] at turn ⊢
        rw [Scan.resolve_skip, leading_resolve]
        exact Reaches.again at_ turn flags source halted (line_reaches (w := 0) at'.marked).skip
      · rw [if_neg tracked] at turn ⊢
        rw [Scan.resolve_skip]
        exact Reaches.again at_ turn flags source halted (ih at'.marked at'.marked.read).skip
    rw [if_neg (by simpa using feed)]
    have turn : h.turn? .gap = h.open? b := by
      simp [turn?, turnGap?, read, atEnd, blank, returned, feed]
    unfold open? at turn
    cases opens : opening b with
    | part p =>
      rw [opens] at turn
      exact Reaches.again at_ turn rfl rfl rfl (within_reaches (at_.advance feed) p)
    | whole tag =>
      rw [opens] at turn
      dsimp only
      rw [Scan.resolve_token, TokenTag.resolved, if_neg (opening_ne_word opens)]
      obtain rfl := opening_whole opens
      cases known : symbol? b with
      | some tag =>
        rw [known] at turn
        exact Reaches.found at_.inside (at_.advance feed) none turn rfl rfl rfl
      | none =>
        rw [known] at turn
        exact Reaches.spoil at_.inside at_ turn rfl rfl rfl

end Turns

end Head
end Offside
