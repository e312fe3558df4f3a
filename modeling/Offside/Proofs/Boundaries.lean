import Offside.Proofs.Chunks
import Offside.Proofs.Relaid

/-! Chunks of a source whose lines are laid out. At the start of a line a scan goes on over the end of a
chunk as it does everywhere else, with two exceptions: a carriage return at the end of the chunk is not
taken for half of a line end, and leading spaces at the end of the source are forgotten when an empty
chunk comes behind them. -/
namespace Offside

/- What a reading goes by: the state in which a scan ran out of input or, if it found a token, the kind
of the token and what is left. -/
def Scan.Like (s s' : Scan) : Prop :=
  s.halted = s'.halted ∧ (s.halted = none → s.tag.unresolved = s'.tag.unresolved ∧ s.rest = s'.rest)

namespace Scan.Like

variable {s s' s'' : Scan}

theorem refl (s : Scan) : s.Like s := ⟨rfl, fun _ => ⟨rfl, rfl⟩⟩

theorem symm (h : s.Like s') : s'.Like s := by
  refine ⟨h.1.symm, fun going => ?_⟩
  obtain ⟨tag, rest⟩ := h.2 (h.1.trans going)
  exact ⟨tag.symm, rest.symm⟩

theorem trans (h : s.Like s') (h' : s'.Like s'') : s.Like s'' := by
  refine ⟨h.1.trans h'.1, fun going => ?_⟩
  obtain ⟨tag, rest⟩ := h.2 going
  obtain ⟨tag', rest'⟩ := h'.2 (h.1.symm.trans going)
  exact ⟨tag.trans tag', rest.trans rest'⟩

theorem of_unresolved (same : s.unresolved = s'.unresolved) : s.Like s' := by
  simp only [unresolved, Scan.mk.injEq] at same
  obtain ⟨-, -, rest, tag, halted⟩ := same
  exact ⟨halted, fun _ => ⟨tag, rest⟩⟩

theorem of_eq (same : s = s') : s.Like s' := same ▸ refl s

theorem skip (s : Scan) (passed : List Byte) : (s.skip passed).Like s := ⟨rfl, fun _ => ⟨rfl, rfl⟩⟩

theorem push (s : Scan) (b : Byte) : (s.push b).Like s := ⟨rfl, fun _ => ⟨rfl, rfl⟩⟩

theorem resolve (s : Scan) : s.resolve.Like s := .of_unresolved s.unresolved_resolve

end Scan.Like

section Leading

variable {chunked : Bool}

theorem leading_halted (width : Nat) : (leading chunked width []).halted = some .lineStart := by
  rw [leading]
  split <;> rfl

theorem leading_like (width width' : Nat) (input : List Byte) :
    (leading chunked width input).Like (leading chunked width' input) := by
  induction input using leading_cases generalizing width width' with
  | nil =>
    refine ⟨by rw [leading_halted, leading_halted], fun going => ?_⟩
    rw [leading_halted] at going
    cases going
  | space z ih =>
    rw [leading_space, leading_space]
    exact ih _ _
  | ended e z h ih =>
    rw [leading_lineEnd _ h, leading_lineEnd _ h]
    exact (Scan.Like.skip _ _).trans (Scan.Like.skip _ _).symm
  | opens z h =>
    rw [leading_opens _ h, leading_opens _ h]
    split <;> exact ⟨rfl, fun _ => ⟨rfl, rfl⟩⟩

end Leading

/- How a scan of `x` goes on when `y` comes behind it: it found its token, or it ran out of input and
is taken up from its state; or else it took the first half of a line end for the first byte of a line,
the other half being in `y`. -/
inductive Resumes (flags : Flags) (f : List Byte → Scan) (x y : List Byte) : Prop where
  | found : (f x).halted = none → (f (x ++ y)).Like { f x with rest := (f x).rest ++ y } →
      Resumes flags f x y
  | halted {state : ScanState} : (f x).halted = some state → (f (x ++ y)).Like (scan flags state y) →
      Resumes flags f x y
  | severed {q y' : List Byte} : x = q ++ [Byte.carriageReturn] → y = Byte.lineFeed :: y' →
      (f q).halted = some .lineStart → (f x).halted = none → Resumes flags f x y

namespace Resumes

variable {flags : Flags} {f g : List Byte → Scan} {x y : List Byte}

theorem behind (h : Resumes flags g x y) (p : List Byte) (same : ∀ z, (f (p ++ z)).Like (g z)) :
    Resumes flags f (p ++ x) y := by
  have joined : (f ((p ++ x) ++ y)).Like (g (x ++ y)) := by
    rw [List.append_assoc]
    exact same (x ++ y)
  cases h with
  | found going like =>
    have going' : (f (p ++ x)).halted = none := (same x).1.trans going
    obtain ⟨tag, rest⟩ := (same x).2 going'
    refine .found going' (joined.trans (like.trans ⟨(same x).1.symm, fun _ => ⟨tag.symm, ?_⟩⟩))
    rw [rest]
  | halted halted like => exact .halted ((same x).1.trans halted) (joined.trans like)
  | @severed q y' ends begins before going =>
    refine .severed (q := p ++ q) ?_ begins ((same q).1.trans before) ((same x).1.trans going)
    rw [ends, List.append_assoc]

end Resumes

section Resumes

variable {flags : Flags}

theorem munch_resumes (chunked : flags.chunked = true) (p : Part) (x y : List Byte) :
    Resumes flags (munch flags.chunked p) x y := by
  have whole := munch_append chunked p x y
  cases halted : (munch flags.chunked p x).halted with
  | none =>
    rw [Scan.extend_none _ _ _ halted] at whole
    refine .found halted ?_
    rw [whole]
    exact .refl _
  | some state =>
    rw [Scan.extend_some _ _ _ halted] at whole
    refine .halted halted ?_
    rw [whole]
    have raw : (rawScan flags state y).Like (scan flags state y) :=
      .of_unresolved (scan_unresolved flags state y).symm
    exact raw

/- Only at the start of a line can a scan be severed. -/
theorem leading_resumes (width : Nat) (x y : List Byte) :
    Resumes flags (leading flags.chunked width) x y := by
  induction x using leading_cases generalizing width with
  | nil => exact .halted (leading_halted _) (leading_like _ _ _)
  | space z ih =>
    refine (ih (width + 1)).behind [Byte.space] fun z => ?_
    exact .of_eq (leading_space _ z)
  | ended e z h ih =>
    refine (ih 0).behind e fun z => ?_
    rw [leading_lineEnd _ h]
    exact .skip _ _
  | opens z h =>
    have going : (leading flags.chunked width z).halted = none := by
      rw [leading_opens _ h]
      split <;> rfl
    obtain - | ⟨b, z⟩ := z
    · exact h.elim
    by_cases joined : b = Byte.carriageReturn ∧ (z ++ y).head? = some Byte.lineFeed
    · obtain ⟨rfl, head⟩ := joined
      obtain rfl : z = [] := by
        cases z with
        | nil => rfl
        | cons c z => exact absurd ⟨rfl, head⟩ h.2.2
      obtain ⟨y', rfl⟩ := List.head?_eq_some_iff.mp head
      exact .severed (q := []) rfl rfl (leading_halted _) going
    · have opens : Opens (b :: (z ++ y)) := ⟨h.1, h.2.1, joined⟩
      refine .found going ?_
      rw [List.cons_append]
      by_cases tab : some b = some Byte.tab
      · rw [(leading_opens _ h).trans (if_pos tab), (leading_opens _ opens).trans (if_pos tab)]
        exact .refl _
      · rw [(leading_opens _ h).trans (if_neg tab), (leading_opens _ opens).trans (if_neg tab)]
        exact .refl _

theorem between_resumes (chunked : flags.chunked = true) (x y : List Byte) :
    Resumes flags (between flags) x y := by
  fun_induction between flags x with
  | case1 =>
    have like : (between flags ([] ++ y)).Like (scan flags .gap y) := (Scan.Like.resolve _).symm
    exact .halted rfl like
  | case2 b rest blank spaces =>
    refine (munch_resumes chunked .blanks rest y).behind [b] fun z => ?_
    rw [List.singleton_append, between, if_pos blank, if_pos spaces]
    exact .push _ b
  | case3 b rest blank loose ih =>
    refine ih.behind [b] fun z => ?_
    rw [List.singleton_append, between, if_pos blank, if_neg loose]
    exact .skip _ [b]
  | case4 b rest solid ret ih =>
    refine ih.behind [b] fun z => ?_
    rw [List.singleton_append, between, if_neg solid, if_pos ret]
    exact .skip _ [b]
  | case5 b rest solid ret feed tracked =>
    refine (leading_resumes 0 rest y).behind [b] fun z => ?_
    rw [List.singleton_append, between, if_neg solid, if_neg ret, if_pos feed, if_pos tracked]
    exact .skip _ [b]
  | case6 b rest solid ret feed free ih =>
    refine ih.behind [b] fun z => ?_
    rw [List.singleton_append, between, if_neg solid, if_neg ret, if_pos feed, if_neg free]
    exact .skip _ [b]
  | case7 b rest solid ret feed p opens =>
    refine (munch_resumes chunked p rest y).behind [b] fun z => ?_
    rw [List.singleton_append, between, if_neg solid, if_neg ret, if_neg feed]
    simp only [opens]
    exact .push _ b
  | case8 b rest solid ret feed tag opens =>
    have whole : ∀ z, between flags (b :: z) = .token [b] z tag := by
      intro z
      rw [between, if_neg solid, if_neg ret, if_neg feed]
      simp only [opens]
    refine .found (by rw [whole]; rfl) ?_
    rw [List.cons_append, whole, whole]
    exact .refl _

theorem scan_resumes (chunked : flags.chunked = true) (state : ScanState) (x y : List Byte) :
    Resumes flags (scan flags state) x y := by
  cases state with
  | gap => exact (between_resumes chunked x y).behind [] fun z => .resolve _
  | lineStart => exact leading_resumes 0 x y
  | within p => exact (munch_resumes chunked p x y).behind [] fun z => .resolve _

end Resumes

/- The kinds of the tokens that a reading of the input finds before it runs out, and the state in
which it does. -/
inductive Lists (flags : Flags) : ScanState → List Byte → List TokenTag → ScanState → Prop where
  | stop {state last : ScanState} {input : List Byte} :
      (scan flags state input).halted = some last → Lists flags state input [] last
  | next {state last : ScanState} {input : List Byte} {tags : List TokenTag} :
      (scan flags state input).halted = none →
      Lists flags .gap (scan flags state input).rest tags last →
      Lists flags state input ((scan flags state input).tag.unresolved :: tags) last

/- The boundary between the two texts severs a line end at the start of a line. -/
def Severed (flags : Flags) (state : ScanState) (x y : List Byte) : Prop :=
  ∃ q y' tags, x = q ++ [Byte.carriageReturn] ∧ y = Byte.lineFeed :: y' ∧
    Lists flags state q tags .lineStart

section Lists

variable {flags : Flags} {state last last' : ScanState} {x y : List Byte}
  {tags tags' : List TokenTag}

theorem Lists.unique (h : Lists flags state x tags last) (h' : Lists flags state x tags' last') :
    tags = tags' ∧ last = last' := by
  induction h generalizing tags' with
  | stop halted =>
    cases h' with
    | stop halted' => exact ⟨rfl, Option.some.inj (halted.symm.trans halted')⟩
    | next going => simp [halted] at going
  | next going _ ih =>
    cases h' with
    | stop halted => simp [halted] at going
    | next _ rest =>
      obtain ⟨rfl, rfl⟩ := ih rest
      exact ⟨rfl, rfl⟩

theorem Lists.ne_nil (h : Lists flags .gap x tags .lineStart) : x ≠ [] := by
  rintro rfl
  have none : Lists flags .gap [] [] .gap := .stop rfl
  cases (h.unique none).2

theorem Lists.next_of {s : Scan} (like : (scan flags state x).Like s) (going : s.halted = none)
    (rest : Lists flags .gap s.rest tags last) :
    Lists flags state x (s.tag.unresolved :: tags) last := by
  have going' := like.1.trans going
  obtain ⟨tag, left⟩ := like.2 going'
  rw [← left] at rest
  rw [← tag]
  exact .next going' rest

theorem Lists.of_like {state' : ScanState} (h : Lists flags state' y tags last)
    (like : (scan flags state x).Like (scan flags state' y)) : Lists flags state x tags last := by
  cases h with
  | stop halted => exact .stop (like.1.trans halted)
  | next going rest => exact .next_of like going rest

/- The same token is found when the last byte is taken away, unless the token ends just before it. -/
theorem scan_truncated (chunked : flags.chunked = true) {q : List Byte} {b : Byte}
    (going : (scan flags state x).halted = none) (rest : (scan flags state x).rest = q ++ [b])
    (other : b ≠ Byte.lineFeed) (more : q ≠ []) :
    ∃ p, x = p ++ [b] ∧ (scan flags state p).Like { scan flags state x with rest := q } := by
  let p := (scan flags state x).skipped ++ (scan flags state x).text ++ q
  have whole : x = p ++ [b] := by
    have bytes := scan_bytes flags state x
    rw [Scan.bytes, rest, ← List.append_assoc] at bytes
    exact bytes.symm
  refine ⟨p, whole, ?_⟩
  cases scan_resumes chunked state p [b] with
  | found going' like =>
    rw [← whole] at like
    obtain ⟨tag, left⟩ := like.2 going
    rw [rest] at left
    refine ⟨going'.trans going.symm, fun _ => ⟨tag.symm, ?_⟩⟩
    exact (List.append_cancel_right left).symm
  | @halted state' _ like =>
    rw [← whole] at like
    have short := scan_rest_le flags state' [b]
    rw [← (like.2 going).2, rest, List.length_append] at short
    exact absurd (List.eq_nil_of_length_eq_zero (by simpa using short)) more
  | severed _ begins => exact absurd (List.cons.inj begins).1 other

theorem Lists.append (chunked : flags.chunked = true) (h : Lists flags state x tags last)
    (h' : Lists flags last y tags' last') :
    Lists flags state (x ++ y) (tags ++ tags') last' ∨ Severed flags state x y := by
  -- By the tokens of the first text: what is severed behind the later ones is so behind all of them.
  induction h with
  | @stop state last x halted =>
    cases scan_resumes chunked state x y with
    | found going => simp [halted] at going
    | halted halted' like =>
      obtain rfl := Option.some.inj (halted.symm.trans halted')
      exact .inl (h'.of_like like)
    | severed _ _ _ going => simp [halted] at going
  | @next state last x tags going rest ih =>
    cases scan_resumes chunked state x y with
    | found _ like =>
      rcases ih h' with joined | ⟨q, y', before, ends, begins, line⟩
      · have grown := next_of like going joined
        exact .inl grown
      · obtain ⟨p, whole, like'⟩ := scan_truncated chunked going ends (by decide) line.ne_nil
        have kept := next_of like' going line
        exact .inr ⟨p, y', _, whole, begins, kept⟩
    | halted halted => simp [halted] at going
    | severed ends begins before => exact .inr ⟨_, _, [], ends, begins, .stop before⟩

theorem Lists.append_return (chunked : flags.chunked = true)
    (line : Lists flags state x tags .lineStart) :
    Lists flags state (x ++ [Byte.carriageReturn]) (tags ++ [.indent]) .gap := by
  have first : Lists flags .lineStart [Byte.carriageReturn] [.indent] .gap := .next rfl (.stop rfl)
  rcases line.append chunked first with joined | ⟨_, _, _, -, begins, -⟩
  · exact joined
  · cases begins

theorem Lists.append_line (chunked : flags.chunked = true) (tracked : flags.indent = true)
    (line : Lists flags state x tags .lineStart)
    (h : Lists flags .gap (Byte.lineFeed :: y) tags' last) :
    Lists flags state (x ++ Byte.carriageReturn :: Byte.lineFeed :: y) (tags ++ tags') last := by
  have long : (scan flags .lineStart (Byte.carriageReturn :: Byte.lineFeed :: y)).Like
      (leading flags.chunked 0 y) :=
    (Scan.Like.of_eq (leading_lineEnd 0 .returned)).trans (.skip _ _)
  have short : (scan flags .gap (Byte.lineFeed :: y)).Like (leading flags.chunked 0 y) := by
    refine (Scan.Like.resolve _).trans ?_
    rw [between, if_neg (by decide), if_neg (by decide), if_pos (by decide), if_pos tracked]
    exact .skip _ _
  rcases line.append chunked (h.of_like (long.trans short.symm)) with joined | ⟨_, _, _, -, begins, -⟩
  · exact joined
  · cases begins

/-- Two texts one behind the other. A severed line end costs a token that is not there when the texts
are read as one; nothing else does, and the state at the end is the same. -/
theorem Lists.through (chunked : flags.chunked = true) (tracked : flags.indent = true)
    (h : Lists flags state x tags last) (h' : Lists flags last y tags' last') :
    ∃ whole, Lists flags state (x ++ y) whole last' ∧
      ((whole = tags ++ tags' ∧ ¬Severed flags state x y) ∨
        (whole.length < (tags ++ tags').length ∧ Severed flags state x y)) := by
  by_cases severed : Severed flags state x y
  · obtain ⟨q, y', before, ends, begins, line⟩ := severed
    subst ends begins
    obtain ⟨rfl, rfl⟩ := h.unique (line.append_return chunked)
    have joined := line.append_line chunked tracked h'
    rw [List.append_cons] at joined
    refine ⟨_, joined, .inr ⟨?_, q, y', before, rfl, rfl, line⟩⟩
    simp only [List.length_append, List.length_cons, List.length_nil]
    omega
  · rcases h.append chunked h' with joined | severs
    · exact ⟨_, joined, .inl ⟨rfl, severed⟩⟩
    · exact absurd severs severed

end Lists

def ScanState.closing : ScanState → List Byte → TokenTag
  | .gap, _ => .eof
  | .within _, _ => .incomplete
  | .lineStart, input => if input.getLast? = some Byte.space then .incomplete else .eof

section Closing

variable {flags : Flags} {state last : ScanState}

theorem ScanState.closing_halts (last : ScanState) (input : List Byte) :
    Scanner.isHalt (last.closing input) = true := by
  cases last with
  | gap => rfl
  | within p => rfl
  | lineStart =>
    rw [closing]
    split <;> rfl

theorem ScanState.closing_append (last : ScanState) (p : List Byte) {z : List Byte}
    (some : last = .lineStart → z ≠ []) : last.closing (p ++ z) = last.closing z := by
  cases last with
  | gap => rfl
  | within p => rfl
  | lineStart =>
    rw [closing, closing, List.getLast?_append, List.getLast?_eq_some_getLast (some rfl)]
    rfl

theorem ScanState.closing_lineEnd {e : List Byte} (h : LineEnd e) (p z : List Byte) :
    lineStart.closing (p ++ (e ++ z)) = lineStart.closing z := by
  cases z with
  | nil => cases h <;> simp [closing, Byte.lineFeed, Byte.space]
  | cons b z =>
    rw [← List.append_assoc]
    exact closing_append .lineStart (p ++ e) (by simp)

theorem leading_closing (width : Nat) (input : List Byte)
    (halted : (leading true width input).halted = some last) :
    last = .lineStart ∧ (leading true width input).tag = last.closing (margin width ++ input) := by
  induction input using leading_cases generalizing width with
  | nil =>
    obtain rfl := Option.some.inj (halted.symm.trans (leading_halted width))
    refine ⟨rfl, ?_⟩
    cases width with
    | zero => rfl
    | succ width => simp [leading, ScanState.closing, margin, Scan.cut, List.getLast?_replicate]
  | space z ih =>
    rw [leading_space] at halted ⊢
    rw [← margin_succ]
    exact ih (width + 1) halted
  | ended e z h ih =>
    rw [leading_lineEnd _ h] at halted ⊢
    obtain ⟨rfl, tag⟩ := ih 0 halted
    rw [ScanState.closing_lineEnd h]
    exact ⟨rfl, tag⟩
  | opens z h =>
    rw [leading_opens _ h] at halted
    split at halted <;> cases halted

theorem munch_closing {chunked : Bool} {p : Part} {input : List Byte} (whole : List Byte)
    (halted : (munch chunked p input).halted = some last) :
    (munch chunked p input).tag = last.closing whole := by
  rcases munch_ends chunked p input with ⟨none, -⟩ | ⟨q, within, tag, -⟩
  · simp [halted] at none
  · obtain rfl := Option.some.inj (halted.symm.trans within)
    exact tag

theorem between_closing (chunked : flags.chunked = true) (input : List Byte)
    (halted : (between flags input).halted = some last) :
    (between flags input).tag = last.closing input := by
  have passed : ∀ {b : Byte} {rest : List Byte}, (between flags rest).halted = some last →
      (between flags rest).tag = last.closing rest →
      ((between flags rest).skip [b]).tag = last.closing (b :: rest) := by
    intro b rest halted tag
    refine tag.trans (last.closing_append [b] ?_).symm
    rintro rfl rfl
    cases halted
  fun_induction between flags input with
  | case1 =>
    cases halted
    rfl
  | case2 b rest => exact munch_closing _ halted
  | case3 b rest _ _ ih => exact passed halted (ih halted)
  | case4 b rest _ _ ih => exact passed halted (ih halted)
  | case5 b rest _ _ feed =>
    obtain rfl := eq_of_beq feed
    rw [chunked] at halted ⊢
    obtain ⟨rfl, tag⟩ := leading_closing 0 rest halted
    exact tag.trans (ScanState.closing_lineEnd .feed [] rest).symm
  | case6 b rest _ _ _ _ ih => exact passed halted (ih halted)
  | case7 b rest => exact munch_closing _ halted
  | case8 => cases halted

theorem scan_closing (chunked : flags.chunked = true) (input : List Byte)
    (halted : (scan flags state input).halted = some last) :
    (scan flags state input).tag.unresolved = last.closing input := by
  have plain : (last.closing input).unresolved = last.closing input := by
    have halts := last.closing_halts input
    cases tag : last.closing input with
    | eof => rfl
    | incomplete => rfl
    | _ => simp [tag, Scanner.isHalt] at halts
  have same := scan_unresolved flags state input
  have raw : (rawScan flags state input).tag = last.closing input := by
    have halted : (rawScan flags state input).halted = some last :=
      (congrArg Scan.halted same).symm.trans halted
    cases state with
    | gap => exact between_closing chunked input halted
    | lineStart =>
      unfold rawScan at halted ⊢
      rw [chunked] at halted ⊢
      exact (leading_closing 0 input halted).2
    | within p => exact munch_closing input halted
  have tags : (scan flags state input).tag.unresolved = (rawScan flags state input).tag.unresolved :=
    congrArg Scan.tag same
  rw [tags, raw, plain]

theorem Cut.lists (chunked : flags.chunked = true) {k : Nat} {input : List Byte}
    {tokens : List Token} (h : Cut flags state k input tokens last) :
    ∃ tags, Lists flags state input tags last ∧
      tokens.map Token.tag = tags ++ [last.closing input] := by
  induction h with
  | stop halted => exact ⟨[], .stop halted, congrArg (fun tag => [tag]) (scan_closing chunked _ halted)⟩
  | @next state last k input tokens going rest ih =>
    obtain ⟨tags, lists, split⟩ := ih
    refine ⟨_, .next going lists, ?_⟩
    have same : last.closing (scan flags state input).bytes =
        last.closing (scan flags state input).rest := by
      refine last.closing_append _ ?_
      rintro rfl
      exact lists.ne_nil
    rw [scan_bytes] at same
    rw [List.map_cons, split, same]
    rfl

end Closing

theorem weld_tags {tokens later : List Token} {tags tags' : List TokenTag} {last last' : TokenTag}
    (split : tokens.map Token.tag = tags ++ [last]) (halts : Scanner.isHalt last = true)
    (split' : later.map Token.tag = tags' ++ [last']) :
    (weld tokens later).map Token.tag = tags ++ tags' ++ [last'] := by
  rw [List.append_assoc, ← split']
  induction tags generalizing tokens with
  | nil =>
    obtain ⟨t, rfl, rfl⟩ : ∃ t, tokens = [t] ∧ t.tag = last := by
      simpa using split
    obtain ⟨tag, start, stop⟩ := t
    cases later with
    | nil => simp at split'
    | cons u later =>
      cases tag with
      | eof => rfl
      | incomplete => rfl
      | _ => cases halts
  | cons tag tags ih =>
    obtain ⟨t, rest, rfl, rfl, behind⟩ := List.map_eq_cons_iff.mp split
    cases rest with
    | nil => simp at behind
    | cons u rest => exact congrArg (t.tag :: ·) (ih behind)

inductive Streams (flags : Flags) : ScanState → List Source → List TokenTag → ScanState → Prop where
  | nil (state : ScanState) : Streams flags state [] [] state
  | cons {state mid last : ScanState} {chunk : Source} {chunks : List Source}
      {tags tags' : List TokenTag} : Lists flags state chunk.bytes tags mid →
      Streams flags mid chunks tags' last → Streams flags state (chunk :: chunks) (tags ++ tags') last

/- Somewhere between the chunks a line end is severed. -/
def Severs (flags : Flags) (state : ScanState) (chunks : List Source) : Prop :=
  ∃ before after, chunks = before ++ after ∧
    Severed flags state (before.flatMap Source.bytes) (after.flatMap Source.bytes)

section Streams

variable {flags : Flags} {state last : ScanState}

theorem chunks_streams (chunked : flags.chunked = true) (state : ScanState) (k : Nat) (chunk : Source)
    (chunks : List Source) :
    let readings := readChunks flags state (chunk :: chunks)
    let last := lastState (readings.getLast?.getD [])
    ∃ tags, Streams flags state (chunk :: chunks) tags last ∧
      ((stitch (placed k (chunk :: chunks) readings)).map Token.unresolved).map Token.tag =
        tags ++ [last.closing ((chunk :: chunks).getLast (by simp)).bytes] := by
  induction chunks generalizing chunk k state with
  | nil =>
    obtain ⟨tags, lists, split⟩ := (chunk_cut flags state k chunk).lists chunked
    rw [← List.append_nil tags] at split
    exact ⟨tags ++ [], .cons lists (.nil _), split⟩
  | cons next chunks ih =>
    obtain ⟨tags, lists, split⟩ := (chunk_cut flags state k chunk).lists chunked
    obtain ⟨tags', streams, split'⟩ := ih _ (k + chunk.length) next
    refine ⟨tags ++ tags', .cons lists streams, ?_⟩
    have welded := weld_tags split (ScanState.closing_halts _ _) split'
    rw [← weld_unresolved] at welded
    exact welded

theorem lists_nil (chunked : flags.chunked = true) (state : ScanState) :
    Lists flags state [] [] state := by
  refine .stop ?_
  cases state with
  | gap => rfl
  | lineStart => exact leading_halted 0
  | within p =>
    rw [scan, (Scan.resolve_eq _).2.2.2, chunked, munch]
    split <;> rfl

theorem lists_total (chunked : flags.chunked = true) (state : ScanState) (x : List Byte) :
    ∃ tags last, Lists flags state x tags last := by
  obtain ⟨tags, lists, -⟩ := (chunk_cut flags state 0 ⟨x⟩).lists chunked
  exact ⟨tags, _, lists⟩

theorem severs_cons (chunked : flags.chunked = true) (tracked : flags.indent = true)
    {mid : ScanState} {chunk : Source} {chunks : List Source} {tags : List TokenTag}
    (first : Lists flags state chunk.bytes tags mid) :
    Severs flags state (chunk :: chunks) ↔
      Severed flags state chunk.bytes (chunks.flatMap Source.bytes) ∨ Severs flags mid chunks := by
  constructor
  · rintro ⟨before, after, split, q, y', tags', ends, begins, line⟩
    obtain - | ⟨_, before⟩ := before
    · simp at ends
    obtain ⟨rfl, rfl⟩ : chunk = _ ∧ chunks = before ++ after := List.cons.inj split
    rw [List.flatMap_cons] at ends
    rcases List.eq_nil_or_concat (before.flatMap Source.bytes) with none | ⟨p, b, cut⟩
    · rw [none, List.append_nil] at ends
      refine .inl ⟨q, y', tags', ends, ?_, line⟩
      rw [List.flatMap_append, none, begins]
      rfl
    · rw [cut, List.concat_eq_append, ← List.append_assoc] at ends
      obtain ⟨rfl, last⟩ := List.append_inj' ends rfl
      obtain ⟨tags'', last', behind⟩ := lists_total chunked mid p
      obtain ⟨whole, joined, -⟩ := first.through chunked tracked behind
      obtain ⟨-, rfl⟩ := joined.unique line
      refine .inr ⟨before, after, rfl, p, y', tags'', ?_, begins, behind⟩
      rw [cut, List.concat_eq_append, last]
  · rintro (⟨q, y', tags', ends, begins, line⟩ | ⟨before, after, rfl, q, y', tags', ends, begins, line⟩)
    · exact ⟨[chunk], chunks, rfl, q, y', tags', by simpa using ends, begins, line⟩
    · obtain ⟨whole, joined, -⟩ := first.through chunked tracked line
      refine ⟨chunk :: before, after, rfl, chunk.bytes ++ q, y', whole, ?_, begins, joined⟩
      rw [List.flatMap_cons, ends, List.append_assoc]

/-- What the chunks are read as, beside what their bytes are read as in one piece. -/
theorem Streams.compare (chunked : flags.chunked = true) (tracked : flags.indent = true)
    {chunks : List Source} {tags : List TokenTag} (h : Streams flags state chunks tags last) :
    ∃ whole, Lists flags state (chunks.flatMap Source.bytes) whole last ∧
      ((whole = tags ∧ ¬Severs flags state chunks) ∨
        (whole.length < tags.length ∧ Severs flags state chunks)) := by
  induction h with
  | nil state =>
    refine ⟨[], lists_nil chunked state, .inl ⟨rfl, ?_⟩⟩
    rintro ⟨before, after, split, q, y', tags, ends, -⟩
    obtain ⟨rfl, -⟩ := List.append_eq_nil_iff.mp split.symm
    simp at ends
  | @cons state mid last chunk chunks tags tags' lists _ ih =>
    obtain ⟨whole', lists', compared⟩ := ih
    obtain ⟨whole, joined, severed⟩ := lists.through chunked tracked lists'
    refine ⟨whole, joined, ?_⟩
    rw [severs_cons chunked tracked lists]
    rcases severed with ⟨rfl, intact⟩ | ⟨less, severed⟩
    · rcases compared with ⟨rfl, intact'⟩ | ⟨less', severs⟩
      · exact .inl ⟨rfl, by simp [intact, intact']⟩
      · refine .inr ⟨?_, .inr severs⟩
        simpa using less'
    · refine .inr ⟨?_, .inl severed⟩
      have le : whole'.length ≤ tags'.length := by
        rcases compared with ⟨rfl, -⟩ | ⟨less', -⟩
        · exact Nat.le_refl _
        · exact Nat.le_of_lt less'
      simp only [List.length_append] at less ⊢
      omega

theorem Streams.unique {chunks : List Source} {tags tags' : List TokenTag} {last' : ScanState}
    (h : Streams flags state chunks tags last) (h' : Streams flags state chunks tags' last') :
    tags = tags' ∧ last = last' := by
  induction h generalizing tags' with
  | nil =>
    cases h'
    exact ⟨rfl, rfl⟩
  | cons lists _ ih =>
    cases h' with
    | cons lists' streams' =>
      obtain ⟨rfl, rfl⟩ := lists.unique lists'
      obtain ⟨rfl, rfl⟩ := ih streams'
      exact ⟨rfl, rfl⟩

theorem readThrough_of_streams (chunked : flags.chunked = true) {chunks : List Source}
    {tags : List TokenTag} (some : chunks ≠ []) (h : Streams flags .gap chunks tags last) :
    (readThrough flags chunks).2 = last ∧
      (readThrough flags chunks).1.map Token.tag =
        tags ++ [last.closing (chunks.getLast some).bytes] := by
  obtain ⟨chunk, chunks, rfl⟩ := List.exists_cons_of_ne_nil some
  obtain ⟨tags', streams, split⟩ := chunks_streams chunked .gap 0 chunk chunks
  obtain ⟨rfl, rfl⟩ := h.unique streams
  exact ⟨rfl, split⟩

end Streams

/-- Somewhere between the chunks a line end is severed that ends a blank line: the text before its
carriage return breaks off at the start of a line. -/
def SeversLineEnd (flags : Flags) (chunks : List Source) : Prop :=
  ∃ before after q rest, chunks = before ++ after ∧
    before.flatMap Source.bytes = q ++ [Byte.carriageReturn] ∧
    after.flatMap Source.bytes = Byte.lineFeed :: rest ∧ (readThrough flags [⟨q⟩]).2 = .lineStart

/-- The source ends in the leading spaces of a line, and the last chunk is empty. -/
def DropsMargin (flags : Flags) (source : Source) (chunks : List Source) : Prop :=
  chunks.getLast? = some ⟨[]⟩ ∧ source.bytes.getLast? = some Byte.space ∧
    (readThrough flags [source]).2 = .lineStart

section Boundaries

variable {flags : Flags}

theorem severs_iff (chunked : flags.chunked = true) (chunks : List Source) :
    Severs flags .gap chunks ↔ SeversLineEnd flags chunks := by
  constructor
  · rintro ⟨before, after, split, q, rest, tags, ends, begins, line⟩
    refine ⟨before, after, q, rest, split, ends, begins, ?_⟩
    exact (readThrough_of_streams chunked (List.cons_ne_nil ⟨q⟩ []) (.cons line (.nil _))).1
  · rintro ⟨before, after, q, rest, split, ends, begins, state⟩
    obtain ⟨tags, last, line⟩ := lists_total chunked .gap q
    have read := readThrough_of_streams chunked (List.cons_ne_nil ⟨q⟩ []) (.cons line (.nil _))
    rw [read.1] at state
    rw [state] at line
    exact ⟨before, after, split, q, rest, tags, ends, begins, line⟩

theorem closing_iff (last : ScanState) {source : Source} {chunks : List Source}
    (nonempty : chunks ≠ []) (split : chunks.flatMap Source.bytes = source.bytes) :
    last.closing (chunks.getLast nonempty).bytes = last.closing source.bytes ↔
      ¬(chunks.getLast? = some ⟨[]⟩ ∧ source.bytes.getLast? = some Byte.space ∧ last = .lineStart) := by
  have ends : source.bytes =
      chunks.dropLast.flatMap Source.bytes ++ (chunks.getLast nonempty).bytes := by
    rw [← split, ← List.flatMap_singleton Source.bytes (chunks.getLast nonempty),
      ← List.flatMap_append, List.dropLast_concat_getLast]
  rw [List.getLast?_eq_some_getLast nonempty, Option.some.injEq]
  by_cases full : (chunks.getLast nonempty).bytes ≠ [] ∨ last ≠ .lineStart
  · have same : last.closing source.bytes = last.closing (chunks.getLast nonempty).bytes := by
      rw [ends]
      refine last.closing_append _ fun line => ?_
      exact full.resolve_right (not_not_intro line)
    refine iff_of_true same.symm ?_
    rintro ⟨empty, -, line⟩
    rw [empty] at full
    exact full.elim (fun some => some rfl) fun other => other line
  · obtain ⟨empty, rfl⟩ : (chunks.getLast nonempty).bytes = [] ∧ last = .lineStart := by
      simpa using full
    have last_eq : chunks.getLast nonempty = ⟨[]⟩ := congrArg Source.mk empty
    rw [last_eq]
    by_cases space : source.bytes.getLast? = some Byte.space <;> simp [ScanState.closing, space]

/-- Chunk by chunk, a source with layout is read with the same tokens as in one piece if and only if
no boundary severs the line end of a blank line and no leading spaces at its end are dropped. The
state at the end is the same in any case. -/
theorem readThrough_tags_iff (chunked : flags.chunked = true) (tracked : flags.indent = true)
    (source : Source) (chunks : List Source) (nonempty : chunks ≠ [])
    (split : chunks.flatMap Source.bytes = source.bytes) :
    (readThrough flags chunks).2 = (readThrough flags [source]).2 ∧
      ((readThrough flags chunks).1.map Token.tag = (readThrough flags [source]).1.map Token.tag ↔
        ¬SeversLineEnd flags chunks ∧ ¬DropsMargin flags source chunks) := by
  obtain ⟨tags, last, streams⟩ : ∃ tags last, Streams flags .gap chunks tags last := by
    obtain ⟨chunk, more, rfl⟩ := List.exists_cons_of_ne_nil nonempty
    obtain ⟨tags, streams, -⟩ := chunks_streams chunked .gap 0 chunk more
    exact ⟨tags, _, streams⟩
  obtain ⟨whole, lists, compared⟩ := streams.compare chunked tracked
  rw [split] at lists
  obtain ⟨state, read⟩ := readThrough_of_streams chunked nonempty streams
  obtain ⟨state', read'⟩ :=
    readThrough_of_streams chunked (List.cons_ne_nil source []) (.cons lists (.nil _))
  refine ⟨state.trans state'.symm, ?_⟩
  rw [read, read', List.append_nil, List.getLast_singleton, DropsMargin, state',
    ← closing_iff last nonempty split, ← severs_iff chunked]
  rcases compared with ⟨rfl, intact⟩ | ⟨less, severs⟩
  · simp [intact]
  -- Each severed line end adds a token, so the numbers of tokens differ.
  · refine iff_of_false ?_ fun none => none.1 severs
    intro same
    have length := congrArg List.length same
    simp only [List.length_append, List.length_singleton] at length
    omega

end Boundaries

/- A word at the start of three lines, cut in the leading spaces of the second and of the third. -/
theorem readThrough_tags_iff_words :
    ([⟨[0x61, 0x0A, 0x20]⟩, ⟨[0x20, 0x62, 0x0A]⟩, ⟨[0x20, 0x63]⟩] : List Source).flatMap Source.bytes =
        [0x61, 0x0A, 0x20, 0x20, 0x62, 0x0A, 0x20, 0x63] ∧
      (readThrough { indent := true, chunked := true }
          [⟨[0x61, 0x0A, 0x20]⟩, ⟨[0x20, 0x62, 0x0A]⟩, ⟨[0x20, 0x63]⟩]).1.map Token.tag =
        (readThrough { indent := true, chunked := true }
          [⟨[0x61, 0x0A, 0x20, 0x20, 0x62, 0x0A, 0x20, 0x63]⟩]).1.map Token.tag := by
  refine ⟨rfl, (readThrough_tags_iff rfl rfl ⟨_⟩ _ (by simp) rfl).2.mpr ⟨?_, ?_⟩⟩
  · rintro ⟨before, after, q, rest, split, ends, -⟩
    have bytes := congrArg (List.flatMap Source.bytes) split
    rw [List.flatMap_append, ends] at bytes
    have inside : Byte.carriageReturn ∈
        ([0x61, 0x0A, 0x20, 0x20, 0x62, 0x0A, 0x20, 0x63] : List Byte) := by
      rw [show ([0x61, 0x0A, 0x20, 0x20, 0x62, 0x0A, 0x20, 0x63] : List Byte) = _ from bytes]
      simp
    revert inside
    decide
  · rintro ⟨last, -⟩
    cases last

/- A blank line whose line end is severed: there is an indentation that the source does not have. -/
theorem readThrough_severed :
    ([⟨[0x61, 0x0A, 0x0D]⟩, ⟨[0x0A]⟩] : List Source).flatMap Source.bytes = [0x61, 0x0A, 0x0D, 0x0A] ∧
      (readThrough { indent := true, chunked := true }
        [⟨[0x61, 0x0A, 0x0D]⟩, ⟨[0x0A]⟩]).1.map Token.tag = [.identifier, .indent, .eof] ∧
      (readThrough { indent := true, chunked := true }
        [⟨[0x61, 0x0A, 0x0D, 0x0A]⟩]).1.map Token.tag = [.identifier, .eof] := by
  have parts : Streams { indent := true, chunked := true } .gap
      [⟨[0x61, 0x0A, 0x0D]⟩, ⟨[0x0A]⟩] ([.identifier, .indent] ++ ([] ++ [])) .lineStart :=
    .cons (.next rfl (.next rfl (.stop rfl))) (.cons (.stop rfl) (.nil _))
  have whole : Streams { indent := true, chunked := true } .gap
      [⟨[0x61, 0x0A, 0x0D, 0x0A]⟩] ([.identifier] ++ []) .lineStart :=
    .cons (.next rfl (.stop rfl)) (.nil _)
  exact ⟨rfl, (readThrough_of_streams rfl (by simp) parts).2,
    (readThrough_of_streams rfl (by simp) whole).2⟩

end Offside
