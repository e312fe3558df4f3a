import Offside.Proofs.Enclosing

/-! Keywords in a source that comes in chunks. A word is looked up when it ends, by those of its bytes
that the chunk at hand holds. So a word that a chunk boundary divides is told by its last piece alone,
and the tokens of the chunks are those of the whole source but for such words. -/
namespace Offside

/-- The merged tokens of the chunks, as the chunks tell them. -/
def mergedTokens (flags : Flags) (chunks : List Source) : List Token :=
  stitch (placed 0 chunks (readChunks flags .gap chunks))

/-- Where the chunk begins that holds the byte at a place; the first chunk begins at `k`. -/
def chunkStart (k : Nat) : List Source → Nat → Nat
  | [], _ => k
  | chunk :: chunks, place =>
    if place < k + chunk.length then k else chunkStart (k + chunk.length) chunks place

namespace Token

def IsWord (t : Token) : Prop := t.tag.unresolved = .identifier

instance (t : Token) : Decidable t.IsWord := inferInstanceAs (Decidable (_ = _))

def fromPlace (t : Token) (place : Nat) : Token := { t with start := max t.start place }

/-- The piece of a token in the chunk that it ends in. -/
def lastPiece (chunks : List Source) (t : Token) : Token :=
  t.fromPlace (chunkStart 0 chunks t.stop)

end Token

def Source.wordTag (s : Source) (t : Token) : TokenTag := (keyword? (s.text t)).getD .identifier

/-- The token, told by its last piece if it is a word. -/
def Token.retold (s : Source) (chunks : List Source) (t : Token) : Token :=
  if t.IsWord then { t with tag := s.wordTag (t.lastPiece chunks) } else t

def Source.DelimitedAt (s : Source) (place : Nat) : Prop :=
  ∃ b, s.bytes[place]? = some b ∧ isDelimiter b = true

section Scans

def Move.Delimits (b : Byte) : Move → Prop
  | .shift _ => True
  | .close tag => tag.unresolved = .identifier → tag = .identifier ∧ isDelimiter b = true
  | .take tag => tag.unresolved ≠ .identifier

theorem Part.move_delimits (p : Part) (b : Byte) : (p.move b).Delimits b := by
  have settles : ∀ tag : TokenTag, (tag.unresolved = .identifier → tag = .identifier) →
      (settle tag b).Delimits b := by
    intro tag raw
    unfold settle
    split
    · rename_i delimiter
      exact fun word => ⟨raw word, delimiter⟩
    · exact nofun
  have demands : ∀ test q, (demand test q).Delimits b := by
    intro test q
    cases test with
    | true => trivial
    | false => exact nofun
  cases p <;> simp only [move] <;> repeat' split
  all_goals first
    | exact settles _ (by decide)
    | exact demands _ _
    | trivial
    | exact nofun

/- The word that a scan found, before it is looked up. -/
structure Scan.Delimited (f : Scan) : Prop where
  raw : f.tag = .identifier
  ends : ∃ b more, f.rest = b :: more ∧ isDelimiter b = true

theorem munch_delimited {p : Part} {input : List Byte}
    (word : (munch true p input).tag.unresolved = .identifier) : (munch true p input).Delimited := by
  induction input generalizing p with
  | nil =>
    have cut : (munch true p []).tag = .incomplete := by
      rw [munch]
      split <;> rfl
    rw [cut] at word
    cases word
  | cons b rest ih =>
    have delimits := p.move_delimits b
    rw [munch] at word ⊢
    cases moved : p.move b with
    | shift q =>
      rw [moved] at word
      obtain ⟨raw, ends⟩ := ih word
      exact ⟨raw, ends⟩
    | close tag =>
      rw [moved] at word delimits
      obtain ⟨raw, delimiter⟩ := delimits word
      exact ⟨raw, b, rest, rfl, delimiter⟩
    | take tag =>
      rw [moved] at word delimits
      exact absurd word delimits

theorem opening_delimited {b : Byte} {tag : TokenTag} (opens : opening b = .whole tag) :
    tag.unresolved ≠ .identifier := by
  unfold opening at opens
  repeat' split at opens
  all_goals cases opens
  unfold symbol?
  split <;> exact nofun

variable {flags : Flags}

theorem between_delimited (chunked : flags.chunked = true) (flat : flags.indent = false)
    {input : List Byte} (word : (between flags input).tag.unresolved = .identifier) :
    (between flags input).Delimited := by
  have munched : ∀ {p : Part} {b : Byte} {rest : List Byte},
      ((munch flags.chunked p rest).push b).tag.unresolved = .identifier →
      ((munch flags.chunked p rest).push b).Delimited := by
    intro p b rest word
    rw [chunked] at word ⊢
    have found := munch_delimited word
    exact ⟨found.raw, found.ends⟩
  fun_induction between flags input with
  | case1 => cases word
  | case2 b rest _ _ => exact munched word
  | case3 b rest _ _ ih => exact ⟨(ih word).raw, (ih word).ends⟩
  | case4 b rest _ _ ih => exact ⟨(ih word).raw, (ih word).ends⟩
  | case5 b rest _ _ _ tracked =>
    rw [flat] at tracked
    cases tracked
  | case6 b rest _ _ _ _ ih => exact ⟨(ih word).raw, (ih word).ends⟩
  | case7 b rest _ _ _ p _ => exact munched word
  | case8 b rest _ _ _ tag opens => exact absurd word (opening_delimited opens)

theorem scan_word (chunked : flags.chunked = true) (flat : flags.indent = false) {state : ScanState}
    (inline : state ≠ .lineStart) {input : List Byte}
    (word : (scan flags state input).tag.unresolved = .identifier) :
    (scan flags state input).tag = (keyword? (scan flags state input).text).getD .identifier ∧
      ∃ b more, (scan flags state input).rest = b :: more ∧ isDelimiter b = true := by
  have resolved : ∀ {f : Scan}, f.resolve.tag.unresolved = .identifier →
      (f.tag.unresolved = .identifier → f.Delimited) →
      f.resolve.tag = (keyword? f.resolve.text).getD .identifier ∧
        ∃ b more, f.resolve.rest = b :: more ∧ isDelimiter b = true := by
    intro f word delimited
    have same : f.resolve.tag.unresolved = f.tag.unresolved :=
      congrArg Scan.tag f.unresolved_resolve
    obtain ⟨raw, ends⟩ := delimited (same.symm.trans word)
    obtain ⟨-, text, rest, -⟩ := f.resolve_eq
    rw [text, rest, Scan.resolve_tag, raw]
    exact ⟨rfl, ends⟩
  cases state with
  | gap => exact resolved word (between_delimited chunked flat)
  | lineStart => exact absurd rfl inline
  | within p =>
    refine resolved word fun raw => ?_
    rw [chunked] at raw ⊢
    exact munch_delimited raw

end Scans

structure Token.Told (s : Source) (t : Token) : Prop where
  tag : t.tag = s.wordTag t
  ordered : t.start ≤ t.stop
  delimited : s.DelimitedAt t.stop

namespace Scanner

variable {u : Scanner} {s : Source}

theorem Faces.told (faces : u.Faces s) (chunked : u.flags.chunked = true)
    (flat : u.flags.indent = false) {state : ScanState} (inline : state ≠ .lineStart)
    (word : (u.nextFrom state).1.IsWord) : (u.nextFrom state).1.Told s := by
  obtain ⟨text, behind⟩ := faces.next state
  obtain ⟨tag, b, more, rest, delimiter⟩ := scan_word chunked flat inline word
  have behind : s.bytes.drop (u.nextFrom state).1.stop = b :: more := by
    rw [← rest]
    exact behind
  refine ⟨?_, ?_, b, ?_, delimiter⟩
  · rw [Source.wordTag, text]
    exact tag
  · simp only [nextFrom, Place.offset_advance, Nat.le_add_right]
  · rw [← Nat.add_zero (u.nextFrom state).1.stop, ← List.getElem?_drop, behind]
    rfl

theorem Faces.entriesFrom_told (faces : u.Faces s) (chunked : u.flags.chunked = true)
    (flat : u.flags.indent = false) {state : ScanState} (inline : state ≠ .lineStart) :
    ∀ e ∈ u.entriesFrom isHalt state, e.token.IsWord → e.token.Told s := by
  have later : ∀ {u : Scanner}, u.Faces s → u.flags.chunked = true → u.flags.indent = false →
      ∀ e ∈ u.entries isHalt, e.token.IsWord → e.token.Told s := by
    intro u
    induction u using entries.induct isHalt with
    | case1 u step halts =>
      intro faces chunked flat e member word
      rw [entries, if_pos halts] at member
      obtain rfl := List.mem_singleton.mp member
      exact faces.told chunked flat (by simp) word
    | case2 u step more ih =>
      intro faces chunked flat e member word
      rw [entries, if_neg more] at member
      rcases List.mem_cons.mp member with rfl | member
      · exact faces.told chunked flat (by simp) word
      · exact ih (faces.next .gap).2 chunked flat e member word
  intro e member word
  unfold entriesFrom at member
  dsimp only at member
  split at member
  · obtain rfl := List.mem_singleton.mp member
    exact faces.told chunked flat inline word
  · rcases List.mem_cons.mp member with rfl | member
    · exact faces.told chunked flat inline word
    · exact later (faces.next state).2 chunked flat e member word

end Scanner

namespace Cut

variable {flags : Flags} {state last : ScanState} {k : Nat} {input : List Byte} {tokens : List Token}

theorem within (h : Cut flags state k input tokens last) :
    ∀ t ∈ tokens, k ≤ t.start ∧ t.start ≤ t.stop ∧ t.stop ≤ k + input.length := by
  have place : ∀ (state : ScanState) (k : Nat) (input : List Byte),
      k ≤ ((scan flags state input).place k).start ∧
        ((scan flags state input).place k).start ≤ ((scan flags state input).place k).stop :=
    fun _ _ _ => ⟨Nat.le_add_right _ _, Nat.le_add_right _ _⟩
  induction h with
  | @stop state last k input halted =>
    have stop := scan_place_stop flags state k input
    refine List.forall_mem_singleton.mpr ⟨(place state k input).1, (place state k input).2, ?_⟩
    omega
  | @next state last k input tokens going rest ih =>
    have stop := scan_place_stop flags state k input
    obtain ⟨start, ordered⟩ := place state k input
    refine List.forall_mem_cons.mpr ⟨⟨start, ordered, by omega⟩, fun t member => ?_⟩
    obtain ⟨reached, order, left⟩ := ih t member
    exact ⟨by omega, order, by omega⟩

theorem resumed {p : Part} (h : Cut flags (.within p) k input tokens last) :
    ∃ x more, tokens = x :: more ∧ x.start = k ∧ x.tag ≠ .eof := by
  have start : ((scan flags (.within p) input).place k).start = k := by
    have none : (scan flags (.within p) input).skipped = [] :=
      (Scan.resolve_eq _).1.trans (munch_skipped _ _ _)
    rw [Scan.place, none]
    rfl
  have going : ((scan flags (.within p) input).place k).tag ≠ .eof := by
    have same : (scan flags (.within p) input).tag.unresolved =
        (munch flags.chunked p input).tag.unresolved := congrArg Scan.tag (scan_unresolved _ _ _)
    intro eof
    have eof : (munch flags.chunked p input).tag.unresolved = .eof := same.symm.trans eof
    rcases munch_ends flags.chunked p input with ⟨-, found⟩ | ⟨-, -, cut, -⟩
    · cases tag : (munch flags.chunked p input).tag <;> rw [tag] at eof found <;> cases eof
      cases found
    · rw [cut] at eof
      cases eof
  cases h with
  | stop halted => exact ⟨_, _, rfl, start, going⟩
  | next halted rest => exact ⟨_, _, rfl, start, going⟩

theorem broken (h : Cut flags state k input tokens last) (flat : flags.indent = false)
    (inline : state ≠ .lineStart) {t : Token} (final : tokens.getLast? = some t)
    (cut : t.tag = .incomplete) : ∃ p, last = .within p := by
  induction h with
  | @stop state last k input halted =>
    obtain rfl : (scan flags state input).place k = t := Option.some.inj final
    rcases scan_ends flat inline input with (⟨none, -⟩ | ⟨p, within, -⟩) | ⟨-, eof, -⟩
    · simp [halted] at none
    · exact ⟨p, Option.some.inj (halted.symm.trans within)⟩
    · rw [Scan.place, eof] at cut
      cases cut
  | @next state last k input tokens going rest ih =>
    obtain ⟨u, more, rfl⟩ := List.exists_cons_of_ne_nil rest.nonempty
    exact ih (by simp) (List.getLast?_cons_cons ▸ final)

end Cut

theorem mem_weld {t : Token} {tokens later : List Token} (member : t ∈ weld tokens later) :
    t ∈ tokens ∨ t ∈ later ∨ ∃ x u, tokens.getLast? = some x ∧ x.tag = .incomplete ∧
      later.head? = some u ∧ t = { u with start := x.start } := by
  induction tokens with
  | nil => exact .inr (.inl member)
  | cons x tokens ih =>
    cases tokens with
    | nil =>
      change t ∈ x.meet later at member
      unfold Token.meet at member
      split at member
      · exact .inr (.inl member)
      · rename_i u more cut
        rcases List.mem_cons.mp member with rfl | member
        · exact .inr (.inr ⟨x, u, rfl, cut, rfl, rfl⟩)
        · exact .inr (.inl (List.mem_cons_of_mem _ member))
      · rcases List.mem_cons.mp member with rfl | member
        · exact .inl List.mem_cons_self
        · exact .inr (.inl member)
    | cons y tokens =>
      change t ∈ x :: weld (y :: tokens) later at member
      rcases List.mem_cons.mp member with rfl | member
      · exact .inl List.mem_cons_self
      · rcases ih member with here | there | joined
        · exact .inl (List.mem_cons_of_mem _ here)
        · exact .inr (.inl there)
        · rw [List.getLast?_cons_cons]
          exact .inr (.inr joined)

theorem head_weld {x : Token} (tokens later : List Token) (going : x.tag ≠ .eof) :
    ∀ t ∈ (weld (x :: tokens) later).head?, t.start = x.start := by
  cases tokens with
  | nil =>
    intro t head
    change t ∈ (x.meet later).head? at head
    unfold Token.meet at head
    split at head
    · exact absurd ‹_› going
    · obtain rfl := Option.some.inj head
      rfl
    · obtain rfl := Option.some.inj head
      rfl
  | cons y tokens =>
    rintro t ⟨⟩
    rfl

theorem chunkStart_ge (k : Nat) (chunks : List Source) (place : Nat) : k ≤ chunkStart k chunks place := by
  induction chunks generalizing k with
  | nil => exact Nat.le_refl k
  | cons chunk chunks ih =>
    rw [chunkStart]
    split
    · exact Nat.le_refl k
    · exact Nat.le_trans (Nat.le_add_right _ _) (ih (k + chunk.length))

structure Token.Pieced (source : Source) (k : Nat) (chunks : List Source) (t : Token) : Prop where
  reached : k ≤ t.start
  ordered : t.start ≤ t.stop
  tag : t.tag = source.wordTag (t.fromPlace (chunkStart k chunks t.stop))
  delimited : source.DelimitedAt t.stop

section Chunks

variable {flags : Flags} {source : Source} {front back : List Byte} {chunk : Source}

theorem Source.DelimitedAt.lt {place : Nat} (h : source.DelimitedAt place) :
    place < source.length := by
  obtain ⟨b, found, -⟩ := h
  exact (List.getElem?_eq_some_iff.mp found).1

theorem Token.Told.pieced {t : Token} (told : t.Told chunk)
    (bytes : source.bytes = front ++ (chunk.bytes ++ back)) (chunks : List Source) :
    (t.shift front.length).Pieced source front.length (chunk :: chunks) := by
  have inside := told.delimited.lt
  have here : chunkStart front.length (chunk :: chunks) (t.shift front.length).stop = front.length := by
    refine if_pos ?_
    show t.stop + front.length < front.length + chunk.length
    omega
  have whole : (t.shift front.length).fromPlace front.length = t.shift front.length := by
    have later : max (t.start + front.length) front.length = t.start + front.length :=
      Nat.max_eq_left (Nat.le_add_left _ _)
    exact congrArg (Token.mk t.tag · (t.stop + front.length)) later
  refine ⟨Nat.le_add_left _ _, Nat.add_le_add_right told.ordered _, ?_, ?_⟩
  · rw [here, whole, Source.wordTag, Source.text_shift bytes (Nat.le_of_lt inside)]
    exact told.tag
  · obtain ⟨b, found, delimiter⟩ := told.delimited
    refine ⟨b, ?_, delimiter⟩
    show source.bytes[t.stop + front.length]? = some b
    rw [bytes, List.getElem?_append_right (Nat.le_add_left _ _), Nat.add_sub_cancel,
      List.getElem?_append_left inside, found]

theorem stitch_within (p : Part) (k : Nat) (chunks : List Source) :
    ∀ t ∈ (stitch (placed k chunks (readChunks flags (.within p) chunks))).head?, t.start = k := by
  cases chunks with
  | nil => nofun
  | cons chunk chunks =>
    obtain ⟨x, more, listed, start, going⟩ := (chunk_cut flags (.within p) k chunk).resumed
    obtain ⟨y, rest, tokens, rfl, -⟩ := List.map_eq_cons_iff.mp listed
    have going : y.tag ≠ .eof := by
      intro eof
      exact going (by rw [Token.unresolved, eof]; rfl)
    intro t head
    rw [readChunks, placed, tokens] at head
    cases chunks with
    | nil =>
      obtain rfl := Option.some.inj head
      exact start
    | cons next chunks => exact (head_weld rest _ going t head).trans start

theorem stitch_pieced (chunked : flags.chunked = true) (flat : flags.indent = false)
    (state : ScanState) (inline : state ≠ .lineStart) (front : List Byte) (chunks : List Source)
    (bytes : source.bytes = front ++ chunks.flatMap Source.bytes) :
    ∀ t ∈ stitch (placed front.length chunks (readChunks flags state chunks)),
      t.IsWord → t.Pieced source front.length chunks := by
  induction chunks generalizing front state with
  | nil => nofun
  | cons chunk chunks ih =>
    intro t member word
    have cut := chunk_cut flags state front.length chunk
    rw [List.flatMap_cons] at bytes
    have here : ∀ t ∈ ((Scanner.ofSource flags chunk).entriesFrom Scanner.isHalt state).map
        (fun e => e.token.shift front.length), t.IsWord →
        t.Pieced source front.length (chunk :: chunks) := by
      intro t member word
      obtain ⟨e, listed, rfl⟩ := List.mem_map.mp member
      have faces : (Scanner.ofSource flags chunk).Faces chunk := rfl
      exact (faces.entriesFrom_told chunked flat inline e listed word).pieced bytes chunks
    rw [readChunks, placed] at member
    cases chunks with
    | nil => exact here t member word
    | cons next chunks =>
      have onward : (front ++ chunk.bytes).length = front.length + chunk.length := List.length_append
      have later := ih _ (cut.inline flat inline) (front ++ chunk.bytes)
        (by rw [bytes, List.append_assoc])
      rw [onward] at later
      -- The chunk does not hold the byte behind a word that ends later.
      have passed : ∀ u : Token, front.length + chunk.length ≤ u.stop →
          chunkStart front.length (chunk :: next :: chunks) u.stop =
            chunkStart (front.length + chunk.length) (next :: chunks) u.stop :=
        fun u behind => if_neg (Nat.not_lt.mpr behind)
      rcases mem_weld member with first | second | ⟨x, u, final, broken, head, rfl⟩
      · exact here t first word
      · have pieced := later t second word
        refine ⟨?_, pieced.ordered, ?_, pieced.delimited⟩
        · exact Nat.le_trans (Nat.le_add_right _ _) pieced.reached
        · rw [passed t (Nat.le_trans pieced.reached pieced.ordered)]
          exact pieced.tag
      · have pieced := later u (List.mem_of_mem_head? head) word
        obtain ⟨p, within⟩ := cut.broken flat inline (t := x.unresolved)
          (by rw [List.getLast?_map, final]; rfl) (by rw [Token.unresolved, broken]; rfl)
        obtain ⟨reached, ordered, stop⟩ := cut.within x.unresolved
          (List.mem_map_of_mem (List.mem_of_getLast? final))
        rw [within] at head
        have start : u.start = front.length + chunk.length := stitch_within p _ _ u head
        have begun : x.start ≤ front.length + chunk.length := Nat.le_trans ordered stop
        have behind : front.length + chunk.length ≤ u.stop := start ▸ pieced.ordered
        have boundary := chunkStart_ge (front.length + chunk.length) (next :: chunks) u.stop
        have same : u.fromPlace (chunkStart (front.length + chunk.length) (next :: chunks) u.stop) =
            Token.fromPlace { u with start := x.start }
              (chunkStart (front.length + chunk.length) (next :: chunks) u.stop) := by
          unfold Token.fromPlace
          rw [Nat.max_eq_right (start ▸ boundary), Nat.max_eq_right (Nat.le_trans begun boundary)]
        refine ⟨reached, Nat.le_trans begun behind, ?_, pieced.delimited⟩
        rw [passed { u with start := x.start } behind, ← same]
        exact pieced.tag

/-- But for which words are keywords, the chunks come to the tokens of the source. -/
theorem mergedTokens_unresolved (chunked : flags.chunked = true) (flat : flags.indent = false)
    (chunks : List Source) (some : chunks ≠ [])
    (split : chunks.flatMap Source.bytes = source.bytes) :
    (mergedTokens flags chunks).map Token.unresolved =
      (mergedTokens flags [source]).map Token.unresolved := by
  obtain ⟨chunk, more, rfl⟩ := List.exists_cons_of_ne_nil some
  have inline : ScanState.gap ≠ .lineStart := by simp
  have parts := chunks_cut chunked flat inline 0 chunk more
  have whole := chunks_cut chunked flat inline 0 source []
  rw [List.flatMap_singleton, ← split] at whole
  exact (parts.unique whole).1

/-- Every word of the chunks is told by its last piece. -/
theorem mergedTokens_pieced (chunked : flags.chunked = true) (flat : flags.indent = false)
    (chunks : List Source) (split : chunks.flatMap Source.bytes = source.bytes) :
    ∀ t ∈ mergedTokens flags chunks, t.IsWord → t.Pieced source 0 chunks :=
  stitch_pieced chunked flat .gap nofun [] chunks split.symm

theorem mergedTokens_told (chunked : flags.chunked = true) (flat : flags.indent = false) :
    ∀ t ∈ mergedTokens flags [source], t.IsWord → t.Told source := by
  intro t member word
  have pieced := mergedTokens_pieced chunked flat [source] (List.flatMap_singleton _ _) t member word
  have here : chunkStart 0 [source] t.stop = 0 := by
    refine if_pos ?_
    rw [Nat.zero_add]
    exact pieced.delimited.lt
  refine ⟨?_, pieced.ordered, pieced.delimited⟩
  have tag := pieced.tag
  rwa [here, Token.fromPlace, Nat.max_zero] at tag

end Chunks

section Retold

variable {source : Source} {chunks : List Source}

theorem unresolved_plain {tag : TokenTag} (plain : tag.unresolved ≠ .identifier) :
    tag.unresolved = tag := by
  unfold TokenTag.unresolved at plain ⊢
  split
  · rename_i keyword
    rw [if_pos keyword] at plain
    exact absurd rfl plain
  · rfl

theorem Token.eq_retold {x y : Token} (same : x.unresolved = y.unresolved)
    (told : x.IsWord → x.tag = source.wordTag (x.lastPiece chunks)) :
    x = y.retold source chunks := by
  obtain ⟨tag, start, stop⟩ := x
  obtain ⟨tag', start', stop'⟩ := y
  simp only [Token.unresolved, Token.mk.injEq] at same
  obtain ⟨kind, rfl, rfl⟩ := same
  unfold Token.retold
  split
  · rename_i word
    exact congrArg (Token.mk · start stop) (told (kind.trans word))
  · rename_i plain
    have plain : tag'.unresolved ≠ .identifier := plain
    rw [← unresolved_plain plain, ← kind, unresolved_plain (kind ▸ plain)]

theorem eq_map_retold {xs ys : List Token} (same : xs.map Token.unresolved = ys.map Token.unresolved)
    (told : ∀ x ∈ xs, x.IsWord → x.tag = source.wordTag (x.lastPiece chunks)) :
    xs = ys.map (Token.retold source chunks) := by
  induction xs generalizing ys with
  | nil => rw [List.map_eq_nil_iff.mp same.symm, List.map_nil]
  | cons x xs ih =>
    obtain ⟨y, ys, rfl, first, rest⟩ := List.map_eq_cons_iff.mp same.symm
    obtain ⟨here, later⟩ := List.forall_mem_cons.mp told
    rw [List.map_cons, ← ih rest.symm later, ← Token.eq_retold first.symm here]

theorem wordTag_eq_iff {t u : Token} :
    source.wordTag t = source.wordTag u ↔ keyword? (source.text t) = keyword? (source.text u) := by
  have other : ∀ {w : List Byte} {kind : TokenTag}, keyword? w = some kind → kind ≠ .identifier := by
    rintro w _ found rfl
    unfold keyword? at found
    split at found <;> cases found
  unfold Source.wordTag
  cases left : keyword? (source.text t) with
  | none =>
    cases right : keyword? (source.text u) with
    | none => simp
    | some kind => simpa using (other right).symm
  | some kind =>
    cases right : keyword? (source.text u) with
    | none => simpa using other left
    | some kind' => simp

end Retold

/-- In one chunk, every word is told from the keywords by all of its bytes, up to the delimiter behind
it. In several, the tokens are the same but for the words, each of which is told by its last piece; so
they are all the same exactly if no word has a last piece that is told otherwise than the word. -/
theorem mergedTokens_words {flags : Flags} (chunked : flags.chunked = true)
    (flat : flags.indent = false) (source : Source) (chunks : List Source) (some : chunks ≠ [])
    (split : chunks.flatMap Source.bytes = source.bytes) :
    (∀ t ∈ mergedTokens flags [source], t.IsWord →
      t.tag = source.wordTag t ∧ source.DelimitedAt t.stop) ∧
    mergedTokens flags chunks = (mergedTokens flags [source]).map (Token.retold source chunks) ∧
    (mergedTokens flags chunks = mergedTokens flags [source] ↔
      ∀ t ∈ mergedTokens flags [source], t.IsWord →
        keyword? (source.text (t.lastPiece chunks)) = keyword? (source.text t)) := by
  have told : ∀ t ∈ mergedTokens flags [source], t.IsWord → t.Told source :=
    mergedTokens_told chunked flat
  have retold : mergedTokens flags chunks =
      (mergedTokens flags [source]).map (Token.retold source chunks) :=
    eq_map_retold (mergedTokens_unresolved chunked flat chunks some split) fun t member word =>
      (mergedTokens_pieced chunked flat chunks split t member word).tag
  refine ⟨fun t member word => ⟨(told t member word).tag, (told t member word).delimited⟩, retold, ?_⟩
  rw [retold]
  nth_rewrite 2 [← List.map_id (mergedTokens flags [source])]
  rw [List.map_inj_left]
  refine forall₂_congr fun t member => ?_
  unfold Token.retold
  split
  · rename_i word
    have kept : { t with tag := source.wordTag (t.lastPiece chunks) } = t ↔
        source.wordTag (t.lastPiece chunks) = t.tag :=
      ⟨congrArg Token.tag, fun same => by rw [same]⟩
    rw [id, kept, (told t member word).tag, wordTag_eq_iff]
    simp [word]
  · rename_i plain
    simp [plain]

/-- A keyword in two pieces, and two words that no boundary divides. -/
theorem mergedTokens_words_pieces :
    ([⟨[0x69]⟩, ⟨[0x66, 0x20, 0x61]⟩, ⟨[]⟩, ⟨[0x2B, 0x69, 0x66, 0x20]⟩] : List Source).flatMap
        Source.bytes = [0x69, 0x66, 0x20, 0x61, 0x2B, 0x69, 0x66, 0x20] ∧
      mergedTokens { chunked := true }
          [⟨[0x69]⟩, ⟨[0x66, 0x20, 0x61]⟩, ⟨[]⟩, ⟨[0x2B, 0x69, 0x66, 0x20]⟩] =
        (mergedTokens { chunked := true } [⟨[0x69, 0x66, 0x20, 0x61, 0x2B, 0x69, 0x66, 0x20]⟩]).map
          (Token.retold ⟨[0x69, 0x66, 0x20, 0x61, 0x2B, 0x69, 0x66, 0x20]⟩
            [⟨[0x69]⟩, ⟨[0x66, 0x20, 0x61]⟩, ⟨[]⟩, ⟨[0x2B, 0x69, 0x66, 0x20]⟩]) :=
  ⟨rfl, (mergedTokens_words rfl rfl _ _ (by simp) rfl).2.1⟩

/-- A word whose last piece spells a keyword is taken for it, and a keyword that a boundary divides is
not known as one. -/
theorem mergedTokens_divided :
    (mergedTokens { chunked := true } [⟨[0x78]⟩, ⟨[0x69, 0x66, 0x20]⟩] =
        [⟨.kwIf, 0, 3⟩, ⟨.eof, 4, 4⟩] ∧
      mergedTokens { chunked := true } [⟨[0x78, 0x69, 0x66, 0x20]⟩] =
        [⟨.identifier, 0, 3⟩, ⟨.eof, 4, 4⟩]) ∧
    mergedTokens { chunked := true } [⟨[0x69]⟩, ⟨[0x66, 0x20]⟩] =
        [⟨.identifier, 0, 2⟩, ⟨.eof, 3, 3⟩] ∧
      mergedTokens { chunked := true } [⟨[0x69, 0x66, 0x20]⟩] =
        [⟨.kwIf, 0, 2⟩, ⟨.eof, 3, 3⟩] := by
  decide +kernel

end Offside
