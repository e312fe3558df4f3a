import Offside.Proofs.Partition
import Offside.Proofs.Sentinel
import Offside.Parse.Error
import Offside.Scan.Listing

/-! Whatever is asked of a scanner, in any order and from any state: the reading head serves the same
requests with reads inside the padded source, and every token lies in the source. The place that is
counted along while the source is read is the one that is found by counting from the start. -/
namespace Offside

inductive Request where
  | next
  | peek
  | iterate
  | resume (state : ScanState)

namespace Request

def state : Request → ScanState
  | resume state => state
  | next | peek | iterate => .gap

def handsOut : Request → Token → Option Token
  | iterate, t => if t.tag = .eof then none else some t
  | next, t | peek, t | resume _, t => some t

def moves : Request → Bool
  | peek => false
  | next | iterate | resume _ => true

end Request

namespace Scanner

def serve (u : Scanner) (r : Request) : Option Token × Scanner :=
  let step := u.nextFrom r.state
  (r.handsOut step.1, if r.moves then step.2 else u)

def serveAll (u : Scanner) : List Request → List (Option Token) × Scanner
  | [] => ([], u)
  | r :: rs => (((u.serve r).1) :: ((u.serve r).2.serveAll rs).1, ((u.serve r).2.serveAll rs).2)

end Scanner

namespace Head

/-- The head serves requests as the scanner does, each by a run of its own. -/
inductive Serves : Head → List Request → List (Option Token) → Head → Prop where
  | done {h : Head} : Serves h [] [] h
  | request {h h' last : Head} {r : Request} {rs : List Request} {t : Token}
      {answers : List (Option Token)} : h.Finds r.state t h' →
      Serves (if r.moves then h' else h) rs answers last →
      Serves h (r :: rs) (r.handsOut t :: answers) last

theorem Runs.unique {state : ScanState} {h h' h'' : Head} {t t' : Token} (first : Runs state h t h')
    (second : Runs state h t' h'') : t = t' ∧ h' = h'' := by
  induction first with
  | found _ turn _ =>
    cases second with
    | found _ turn' _ =>
      cases turn.symm.trans turn'
      exact ⟨rfl, rfl⟩
    | again _ turn' _ => cases turn.symm.trans turn'
  | again _ turn _ ih =>
    cases second with
    | found _ turn' _ => cases turn.symm.trans turn'
    | again _ turn' runs =>
      cases turn.symm.trans turn'
      exact ih runs

theorem Finds.unique {state : ScanState} {h h' h'' : Head} {t t' : Token} (first : h.Finds state t h')
    (second : h.Finds state t' h'') : t = t' ∧ h' = h'' := by
  obtain ⟨next, runs, rfl⟩ := first
  obtain ⟨next', runs', rfl⟩ := second
  obtain ⟨rfl, rfl⟩ := runs.unique runs'
  exact ⟨rfl, rfl⟩

theorem Serves.unique {h last last' : Head} {rs : List Request} {answers answers' : List (Option Token)}
    (first : Serves h rs answers last) (second : Serves h rs answers' last') :
    answers = answers' ∧ last = last' := by
  induction first generalizing answers' with
  | done =>
    cases second
    exact ⟨rfl, rfl⟩
  | request finds _ ih =>
    cases second with
    | request finds' serves' =>
      obtain ⟨rfl, rfl⟩ := finds.unique finds'
      obtain ⟨rfl, rfl⟩ := ih serves'
      exact ⟨rfl, rfl⟩

end Head

theorem Place.location_advance (front : List Byte) :
    (Place.origin.advance front).lineStart ≤ (Place.origin.advance front).offset ∧
      (Place.origin.advance front).location = ⟨front.count Byte.lineFeed + 1,
        (front.reverse.takeWhile (· != Byte.lineFeed)).length + 1⟩ := by
  induction front using List.reverseRecOn with
  | nil => exact ⟨Nat.le_refl _, rfl⟩
  | append_singleton front b ih =>
    obtain ⟨before, counted⟩ := ih
    rw [Place.advance_append, Place.advance_single, List.reverse_append, List.reverse_singleton,
      List.singleton_append, List.count_append]
    generalize Place.origin.advance front = p at before counted
    obtain ⟨line, column⟩ := Location.mk.inj counted
    by_cases feed : b = Byte.lineFeed
    · subst feed
      refine ⟨Nat.le_refl _, ?_⟩
      simp [Place.next, Place.location, ← line]
    · refine ⟨?_, ?_⟩
      · simp [Place.next, feed]
        omega
      · simp only [Place.next, beq_iff_eq, feed, ↓reduceIte, Place.location, line, bne_iff_ne, ne_eq,
          not_false_eq_true, List.takeWhile_cons_of_pos, List.length_cons, ← column]
        rw [List.count_singleton, if_neg (by simpa using feed), Nat.add_zero]
        congr 1
        omega

/-- A token lies in the source. One that the end cut off reaches up to it, and one at fault ends with
the byte at fault. -/
structure Token.Lies (t : Token) (s : Source) : Prop where
  ordered : t.start ≤ t.stop
  inside : t.stop ≤ s.length
  length_eq : t.length = t.stop - t.start
  incomplete : t.tag = .incomplete → t.stop = s.length
  invalid : t.tag = .invalid → t.start < t.stop ∧ ∃ b, s.bytes[t.stop - 1]? = some b

theorem munch_spoiled {chunked : Bool} {p : Part} {input : List Byte}
    (spoiled : (munch chunked p input).tag = .invalid) : (munch chunked p input).text ≠ [] := by
  cases input with
  | nil => cases p <;> cases chunked <;> cases spoiled
  | cons b rest =>
    have agrees := p.move_agrees b
    rw [munch] at spoiled ⊢
    cases moved : p.move b with
    | shift q => exact List.cons_ne_nil _ _
    | take tag => exact List.cons_ne_nil _ _
    | close tag =>
      rw [moved] at spoiled agrees
      obtain rfl : tag = .invalid := spoiled
      obtain ⟨ending, -⟩ := agrees
      cases p <;> cases ending

theorem scan_spoiled {flags : Flags} {state : ScanState} {input : List Byte}
    (spoiled : (scan flags state input).tag = .invalid) : (scan flags state input).text ≠ [] := by
  cases state with
  | gap => exact (scan_sound flags input).full (by simp [spoiled]) (by simp [spoiled])
  | lineStart =>
    have sound : (leading flags.chunked 0 input).Sound .layout := leading_sound rfl flags.chunked 0 input
    have spoiled : (leading flags.chunked 0 input).tag = .invalid := spoiled
    exact sound.full (by simp [spoiled]) (by simp [spoiled])
  | within p =>
    have spoiled : (munch flags.chunked p input).resolve.tag = .invalid := spoiled
    rw [Scan.resolve_tag, TokenTag.resolved_eq _ rfl] at spoiled
    have text : (scan flags (.within p) input).text = (munch flags.chunked p input).text :=
      (Scan.resolve_eq _).2.1
    rw [text]
    exact munch_spoiled spoiled

namespace Scanner

variable {u : Scanner} {s : Source}

/-- What has been read of the source is what the place counts. -/
def Counts (u : Scanner) (s : Source) : Prop :=
  ∃ front, s.bytes = front ++ u.rest ∧ u.here = Place.origin.advance front

theorem counts_ofSource (flags : Flags) (s : Source) : (ofSource flags s).Counts s := ⟨[], rfl, rfl⟩

theorem Counts.faces (h : u.Counts s) :
    u.Faces s ∧ u.here.offset + u.rest.length = s.length := by
  obtain ⟨front, bytes, here⟩ := h
  have offset : u.here.offset = front.length := by
    rw [here, Place.offset_advance]
    exact Nat.zero_add _
  rw [Faces, Source.length, bytes, offset, List.drop_left, List.length_append]
  exact ⟨rfl, rfl⟩

theorem Counts.nextFrom (h : u.Counts s) (state : ScanState) : (u.nextFrom state).2.Counts s := by
  obtain ⟨front, bytes, here⟩ := h
  refine ⟨front ++ ((scan u.flags state u.rest).skipped ++ (scan u.flags state u.rest).text), ?_, ?_⟩
  · rw [List.append_assoc, bytes]
    exact congrArg (front ++ ·) (scan_bytes u.flags state u.rest).symm
  · rw [Place.advance_append, Place.advance_append, ← here]
    rfl

theorem Counts.located (h : u.Counts s) (state : ScanState) :
    (u.nextFrom state).2.last.lineStart ≤ (u.nextFrom state).2.last.offset ∧
      (u.nextFrom state).2.location = s.locate (u.nextFrom state).1.start := by
  obtain ⟨front, bytes, here⟩ := h
  have last : (u.nextFrom state).2.last =
      Place.origin.advance (front ++ (scan u.flags state u.rest).skipped) := by
    rw [Place.advance_append, ← here]
    rfl
  have start : (u.nextFrom state).1.start = (front ++ (scan u.flags state u.rest).skipped).length := by
    show (u.nextFrom state).2.last.offset = _
    rw [last, Place.offset_advance]
    exact Nat.zero_add _
  have split : s.bytes = front ++ (scan u.flags state u.rest).skipped ++
      ((scan u.flags state u.rest).text ++ (scan u.flags state u.rest).rest) := by
    rw [List.append_assoc, bytes]
    conv_lhs => rw [← scan_bytes u.flags state u.rest, Scan.bytes, List.append_assoc]
  obtain ⟨ordered, location⟩ :=
    Place.location_advance (front ++ (scan u.flags state u.rest).skipped)
  refine ⟨by rw [last]; exact ordered, ?_⟩
  rw [Scanner.location, last, location, start, Source.locate, split, List.take_left]

theorem Counts.lies (h : u.Counts s) (state : ScanState) : (u.nextFrom state).1.Lies s := by
  obtain ⟨-, whole⟩ := h.faces
  have stop : (u.nextFrom state).1.stop =
      (u.nextFrom state).1.start + (scan u.flags state u.rest).text.length := by
    simp only [Scanner.nextFrom, Place.offset_advance]
  have used : (u.nextFrom state).1.stop + (scan u.flags state u.rest).rest.length = s.length := by
    have bytes := congrArg List.length (scan_bytes u.flags state u.rest)
    simp only [Scan.bytes, List.length_append] at bytes
    simp only [Scanner.nextFrom, Place.offset_advance]
    omega
  have ordered : (u.nextFrom state).1.start ≤ (u.nextFrom state).1.stop := by omega
  refine ⟨ordered, by omega, Token.length_of_le ordered, ?_, ?_⟩
  · intro cut
    have cut : (scan u.flags state u.rest).tag = .incomplete := cut
    rcases scan_halts u.flags state u.rest with ⟨-, going⟩ | ⟨_, -, -, rest⟩
    · rw [cut] at going
      cases going
    · rw [rest] at used
      exact used
  · intro spoiled
    have text := List.length_pos_iff.mpr (scan_spoiled spoiled)
    refine ⟨by omega, _, List.getElem?_eq_getElem ?_⟩
    show (u.nextFrom state).1.stop - 1 < s.length
    omega

end Scanner

namespace Head

variable {h : Head} {u : Scanner} {s : Source}

structure Follows (h : Head) (u : Scanner) (s : Source) : Prop where
  flags : h.flags = u.flags
  source : h.reader.source = s
  place : h.place = u.here
  line : h.mark.line = u.last.line
  lineStart : h.mark.lineStart = u.last.lineStart
  last : h.last = u.last.offset
  halted : h.halted = u.halted

theorem follows_ofSource (flags : Flags) (s : Source) :
    (ofSource flags s).Follows (Scanner.ofSource flags s) s := ⟨rfl, rfl, rfl, rfl, rfl, rfl, rfl⟩

theorem Follows.location (h' : h.Follows u s) : h.location = u.location := by
  rw [Head.location, h'.line, h'.lineStart, h'.last]
  rfl

/-- From every state the head finds what the scanner finds. -/
theorem Follows.finds (follows : h.Follows u s) (counts : u.Counts s) (fits : s.length ≤ Source.capacity)
    (state : ScanState) :
    ∃ h', h.Finds state (u.nextFrom state).1 h' ∧ h'.Follows (u.nextFrom state).2 s := by
  obtain ⟨faces, whole⟩ := counts.faces
  have at_ : h.marked.At u.here [] u.rest := by
    refine ⟨follows.place, follows.place, ?_, ?_, ?_⟩
    · show h.reader.source.bytes.drop _ = _
      rw [follows.source]
      exact faces
    · show _ = h.reader.source.length
      rw [follows.source]
      exact whole
    · show h.reader.source.length ≤ _
      rw [follows.source]
      exact fits
  have reaches : h.marked.Reaches state u.here (scan u.flags state u.rest) := by
    rw [← follows.flags]
    cases state with
    | gap => exact gap_reaches at_
    | lineStart => exact line_reaches (w := 0) at_
    | within p => exact within_reaches at_ p
  obtain ⟨t, next, runs, ends⟩ := reaches
  have token : t = (u.nextFrom state).1 := ends.token
  refine ⟨_, ⟨next, token ▸ runs, rfl⟩, ends.flags.trans follows.flags,
    ends.source.trans follows.source, ends.place, ends.line, ends.lineStart, rfl, ?_⟩
  show next.halted = (scan u.flags state u.rest).halted.getD u.halted
  rw [← follows.halted]
  exact ends.halted

end Head

section Serving

variable {u : Scanner} {s : Source}

theorem Scanner.Counts.serve (counts : u.Counts s) (r : Request) : (u.serve r).2.Counts s := by
  show (if r.moves then (u.nextFrom r.state).2 else u).Counts s
  split
  · exact counts.nextFrom r.state
  · exact counts

theorem Scanner.Counts.serveAll (counts : u.Counts s) (rs : List Request) :
    (u.serveAll rs).2.Counts s := by
  induction rs generalizing u with
  | nil => exact counts
  | cons r rs ih => exact ih (counts.serve r)

theorem Scanner.Counts.entries (counts : u.Counts s) (ends : TokenTag → Bool) :
    ∀ e ∈ u.entries ends, e.location = s.locate e.token.start := by
  fun_induction Scanner.entries ends u with
  | case1 u step =>
    intro e member
    obtain rfl := List.mem_singleton.mp member
    exact (counts.located .gap).2
  | case2 u step more ih =>
    intro e member
    rcases List.mem_cons.mp member with rfl | member
    · exact (counts.located .gap).2
    · exact ih (counts.nextFrom .gap) e member

theorem Scanner.Counts.entriesFrom (counts : u.Counts s) (ends : TokenTag → Bool)
    (state : ScanState) : ∀ e ∈ u.entriesFrom ends state, e.location = s.locate e.token.start := by
  intro e member
  unfold Scanner.entriesFrom at member
  dsimp only at member
  split at member
  · obtain rfl := List.mem_singleton.mp member
    exact (counts.located state).2
  · rcases List.mem_cons.mp member with rfl | member
    · exact (counts.located state).2
    · exact (counts.nextFrom state).entries ends e member

theorem Scanner.Counts.answers (counts : u.Counts s) (rs : List Request) :
    ∀ t, some t ∈ (u.serveAll rs).1 → t.Lies s := by
  induction rs generalizing u with
  | nil => nofun
  | cons r rs ih =>
    intro t member
    rcases List.mem_cons.mp member with first | later
    · have lies := counts.lies r.state
      have first : r.handsOut (u.nextFrom r.state).1 = some t := first.symm
      cases r with
      | iterate =>
        simp only [Request.handsOut] at first
        split at first
        · cases first
        · cases first
          exact lies
      | next | peek | resume state =>
        cases first
        exact lies
    · exact ih (counts.serve r) t later

/-- The head serves whatever the scanner serves, and ends up where the scanner does. -/
theorem Head.Follows.serves {h : Head} (follows : h.Follows u s) (counts : u.Counts s)
    (fits : s.length ≤ Source.capacity) (rs : List Request) :
    ∃ last, h.Serves rs (u.serveAll rs).1 last ∧ last.Follows (u.serveAll rs).2 s := by
  induction rs generalizing h u with
  | nil => exact ⟨h, .done, follows⟩
  | cons r rs ih =>
    obtain ⟨h', finds, follows'⟩ := follows.finds counts fits r.state
    have next : (if r.moves then h' else h).Follows (u.serve r).2 s := by
      show Head.Follows _ (if r.moves then (u.nextFrom r.state).2 else u) s
      split
      · exact follows'
      · exact follows
    obtain ⟨last, serves, follows''⟩ := ih next (counts.serve r)
    exact ⟨last, .request finds serves, follows''⟩

end Serving

theorem Location.render_eq (l : Location) :
    l.render = toString l.line ++ ":" ++ toString l.column := rfl

namespace Source

/-- Whatever is asked of a scanner and of a reading head on the same source: the head answers by reads
inside the padded source alone, in one way and with the tokens of the scanner; it stays inside the
source; and every token lies in the source. -/
theorem requests_safe (s : Source) (fits : s.length ≤ capacity) (flags : Flags) (rs : List Request) :
    ∃ h : Head, (Head.ofSource flags s).Serves rs ((Scanner.ofSource flags s).serveAll rs).1 h ∧
      (∀ answers h', (Head.ofSource flags s).Serves rs answers h' →
        answers = ((Scanner.ofSource flags s).serveAll rs).1 ∧ h' = h) ∧
      h.position = ((Scanner.ofSource flags s).serveAll rs).2.here.offset ∧ h.position ≤ s.length ∧
      ∀ t, some t ∈ ((Scanner.ofSource flags s).serveAll rs).1 → t.Lies s := by
  have counts := Scanner.counts_ofSource flags s
  obtain ⟨h, serves, follows⟩ := (Head.follows_ofSource flags s).serves counts fits rs
  have position : h.position = ((Scanner.ofSource flags s).serveAll rs).2.here.offset :=
    congrArg Place.offset follows.place
  refine ⟨h, serves, ?_, position, ?_, counts.answers rs⟩
  · intro answers h' serves'
    exact serves'.unique serves
  · rw [position, ← (counts.serveAll rs).faces.2]
    exact Nat.le_add_right _ _

/- A letter, a line feed and a return alone; the second call begins inside a word, the last two are at
the end. -/
theorem requests_safe_alone : ∃ h : Head,
    (Head.ofSource .layout ⟨[0x61, 0x0A, 0x0D]⟩).Serves
      [.resume .lineStart, .resume (.within .word), .peek, .next, .iterate, .resume (.within .string)]
      [some ⟨.indent, 0, 0⟩, some ⟨.identifier, 0, 1⟩, some ⟨.indent, 2, 2⟩, some ⟨.indent, 2, 2⟩, none,
        some ⟨.incomplete, 3, 3⟩] h ∧ h.position = 3 := by
  obtain ⟨h, serves, -, position, -⟩ := requests_safe ⟨[0x61, 0x0A, 0x0D]⟩ (by decide) .layout
    [.resume .lineStart, .resume (.within .word), .peek, .next, .iterate, .resume (.within .string)]
  exact ⟨h, serves, position⟩

/-- After every request that moves, the location counted along is that of the token found, counted from
the start, on the scanner and on the reading head. The listing shows it as line and column, and so does
every error at the same offset. -/
theorem requests_located (s : Source) (flags : Flags) (rs : List Request) (r : Request)
    (moving : r.moves = true) :
    let u := ((Scanner.ofSource flags s).serveAll rs).2
    (u.serve r).2.location = s.locate (u.nextFrom r.state).1.start ∧
      (u.serve r).2.last.lineStart ≤ (u.serve r).2.last.offset ∧
      (s.length ≤ capacity → ∃ h h' : Head,
        (Head.ofSource flags s).Serves rs ((Scanner.ofSource flags s).serveAll rs).1 h ∧
          h.Finds r.state (u.nextFrom r.state).1 h' ∧
          h'.location = s.locate (u.nextFrom r.state).1.start ∧ h'.mark.lineStart ≤ h'.last) ∧
      ∀ e ∈ (Scanner.ofSource flags s).entriesFrom (fun _ => false) (Listing.initial flags),
        ∀ (error : ParseError) (t : Token), error.token? = some t → t.start = e.token.start →
          ∃ shown, Listing.line s e = toString (s.locate t.start).line ++ ":" ++
              toString (s.locate t.start).column ++ " " ++ shown ∧
            error.describe s = toString (s.locate t.start).line ++ ":" ++
              toString (s.locate t.start).column ++ ": " ++ error.message := by
  intro u
  have begun := Scanner.counts_ofSource flags s
  have counts : u.Counts s := begun.serveAll rs
  have served : (u.serve r).2 = (u.nextFrom r.state).2 := if_pos moving
  obtain ⟨ordered, located⟩ := counts.located r.state
  refine ⟨by rw [served, located], by rw [served]; exact ordered, ?_, ?_⟩
  · intro fits
    obtain ⟨h, serves, follows⟩ := (Head.follows_ofSource flags s).serves begun fits rs
    obtain ⟨h', finds, follows'⟩ := follows.finds counts fits r.state
    refine ⟨h, h', serves, finds, follows'.location.trans located, ?_⟩
    rw [follows'.lineStart, follows'.last]
    exact ordered
  · intro e member error t names same
    have place := begun.entriesFrom (fun _ => false) (Listing.initial flags) e member
    refine ⟨e.token.tag.name ++ " " ++
      String.ofList (Text.quote (Utf8.decode (s.text e.token))) ++ "\n", ?_, ?_⟩
    · rw [Listing.line, place, same, Location.render_eq]
      simp only [String.append_assoc]
    · rw [ParseError.describe, names, ← Location.render_eq]

/- A word, a keyword that is looked at twice, and a fault that holds a line feed and is on the line
where it begins all the same. -/
theorem requests_located_fault :
    let s := ofText "ab\nif \"x\n c"
    let u := (Scanner.ofSource {} s).serveAll [.next, .peek, .iterate]
    let t : Token := ⟨.invalid, 6, 9⟩
    u.1 = [some ⟨.identifier, 0, 2⟩, some ⟨.kwIf, 3, 5⟩, some ⟨.kwIf, 3, 5⟩] ∧
      (u.2.serve .next).1 = some t ∧ (u.2.serve .next).2.location = ⟨2, 4⟩ ∧
      (∃ h h' : Head, (Head.ofSource {} s).Serves [.next, .peek, .iterate] u.1 h ∧
        h.Finds .gap t h' ∧ h'.location = ⟨2, 4⟩) ∧
      ∃ shown, Listing.line s ⟨t, ⟨2, 4⟩, .gap⟩ = "2:4 " ++ shown ∧
        (ParseError.unexpectedToken t).describe s = "2:4: unexpected invalid at byte 6" := by
  intro s u t
  obtain ⟨counted, -, served, listed⟩ := requests_located s {} [.next, .peek, .iterate] .next rfl
  obtain ⟨h, h', serves, finds, located, -⟩ := served (by decide)
  have third : ⟨t, ⟨2, 4⟩, .gap⟩ ∈
      (Scanner.ofSource {} s).entriesFrom (fun _ => false) (Listing.initial {}) := by
    apply List.mem_cons_of_mem
    rw [Scanner.entries]
    apply List.mem_cons_of_mem
    rw [Scanner.entries]
    exact List.mem_cons_self
  obtain ⟨shown, line, error⟩ := listed _ third (.unexpectedToken t) t rfl rfl
  have place : toString (s.locate t.start).line ++ ":" ++ toString (s.locate t.start).column =
      "2:4" := by decide +kernel
  rw [place] at line error
  exact ⟨rfl, rfl, counted, ⟨h, h', serves, finds, located⟩, shown, line, error.trans (by decide)⟩

end Source

end Offside
