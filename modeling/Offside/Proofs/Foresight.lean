import Offside.Proofs.Framing
import Offside.Proofs.Lookahead
import Offside.Proofs.Relaid

/-! How far a parse looks ahead. A token that ends two bytes before the end of what two texts have in
common is the same token in both, and a parse that fails has read no token behind the one it reports.
So the text behind that token, but for two bytes, has no part in the error. -/
namespace Offside

structure Scan.Finds (s s' : Scan) : Prop where
  skipped : s'.skipped = s.skipped
  text : s'.text = s.text
  tag : s'.tag = s.tag
  halted : s'.halted = s.halted

def Scan.used (s : Scan) : Nat := s.skipped.length + s.text.length

namespace Scan

variable (s : Scan)

theorem used_push (b : Byte) : (s.push b).used = s.used + 1 := rfl

theorem used_skip (passed : List Byte) : (s.skip passed).used = passed.length + s.used := by
  simp only [used, skip, List.length_append]
  omega

theorem used_resolve : s.resolve.used = s.used := by
  rw [used, s.resolve_eq.1, s.resolve_eq.2.1, used]

theorem rest_eq : s.rest = s.bytes.drop s.used := by
  unfold bytes used
  rw [← List.length_append, List.drop_left]

end Scan

namespace Scan.Finds

variable {s s' : Scan}

theorem token {x : List Byte} (rest rest' : List Byte) (tag : TokenTag) :
    (Scan.token x rest tag).Finds (.token x rest' tag) := ⟨rfl, rfl, rfl, rfl⟩

theorem push (h : s.Finds s') (b : Byte) : (s.push b).Finds (s'.push b) :=
  ⟨h.skipped, congrArg (b :: ·) h.text, h.tag, h.halted⟩

theorem skip (h : s.Finds s') (passed : List Byte) : (s.skip passed).Finds (s'.skip passed) :=
  ⟨congrArg (passed ++ ·) h.skipped, h.text, h.tag, h.halted⟩

theorem resolve (h : s.Finds s') : s.resolve.Finds s'.resolve := by
  obtain ⟨skipped, text, rest, tag, halted⟩ := s
  obtain ⟨skipped', text', rest', tag', halted'⟩ := s'
  obtain ⟨rfl, rfl, rfl, rfl⟩ := h
  unfold Scan.resolve
  dsimp only
  split <;> exact ⟨rfl, rfl, rfl, rfl⟩

end Scan.Finds

section Scans

variable {x y : List Byte}

theorem munch_finds {chunked : Bool} {p : Part} (y' : List Byte)
    (near : (munch chunked p (x ++ y)).text.length < x.length) :
    (munch chunked p (x ++ y)).Finds (munch chunked p (x ++ y')) := by
  induction x generalizing p with
  | nil => cases near
  | cons b x ih =>
    simp only [List.cons_append, munch] at near ⊢
    generalize p.move b = m at near ⊢
    cases m with
    | shift q => exact (ih (Nat.lt_of_succ_lt_succ near)).push b
    | close tag => exact .token _ _ tag
    | take tag => exact .token _ _ tag

theorem leading_used (chunked : Bool) (width : Nat) (input : List Byte) :
    width ≤ (leading chunked width input).used := by
  induction input using leading_cases generalizing width with
  | nil =>
    rw [leading]
    split <;> simp [Scan.used, Scan.cut, Scan.finish, margin]
  | space z ih =>
    rw [leading_space]
    exact Nat.le_of_succ_le (ih (width + 1))
  | ended e z h ih =>
    rw [leading_lineEnd _ h, Scan.used_skip, margin, List.length_append, List.length_replicate]
    omega
  | opens z h =>
    rw [leading_opens _ h]
    split <;> simp [Scan.used, Scan.token, margin]

theorem leading_finds {chunked : Bool} {width : Nat} (y' : List Byte)
    (near : (leading chunked width (x ++ y)).used + 2 ≤ width + x.length) :
    (leading chunked width (x ++ y)).Finds (leading chunked width (x ++ y')) := by
  induction x using leading_cases generalizing width with
  | nil =>
    have low := leading_used chunked width ([] ++ y)
    rw [List.length_nil] at near
    omega
  | space z ih =>
    rw [List.cons_append, leading_space, List.length_cons] at near
    rw [List.cons_append, List.cons_append, leading_space, leading_space]
    exact ih (by omega)
  | ended e z h ih =>
    rw [List.append_assoc, leading_lineEnd _ h, Scan.used_skip, margin] at near
    simp only [List.length_append, List.length_replicate] at near
    rw [List.append_assoc, List.append_assoc, leading_lineEnd _ h, leading_lineEnd _ h]
    exact (ih (by omega)).skip _
  | opens z h =>
    -- The text has two bytes at least, so what comes behind it cannot make a line end of the first.
    obtain - | ⟨b, - | ⟨c, z⟩⟩ := z
    · exact h.elim
    · have low := leading_used chunked width ([b] ++ y)
      rw [List.length_cons, List.length_nil] at near
      omega
    · have opens : ∀ tail, Opens (b :: c :: (z ++ tail)) := fun _ => h
      simp only [List.cons_append]
      rw [leading_opens _ (opens y), leading_opens _ (opens y')]
      by_cases tab : some b = some Byte.tab
      · rw [List.head?_cons, List.head?_cons, if_pos tab, if_pos tab]
        exact .token _ _ .invalid
      · rw [List.head?_cons, List.head?_cons, if_neg tab, if_neg tab]
        exact .token _ _ .indent

theorem between_finds {flags : Flags} (y' : List Byte)
    (near : (between flags (x ++ y)).used + 2 ≤ x.length) :
    (between flags (x ++ y)).Finds (between flags (x ++ y')) := by
  have token : ∀ {p : Part} {b : Byte} {rest : List Byte},
      ((munch flags.chunked p (rest ++ y)).push b).used + 2 ≤ (b :: rest).length →
      ((munch flags.chunked p (rest ++ y)).push b).Finds
        ((munch flags.chunked p (rest ++ y')).push b) := by
    intro p b rest near
    refine (munch_finds y' ?_).push b
    rw [Scan.used_push, Scan.used, List.length_cons] at near
    omega
  fun_induction between flags x with
  | case1 => cases near
  | case2 b rest blank spaces =>
    simp only [List.cons_append, between, if_pos blank, if_pos spaces] at near ⊢
    exact token near
  | case3 b rest blank loose ih =>
    simp only [List.cons_append, between, if_pos blank, if_neg loose, Scan.used_skip,
      List.length_cons, List.length_nil] at near ⊢
    exact (ih (by omega)).skip [b]
  | case4 b rest solid ret ih =>
    simp only [List.cons_append, between, if_neg solid, if_pos ret, Scan.used_skip,
      List.length_cons, List.length_nil] at near ⊢
    exact (ih (by omega)).skip [b]
  | case5 b rest solid ret feed tracked =>
    simp only [List.cons_append, between, if_neg solid, if_neg ret, if_pos feed, if_pos tracked,
      Scan.used_skip, List.length_cons, List.length_nil] at near ⊢
    exact (leading_finds y' (by omega)).skip [b]
  | case6 b rest solid ret feed free ih =>
    simp only [List.cons_append, between, if_neg solid, if_neg ret, if_pos feed, if_neg free,
      Scan.used_skip, List.length_cons, List.length_nil] at near ⊢
    exact (ih (by omega)).skip [b]
  | case7 b rest solid ret feed p opens =>
    simp only [List.cons_append, between, if_neg solid, if_neg ret, if_neg feed, opens] at near ⊢
    exact token near
  | case8 b rest solid ret feed tag opens =>
    simp only [List.cons_append, between, if_neg solid, if_neg ret, if_neg feed, opens]
    exact .token _ _ tag

/-- A token that ends two bytes before the end of a text is found there whatever follows. -/
theorem scan_finds {flags : Flags} {state : ScanState} (y' : List Byte)
    (near : (scan flags state (x ++ y)).used + 2 ≤ x.length) :
    (scan flags state (x ++ y)).Finds (scan flags state (x ++ y')) := by
  cases state with
  | gap =>
    rw [scan, Scan.used_resolve] at near
    exact (between_finds y' near).resolve
  | lineStart => exact leading_finds y' (Nat.le_trans near (Nat.le_add_left _ _))
  | within p =>
    rw [scan, Scan.used_resolve, Scan.used] at near
    exact (munch_finds y' (by omega)).resolve

end Scans

namespace Scanner

/-- Two scanners that have come to the same place, before texts that are the same up to an offset. -/
structure Agrees (n : Nat) (u u' : Scanner) : Prop where
  same : u' = { u with rest := u'.rest }
  text : ∃ x y y', u.rest = x ++ y ∧ u'.rest = x ++ y' ∧ u.here.offset + x.length = n

theorem agrees_ofSource (flags : Flags) {s s' : Source} {n : Nat} (room : n ≤ s.length)
    (agree : s'.bytes.take n = s.bytes.take n) :
    (ofSource flags s).Agrees n (ofSource flags s') := by
  refine ⟨rfl, s.bytes.take n, s.bytes.drop n, s'.bytes.drop n, ?_, ?_, ?_⟩
  · exact (List.take_append_drop _ _).symm
  · rw [← agree]
    exact (List.take_append_drop _ _).symm
  · have origin : (ofSource flags s).here.offset = 0 := rfl
    rw [origin, Nat.zero_add, List.length_take]
    exact Nat.min_eq_left room

theorem stop_nextFrom (u : Scanner) (state : ScanState) :
    (u.nextFrom state).1.stop = (u.nextFrom state).2.here.offset := rfl

theorem offset_nextFrom (u : Scanner) (state : ScanState) :
    (u.nextFrom state).2.here.offset = u.here.offset + (scan u.flags state u.rest).used := by
  unfold nextFrom Scan.used
  simp only [Place.offset_advance]
  omega

variable {n : Nat} {u u' : Scanner}

theorem Agrees.nextFrom (h : u.Agrees n u') (state : ScanState)
    (near : (u.nextFrom state).1.stop + 2 ≤ n) :
    (u'.nextFrom state).1 = (u.nextFrom state).1 ∧
      (u.nextFrom state).2.Agrees n (u'.nextFrom state).2 := by
  obtain ⟨flags, rest, here, last, halted⟩ := u
  obtain ⟨flags', rest', here', last', halted'⟩ := u'
  obtain ⟨same, x, y, y', text, text', length⟩ := h
  cases same
  dsimp only at text text' length
  subst text text'
  have stop := offset_nextFrom ⟨flags, x ++ y, here, last, halted⟩ state
  rw [stop_nextFrom, stop] at near
  dsimp only at near stop
  have near : (scan flags state (x ++ y)).used + 2 ≤ x.length := by omega
  have finds := scan_finds y' near
  have used : (scan flags state (x ++ y')).used = (scan flags state (x ++ y)).used := by
    rw [Scan.used, finds.skipped, finds.text, Scan.used]
  have within : (scan flags state (x ++ y)).used ≤ x.length := by omega
  refine ⟨?_, ?_, x.drop (scan flags state (x ++ y)).used, y, y', ?_, ?_, ?_⟩
  · simp only [nextFrom, finds.skipped, finds.text, finds.tag]
  · simp only [nextFrom, finds.skipped, finds.text, finds.halted]
  · rw [rest_nextFrom, Scan.rest_eq, scan_bytes, List.drop_append_of_le_length within]
  · rw [rest_nextFrom, Scan.rest_eq, scan_bytes, used, List.drop_append_of_le_length within]
  · rw [stop, List.length_drop]
    omega

end Scanner

/- What a step leads to when the text has been read up to an offset: a failure is reported no earlier,
and the token at hand is always the last one read. -/
def Onward (n : Nat) : Attempt Next → Prop
  | .ok (.move d) => n ≤ d.scanner.here.offset ∧ d.token.stop = d.scanner.here.offset
  | .ok (.done _ _) => True
  | .error f => ∀ named ∈ f.error.token?, n ≤ named.stop

inductive Follows (n : Nat) : Attempt Next → Attempt Next → Prop where
  | error (f : Fault) : Follows n (.error f) (.error f)
  | done (root : NodeId) (d : Config) (u u' : Scanner) :
      Follows n (.ok (.done root (d.on u))) (.ok (.done root (d.on u')))
  | move (d : Config) {u u' : Scanner} : u.Agrees (n + 1) u' →
      Follows n (.ok (.move (d.on u))) (.ok (.move (d.on u')))

section Steps

variable {n : Nat} {u u' : Scanner} {t : Token} {g : Scanner → Attempt Next}

theorem Onward.mono {m : Nat} {r : Attempt Next} (h : Onward m r) (le : n ≤ m) : Onward n r := by
  cases r with
  | error f => exact fun named found => Nat.le_trans le (h named found)
  | ok next =>
    cases next with
    | move d => exact ⟨Nat.le_trans le h.1, h.2⟩
    | done root d => trivial

theorem Scanner.offset_next_le (u : Scanner) : u.here.offset ≤ u.next.2.here.offset := by
  rw [next, offset_nextFrom]
  exact Nat.le_add_right _ _

theorem Scanner.Agrees.next (h : u.Agrees (n + 1) u') :
    n ≤ u.next.2.here.offset ∨ u'.next.1 = u.next.1 ∧ u.next.2.Agrees (n + 1) u'.next.2 := by
  by_cases near : u.next.1.stop + 2 ≤ n + 1
  · exact .inr (h.nextFrom .gap near)
  · have stop : u.next.1.stop = u.next.2.here.offset := rfl
    exact .inl (by omega)

theorem onward_consume (d : Config) (goal : Goal) (u : Scanner) :
    Onward u.next.2.here.offset (.ok (.move ((d.on u).consume goal))) := ⟨Nat.le_refl _, rfl⟩

theorem Scanner.Agrees.consume (h : u.Agrees (n + 1) u') (d : Config) (goal : Goal) :
    Onward n (.ok (.move ((d.on u).consume goal))) ∨
      Follows n (.ok (.move ((d.on u).consume goal))) (.ok (.move ((d.on u').consume goal))) := by
  rcases h.next with past | ⟨same, agrees⟩
  · exact .inl ((onward_consume d goal u).mono past)
  · have follows := Follows.move { d with goal, token := u.next.1 } agrees
    refine .inr ?_
    rw [show (d.on u').consume goal = { d with goal, token := u.next.1 }.on u'.next.2 by
      rw [← same]; rfl]
    exact follows

theorem Glance.onward (h : Glance g) (u : Scanner) : Onward u.next.2.here.offset (g u) := by
  cases h with
  | full spent =>
    intro named found
    rw [spent] at found
    cases found
  | refuse w =>
    rintro _ ⟨⟩
    exact Nat.le_refl _
  | read d goal => exact onward_consume d goal u
  | pass d goal => exact (onward_consume d goal u.next.2).mono u.next.2.offset_next_le

theorem Glance.follows (h : Glance g) (agrees : u.Agrees (n + 1) u') (same : u'.next.1 = u.next.1)
    (next : u.next.2.Agrees (n + 1) u'.next.2) : Onward n (g u) ∨ Follows n (g u) (g u') := by
  cases h with
  | full => exact .inr (.error _)
  | refuse w =>
    have peeked : u'.peek = u.peek := same
    dsimp only
    rw [peeked]
    exact .inr (.error _)
  | read d goal => exact agrees.consume d goal
  | pass d goal => exact next.consume d goal

theorem Looks.onward (h : Looks t g) (read : t.stop = u.here.offset) :
    Onward u.here.offset (g u) := by
  cases h with
  | fail names =>
    intro named found
    rw [names named found, read]
  | done => trivial
  | keep same =>
    refine ⟨Nat.le_refl _, ?_⟩
    rw [Config.on_token, same, read]
    rfl
  | read d goal => exact (onward_consume d goal u).mono u.offset_next_le
  | look tag found other =>
    dsimp only
    split
    · exact (found.onward u).mono u.offset_next_le
    · exact (other.onward u).mono u.offset_next_le

/-- A step that has not read past the offset does the same before both texts. -/
theorem Looks.follows (h : Looks t g) (agrees : u.Agrees (n + 1) u') :
    Onward n (g u) ∨ Follows n (g u) (g u') := by
  cases h with
  | fail => exact .inr (.error _)
  | done root d => exact .inr (.done root d u u')
  | @keep d => exact .inr (.move d agrees)
  | read d goal => exact agrees.consume d goal
  | @look tag found other glance glance' =>
    have past : n ≤ u.next.2.here.offset →
        Onward n (if u.peek.tag = tag then found u else other u) := by
      intro far
      split
      · exact (glance.onward u).mono far
      · exact (glance'.onward u).mono far
    rcases agrees.next with far | ⟨same, next⟩
    · exact .inl (past far)
    · have peeked : u'.peek = u.peek := same
      dsimp only
      rw [peeked]
      split
      · exact glance.follows agrees same next
      · exact glance'.follows agrees same next

end Steps

namespace Source.Reaches

variable {s : Source} {a : Arena} {c d : Config}

theorem tail (h : s.Reaches a c) (moved : c.step = .ok (.move d)) : s.Reaches a d := by
  obtain ⟨start, begun, moves⟩ := h
  exact ⟨start, begun, moves.tail moved⟩

theorem looks (h : s.Reaches a c) : Looks c.token fun u => (c.on u).step := by
  obtain ⟨ts, P, tracks⟩ := h.tracks
  have noted : c.noted.Tracks ts a.nodes.toList P := tracks
  exact Config.step_looks noted.disciplined.sheltered

variable {f : Fault} {n : Nat}

theorem run_onward (h : s.Reaches a c) (read : c.token.stop = c.scanner.here.offset)
    (ran : c.run = .error f) : ∀ named ∈ f.error.token?, c.scanner.here.offset ≤ named.stop := by
  induction c using Config.run.induct with
  | case1 c d moved ih =>
    have onward : Onward c.scanner.here.offset c.step := h.looks.onward read
    rw [moved] at onward
    rw [Config.run_of_move moved] at ran
    intro named found
    exact Nat.le_trans onward.1 (ih (h.tail moved) onward.2 ran named found)
  | case2 c root d finished =>
    rw [Config.run_of_done finished] at ran
    cases ran
  | case3 c fault failed =>
    have onward : Onward c.scanner.here.offset c.step := h.looks.onward read
    rw [Config.run_of_error failed] at ran
    cases ran
    rw [failed] at onward
    exact onward

/-- A run that fails before the texts part fails in the same way before the other text. -/
theorem run_follows {u' : Scanner} {t : Token} (h : s.Reaches a c)
    (read : c.token.stop = c.scanner.here.offset) (agrees : c.scanner.Agrees (n + 1) u')
    (ran : c.run = .error f) (named : f.error.token? = some t) (near : t.stop < n) :
    (c.on u').run = .error f := by
  induction c using Config.run.induct generalizing u' with
  | case1 c d moved ih =>
    rw [Config.run_of_move moved] at ran
    have onward : Onward c.scanner.here.offset c.step := h.looks.onward read
    have follows : Onward n c.step ∨ Follows n c.step (c.on u').step := h.looks.follows agrees
    rw [moved] at onward follows
    rcases follows with past | follows
    -- A step that has read past the offset leads to no failure before it.
    · have late := (h.tail moved).run_onward onward.2 ran t named
      have := past.1
      omega
    · generalize stepped : (c.on u').step = r at follows
      cases follows with
      | move d agrees' =>
        rw [Config.run_of_move stepped]
        exact ih (h.tail moved) onward.2 agrees' ran
  | case2 c root d finished =>
    rw [Config.run_of_done finished] at ran
    cases ran
  | case3 c fault failed =>
    have follows : Onward n c.step ∨ Follows n c.step (c.on u').step := h.looks.follows agrees
    rw [Config.run_of_error failed] at ran
    cases ran
    rw [failed] at follows
    rcases follows with past | follows
    · have := past t named
      omega
    · generalize stepped : (c.on u').step = r at follows
      cases follows
      exact Config.run_of_error stepped

end Source.Reaches

theorem Config.ofSource_follows {s s' : Source} {n : Nat} (a : Arena)
    (agrees : (Scanner.ofSource .layout s).Agrees (n + 1) (.ofSource .layout s')) :
    ofSource a s = .ok none ∨
    (∃ t, ofSource a s = .error ⟨.unexpectedToken t, .ofSource a s⟩ ∧
      (n ≤ t.stop ∨ ofSource a s' = .error ⟨.unexpectedToken t, .ofSource a s'⟩)) ∨
    ∃ c, ofSource a s = .ok (some c) ∧ c.token.stop = c.scanner.here.offset ∧
      (n ≤ c.scanner.here.offset ∨ ∃ u' log, c.scanner.Agrees (n + 1) u' ∧
        ofSource a s' = .ok (some { c.on u' with work := { c.work with log } })) := by
  have first := agrees.nextFrom .lineStart
  have stop := (Scanner.ofSource .layout s).stop_nextFrom .lineStart
  unfold ofSource
  dsimp only
  generalize (Scanner.ofSource .layout s).nextFrom .lineStart = r at first stop ⊢
  generalize (Scanner.ofSource .layout s').nextFrom .lineStart = r' at first ⊢
  obtain ⟨t, u⟩ := r
  obtain ⟨t', u'⟩ := r'
  dsimp only at first stop ⊢
  by_cases near : t.stop + 2 ≤ n + 1
  · obtain ⟨rfl, ahead⟩ := first near
    split
    · exact .inl rfl
    · refine .inr (.inr ⟨_, rfl, rfl, ?_⟩)
      rcases ahead.next with past | ⟨same, ahead⟩
      · exact .inl past
      · refine .inr ⟨u'.next.2, [.firstLine t'.length, .started s'.length], ahead, ?_⟩
        rw [same]
        rfl
    · exact .inr (.inl ⟨_, rfl, .inr rfl⟩)
  · have past : n ≤ t.stop := by omega
    split
    · exact .inl rfl
    · refine .inr (.inr ⟨_, rfl, rfl, .inl ?_⟩)
      rw [stop] at past
      exact Nat.le_trans past u.offset_next_le
    · exact .inr (.inl ⟨_, rfl, .inl past⟩)

theorem Arena.eq_of_nodes {a b : Arena} (nodes : a.nodes.toList = b.nodes.toList)
    (limit : a.limit = b.limit) : a = b := by
  obtain ⟨⟨ns⟩, l, _⟩ := a
  obtain ⟨⟨ms⟩, m, _⟩ := b
  cases nodes
  cases limit
  rfl

/- What the log holds has no part in the parse: both runs correspond to one run into an empty arena. -/
theorem Config.run_of_log {s : Source} {a : Arena} {c : Config} {log : List Event} {f : Fault}
    (begun : ofSource a s = .ok (some { c with work := { c.work with log } }))
    (ran : c.run = .error f) (room : f.error ≠ .outOfMemory) :
    ∃ f', Config.run { c with work := { c.work with log } } = .error f' ∧ f'.error = f.error ∧
      f'.work.arena = f.work.arena := by
  obtain ⟨b, h'⟩ :
      ∃ b, (Lockstep.framing a).Configs b { c with work := { c.work with log } } := by
    rcases (Lockstep.framing_begins a s).ofSource with ⟨-, right⟩ | ⟨b, _, -, right, h⟩ |
      ⟨_, _, -, right, -⟩
    · cases right.symm.trans begun
    · cases right.symm.trans begun
      exact ⟨b, h⟩
    · cases right.symm.trans begun
  have h : (Lockstep.framing a).Configs b c :=
    ⟨h'.goal, h'.token, h'.scanner, h'.frames, h'.grid,
      h'.work.arena, h'.work.operands, h'.work.operators⟩
  have runs := h.run
  have runs' := h'.run
  rw [ran] at runs
  generalize b.run = r at runs runs'
  generalize Config.run { c with work := { c.work with log } } = r' at runs'
  cases runs with
  | short _ full => exact absurd full room
  | error errors arenas =>
    cases runs' with
    | short past _ _ =>
      have past := Lockstep.framing_over past
      have fits := (Lockstep.framing_arenas arenas).2
      omega
    | error errors' arenas' =>
      refine ⟨_, rfl, ?_, ?_⟩
      · exact (Lockstep.framing_errors errors').trans (Lockstep.framing_errors errors).symm
      · have nodes := (Lockstep.framing_arenas arenas').1.trans (Lockstep.framing_arenas arenas).1.symm
        exact Arena.eq_of_nodes nodes (arenas'.limit'.trans arenas.limit'.symm)

/-- The text behind the token at which a parse fails, but for the two bytes after it, has no part in
the error and in what was built. -/
theorem Source.parse_error_of_agree {s s' : Source} {a : Arena} {e : ParseError} {t : Token}
    (failed : (s.parse a).outcome = .error e) (named : e.token? = some t)
    (room : t.stop + 2 ≤ s.length)
    (agree : s'.bytes.take (t.stop + 2) = s.bytes.take (t.stop + 2)) :
    (s'.parse a).outcome = .error e ∧ (s'.parse a).arena = (s.parse a).arena := by
  rcases Config.ofSource_follows a (Scanner.agrees_ofSource .layout room agree) with blank |
    ⟨first, broken, follows⟩ | ⟨c, begun, read, follows⟩
  · rw [(parse_blank blank).1] at failed
    cases failed
  · rw [(parse_broken broken).1] at failed
    cases failed
    cases named
    rcases follows with past | broken'
    · omega
    · rw [(parse_broken broken').1, (parse_broken broken').2, (parse_broken broken).2]
      exact ⟨rfl, rfl⟩
  · have reaches : s.Reaches a c := ⟨c, begun, .refl⟩
    cases ran : c.run with
    | ok r =>
      rw [(parse_ok begun ran).1] at failed
      cases failed
    | error f =>
      rw [(parse_error begun ran).1] at failed
      cases failed
      have onward := reaches.run_onward read ran t named
      rcases follows with past | ⟨u', log, ahead, begun'⟩
      · omega
      · have same := reaches.run_follows read ahead ran named (Nat.lt_succ_self _)
        have room : f.error ≠ .outOfMemory := by
          intro full
          rw [full] at named
          cases named
        obtain ⟨f', ran', error, arena⟩ := Config.run_of_log begun' same room
        rw [(parse_error begun' ran').1, (parse_error begun' ran').2, (parse_error begun ran).2, error,
          arena]
        exact ⟨rfl, rfl⟩

/- The line behind the block does not begin with the parenthesis; what else is on it does not count. -/
theorem Source.parse_error_of_agree_line :
    ((ofText "(\n  1\n2) + 3").parse .empty).outcome = .error (.unexpectedToken ⟨.number, 6, 7⟩) ∧
      ((ofText "(\n  1\n2) ]]]\n").parse .empty).outcome =
        .error (.unexpectedToken ⟨.number, 6, 7⟩) ∧
      ((ofText "(\n  1\n2) ]]]\n").parse .empty).arena =
        ((ofText "(\n  1\n2) + 3").parse .empty).arena := by
  have failed : ((ofText "(\n  1\n2) + 3").parse .empty).outcome =
      .error (.unexpectedToken ⟨.number, 6, 7⟩) := outcome_of_within (n := 15) rfl
  exact ⟨failed, parse_error_of_agree failed rfl (by decide) (by decide)⟩

end Offside
