import Offside.Proofs.Discipline
import Offside.Proofs.Frontier

/-! The grid that lines are indented on. A parse that succeeds has found every line on the grid that
its first lines fix; a line off the grid ends the parse where it is met, whatever it is read for. -/
namespace Offside

/-- A width on a grid: the trim and a whole number of units, or the trim alone if there is no unit. -/
def OnGrid (trim : Nat) : Option Nat → Nat → Prop
  | none, width => width = trim
  | some unit, width => ∃ levels, width = trim + levels * unit

def firstExcess? (trim : Nat) (ts : List Token) : Option Nat :=
  (ts.find? fun t => t.tag = .indent ∧ trim < t.length).map fun t => t.length - trim

/-- Every line of the source is on the grid of its first line and of the first one that is wider. -/
def Source.Aligned (s : Source) : Prop :=
  ∃ first rest, s.layoutTokens = first :: rest ∧ first.tag = .indent ∧
    ∀ t ∈ s.layoutTokens, t.tag = .indent →
      OnGrid first.length (firstExcess? first.length rest) t.length

theorem onGrid_trim (trim : Nat) (unit : Option Nat) : OnGrid trim unit trim := by
  cases unit with
  | none => rfl
  | some unit => exact ⟨0, by omega⟩

namespace Grid

/-- An indentation that has no place on the grid as far as it is known. -/
def Excludes (g : Grid) (t : Token) : Prop :=
  t.length < g.trim ∨ ∃ unit, g.unit = some unit ∧ ¬OnGrid g.trim (some unit) t.length

variable {g g' : Grid} {t : Token} {level : Nat}

theorem measure_of_excludes (off : g.Excludes t) : g.measure t = .error (.unalignedIndent t) := by
  unfold measure
  rcases off with narrow | ⟨unit, known, off⟩
  · rw [if_pos narrow]
  · split
    · rfl
    · rename_i wide
      have deep : ¬t.length - g.trim = 0 := by
        intro flat
        have trim : t.length = g.trim := by omega
        exact off (trim ▸ onGrid_trim _ _)
      have broken : ¬(t.length - g.trim) % unit = 0 := by
        intro whole
        have levels := Nat.div_mul_cancel (Nat.dvd_of_mod_eq_zero whole)
        exact off ⟨(t.length - g.trim) / unit, by omega⟩
      simp only [if_neg deep, known, if_neg broken]

theorem measure_inv (found : g.measure t = .ok (level, g')) :
    (t.length = g.trim ∧ g' = g) ∨
      (g.unit = none ∧ g.trim < t.length ∧ g' = { g with unit := some (t.length - g.trim) }) ∨
      ∃ unit, g.unit = some unit ∧ OnGrid g.trim (some unit) t.length ∧ g' = g := by
  unfold measure at found
  split at found
  · cases found
  · rename_i wide
    dsimp only at found
    split at found
    · rename_i flat
      cases found
      exact .inl ⟨by omega, rfl⟩
    · rename_i deep
      split at found
      · rename_i unknown
        cases found
        exact .inr (.inl ⟨unknown, by omega, rfl⟩)
      · rename_i unit known
        split at found
        · rename_i whole
          cases found
          have levels := Nat.div_mul_cancel (Nat.dvd_of_mod_eq_zero whole)
          exact .inr (.inr ⟨unit, known, ⟨(t.length - g.trim) / unit, by omega⟩, rfl⟩)
        · cases found

end Grid

def Leveled (xs : List Lexeme) : Prop := ∀ x ∈ xs, x.tag = .indent → x.level.isSome = true

section Labels

variable {g : Grid} {t : Token} {ts : List Token}

theorem Grid.label_cons (leveled : Leveled (g.label (t :: ts))) :
    (t.tag ≠ .indent ∧ Leveled (g.label ts)) ∨
      (t.tag = .indent ∧ ∃ level g', g.measure t = .ok (level, g') ∧ Leveled (g'.label ts)) := by
  unfold Grid.label at leveled
  split at leveled
  · rename_i line
    cases found : g.measure t with
    | ok r =>
      rw [found] at leveled
      exact .inr ⟨line, r.1, r.2, rfl, (List.forall_mem_cons.mp leveled).2⟩
    | error e =>
      rw [found] at leveled
      cases (List.forall_mem_cons.mp leveled).1 line
  · rename_i plain
    exact .inl ⟨plain, (List.forall_mem_cons.mp leveled).2⟩

theorem onGrid_of_unit {unit : Nat} (known : g.unit = some unit) (leveled : Leveled (g.label ts)) :
    ∀ t ∈ ts, t.tag = .indent → OnGrid g.trim (some unit) t.length := by
  induction ts with
  | nil => nofun
  | cons t ts ih =>
    rcases Grid.label_cons leveled with ⟨plain, rest⟩ | ⟨-, level, g', found, rest⟩
    · exact List.forall_mem_cons.mpr ⟨fun line => absurd line plain, ih rest⟩
    · rcases Grid.measure_inv found with ⟨flat, rfl⟩ | ⟨unknown, -⟩ | ⟨unit', known', on, rfl⟩
      · refine List.forall_mem_cons.mpr ⟨fun _ => ?_, ih rest⟩
        rw [flat]
        exact onGrid_trim _ _
      · rw [known] at unknown
        cases unknown
      · obtain rfl := Option.some.inj (known.symm.trans known')
        exact List.forall_mem_cons.mpr ⟨fun _ => on, ih rest⟩

/-- If every line has a level, the first one beyond the trim has fixed the unit for all of them. -/
theorem onGrid_of_leveled (unknown : g.unit = none) (leveled : Leveled (g.label ts)) :
    ∀ t ∈ ts, t.tag = .indent → OnGrid g.trim (firstExcess? g.trim ts) t.length := by
  induction ts with
  | nil => nofun
  | cons t ts ih =>
    rcases Grid.label_cons leveled with ⟨plain, rest⟩ | ⟨line, level, g', found, rest⟩
    · have same : firstExcess? g.trim (t :: ts) = firstExcess? g.trim ts := by
        simp [firstExcess?, plain]
      rw [same]
      exact List.forall_mem_cons.mpr ⟨fun line => absurd line plain, ih rest⟩
    · rcases Grid.measure_inv found with ⟨flat, rfl⟩ | ⟨-, wide, rfl⟩ | ⟨unit, known, -⟩
      · have same : firstExcess? g'.trim (t :: ts) = firstExcess? g'.trim ts := by
          simp [firstExcess?, flat]
        rw [same]
        refine List.forall_mem_cons.mpr ⟨fun _ => ?_, ih rest⟩
        rw [flat]
        exact onGrid_trim _ _
      · have first : firstExcess? g.trim (t :: ts) = some (t.length - g.trim) := by
          simp [firstExcess?, line, wide]
        rw [first]
        refine List.forall_mem_cons.mpr ⟨fun _ => ⟨1, by omega⟩, ?_⟩
        exact onGrid_of_unit (g := { g with unit := some (t.length - g.trim) }) rfl rest
      · rw [unknown] at known
        cases known

end Labels

def Lines (ts rest : List Lexeme) : Prop := ∃ used, ts = used ++ rest ∧ Leveled used

section Derived

variable {ends : Tail → List Lexeme → Prop} {phrase : Phrase} {x : Lexeme} {tag : TokenTag} {l : Nat}
  {ts mid rest : List Lexeme} {X : List Piece}

theorem Lines.trans (h : Lines ts mid) (h' : Lines mid rest) : Lines ts rest := by
  obtain ⟨xs, rfl, leveled⟩ := h
  obtain ⟨ys, rfl, leveled'⟩ := h'
  exact ⟨xs ++ ys, (List.append_assoc _ _ _).symm, List.forall_mem_append.mpr ⟨leveled, leveled'⟩⟩

theorem lines_token (found : x.tag = tag) (plain : tag ≠ .indent) : Lines (x :: rest) rest := by
  refine ⟨[x], rfl, ?_⟩
  intro y member line
  obtain rfl := List.mem_singleton.mp member
  exact absurd (found.symm.trans line) plain

theorem lines_line (line : x.IsLine l) : Lines (x :: rest) rest := by
  refine ⟨[x], rfl, ?_⟩
  intro y member _
  obtain rfl := List.mem_singleton.mp member
  rw [line.2]
  rfl

theorem lines_operator {scope : Scope} {tag : NodeTag} {token : Option Token}
    (found : scope.operator? l ts = some (tag, token, rest)) : Lines ts rest := by
  rcases Scope.operator?_cases found with ⟨x, rfl, -, plain | ⟨equal, -⟩⟩ |
    ⟨x, line, -, -, ⟨rfl, -⟩ | ⟨y, bar, rfl, -⟩⟩
  · refine lines_token rfl ?_
    intro line
    rw [line] at plain
    cases plain
  · exact lines_token equal nofun
  · exact lines_line line
  · exact (lines_line line).trans (lines_token bar nofun)

theorem Derives.lines (h : Derives ends phrase ts X rest) : Lines ts rest := by
  induction h with
  | weaken _ ih => exact ih
  | binary _ found _ left right => exact left.trans ((lines_operator found).trans right)
  | negate minus _ ih => exact (lines_token minus nofun).trans ih
  | single _ ih => exact ih
  | leaf found =>
    refine lines_token rfl ?_
    intro line
    rw [line] at found
    cases found
  | group paren _ closed ih =>
    exact (lines_token paren nofun).trans (ih.trans (lines_token closed nofun))
  | groupBlock paren line _ closes ih =>
    have opened := (lines_token paren nofun).trans ((lines_line line).trans ih)
    obtain ⟨z, closed, rfl | ⟨n, line', rfl⟩⟩ := closes
    · exact opened.trans (lines_token closed nofun)
    · exact opened.trans ((lines_line line').trans (lines_token closed nofun))
  | name dot ident _ _ attrs defined =>
    exact (lines_token dot nofun).trans ((lines_token ident nofun).trans (attrs.trans defined))
  | control _ line _ _ heads ih => exact heads.trans ((lines_line line).trans ih)
  | unattributed => exact ⟨[], rfl, nofun⟩
  | noAttributes open_ closed => exact (lines_token open_ nofun).trans (lines_token closed nofun)
  | attributes open_ _ closed ih =>
    exact (lines_token open_ nofun).trans (ih.trans (lines_token closed nofun))
  | undefined _ => exact ⟨[], rfl, nofun⟩
  | value equal _ _ ih => exact (lines_token equal nofun).trans ih
  | body line _ _ ih => exact (lines_line line).trans ih
  | header found _ ih =>
    refine (lines_token rfl ?_).trans ih
    intro line
    rw [line] at found
    cases found
  | otherwise word => exact lines_token word nofun

end Derived

theorem Source.Document.aligned {s : Source} {ends : Tail → List Lexeme → Prop} {tree : Tree}
    (h : s.Document ends tree) : s.Aligned := by
  obtain ⟨ts, lexemes, x, e, der, last, -⟩ := h
  obtain ⟨first, rest, line, tokens, rfl, -⟩ := lexemes_label lexemes
  obtain ⟨used, split, leveled⟩ := der.lines
  have ended : Leveled [e] := by
    intro y member line
    obtain rfl := List.mem_singleton.mp member
    rw [last] at line
    cases line
  have all : Leveled ((Grid.ofTrim first.length).label rest) := by
    rw [split]
    exact List.forall_mem_append.mpr ⟨leveled, ended⟩
  refine ⟨first, rest, tokens, line, ?_⟩
  rw [tokens]
  exact List.forall_mem_cons.mpr ⟨fun _ => onGrid_trim _ _, onGrid_of_leveled rfl all⟩

namespace Config

variable {stream : List Lexeme} {old : List Node} {c : Config} {P : List Piece}

/- The end of a value does not look at the line behind it, which was measured when the value was
left. -/
theorem Tracks.not_excludes_value (tracks : c.Tracks stream old P) (goal : c.goal = .close .value)
    (line : c.token.tag = .indent) : ¬c.grid.Excludes c.token := by
  intro off
  obtain ⟨-, expects⟩ := tracks
  have ahead : c.ahead = ⟨c.token, none⟩ :: c.behind := by
    simp [ahead, input, Grid.label, line, Grid.measure_of_excludes off, behind]
  rw [goal, ahead] at expects
  cases expects with
  | close _ _ _ allowed =>
    rcases allowed with ⟨-, level⟩ | closes
    · cases level
    · simp [Lexeme.tag, line, TokenTag.closes] at closes

theorem choice_of_excludes (line : c.token.tag = .indent) (goal : c.goal ≠ .close .value)
    (off : c.grid.Excludes c.token) : c.choice = (c.grid, .refuse .unaligned) := by
  unfold choice
  rw [if_pos ⟨line, goal⟩, Grid.measure_of_excludes off]

/-- A line off the grid is reported as such, whatever it is read for. -/
theorem dispatch_of_excludes (tracks : c.Tracks stream old P) (line : c.token.tag = .indent)
    (off : c.grid.Excludes c.token) :
    c.dispatch = .error ⟨.unalignedIndent c.token, c.work⟩ := by
  have goal : c.goal ≠ .close .value := fun value => tracks.not_excludes_value value line off
  rw [dispatch_eq, choose, choice_of_excludes line goal off]
  rfl

theorem run_of_moves {d : Config} (moves : Relation.ReflTransGen Moves c d) : c.run = d.run := by
  induction moves with
  | refl => rfl
  | tail _ moved ih => exact ih.trans (run_of_move moved)

end Config

/-- A parse that succeeds has every line on one grid. In every configuration that a parse comes to, a
line off the grid ends it there, as what it is and with nothing more built. -/
theorem Source.parse_aligned (s : Source) (a : Arena) :
    (∀ root, (s.parse a).outcome = .ok (some root) → s.Aligned) ∧
      ∀ c, s.Reaches a c → c.token.tag = .indent → c.grid.Excludes c.token →
        c.step = .error ⟨.unalignedIndent c.token, c.noted.work⟩ ∧
          (s.parse a).outcome = .error (.unalignedIndent c.token) ∧
          (s.parse a).arena = c.work.arena := by
  constructor
  · intro root parsed
    obtain ⟨tree, document, -⟩ := parse_shows parsed
    exact document.aligned
  · intro c reaches line off
    obtain ⟨ts, P, tracks⟩ := reaches.tracks
    obtain ⟨start, begun, moves⟩ := reaches
    have noted : c.noted.Tracks ts a.nodes.toList P := tracks
    have failed : c.step = .error ⟨.unalignedIndent c.token, c.noted.work⟩ :=
      Config.dispatch_of_excludes noted line off
    have ran := (Config.run_of_moves moves).trans (Config.run_of_error failed)
    exact ⟨failed, (parse_error begun ran).1, (parse_error begun ran).2⟩

/-- Two levels of two spaces each, and a line of one space where two are the unit. -/
theorem Source.parse_aligned_levels :
    (((ofText ".a\n  .b\n    1").parse .empty).outcome = .ok (some ⟨4⟩) ∧
      (ofText ".a\n  .b\n    1").Aligned) ∧
    ∃ c, (ofText ".a\n  1\n .b").Reaches .empty c ∧ c.token.tag = .indent ∧
      c.grid.Excludes c.token ∧
      ((ofText ".a\n  1\n .b").parse .empty).outcome = .error (.unalignedIndent c.token) := by
  have parsed : ((ofText ".a\n  .b\n    1").parse .empty).outcome = .ok (some ⟨4⟩) :=
    outcome_of_within (n := 30) rfl
  have reached : ∃ c : Config, (ofText ".a\n  1\n .b").Reaches .empty c ∧
      c.token = ⟨.indent, 7, 8⟩ ∧ c.grid = ⟨0, some 2, 1⟩ :=
    ⟨_, ⟨_, rfl, .tail (.tail (.tail (.tail .refl rfl) rfl) rfl) rfl⟩, rfl, rfl⟩
  obtain ⟨c, reaches, token, grid⟩ := reached
  have line : c.token.tag = .indent := by rw [token]
  have off : c.grid.Excludes c.token := by
    refine .inr ⟨2, by rw [grid], ?_⟩
    rw [grid, token]
    rintro ⟨levels, width⟩
    have width : 1 = 0 + levels * 2 := width
    omega
  exact ⟨⟨parsed, (parse_aligned _ _).1 _ parsed⟩, c, reaches, line, off,
    ((parse_aligned _ _).2 c reaches line off).2.1⟩

end Offside
