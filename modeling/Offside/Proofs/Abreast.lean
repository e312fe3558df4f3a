import Offside.Proofs.Lockstep

/-! Steps of two parses side by side. Every rule of the language looks at the kinds of tokens and at
the levels of lines only, so that both sides take the same step. -/
namespace Offside

theorem Config.lineChoice_congr {c c' : Config} (goal : c.goal = c'.goal)
    (frames : c.frames = c'.frames) (around : c.grid.level = c'.grid.level)
    (innermost : c.work.innermost? = c'.work.innermost?) (level : Nat) :
    c.lineChoice level = c'.lineChoice level := by
  unfold lineChoice blockChoice controlChoice holdsBlocks
  rw [goal, frames, around, innermost]

theorem Config.tokenChoice_congr {c c' : Config} (goal : c.goal = c'.goal)
    (tag : c.token.tag = c'.token.tag) (around : c.grid.level = c'.grid.level)
    (innermost : c.work.innermost? = c'.work.innermost?) : c.tokenChoice = c'.tokenChoice := by
  unfold tokenChoice operatorChoice controlChoice
  rw [goal, tag, around, innermost]

namespace Lockstep

variable (L : Lockstep)

structure Configs (c c' : Config) : Prop where
  goal : c.goal = c'.goal
  token : L.alike c.token c'.token
  scanner : c.token.tag ≠ .invalid → L.ahead c.scanner c'.scanner
  frames : c.frames = c'.frames
  grid : L.grids c.grid c'.grid
  work : L.Works c.work c'.work

inductive Nexts : Next → Next → Prop where
  | move {c c' : Config} : L.Configs c c' → Nexts (.move c) (.move c')
  | done {root root' : NodeId} {c c' : Config} : L.Ids root root' → L.Works c.work c'.work →
      Nexts (.done root c) (.done root' c')

abbrev Steps : Attempt Next → Attempt Next → Prop := L.Attempts Next.arena L.Nexts

variable {L : Lockstep} {c c' : Config} {α : Type} {arena : α → Arena} {R : α → α → Prop}

theorem Works.act {w w' : Assembly} (h : L.Works w w') {t t' : Token} (near : L.alike t t')
    {act : Act} (keeps : act.keeps = true → L.kept t t') :
    L.Attempts Assembly.arena L.Works (act.run t w) (act.run t' w') := by
  have kept : ∀ {b}, (b = true → L.kept t t') → Option.Rel L.kept (t.kept b) (t'.kept b) := by
    intro b keeps
    cases b with
    | false => exact .none
    | true => exact .some (keeps rfl)
  cases act with
  | idle => exact .ok h
  | push tag b => exact .ok (h.push tag (kept keeps))
  | build tag b => exact h.build tag (kept keeps) .nil
  | binary tag b => exact h.binary tag (kept keeps) near
  | wrap marker tag => exact h.wrap marker tag near
  | define marker =>
    apply (h.wrap marker .value near).bind
    · exact fun v v' work => work.complete .nameDef near
    · exact fun v past => Assembly.complete_keeps over_stable past .nameDef
  | complete marker => exact h.complete marker near
  | group =>
    apply (h.takeScope .group near).bind
    · rintro ⟨top, inner, v⟩ ⟨top', inner', v'⟩ ⟨-, each, work⟩
      dsimp only at each work ⊢
      obtain - | ⟨first, - | ⟨second, rest⟩⟩ := each
      · exact attempts_fail work (.unexpected near)
      · exact .ok (work.withOperands (.cons first.group work.operands))
      · exact attempts_fail work (.unexpected near)
    · rintro ⟨top, inner, v⟩ past
      dsimp only
      split <;> exact past

namespace Configs

theorem tag_eq (h : L.Configs c c') : c.token.tag = c'.token.tag := L.tag_eq h.token

theorem peek_eq (h : L.Configs c c') (valid : c.token.tag ≠ .invalid) :
    c.scanner.peek.tag = c'.scanner.peek.tag := L.tag_eq (L.next (h.scanner valid)).1

theorem withWork (h : L.Configs c c') {w w' : Assembly} (work : L.Works w w') :
    L.Configs { c with work := w } { c' with work := w' } :=
  ⟨h.goal, h.token, h.scanner, h.frames, h.grid, work⟩

theorem withGrid (h : L.Configs c c') {g g' : Grid} (grids : L.grids g g') :
    L.Configs { c with grid := g } { c' with grid := g' } :=
  ⟨h.goal, h.token, h.scanner, h.frames, grids, h.work⟩

theorem consume (h : L.Configs c c') (goal : Goal) (valid : c.token.tag ≠ .invalid) :
    L.Configs (c.consume goal) (c'.consume goal) :=
  ⟨rfl, (L.next (h.scanner valid)).1, (L.next (h.scanner valid)).2, h.frames, h.grid, h.work⟩

theorem redo (h : L.Configs c c') (goal : Goal) : L.Configs (c.redo goal) (c'.redo goal) :=
  ⟨rfl, h.token, h.scanner, h.frames, h.grid, h.work⟩

theorem dropToken (h : L.Configs c c') (valid : c.token.tag ≠ .invalid)
    (peek : c.scanner.peek.tag ≠ .invalid) : L.Configs c.dropToken c'.dropToken :=
  ⟨h.goal, h.token, fun _ => (L.next (h.scanner valid)).2 peek, h.frames, h.grid, h.work⟩

theorem fails {e e' : ParseError} (h : L.Configs c c') (errors : L.Errors e e') :
    L.Attempts arena R (c.fail e) (c'.fail e') := attempts_fail h.work errors

theorem reason (h : L.Configs c c') (why : Reason) :
    L.Errors (why.error c.token) (why.error c'.token) := by
  cases why with
  | unaligned => exact .unaligned h.token
  | unexpected => exact .unexpected h.token
  | unmatched => exact .unmatched h.token

theorem apply (h : L.Configs c c') (d : Deed) {w w' : Assembly} (work : L.Works w w') :
    L.Configs (d.apply c w) (d.apply c' w') := by
  refine ⟨h.goal, h.token, h.scanner, ?_, ?_, work⟩
  · exact congrArg (d.opens.toList ++ ·) h.frames
  · simp only [Deed.apply, ← L.level_eq h.grid]
    exact L.atLevel _ h.grid

theorem does (h : L.Configs c c') {d : Deed}
    (keeps : d.act.keeps = true → L.kept c.token c'.token) {go : Config → Goal → Config}
    (goes : ∀ {e e'}, L.Configs e e' → e.token = c.token → L.Configs (go e d.goal) (go e' d.goal))
    (same : ∀ e goal, (go e goal).work = e.work) : L.Steps (d.run c go) (d.run c' go) := by
  apply (h.work.act h.token keeps).bind
  · intro w w' work
    exact .ok (.move (goes (h.apply d work) rfl))
  · intro w past
    have past : L.Over (go (d.apply c w) d.goal).work.arena := by
      rw [same]
      exact past
    exact past

theorem keep (h : L.Configs c c') {d : Deed} (retains : d.Retains c.goal) :
    L.Steps (d.run c Config.redo) (d.run c' Config.redo) := by
  apply h.does
  · intro keeps
    rw [retains.keeps_eq] at keeps
    cases keeps
  · exact fun h _ => h.redo _
  · exact fun _ _ => rfl

theorem read (h : L.Configs c c') {e e' : Config} {d : Deed} (takes : d.Takes c.token.tag)
    (h' : L.Configs e e') (token : e.token = c.token) (token' : e'.token = c'.token) :
    L.Steps (d.run e Config.consume) (d.run e' Config.consume) := by
  apply h'.does
  · intro keeps
    rw [token, token']
    exact L.keeps h.token (takes.plain keeps) takes.valid
  · intro x x' configs same
    apply configs.consume
    rw [same, token]
    exact takes.valid
  · exact fun _ _ => rfl

theorem leave (h : L.Configs c c') : L.Steps c.leave c'.leave := by
  apply (h.work.settleScope h.token).bind
  · intro w w' work
    rw [← h.frames]
    split
    · exact .ok (.move ⟨rfl, h.token, h.scanner, rfl, h.grid, work⟩)
    · exact attempts_fail work (.unexpected h.token)
  · intro w past
    split <;> exact past

theorem finish (h : L.Configs c c') : L.Steps c.finish c'.finish := by
  have operators := h.work.operators
  have operands := h.work.operands
  unfold Config.finish
  generalize c.work.operators = ops, c'.work.operators = ops' at operators
  generalize c.work.operands = os, c'.work.operands = os' at operands
  obtain - | ⟨-, -⟩ := operators
  · obtain - | ⟨root, - | ⟨-, -⟩⟩ := operands
    · exact h.fails (.unexpected h.token)
    · exact .ok (.done root.node h.work)
    · exact h.fails (.unexpected h.token)
  · exact h.fails (.unexpected h.token)

theorem sight (h : L.Configs c c') {s : Sight} (fits : s.Fits c.goal c.token.tag) (valid : c.token.tag ≠ .invalid)
    (passes : ∀ d, s = .pass d → c.scanner.peek.tag ≠ .invalid) : L.Steps (s.run c) (s.run c') := by
  cases fits with
  | refuse => exact h.fails (.unexpected (L.next (h.scanner valid)).1)
  | read takes => exact h.read takes h rfl rfl
  | @pass d takes => exact h.read takes (h.dropToken valid (passes d rfl)) rfl rfl

theorem choice (h : L.Configs c c') {ch : Choice} (fits : ch.Fits c.goal c.token.tag) :
    L.Steps (ch.run c) (ch.run c') := by
  cases fits with
  | @refuse why => exact h.fails (h.reason why)
  | finish => exact h.finish
  | leave => exact h.leave
  | keep retains => exact h.keep retains
  | read takes => exact h.read takes h rfl rfl
  | look valid plain found other seen =>
    simp only [Choice.run, ← h.peek_eq valid]
    split
    · rename_i same
      exact h.sight found valid fun _ _ => same ▸ plain
    · exact h.sight other valid fun d pass => absurd pass (seen d)

theorem choice_eq (h : L.Configs c c') :
    c.choice.2 = c'.choice.2 ∧ L.grids c.choice.1 c'.choice.1 := by
  have same : (c.token.tag = .indent ∧ c.goal ≠ .close .value) =
      (c'.token.tag = .indent ∧ c'.goal ≠ .close .value) := by rw [h.tag_eq, h.goal]
  unfold Config.choice
  by_cases measures : c.token.tag = .indent ∧ c.goal ≠ .close .value
  · rw [if_pos measures, if_pos (same ▸ measures)]
    rcases L.measure h.grid h.token measures.1 with ⟨level, g, g', left, right, grids⟩ | ⟨left, right⟩
    · rw [left, right]
      have measured := h.withGrid grids
      exact ⟨Config.lineChoice_congr measured.goal measured.frames (L.level_eq grids)
        measured.work.innermost?_eq level, grids⟩
    · rw [left, right]
      exact ⟨rfl, h.grid⟩
  · rw [if_neg measures, if_neg (same ▸ measures)]
    exact ⟨Config.tokenChoice_congr h.goal h.tag_eq (L.level_eq h.grid) h.work.innermost?_eq, h.grid⟩

theorem step (h : L.Configs c c') : L.Steps c.step c'.step := by
  have noted : L.Configs c.noted c'.noted := h.withWork (h.work.note _ _)
  obtain ⟨same, grids⟩ := noted.choice_eq
  rw [Config.step_eq, Config.step_eq, ← same]
  exact (noted.withGrid grids).choice c.noted.choice_fits

/- By the recursion of the left run. Once the right side is full, the left one goes on alone. -/
theorem run (h : L.Configs c c') :
    L.Attempts (fun r => r.2.arena) (fun r r' => L.Ids r.1 r'.1 ∧ L.Works r.2.work r'.2.work)
      c.run c'.run := by
  induction c using Config.run.induct generalizing c' with
  | case1 c d moved ih =>
    have steps := h.step
    rw [moved] at steps
    rw [Config.run_of_move moved]
    generalize stepped : c'.step = r at steps
    cases steps with
    | ok next =>
      cases next with
      | move h' =>
        rw [Config.run_of_move stepped]
        exact ih h'
    | short past full spent =>
      rw [Config.run_of_error stepped]
      exact .short (Config.run_keeps over_stable past) full spent
  | case2 c root d finished =>
    have steps := h.step
    rw [finished] at steps
    rw [Config.run_of_done finished]
    generalize stepped : c'.step = r at steps
    cases steps with
    | ok next =>
      cases next with
      | done ids works =>
        rw [Config.run_of_done stepped]
        exact .ok ⟨ids, works⟩
    | short past full spent =>
      rw [Config.run_of_error stepped]
      exact .short past full spent
  | case3 c fault failed =>
    have steps := h.step
    rw [failed] at steps
    rw [Config.run_of_error failed]
    generalize stepped : c'.step = r at steps
    cases steps with
    | error errors arenas =>
      rw [Config.run_of_error stepped]
      exact .error errors arenas
    | short past full spent =>
      rw [Config.run_of_error stepped]
      exact .short past full spent

end Configs

variable (L)

inductive Outcomes : Except ParseError (Option NodeId) → Except ParseError (Option NodeId) → Prop where
  | blank : Outcomes (.ok none) (.ok none)
  | root {id id' : NodeId} : L.Ids id id' → Outcomes (.ok (some id)) (.ok (some id'))
  | error {e e' : ParseError} : L.Errors e e' → Outcomes (.error e) (.error e')

structure Begins (s s' : Source) : Prop where
  token : L.alike ((Scanner.ofSource .layout s).nextFrom .lineStart).1
    ((Scanner.ofSource .layout s').nextFrom .lineStart).1
  line : ((Scanner.ofSource .layout s).nextFrom .lineStart).1.tag = .indent →
    L.ahead ((Scanner.ofSource .layout s).nextFrom .lineStart).2
      ((Scanner.ofSource .layout s').nextFrom .lineStart).2 ∧
    L.grids (.ofTrim ((Scanner.ofSource .layout s).nextFrom .lineStart).1.length)
      (.ofTrim ((Scanner.ofSource .layout s').nextFrom .lineStart).1.length)

variable {L} {s s' : Source}

theorem works_ofSource (s s' : Source) :
    L.Works (Assembly.ofSource L.left s) (Assembly.ofSource L.right s') :=
  ⟨arenas_refl L, .nil, .nil⟩

theorem Begins.ofSource (h : L.Begins s s') :
    (Config.ofSource L.left s = .ok none ∧ Config.ofSource L.right s' = .ok none) ∨
    (∃ c c', Config.ofSource L.left s = .ok (some c) ∧ Config.ofSource L.right s' = .ok (some c') ∧
      L.Configs c c') ∨
    (∃ f f', Config.ofSource L.left s = .error f ∧ Config.ofSource L.right s' = .error f' ∧
      L.Errors f.error f'.error ∧ L.Arenas f.work.arena f'.work.arena) := by
  unfold Config.ofSource
  dsimp only
  rw [← L.tag_eq h.token]
  split
  · exact .inl ⟨rfl, rfl⟩
  · rename_i line
    obtain ⟨ahead, grids⟩ := h.line line
    refine .inr (.inl ⟨_, _, rfl, rfl, rfl, (L.next ahead).1, (L.next ahead).2, rfl, grids, ?_⟩)
    exact (works_ofSource s s').note _ _
  · exact .inr (.inr ⟨_, _, rfl, rfl, .unexpected h.token, arenas_refl L⟩)

/- Both parses come to the same, or the right one runs out of room that the left one needs. -/
theorem Begins.parse (h : L.Begins s s') :
    (L.Outcomes (s.parse L.left).outcome (s'.parse L.right).outcome ∧
      L.Arenas (s.parse L.left).arena (s'.parse L.right).arena) ∨
    (L.Over (s.parse L.left).arena ∧ (s'.parse L.right).outcome = .error .outOfMemory ∧
      L.Spent (s'.parse L.right).arena) := by
  rcases h.ofSource with ⟨left, right⟩ | ⟨c, c', left, right, configs⟩ |
    ⟨f, f', left, right, errors, arenas⟩
  · rw [(Source.parse_blank left).1, (Source.parse_blank left).2, (Source.parse_blank right).1,
      (Source.parse_blank right).2]
    exact .inl ⟨.blank, arenas_refl L⟩
  · have runs := configs.run
    generalize ran : c.run = r, ran' : c'.run = r' at runs
    cases runs with
    | @ok x y both =>
      rw [(Source.parse_ok left ran).1, (Source.parse_ok left ran).2, (Source.parse_ok right ran').1,
        (Source.parse_ok right ran').2]
      exact .inl ⟨.root both.1, both.2.arena⟩
    | error errors arenas =>
      rw [(Source.parse_error left ran).1, (Source.parse_error left ran).2,
        (Source.parse_error right ran').1, (Source.parse_error right ran').2]
      exact .inl ⟨.error errors, arenas⟩
    | @short _ g past full spent =>
      rw [(Source.parse_error right ran').1, (Source.parse_error right ran').2, full]
      refine .inr ⟨?_, rfl, spent⟩
      cases r with
      | ok x =>
        rw [(Source.parse_ok left ran).2]
        exact past
      | error f =>
        rw [(Source.parse_error left ran).2]
        exact past
  · rw [(Source.parse_broken left).1, (Source.parse_broken left).2, (Source.parse_broken right).1,
      (Source.parse_broken right).2]
    exact .inl ⟨.error errors, arenas⟩

end Lockstep
end Offside
