import Mathlib.Data.List.TakeWhile
import Offside.Parse.Choice
import Offside.Proofs.Reading

/-! What the choices of the rules make of a configuration, in the terms of a derivation: the open
constructs, the operators, the pieces, the level and the lexemes ahead. Only the arena can stop a
deed. -/
namespace Offside

/- What an act makes of the pieces and of the operators. -/
inductive Act.Turns (t : Token) :
    Act → List Piece → List Pending → List Piece → List Pending → Prop where
  | idle {P O} : Turns t .idle P O P O
  | push {P O tag keeps} : Turns t (.push tag keeps) P O P (⟨tag, t.kept keeps, P.length⟩ :: O)
  | build {P O tag keeps} : Assembly.Makes tag 0 →
      Turns t (.build tag keeps) P O (.ofNode tag (t.kept keeps) [] :: P) O
  | binary {ops O P' P tag keeps} :
      (ops ++ O).takeWhile (fun op => op.tag.reducesBefore tag) = ops →
      (∀ op ∈ ops, op.tag.isMarker = false) → foldAll? ops P' = some P →
      Turns t (.binary tag keeps) P' (ops ++ O) P (⟨tag, t.kept keeps, P.length⟩ :: O)
  | wrap {x P O marker tag token} : tag.shape = .single →
      Turns t (.wrap marker tag) (x :: P) (⟨marker, token, P.length⟩ :: O)
        (.ofNode tag none [x.tree] :: P) O
  | define {x Q P O marker token name} :
      Turns t (.define marker) (x :: (Q ++ P))
        (⟨marker, token, (Q ++ P).length⟩ :: ⟨.nameDef, name, P.length⟩ :: O)
        (.ofNode .nameDef name ((.ofNode .value none [x.tree] :: Q).reverse.map Piece.tree) :: P) O
  | complete {Q P O marker token} : marker.shape = .list → marker.isMarker = true →
      Turns t (.complete marker) (Q ++ P) (⟨marker, token, P.length⟩ :: O)
        (.ofNode marker token (Q.reverse.map Piece.tree) :: P) O
  | group {x P O token} :
      Turns t .group (x :: P) (⟨.group, token, P.length⟩ :: O) (⟨x.tree, true⟩ :: P) O

theorem act_yields {old : List Node} {t : Token} {act : Act} {w : Assembly} {P P' : List Piece}
    {O O' : List Pending} (turns : act.Turns t P O P' O') (carries : w.Carries old P)
    (operators : w.operators = O) :
    Yields old Spared (act.run t w) fun w' => w'.Carries old P' ∧ w'.operators = O' := by
  cases turns with
  | idle => exact ⟨carries, operators⟩
  | push => exact ⟨carries, operators ▸ carries.push _ _⟩
  | build made =>
    subst operators
    exact Assembly.build_leaf carries made _
  | @binary ops O _ _ tag keeps whole plain fold =>
    have reduced := Assembly.reduceTimes_yields carries operators plain fold t
    rw [← whole, ← operators] at reduced
    refine reduced.bind ?_
    rintro w' ⟨carries', rfl⟩
    exact ⟨carries', carries'.push _ _⟩
  | wrap shape => exact Assembly.wrap_yields carries operators shape t
  | define =>
    refine (Assembly.wrap_yields carries operators rfl t).bind ?_
    rintro w' ⟨carries', operators'⟩
    rw [← List.cons_append] at carries'
    exact Assembly.complete_yields carries' operators' rfl rfl t
  | complete shape mark => exact Assembly.complete_yields carries operators shape mark t
  | group =>
    obtain ⟨operand, w', taken, operators', carries'⟩ := Assembly.takeScope_group carries operators t
    simp only [Act.run, taken, bind, Except.bind]
    exact ⟨carries', operators'⟩

namespace Config

/-- The parts of a configuration that a derivation speaks of. -/
structure Stands (old : List Node) (c : Config) (goal : Goal) (F : List Frame) (O : List Pending)
    (P : List Piece) (l : Nat) (ts : List Lexeme) : Prop where
  carries : c.work.Carries old P
  goal_eq : c.goal = goal
  frames : c.frames = F
  operators : c.work.operators = O
  level : c.grid.level = l
  ahead : c.ahead = ts

end Config

def Next.Stands (old : List Node) (goal : Goal) (F : List Frame) (O : List Pending) (P : List Piece)
    (l : Nat) (ts : List Lexeme) (n : Next) : Prop :=
  ∃ d, n = .move d ∧ d.Stands old goal F O P l ts

namespace Config

variable {old : List Node} {c : Config} {goal : Goal} {F : List Frame} {O O' : List Pending}
  {P P' : List Piece} {l k : Nat} {ts rest : List Lexeme} {x : Lexeme} {d : Deed}

theorem Stands.noted (h : c.Stands old goal F O P l ts) : c.noted.Stands old goal F O P l ts :=
  ⟨h.carries, h.goal_eq, h.frames, h.operators, h.level, h.ahead⟩

theorem Stands.token_eq (h : c.Stands old goal F O P l (x :: rest)) : c.token = x.token := by
  obtain ⟨level, more, ahead⟩ := c.ahead_head
  obtain ⟨rfl, -⟩ := List.cons.inj (h.ahead.symm.trans ahead)
  rfl

theorem Stands.tag_eq (h : c.Stands old goal F O P l (x :: rest)) : c.token.tag = x.tag := by
  rw [h.token_eq]
  rfl

theorem Stands.behind_eq (h : c.Stands old goal F O P l (x :: rest)) (more : x.tag ≠ .eof)
    (plain : x.tag ≠ .indent) : c.behind = rest := by
  have cons := ahead_plain (c := c) (by rwa [h.tag_eq]) (by rwa [h.tag_eq])
  exact (List.cons.inj (cons.symm.trans h.ahead)).2

theorem stands_consume {d : Config} (carries : d.work.Carries old P) (frames : d.frames = F)
    (operators : d.work.operators = O) (level : d.grid.level = l) (behind : d.behind = ts) :
    (d.consume goal).Stands old goal F O P l ts :=
  ⟨carries, rfl, frames, operators, level, (ahead_consume d goal).trans behind⟩

theorem stands_redo {d : Config} (carries : d.work.Carries old P) (frames : d.frames = F)
    (operators : d.work.operators = O) (level : d.grid.level = l) (ahead : d.ahead = ts) :
    (d.redo goal).Stands old goal F O P l ts :=
  ⟨carries, rfl, frames, operators, level, ahead⟩

/-- A token that is used up. -/
theorem Stands.reads (h : c.Stands old goal F O P l ts) (behind : c.behind = rest)
    (turns : d.act.Turns c.token P O P' O') :
    Yields old Spared (d.run c consume)
      (Next.Stands old d.goal (d.opens.toList ++ F) O' P' (d.level.getD l) rest) := by
  refine (act_yields turns h.carries h.operators).bind ?_
  rintro w ⟨carries, operators⟩
  refine ⟨_, rfl, stands_consume carries ?_ operators ?_ ?_⟩
  · exact congrArg (d.opens.toList ++ ·) h.frames
  · exact congrArg d.level.getD h.level
  · exact (Grid.label_level c.grid _ c.scanner.tokens).trans behind

/-- A token that is kept. -/
theorem Stands.keeps (h : c.Stands old goal F O P l ts) (turns : d.act.Turns c.token P O P' O') :
    Yields old Spared (d.run c redo)
      (Next.Stands old d.goal (d.opens.toList ++ F) O' P' (d.level.getD l) ts) := by
  refine (act_yields turns h.carries h.operators).bind ?_
  rintro w ⟨carries, operators⟩
  refine ⟨_, rfl, stands_redo carries ?_ operators ?_ ?_⟩
  · exact congrArg (d.opens.toList ++ ·) h.frames
  · exact congrArg d.level.getD h.level
  · exact (Grid.label_level c.grid _ c.input).trans h.ahead

theorem Stands.leaves {f : Frame} {ops : List Pending} (h : c.Stands old goal (f :: F) (ops ++ O) P' l ts)
    (whole : (ops ++ O).takeWhile (fun op => !op.tag.isMarker) = ops)
    (fold : foldAll? ops P' = some P) :
    Yields old Spared c.leave (Next.Stands old (.close f) F O P l ts) := by
  have plain : ∀ op ∈ ops, op.tag.isMarker = false := by
    intro op member
    rw [← whole] at member
    simpa using List.mem_takeWhile_imp member
  have reduced := Assembly.reduceTimes_yields h.carries h.operators plain fold c.token
  unfold leave Assembly.settleScope Assembly.reduceWhile
  rw [h.operators, whole]
  refine reduced.bind ?_
  rintro w ⟨carries, operators⟩
  rw [h.frames]
  exact ⟨_, rfl, carries, rfl, rfl, operators, h.level, h.ahead⟩

/-- A line is measured before the rules choose. -/
theorem Stands.measured {g : Grid} (h : c.Stands old goal F O P l (x :: rest)) (line : x.IsLine k)
    (found : c.grid.measure c.token = .ok (k, g)) :
    ({ c with grid := g } : Config).Stands old goal F O P l (x :: rest) ∧
      ({ c with grid := g } : Config).behind = rest := by
  obtain ⟨same, cons⟩ := ahead_measured (h.tag_eq.trans line.1) found
  refine ⟨⟨h.carries, h.goal_eq, h.frames, h.operators, ?_, same.trans h.ahead⟩, ?_⟩
  · exact (Grid.measure_level found).trans h.level
  · exact (List.cons.inj (cons.symm.trans h.ahead)).2

theorem Stands.choose_line (h : c.Stands old goal F O P l (x :: rest)) (line : x.IsLine k)
    (other : goal ≠ .close .value) :
    ∃ e : Config, c.choose = (e.lineChoice k).run e ∧ e.Stands old goal F O P l (x :: rest) ∧
      e.behind = rest := by
  obtain ⟨g, found⟩ := measure_of_level h.ahead line
  refine ⟨{ c with grid := g }, ?_, h.measured line found⟩
  unfold choose choice
  rw [if_pos ⟨h.tag_eq.trans line.1, h.goal_eq ▸ other⟩, found]

theorem Stands.choose_token (h : c.Stands old goal F O P l (x :: rest)) (plain : x.tag ≠ .indent) :
    c.choose = c.tokenChoice.run c :=
  Config.choose_token (by rwa [h.tag_eq])

end Config
end Offside
