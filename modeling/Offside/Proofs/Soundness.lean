import Offside.Parse.Run
import Offside.Proofs.Closing

/-! Every step keeps track of what has been read, so a parse that succeeds has found a derivation of
the whole source; one that fails leaves whole trees behind. -/
namespace Offside
namespace Config

variable {stream : List Lexeme} {old : List Node} {c : Config} {P : List Piece}

theorem step_yields (tracks : c.Tracks stream old P) :
    Yields old Any c.step (Next.Reached stream old) := by
  rw [step, dispatch_eq]
  exact choose_yields (c := c.noted) tracks

theorem run_of_move {d : Config} (moved : c.step = .ok (.move d)) : c.run = d.run := by
  rw [run, moved]

theorem run_of_done {d : Config} {root : NodeId} (finished : c.step = .ok (.done root d)) :
    c.run = .ok (root, d) := by
  rw [run, finished]

theorem run_of_error {f : Fault} (failed : c.step = .error f) : c.run = .error f := by
  rw [run, failed]

/-- A run ends with the tree of the whole stream, or with an error. -/
theorem run_yields (tracks : c.Tracks stream old P) :
    Yields old Any c.run fun r => Next.Reached stream old (.done r.1 r.2) := by
  -- By the recursion of the run, the pieces read so far being different in each configuration.
  induction c using run.induct generalizing P with
  | case1 c d moved ih =>
    have reached := step_yields tracks
    rw [moved] at reached
    obtain ⟨P', tracks'⟩ := reached
    rw [run_of_move moved]
    exact ih tracks'
  | case2 c root d finished =>
    have reached := step_yields tracks
    rw [finished] at reached
    rw [run_of_done finished]
    exact reached
  | case3 c fault failed =>
    have reached := step_yields tracks
    rw [failed] at reached
    rw [run_of_error failed]
    exact reached

end Config

theorem Config.ofSource_some {a : Arena} {s : Source} {c : Config}
    (start : Config.ofSource a s = .ok (some c)) :
    ∃ ts, s.lexemes? = some ts ∧ c.goal = .operand ∧ c.frames = [.root] ∧ c.grid.level = 0 ∧
      c.ahead = ts ∧ c.work.operators = [] ∧ c.work.operands = [] ∧ c.work.arena = a := by
  unfold ofSource at start
  dsimp only at start
  split at start
  · cases start
  · rename_i line
    cases start
    refine ⟨_, if_pos line, rfl, rfl, rfl, ?_, rfl, rfl, rfl⟩
    rw [Scanner.tokens_eq]
    rfl
  · cases start

theorem Config.ofSource_tracks {a : Arena} {s : Source} {c : Config}
    (start : Config.ofSource a s = .ok (some c)) :
    ∃ ts, s.lexemes? = some ts ∧ c.Tracks ts a.nodes.toList [] := by
  obtain ⟨ts, lexemes, goal, frames, level, ahead, operators, operands, arena⟩ := ofSource_some start
  refine ⟨ts, lexemes, ⟨?_, ?_⟩, ?_⟩
  · intro more
    rw [arena] at more
    exact absurd more (by simp [Arena.size])
  · rw [operands, arena]
    exact .nil
  · rw [goal, frames, level, ahead, operators]
    exact .operand .start

/-- What is in the arena after a parse. -/
inductive Parsed.Grown (s : Source) (a : Arena) : Except ParseError (Option NodeId) → Arena → Prop where
  | blank : Grown s a (.ok none) a
  | tree {t : Tree} {b : Arena} :
      s.Document Tail.Allows t → t.Fits → b.Within a.nodes.toList →
      b.nodes.toList = a.nodes.toList ++ t.lay a.size →
      Grown s a (.ok (some (t.root a.size))) b
  | broken {e : ParseError} {b : Arena} : b.Laid a.nodes.toList → Grown s a (.error e) b

theorem Config.ofSource_error {a : Arena} {s : Source} {f : Fault}
    (start : Config.ofSource a s = .error f) : f.work.arena = a := by
  unfold ofSource at start
  dsimp only at start
  split at start
  · cases start
  · cases start
  · cases start
    rfl

theorem Arena.laid_self (a : Arena) : a.Laid a.nodes.toList := by
  refine ⟨?_, [], by simp, by simp [Tree.layAll]⟩
  intro more
  exact absurd more (by simp [Arena.size])

namespace Source

variable {s : Source} {a : Arena} {c : Config}

theorem parse_ok {d : Config} {root : NodeId} (start : Config.ofSource a s = .ok (some c))
    (ran : c.run = .ok (root, d)) :
    (s.parse a).outcome = .ok (some root) ∧ (s.parse a).arena = d.work.arena := by
  simp only [parse, Assembly.parse, start, ran, bind, Except.bind, pure, Except.pure]
  exact ⟨trivial, rfl⟩

theorem parse_error {f : Fault} (start : Config.ofSource a s = .ok (some c))
    (ran : c.run = .error f) :
    (s.parse a).outcome = .error f.error ∧ (s.parse a).arena = f.work.arena := by
  simp only [parse, Assembly.parse, start, ran, bind, Except.bind]
  exact ⟨trivial, rfl⟩

theorem parse_blank (start : Config.ofSource a s = .ok none) :
    (s.parse a).outcome = .ok none ∧ (s.parse a).arena = a := by
  simp only [parse, Assembly.parse, start, bind, Except.bind]
  exact ⟨rfl, rfl⟩

theorem parse_broken {f : Fault} (start : Config.ofSource a s = .error f) :
    (s.parse a).outcome = .error f.error ∧ (s.parse a).arena = f.work.arena := by
  simp only [parse, Assembly.parse, start, bind, Except.bind]
  exact ⟨trivial, rfl⟩

theorem parse_grown (s : Source) (a : Arena) :
    Parsed.Grown s a (s.parse a).outcome (s.parse a).arena := by
  cases start : Config.ofSource a s with
  | error f =>
    rw [(parse_broken start).1, (parse_broken start).2, Config.ofSource_error start]
    exact .broken a.laid_self
  | ok c? =>
    cases c? with
    | none =>
      rw [(parse_blank start).1, (parse_blank start).2]
      exact .blank
    | some c =>
      obtain ⟨ts, lexemes, tracks⟩ := Config.ofSource_tracks start
      have reached := Config.run_yields tracks
      cases ran : c.run with
      | error f =>
        rw [ran] at reached
        rw [(parse_error start ran).1, (parse_error start ran).2]
        exact .broken reached.2
      | ok r =>
        obtain ⟨root, d⟩ := r
        rw [ran] at reached
        obtain ⟨x, carries, rfl, document⟩ := reached
        obtain ⟨nodes, fits⟩ := carries.2.laid
        rw [(parse_ok start ran).1, (parse_ok start ran).2, Array.length_toList]
        refine .tree ⟨ts, lexemes, document⟩ (fits x (by simp)) carries.1 ?_
        simpa [Tree.layAll, Arena.size] using nodes

end Source
end Offside
