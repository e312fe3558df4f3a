import Offside.Proofs.Discipline
import Offside.Proofs.Faults

/-! What a step asks of the scanner: nothing, the next token, or first a look at it. A step that has
looked at the next token and fails has no memory left or reports that very token; every other failure
is reported at the token at hand. -/
namespace Offside

def Config.on (c : Config) (u : Scanner) : Config := { c with scanner := u }

@[simp] theorem Config.on_token (c : Config) (u : Scanner) : (c.on u).token = c.token := rfl

/- How a step goes on when it has looked at the next token. -/
inductive Glance : (Scanner → Attempt Next) → Prop where
  | full {f : Fault} : f.error = .outOfMemory → Glance fun _ => .error f
  | refuse (w : Assembly) : Glance fun u => .error ⟨.unexpectedToken u.peek, w⟩
  | read (d : Config) (goal : Goal) : Glance fun u => .ok (.move ((d.on u).consume goal))
  | pass (d : Config) (goal : Goal) : Glance fun u => .ok (.move ((d.on u.next.2).consume goal))

/-- What a step with this token at hand does, for whatever text comes behind it. -/
inductive Looks (t : Token) : (Scanner → Attempt Next) → Prop where
  | fail {f : Fault} : (∀ named ∈ f.error.token?, named = t) → Looks t fun _ => .error f
  | done (root : NodeId) (d : Config) : Looks t fun u => .ok (.done root (d.on u))
  | keep {d : Config} : d.token = t → Looks t fun u => .ok (.move (d.on u))
  | read (d : Config) (goal : Goal) : Looks t fun u => .ok (.move ((d.on u).consume goal))
  | look (tag : TokenTag) {found other : Scanner → Attempt Next} : Glance found → Glance other →
      Looks t fun u => if u.peek.tag = tag then found u else other u

theorem Survives.of_bind {α β : Type} {r : Attempt α} {f : α → Attempt β} {Q : β → Prop}
    (h : Survives (r >>= f) Q) : Survives r fun _ => True := by
  cases r with
  | ok _ => trivial
  | error _ => exact h

theorem Glance.bind {α : Type} {r : Attempt α} {next : α → Scanner → Attempt Next}
    (survives : Survives r fun _ => True) (goes : ∀ x, Glance (next x)) :
    Glance fun u => r >>= fun x => next x u := by
  cases r with
  | ok x => exact goes x
  | error f => exact .full survives

namespace Looks

variable {α : Type} {t : Token}

theorem of_stops {r : Attempt α} {f : Fault} (stops : Stops t r) (failed : r = .error f) :
    Looks t fun _ => .error f := by
  apply fail
  rcases stops f failed with full | named
  · simp [full, ParseError.token?]
  · simp [named, ParseError.token?]

theorem bind {r : Attempt α} {next : α → Scanner → Attempt Next} (stops : Stops t r)
    (goes : ∀ x, r = .ok x → Looks t (next x)) : Looks t fun u => r >>= fun x => next x u := by
  cases r with
  | ok x => exact goes x rfl
  | error f => exact of_stops stops rfl

end Looks

theorem Act.IsSure.survives {c : Config} {act : Act} (sure : act.IsSure c.goal) (sheltered : c.Sheltered) :
    Survives (act.run c.token c.work) fun _ => True := by
  cases act with
  | idle => trivial
  | push => trivial
  | build tag keeps => exact (Assembly.build_survives _ _ _ _).mono fun _ _ => trivial
  | binary tag keeps => exact (sheltered.join sure tag (c.token.kept keeps)).of_bind
  | wrap => exact sure.elim
  | define => exact sure.elim
  | complete => exact sure.elim
  | group => exact sure.elim

namespace Config

variable {c : Config}

theorem read_looks (c : Config) (d : Deed) :
    Looks c.token fun u => d.run (c.on u) Config.consume :=
  .bind (d.act.run_stops c.token c.work) fun w _ => .read (d.apply c w) d.goal

theorem keep_looks (c : Config) (d : Deed) : Looks c.token fun u => d.run (c.on u) Config.redo :=
  .bind (d.act.run_stops c.token c.work) fun w _ => .keep (d := (d.apply c w).redo d.goal) rfl

theorem leave_looks (c : Config) : Looks c.token fun u => (c.on u).leave := by
  apply Looks.bind c.work.settleScope_stops
  intro work _
  dsimp only [on]
  cases c.frames with
  | cons f rest => exact .keep (d := { c with work, frames := rest, goal := .close f }) rfl
  | nil => exact .of_stops (stops_token (α := Next) work) rfl

theorem finish_looks (c : Config) : Looks c.token fun u => (c.on u).finish := by
  have stopped : Looks c.token fun _ => .error ⟨.unexpectedToken c.token, c.work⟩ :=
    .of_stops (stops_token (α := Next) c.work) rfl
  dsimp only [finish, on]
  match c.work.operators, c.work.operands with
  | [], [root] => exact .done root.node c
  | [], [] => exact stopped
  | [], _ :: _ :: _ => exact stopped
  | _ :: _, _ => exact stopped

theorem sight_looks {s : Sight} (fits : s.Fits c.goal c.token.tag) (sheltered : c.Sheltered) (grid : Grid) :
    Glance fun u => s.run (({ c with grid } : Config).on u) := by
  cases fits with
  | refuse => exact .refuse c.work
  | @read d _ sure =>
    exact .bind (sure.survives sheltered) fun w => .read (d.apply { c with grid } w) d.goal
  | @pass d _ sure =>
    exact .bind (sure.survives sheltered) fun w => .pass (d.apply { c with grid } w) d.goal

theorem choice_looks {ch : Choice} (fits : ch.Fits c.goal c.token.tag) (sheltered : c.Sheltered) (grid : Grid) :
    Looks c.token fun u => ch.run (({ c with grid } : Config).on u) := by
  cases fits with
  | @refuse why =>
    refine .fail (f := ⟨why.error c.token, c.work⟩) ?_
    cases why <;> simp [Reason.error, ParseError.token?]
  | finish => exact finish_looks { c with grid }
  | leave => exact leave_looks { c with grid }
  | keep => exact keep_looks { c with grid } _
  | read => exact read_looks { c with grid } _
  | look _ _ found other =>
    exact .look _ (sight_looks found sheltered grid) (sight_looks other sheltered grid)

end Config

/-- Whatever text follows, a step looks at no more of it than the next token, and what it does with
the token at hand does not depend on it otherwise. -/
theorem Config.step_looks {c : Config} (sheltered : c.noted.Sheltered) :
    Looks c.token fun u => (c.on u).step := by
  have chosen : ∀ u, (c.on u).step =
      c.noted.choice.2.run (({ c.noted with grid := c.noted.choice.1 } : Config).on u) :=
    fun u => (c.on u).step_eq
  rw [funext chosen]
  exact choice_looks c.noted.choice_fits sheltered _

end Offside
