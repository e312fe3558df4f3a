import Offside.Parse.Fits

/-!
Why every parse ends. The weight of a configuration counts the input that is not used up, then the
constructs that are open, then the goal; every step that leads to another configuration makes it
lighter. A token that is kept is read again only after a construct was closed or the goal was
narrowed.
-/

namespace Offside

/-- How far a goal is from one that uses its token up. -/
def Goal.rank : Goal → Nat
  | .operand | .afterDot => 0
  | .operator => 1
  | .afterName _ | .close _ => 2
  | .afterParen => 4

theorem Goal.rank_le (goal : Goal) : goal.rank ≤ 4 := by
  cases goal <;> simp [rank]

theorem Goal.rank_of_endsName {goal : Goal} (h : goal.endsName = true) : goal.rank = 2 := by
  unfold endsName at h
  split at h
  · rfl
  · rfl
  · rfl
  · cases h

namespace Config

/-- The bytes ahead, and one for the token unless it is the end. -/
def unread (c : Config) : Nat := c.scanner.rest.length + if c.token.tag = .eof then 0 else 1

def weight (c : Config) : Nat := 8 * c.unread + 3 * c.frames.length + c.goal.rank

def Lighter (bound : Nat) (result : Attempt Next) : Prop :=
  ∀ c : Config, result = .ok (.move c) → c.weight < bound

theorem lighter_bind {α : Type} {bound : Nat} {first : Attempt α} {rest : α → Attempt Next}
    (h : ∀ a, first = .ok a → Lighter bound (rest a)) : Lighter bound (first >>= rest) := by
  intro c eq
  cases first with
  | error e => cases eq
  | ok a => exact h a rfl c eq

theorem unread_consume_le (d : Config) (goal : Goal) :
    (d.consume goal).unread ≤ d.scanner.rest.length := d.scanner.rest_next_add_le

variable {c e : Config} {d : Deed}

theorem length_opened (d : Deed) (c : Config) (w : Assembly) :
    (d.apply c w).frames.length ≤ c.frames.length + 1 := by
  simp only [Deed.apply, List.length_append]
  cases d.opens <;> simp [Nat.add_comm]

theorem lighter_consume (takes : d.Takes c.token.tag) (frames : e.frames = c.frames)
    (rest : e.scanner.rest.length ≤ c.scanner.rest.length) :
    Lighter c.weight (d.run e Config.consume) := by
  apply lighter_bind
  rintro w - _ ⟨⟩
  have read := unread_consume_le (d.apply e w) d.goal
  have ahead : c.unread = c.scanner.rest.length + 1 := by simp [unread, takes.found]
  have small := d.goal.rank_le
  have opened : ((d.apply e w).consume d.goal).frames.length ≤ c.frames.length + 1 :=
    frames ▸ length_opened d e w
  have behind : (d.apply e w).scanner.rest.length ≤ c.scanner.rest.length := rest
  have goal : ((d.apply e w).consume d.goal).goal = d.goal := rfl
  unfold weight
  rw [goal]
  omega

theorem lighter_redo (retains : d.Retains c.goal) (grid : Grid) :
    Lighter c.weight (d.run { c with grid } Config.redo) := by
  apply lighter_bind
  rintro w - _ ⟨⟩
  have same : ∀ goal, ((d.apply { c with grid } w).redo goal).unread = c.unread := fun _ => rfl
  unfold weight
  rw [same]
  cases retains with
  | name ends =>
    rw [Goal.rank_of_endsName ends]
    simp only [Deed.apply, redo, Goal.rank, Option.toList, List.nil_append]
    omega
  | group goal =>
    simp only [Deed.apply, redo, goal, Goal.rank, Option.toList, List.length_append,
      List.length_singleton]
    omega
  | control goal =>
    simp only [Deed.apply, redo, goal, Goal.rank, Option.toList, List.nil_append]
    omega

theorem lighter_leave (goal : c.goal = .operator) (grid : Grid) :
    Lighter c.weight (leave { c with grid }) := by
  apply lighter_bind
  intro w _ d left
  cases frames : c.frames with
  | nil => simp [frames, Assembly.fail] at left
  | cons f rest =>
    simp only [frames] at left
    cases left
    simp only [weight, unread, goal, frames, Goal.rank, List.length_cons]
    omega

theorem lighter_sight {s : Sight} (fits : s.Fits c.goal c.token.tag) (grid : Grid) :
    Lighter c.weight (s.run { c with grid }) := by
  cases fits with
  | refuse =>
    rintro _ ⟨⟩
  | read takes => exact lighter_consume takes rfl (Nat.le_refl _)
  | pass takes => exact lighter_consume takes rfl c.scanner.rest_next_le

theorem lighter_run {ch : Choice} (fits : ch.Fits c.goal c.token.tag) (grid : Grid) :
    Lighter c.weight (ch.run { c with grid }) := by
  cases fits with
  | refuse =>
    rintro _ ⟨⟩
  | finish =>
    simp only [Choice.run, finish]
    split <;> rintro _ ⟨⟩
  | leave goal => exact lighter_leave goal grid
  | keep retains => exact lighter_redo retains grid
  | read takes => exact lighter_consume takes rfl (Nat.le_refl _)
  | look _ _ found other =>
    simp only [Choice.run]
    split
    · exact lighter_sight found grid
    · exact lighter_sight other grid

/-- Every step that leads to another configuration makes it lighter. -/
theorem step_lighter {c d : Config} (h : c.step = .ok (.move d)) : d.weight < c.weight := by
  rw [step_eq] at h
  exact lighter_run c.noted.choice_fits _ d h

end Config
end Offside
