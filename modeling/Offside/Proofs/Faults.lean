import Offside.Parse.Weight

/-! What a step can report. The trees under construction lack room or an operand; a rule refuses the
token at hand or, when it looks ahead, the one behind it. -/
namespace Offside

/- A failure is for lack of room, or at the token. -/
def Stops {α : Type} (near : Token) (r : Attempt α) : Prop :=
  ∀ f, r = .error f → f.error = .outOfMemory ∨ f.error = .unexpectedToken near

section Stops

variable {α β : Type} {near : Token}

theorem stops_ok (x : α) : Stops near (.ok x) := nofun

theorem stops_full (w : Assembly) : Stops (α := α) near (w.fail .outOfMemory) := by
  rintro _ ⟨⟩
  exact .inl rfl

theorem stops_token (w : Assembly) : Stops (α := α) near (w.fail (.unexpectedToken near)) := by
  rintro _ ⟨⟩
  exact .inr rfl

theorem Stops.bind {r : Attempt α} {f : α → Attempt β} (h : Stops near r)
    (next : ∀ x, Stops near (f x)) : Stops near (r >>= f) := by
  cases r with
  | ok x => exact next x
  | error fault =>
    rintro _ ⟨⟩
    exact h fault rfl

end Stops

namespace Assembly

variable {near : Token}

theorem build_stops (w : Assembly) (tag : NodeTag) (token : Option Token)
    (children : List Operand) : Stops near (w.build tag token children) := by
  unfold build
  split
  · exact stops_ok _
  · exact stops_full _

theorem apply_stops (w : Assembly) (op : Pending) : Stops near (w.apply op near) := by
  unfold apply
  split
  · exact build_stops _ _ _ _
  · exact build_stops _ _ _ _
  · split
    · exact stops_ok _
    · exact build_stops _ _ _ _
  · exact stops_token _

theorem reduceTimes_stops (w : Assembly) (count : Nat) : Stops near (reduceTimes near count w) := by
  induction count generalizing w with
  | zero => exact stops_ok _
  | succ count ih =>
    apply Stops.bind _ ih
    unfold reduce
    split
    · exact stops_token _
    · exact apply_stops _ _

theorem settleScope_stops (w : Assembly) : Stops near (w.settleScope near) := reduceTimes_stops w _

theorem takeScope_stops (w : Assembly) (marker : NodeTag) : Stops near (w.takeScope marker near) := by
  unfold takeScope
  split
  · exact stops_token _
  · split
    · exact stops_ok _
    · exact stops_token _

theorem wrap_stops (w : Assembly) (marker tag : NodeTag) : Stops near (w.wrap marker tag near) := by
  apply (takeScope_stops w marker).bind
  intro r
  dsimp only
  split
  · exact build_stops _ _ _ _
  · exact stops_token _

theorem complete_stops (w : Assembly) (marker : NodeTag) : Stops near (w.complete marker near) := by
  apply (takeScope_stops w marker).bind
  intro r
  exact build_stops _ _ _ _

end Assembly

theorem Act.run_stops (near : Token) (w : Assembly) (act : Act) : Stops near (act.run near w) := by
  cases act with
  | idle => exact stops_ok _
  | push => exact stops_ok _
  | build => exact Assembly.build_stops _ _ _ _
  | binary => exact (Assembly.reduceTimes_stops _ _).bind fun _ => stops_ok _
  | wrap => exact Assembly.wrap_stops _ _ _
  | define marker =>
    apply (Assembly.wrap_stops w marker .value).bind
    intro v
    exact Assembly.complete_stops _ _
  | complete => exact Assembly.complete_stops _ _
  | group =>
    apply (Assembly.takeScope_stops w .group).bind
    intro r
    dsimp only
    split
    · exact stops_ok _
    · exact stops_token _

namespace Config

theorem leave_stops (c : Config) : Stops c.token c.leave := by
  apply (Assembly.settleScope_stops _).bind
  intro w
  split
  · exact stops_ok _
  · exact stops_token _

theorem finish_stops (c : Config) : Stops c.token c.finish := by
  unfold finish
  split
  · exact stops_ok _
  · exact stops_token _

theorem deed_stops (c : Config) (d : Deed) (go : Config → Goal → Config) :
    Stops c.token (d.run c go) :=
  (d.act.run_stops c.token c.work).bind fun _ => stops_ok _

theorem sight_error {c : Config} {s : Sight} {f : Fault} (failed : s.run c = .error f) :
    f.error = .outOfMemory ∨ ∃ t, f.error = .unexpectedToken t := by
  have each : Stops c.token (s.run c) → f.error = .outOfMemory ∨ ∃ t, f.error = .unexpectedToken t :=
    fun stops => (stops f failed).imp id fun named => ⟨_, named⟩
  cases s with
  | refuse =>
    cases failed
    exact .inr ⟨_, rfl⟩
  | read d => exact each (c.deed_stops d _)
  | pass d => exact each (c.dropToken.deed_stops d _)

/-- A bracket is only reported where the construct to be closed refuses it. -/
theorem choice_unmatched {c : Config} {ch : Choice} {grid : Grid} {f : Fault} {t : Token}
    (fits : ch.Fits c.goal c.token.tag) (failed : ch.run { c with grid } = .error f)
    (reported : f.error = .unmatchedBracket t) :
    t = c.token ∧ ∃ g, c.goal = .close g ∧ g.Refuses t.tag := by
  have absurd_ : Stops c.token (ch.run { c with grid }) → False := by
    intro stops
    rcases stops f failed with full | named
    · cases full.symm.trans reported
    · cases named.symm.trans reported
  have unseen : ∀ {s : Sight}, s.run { c with grid } = .error f → False := by
    intro s failed
    rcases sight_error failed with full | ⟨u, named⟩
    · cases full.symm.trans reported
    · cases named.symm.trans reported
  cases fits with
  | @refuse why refuses =>
    cases failed
    cases why with
    | unaligned => cases reported
    | unexpected => cases reported
    | unmatched =>
      obtain rfl : c.token = t := ParseError.unmatchedBracket.inj reported
      exact ⟨rfl, refuses rfl⟩
  | finish => exact (absurd_ (finish_stops { c with grid })).elim
  | leave => exact (absurd_ (leave_stops { c with grid })).elim
  | keep => exact (absurd_ (deed_stops { c with grid } _ _)).elim
  | read => exact (absurd_ (deed_stops { c with grid } _ _)).elim
  | look =>
    simp only [Choice.run] at failed
    split at failed
    · exact (unseen failed).elim
    · exact (unseen failed).elim

theorem step_unmatched {c : Config} {f : Fault} {t : Token} (failed : c.step = .error f)
    (reported : f.error = .unmatchedBracket t) :
    t = c.token ∧ ∃ g, c.goal = .close g ∧ g.Refuses t.tag := by
  rw [step_eq] at failed
  exact choice_unmatched (c := c.noted) c.noted.choice_fits failed reported

end Config
end Offside
