import Offside.Proofs.Discipline

/-! Why the parser never turns round on the spot. A step either uses its token up, and then input is
used up with it, or keeps it for another goal. A token is kept at most twice for every construct
that it ends and once more, so there is a bound on all steps that only the length of the source
decides. -/
namespace Offside

namespace Config

def Redoes (c d : Config) : Prop := c.Moves d ∧ d.token = c.token ∧ d.scanner = c.scanner

/-- Another token has been read, perhaps after one that was passed over. -/
def Advances (c d : Config) : Prop :=
  ∃ u : Scanner, (u = c.scanner ∨ u = c.scanner.next.2) ∧ u.next = (d.token, d.scanner)

def Consumes (c d : Config) : Prop := c.Moves d ∧ c.token.tag ≠ .eof ∧ c.Advances d

def Pops (c d : Config) : Prop :=
  c.goal = .operator ∧ ∃ f, c.frames = f :: d.frames ∧ d.goal = .close f

/-- The marker of a name is taken off, with what stands above it. -/
def ClosesName (c d : Config) : Prop :=
  c.goal.endsName = true ∧ d.goal = .operator ∧ d.frames = c.frames ∧
    ∃ above name, name.tag = .nameDef ∧ c.work.operators = above ++ name :: d.work.operators

def EntersOperand (c d : Config) : Prop :=
  c.goal = .afterParen ∧ d.goal = .operand ∧ ∃ f, d.frames = f :: c.frames

def ClosesControl (c d : Config) : Prop :=
  (∃ outer, c.goal = .close (.control outer)) ∧ d.goal = .operator ∧ d.frames = c.frames

/-- All that a step can do with its token. -/
inductive Turns (c d : Config) : Prop where
  | consumes (fresh : d.goal.isFresh = true) (found : c.token.tag ≠ .eof) (read : c.Advances d)
  | redoes (token : d.token = c.token) (scanner : d.scanner = c.scanner)
      (kind : c.Pops d ∨ c.ClosesName d ∨ c.EntersOperand d ∨ c.ClosesControl d)

def Steers (c : Config) (r : Attempt Next) : Prop := ∀ d, r = .ok (.move d) → c.Turns d

theorem steers_bind {α : Type} {c : Config} {first : Attempt α} {rest : α → Attempt Next}
    (h : ∀ a, first = .ok a → c.Steers (rest a)) : c.Steers (first >>= rest) := by
  intro d eq
  cases first with
  | error e => cases eq
  | ok a => exact h a rfl d eq

end Config

namespace Assembly

variable {w w' : Assembly} {marker tag : NodeTag} {near : Token}

theorem build_operators {token : Option Token} {children : List Operand}
    (h : w.build tag token children = .ok w') : w'.operators = w.operators := by
  have built := build_survives w tag token children
  rw [h] at built
  exact built.1

theorem takeScope_operators {top : Pending} {inner : List Operand}
    (h : w.takeScope marker near = .ok (top, inner, w')) :
    top.tag = marker ∧ w.operators = top :: w'.operators := by
  unfold takeScope at h
  split at h
  · cases h
  · rename_i first rest stack
    split at h
    · rename_i fits
      cases h
      exact ⟨fits.1, stack⟩
    · cases h

theorem wrap_operators (h : w.wrap marker tag near = .ok w') :
    ∃ top, w.operators = top :: w'.operators := by
  unfold wrap at h
  cases taken : w.takeScope marker near with
  | error e => simp [taken, bind, Except.bind] at h
  | ok r =>
    obtain ⟨top, inner, v⟩ := r
    simp only [taken, bind, Except.bind] at h
    split at h
    · exact ⟨top, by rw [(takeScope_operators taken).2, build_operators h]⟩
    · cases h

theorem complete_operators (h : w.complete marker near = .ok w') :
    ∃ top : Pending, top.tag = marker ∧ w.operators = top :: w'.operators := by
  unfold complete at h
  cases taken : w.takeScope marker near with
  | error e => simp [taken, bind, Except.bind] at h
  | ok r =>
    obtain ⟨top, inner, v⟩ := r
    simp only [taken, bind, Except.bind] at h
    obtain ⟨tagged, stack⟩ := takeScope_operators taken
    exact ⟨top, tagged, by rw [stack, build_operators h]⟩

end Assembly

theorem Act.closes_name {act : Act} {near : Token} {w w' : Assembly}
    (h : act = .complete .nameDef ∨ ∃ marker, act = .define marker) (acted : act.run near w = .ok w') :
    ∃ above name, name.tag = .nameDef ∧ w.operators = above ++ name :: w'.operators := by
  obtain rfl | ⟨marker, rfl⟩ := h
  · obtain ⟨name, tagged, operators⟩ := Assembly.complete_operators acted
    exact ⟨[], name, tagged, operators⟩
  · cases wrapped : w.wrap marker .value near with
    | error f => simp [run, wrapped, bind, Except.bind] at acted
    | ok v =>
      simp only [run, wrapped, bind, Except.bind] at acted
      obtain ⟨top, stack⟩ := Assembly.wrap_operators wrapped
      obtain ⟨name, tagged, operators⟩ := Assembly.complete_operators acted
      exact ⟨[top], name, tagged, by rw [stack, operators]; rfl⟩

namespace Config

variable {c d : Config}

theorem steers_consume {e : Config} {deed : Deed} (takes : deed.Takes c.token.tag)
    (scanner : e.scanner = c.scanner ∨ e.scanner = c.scanner.next.2) :
    c.Steers (deed.run e Config.consume) := by
  apply steers_bind
  rintro w - _ ⟨⟩
  exact .consumes takes.fresh takes.found ⟨e.scanner, scanner, rfl⟩

theorem steers_redo {deed : Deed} (retains : deed.Retains c.goal) (grid : Grid) :
    c.Steers (deed.run { c with grid } Config.redo) := by
  apply steers_bind
  rintro w acted _ ⟨⟩
  refine .redoes rfl rfl ?_
  cases retains with
  | name ends act =>
    obtain ⟨above, name, tagged, operators⟩ := Act.closes_name act acted
    exact .inr (.inl ⟨ends, rfl, rfl, above, name, tagged, operators⟩)
  | group goal => exact .inr (.inr (.inl ⟨goal, rfl, _, rfl⟩))
  | control goal => exact .inr (.inr (.inr ⟨⟨_, goal⟩, rfl, rfl⟩))

theorem steers_leave (goal : c.goal = .operator) (grid : Grid) :
    c.Steers (leave { c with grid }) := by
  apply steers_bind
  intro w _ d left
  cases frames : c.frames with
  | nil => simp [frames, Assembly.fail] at left
  | cons f rest =>
    simp only [frames] at left
    cases left
    exact .redoes rfl rfl (.inl ⟨goal, f, frames, rfl⟩)

theorem steers_sight {s : Sight} (fits : s.Fits c.goal c.token.tag) (grid : Grid) :
    c.Steers (s.run { c with grid }) := by
  cases fits with
  | refuse => rintro _ ⟨⟩
  | read takes => exact steers_consume takes (.inl rfl)
  | pass takes => exact steers_consume takes (.inr rfl)

theorem steers_run {ch : Choice} (fits : ch.Fits c.goal c.token.tag) (grid : Grid) :
    c.Steers (ch.run { c with grid }) := by
  cases fits with
  | refuse => rintro _ ⟨⟩
  | finish =>
    simp only [Choice.run, finish]
    split <;> rintro _ ⟨⟩
  | leave goal => exact steers_leave goal grid
  | keep retains => exact steers_redo retains grid
  | read takes => exact steers_consume takes (.inl rfl)
  | look _ _ found other =>
    simp only [Choice.run]
    split
    · exact steers_sight found grid
    · exact steers_sight other grid

theorem Moves.turns (h : c.Moves d) : c.Turns d := by
  unfold Moves at h
  rw [step_eq] at h
  obtain ⟨fresh, found, read⟩ | ⟨token, scanner, kind⟩ :=
    steers_run (c := c.noted) c.noted.choice_fits _ d h
  · exact .consumes fresh found read
  · exact .redoes token scanner kind

/-- A token other than the end is only read by leaving less of the input. -/
theorem Consumes.rest_lt (h : c.Consumes d) (more : d.token.tag ≠ .eof) :
    d.scanner.rest.length < c.scanner.rest.length := by
  obtain ⟨-, -, u, behind, read⟩ := h
  have shorter : u.next.2.rest.length < u.rest.length :=
    u.rest_next_lt (by rw [read]; exact more)
  rw [read] at shorter
  have within : u.rest.length ≤ c.scanner.rest.length := by
    rcases behind with rfl | rfl
    · exact Nat.le_refl _
    · exact c.scanner.rest_next_le
  exact Nat.lt_of_lt_of_le shorter within

theorem Consumes.not_redoes (h : c.Consumes d) : ¬c.Redoes d := by
  rintro ⟨-, token, scanner⟩
  have shorter := h.rest_lt (by rw [token]; exact h.2.1)
  rw [scanner] at shorter
  exact Nat.lt_irrefl _ shorter

theorem Moves.consumes_iff (h : c.Moves d) : c.Consumes d ↔ ¬c.Redoes d := by
  refine ⟨Consumes.not_redoes, fun other => ?_⟩
  cases h.turns with
  | consumes _ found read => exact ⟨h, found, read⟩
  | redoes token scanner _ => exact absurd ⟨h, token, scanner⟩ other

theorem Redoes.kind (h : c.Redoes d) :
    c.Pops d ∨ c.ClosesName d ∨ c.EntersOperand d ∨ c.ClosesControl d := by
  cases h.1.turns with
  | consumes _ found read => exact absurd h (Consumes.not_redoes ⟨h.1, found, read⟩)
  | redoes _ _ kind => exact kind

theorem Consumes.fresh (h : c.Consumes d) : d.goal.isFresh = true := by
  cases h.1.turns with
  | consumes fresh _ _ => exact fresh
  | redoes token scanner _ => exact absurd ⟨h.1, token, scanner⟩ h.not_redoes

theorem Redoes.kind_of_fresh (h : c.Redoes d) (fresh : c.goal.isFresh = true) :
    c.Pops d ∨ c.ClosesName d ∨ c.EntersOperand d := by
  rcases h.kind with pops | name | group | ⟨⟨outer, control⟩, -⟩
  · exact .inl pops
  · exact .inr (.inl name)
  · exact .inr (.inr group)
  · rw [control] at fresh
    cases fresh

/-- How often the token may still be kept: twice for every construct that it may end, and once if
something has to be closed first. -/
def redosLeft (c : Config) : Nat :=
  match c.goal with
  | .operand | .afterDot => 0
  | .afterParen => 1
  | .operator => 2 * c.frames.length
  | .afterName _ | .close _ => 2 * c.frames.length + 1

theorem redosLeft_le (c : Config) : c.redosLeft ≤ 2 * c.frames.length + 1 := by
  unfold redosLeft
  split <;> omega

theorem redosLeft_of_operator (goal : c.goal = .operator) : c.redosLeft = 2 * c.frames.length := by
  simp only [redosLeft, goal]

theorem Redoes.redosLeft_lt (h : c.Redoes d) : d.redosLeft < c.redosLeft := by
  rcases h.kind with ⟨goal, f, frames, goal'⟩ | ⟨ends, goal', frames, -⟩ | ⟨goal, goal', -⟩ |
    ⟨⟨outer, goal⟩, goal', frames⟩
  · simp only [redosLeft, goal, goal', frames, List.length_cons]
    omega
  · have closing : c.redosLeft = 2 * c.frames.length + 1 := by
      unfold Goal.endsName at ends
      split at ends <;> simp_all [redosLeft]
    rw [closing, redosLeft_of_operator goal', frames]
    exact Nat.lt_succ_self _
  · simp only [redosLeft, goal, goal']
    omega
  · simp only [redosLeft, goal, goal', frames]
    omega

/-- A token is not kept without end. -/
theorem length_le_redosLeft {chain : List Config} (h : (c :: chain).IsChain Redoes) :
    chain.length ≤ c.redosLeft := by
  induction chain generalizing c with
  | nil => exact Nat.zero_le _
  | cons d chain ih =>
    obtain ⟨first, rest⟩ := List.isChain_cons_cons.mp h
    have fewer := first.redosLeft_lt
    have bound := ih rest
    rw [List.length_cons]
    omega

theorem runWithin_of_weight {n : Nat} (enough : c.weight < n) : c.runWithin n = some c.run := by
  induction n generalizing c with
  | zero => omega
  | succ n ih =>
    unfold runWithin
    split
    · rename_i d moved
      have lighter := step_lighter moved
      rw [ih (by omega), run_of_move moved]
    · rename_i finished
      rw [run_of_done finished]
    · rename_i failed
      rw [run_of_error failed]

theorem ofSource_read {a : Arena} {s : Source} (h : ofSource a s = .ok (some c)) :
    ∃ u : Scanner, u.next = (c.token, c.scanner) ∧ u.rest.length ≤ s.length := by
  unfold ofSource at h
  dsimp only at h
  split at h
  · cases h
  · cases h
    exact ⟨_, rfl, Scanner.rest_nextFrom_le _ .lineStart⟩
  · cases h

theorem weight_ofSource {a : Arena} {s : Source} (h : ofSource a s = .ok (some c)) :
    c.weight ≤ 8 * s.length + 3 := by
  obtain ⟨ts, -, goal, frames, -⟩ := ofSource_some h
  obtain ⟨u, read, within⟩ := ofSource_read h
  have unread : c.unread ≤ u.rest.length := by
    have used := u.rest_next_add_le
    rw [read] at used
    exact used
  simp only [weight, goal, frames, Goal.rank, List.length_singleton]
  omega

end Config

namespace Source

variable {s : Source} {a : Arena} {c : Config}

def Fetches (s : Source) (a : Arena) (c : Config) : Prop :=
  Config.ofSource a s = .ok (some c) ∨ ∃ b, s.Reaches a b ∧ b.Consumes c

theorem Fetches.fresh (h : s.Fetches a c) : c.goal.isFresh = true := by
  rcases h with start | ⟨b, -, consumed⟩
  · obtain ⟨ts, -, goal, -⟩ := Config.ofSource_some start
    rw [goal]
    rfl
  · exact consumed.fresh

theorem Reaches.read (h : s.Reaches a c) :
    ∃ u : Scanner, u.next = (c.token, c.scanner) ∧
      (c.token.tag ≠ .eof → c.scanner.rest.length < u.rest.length) := by
  suffices ∃ u : Scanner, u.next = (c.token, c.scanner) by
    obtain ⟨u, read⟩ := this
    have shorter := u.rest_next_lt
    rw [read] at shorter
    exact ⟨u, read, shorter⟩
  obtain ⟨start, begun, moves⟩ := h
  -- Only a step that uses its token up changes the scanner.
  induction moves with
  | refl =>
    obtain ⟨u, read, -⟩ := Config.ofSource_read begun
    exact ⟨u, read⟩
  | tail _ moved ih =>
    cases Config.Moves.turns moved with
    | consumes _ _ read =>
      obtain ⟨u, -, read⟩ := read
      exact ⟨u, read⟩
    | redoes token scanner _ =>
      rw [token, scanner]
      exact ih

theorem outcomeWithin_length (s : Source) (a : Arena) :
    s.outcomeWithin (8 * s.length + 4) a = some (s.parse a).outcome := by
  suffices ∃ outcome, s.outcomeWithin (8 * s.length + 4) a = some outcome by
    obtain ⟨outcome, found⟩ := this
    rw [found, outcome_of_within found]
  unfold outcomeWithin
  split
  · exact ⟨_, rfl⟩
  · exact ⟨_, rfl⟩
  · rename_i c start
    rw [Config.runWithin_of_weight (Nat.lt_succ_of_le (Config.weight_ofSource start))]
    cases c.run with
    | ok r => exact ⟨_, rfl⟩
    | error fault => exact ⟨_, rfl⟩

/-- Every parse comes to its outcome after a number of steps that the length of the source bounds.
Each step uses up its token or keeps it, never both. While one token is kept, there are at most two
steps for each construct that was open and one more, and the first of them takes a construct off,
closes a name or goes into a group. The end is never used up; any other token that is used up was
read by leaving less of the input. -/
theorem parse_terminates (s : Source) (a : Arena) :
    s.outcomeWithin (8 * s.length + 4) a = some (s.parse a).outcome ∧
      (∀ c d : Config, c.Moves d → (c.Consumes d ↔ ¬c.Redoes d)) ∧
      (∀ c d chain, s.Fetches a c → (c :: d :: chain).IsChain Config.Redoes →
        (d :: chain).length ≤ 2 * c.frames.length + 1 ∧
          (c.Pops d ∨ c.ClosesName d ∨ c.EntersOperand d)) ∧
      ∀ c d, s.Reaches a c → c.Consumes d →
        c.token.tag ≠ .eof ∧
          (∃ u : Scanner, u.next = (c.token, c.scanner) ∧
            c.scanner.rest.length < u.rest.length) ∧
          (d.token.tag ≠ .eof → d.scanner.rest.length < c.scanner.rest.length) := by
  refine ⟨outcomeWithin_length s a, fun c d moved => moved.consumes_iff, ?_, ?_⟩
  · intro c d chain reads redone
    have first : c.Redoes d := (List.isChain_cons_cons.mp redone).1
    exact ⟨Nat.le_trans (Config.length_le_redosLeft redone) c.redosLeft_le,
      first.kind_of_fresh reads.fresh⟩
  · intro c d reached consumed
    obtain ⟨u, read, shorter⟩ := reached.read
    exact ⟨consumed.2.1, ⟨u, read, shorter consumed.2.1⟩, consumed.rest_lt⟩

/-- At its end a source closes a name, the body around it and itself. -/
theorem parse_terminates_body : ∃ c d e f g : Config, (ofText "if a\n .b").Fetches .empty c ∧
    c.frames.length = 2 ∧ [c, d, e, f, g].IsChain Config.Redoes ∧
    [d, e, f, g].length ≤ 2 * c.frames.length + 1 ∧
    (c.Pops d ∨ c.ClosesName d ∨ c.EntersOperand d) := by
  have redone : ∃ c d e f g : Config, (ofText "if a\n .b").Fetches .empty c ∧
      c.frames.length = 2 ∧ [c, d, e, f, g].IsChain Config.Redoes := by
    exact ⟨_, _, _, _, _,
      .inr ⟨_, ⟨_, rfl, .tail (.tail (.tail (.tail (.tail .refl rfl) rfl) rfl) rfl) rfl⟩,
        rfl, nofun, _, .inl rfl, rfl⟩,
      rfl,
      .cons_cons ⟨rfl, rfl, rfl⟩ (.cons_cons ⟨rfl, rfl, rfl⟩
        (.cons_cons ⟨rfl, rfl, rfl⟩ (.cons_cons ⟨rfl, rfl, rfl⟩ (.singleton _))))⟩
  obtain ⟨c, d, e, f, g, reads, frames, chain⟩ := redone
  have bounded := (parse_terminates (ofText "if a\n .b") .empty).2.2.1 c d _ reads chain
  exact ⟨c, d, e, f, g, reads, frames, chain, bounded.1, bounded.2⟩

end Source
end Offside
