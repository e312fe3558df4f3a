import Offside.Proofs.Alignment
import Offside.Proofs.Brackets
import Offside.Proofs.Foresight
import Offside.Proofs.Partition
import Offside.Proofs.Progress

/-! What is reported of a closing bracket behind an operand that the innermost open bracket does not
match. Values, bodies and control constructs are closed and hand the bracket on to what is around
them, so that it comes to a bracket of the other kind or to the end of the source; both report it as
unmatched. The header of a control construct does not look at it and reports it as unexpected. -/
namespace Offside

/-- A header whose body is still to come is open, with no bracket open inside it. -/
def awaitsBody (F : List Frame) : Bool := (F.takeWhile fun f => f.bracket?.isNone).contains .header

/-- What is reported of a closing bracket that none of the open constructs takes. -/
def strayError (F : List Frame) (t : Token) : ParseError :=
  if awaitsBody F then .unexpectedToken t else .unmatchedBracket t

theorem TokenTag.ne_indent_of_closing {tag : TokenTag} (closing : tag = .rParen ∨ tag = .rBracket) :
    tag ≠ .indent := by
  rcases closing with rfl | rfl <;> decide

def Frame.yields : Frame → Bool
  | .value | .body _ | .control _ => true
  | _ => false

theorem Frame.bracket?_yields {f : Frame} (h : f.yields = true) : f.bracket? = none := by
  cases f <;> simp [Frame.yields] at h <;> rfl

theorem strayError_yields {f : Frame} (F : List Frame) (t : Token) (h : f.yields = true) :
    strayError (f :: F) t = strayError F t := by
  cases f <;> simp [Frame.yields] at h <;> rfl

theorem strayError_refuses {f : Frame} {F : List Frame} {t : Token} (h : f.Refuses t.tag)
    (outermost : f = .root → F = []) : strayError (f :: F) t = .unmatchedBracket t := by
  cases f with
  | group outer block => rfl
  | attrs => rfl
  | root =>
    rw [outermost rfl]
    rfl
  | value => exact h.elim
  | body outer => exact h.elim
  | header => exact h.elim
  | control outer => exact h.elim

theorem Frame.mismatch_cases {f : Frame} {F : List Frame} {tag : TokenTag}
    (closing : tag = .rParen ∨ tag = .rBracket)
    (mismatch : ∀ b ∈ ((f :: F).filterMap Frame.bracket?).head?, tag.shuts? ≠ some b) :
    f.yields = true ∨ f.Refuses tag ∨ f = .header := by
  cases f with
  | group outer block =>
    rcases closing with rfl | rfl
    · exact absurd rfl (mismatch .round rfl)
    · exact .inr (.inl rfl)
  | attrs =>
    rcases closing with rfl | rfl
    · exact .inr (.inl rfl)
    · exact absurd rfl (mismatch .square rfl)
  | root => exact .inr (.inl closing)
  | value => exact .inl rfl
  | body outer => exact .inl rfl
  | header => exact .inr (.inr rfl)
  | control outer => exact .inl rfl

theorem Survives.of_ok {α : Type} {r : Attempt α} {Q R : α → Prop} (h : Survives r Q)
    (each : ∀ x, r = .ok x → R x) : Survives r R := by
  cases r with
  | ok x => exact each x rfl
  | error e => exact h

theorem Assembly.complete_survives {w : Assembly} {marker : NodeTag} {near : Token}
    (found : ∃ r, w.takeScope marker near = .ok r) :
    Survives (w.complete marker near) fun _ => True := by
  obtain ⟨⟨top, inner, w'⟩, taken⟩ := found
  simp only [complete, taken, bind, Except.bind]
  exact (build_survives w' marker top.token inner).mono fun _ _ => trivial

namespace Config

variable {c d : Config} {e : ParseError}

def HandsOn (c d : Config) : Prop :=
  d.goal = .operator ∧ d.frames = c.frames ∧ d.token = c.token

/-- The parse fails with the error, unless it runs out of room before. -/
def Dooms (c : Config) (e : ParseError) : Prop :=
  ∃ f, c.run = .error f ∧ (f.error = .outOfMemory ∨ f.error = e)

theorem dooms_of_step {Q : Config → Prop} (h : Survives c.step fun n => ∃ d, n = .move d ∧ Q d)
    (next : ∀ d, c.Moves d → Q d → d.Dooms e) : c.Dooms e := by
  cases stepped : c.step with
  | error f =>
    rw [stepped] at h
    exact ⟨f, run_of_error stepped, .inl h⟩
  | ok n =>
    rw [stepped] at h
    obtain ⟨d, rfl, holds⟩ := h
    obtain ⟨f, ran, reported⟩ := next d stepped holds
    exact ⟨f, (run_of_move stepped).trans ran, reported⟩

theorem dooms_of_fail {w : Assembly} (h : c.step = w.fail e) : c.Dooms e :=
  ⟨⟨e, w⟩, run_of_error h, .inr rfl⟩

theorem pops_closing (closing : c.token.tag = .rParen ∨ c.token.tag = .rBracket)
    (sheltered : c.Sheltered) (goal : c.goal = .operator) :
    Survives c.dispatch fun n => ∃ d, n = .move d ∧ d.token = c.token ∧ c.Pops d := by
  have leaves : c.tokenChoice = .leave := by
    rcases closing with found | found <;> simp only [tokenChoice, goal, operatorChoice, found]
  rw [dispatch_eq, choose_token (TokenTag.ne_indent_of_closing closing), leaves]
  apply (sheltered.leave goal).of_ok
  intro n left
  simp only [leave] at left
  cases settled : c.work.settleScope c.token with
  | error f => simp [settled, bind, Except.bind] at left
  | ok w =>
    cases frames : c.frames with
    | nil => simp [settled, frames, bind, Except.bind, Assembly.fail] at left
    | cons f F =>
      simp only [settled, frames, bind, Except.bind, pure, Except.pure, Except.ok.injEq] at left
      subst left
      exact ⟨_, rfl, rfl, goal, f, frames, rfl⟩

theorem hands_closing {f : Frame} (sheltered : c.Sheltered)
    (closing : c.token.tag = .rParen ∨ c.token.tag = .rBracket) (goal : c.goal = .close f)
    (yields : f.yields = true) :
    Survives c.dispatch fun n => ∃ d, n = .move d ∧ c.HandsOn d := by
  have closes := sheltered.close f goal
  have kept : ∀ act level, Survives (Act.run c.token c.work act) (fun _ => True) →
      Survives ((Choice.keep { act, level, goal := .operator }).run c) fun n =>
        ∃ d, n = .move d ∧ c.HandsOn d :=
    fun _ _ acts => acts.bind fun _ _ => ⟨_, rfl, rfl, rfl, rfl⟩
  rw [dispatch_eq, choose_token (TokenTag.ne_indent_of_closing closing)]
  simp only [tokenChoice, goal]
  cases f with
  | value => exact kept _ _ (closes.2.bind fun _ found => Assembly.complete_survives found)
  | body outer => exact kept _ _ (closes.2.bind fun _ found => Assembly.complete_survives found)
  | control outer =>
    obtain ⟨tag, r, innermost, taken⟩ := closes
    simp only [controlChoice, innermost]
    exact kept _ _ (Assembly.complete_survives ⟨r, taken⟩)
  | group outer block => cases yields
  | attrs => cases yields
  | header => cases yields
  | root => cases yields

theorem dispatch_refuses {f : Frame} (closing : c.token.tag = .rParen ∨ c.token.tag = .rBracket)
    (goal : c.goal = .close f) (refuses : f.Refuses c.token.tag) :
    c.dispatch = c.work.fail (.unmatchedBracket c.token) := by
  have refused : c.tokenChoice = .refuse .unmatched := by
    unfold tokenChoice
    rw [goal]
    generalize c.token.tag = tag at refuses
    cases f with
    | group outer block => cases refuses; rfl
    | attrs => cases refuses; rfl
    | root => obtain rfl | rfl := refuses <;> rfl
    | value => exact refuses.elim
    | body outer => exact refuses.elim
    | header => exact refuses.elim
    | control outer => exact refuses.elim
  rw [dispatch_eq, choose_token (TokenTag.ne_indent_of_closing closing), refused]
  rfl

theorem dispatch_header (closing : c.token.tag = .rParen ∨ c.token.tag = .rBracket)
    (goal : c.goal = .close .header) :
    c.dispatch = c.work.fail (.unexpectedToken c.token) := by
  rw [dispatch_eq, choose_token (TokenTag.ne_indent_of_closing closing)]
  simp only [tokenChoice, goal]
  rfl

end Config

namespace Source

variable {s : Source} {a : Arena} {c : Config}

theorem Reaches.sheltered (h : s.Reaches a c) : c.noted.Sheltered := by
  obtain ⟨ts, P, tracks⟩ := h.tracks
  have noted : c.noted.Tracks ts a.nodes.toList P := tracks
  exact noted.disciplined.sheltered

/-- The bracket goes outward through the constructs that it ends, up to the one that reports it. -/
theorem Reaches.dooms_closing (h : s.Reaches a c) (goal : c.goal = .operator)
    (closing : c.token.tag = .rParen ∨ c.token.tag = .rBracket)
    (mismatch : ∀ b ∈ (c.frames.filterMap Frame.bracket?).head?, c.token.tag.shuts? ≠ some b) :
    c.Dooms (strayError c.frames c.token) := by
  generalize open_ : c.frames = F at mismatch ⊢
  -- Each construct that is closed leaves one frame less, with the same token at hand.
  induction F generalizing c with
  | nil =>
    refine Config.dooms_of_step (Config.pops_closing (c := c.noted) closing h.sheltered goal) ?_
    rintro d - ⟨-, -, f, frames, -⟩
    cases open_.symm.trans frames
  | cons f F ih =>
    refine Config.dooms_of_step (Config.pops_closing (c := c.noted) closing h.sheltered goal) ?_
    rintro d moved ⟨token, -, g, frames, goal'⟩
    obtain ⟨rfl, rfl⟩ := List.cons.inj (open_.symm.trans frames)
    have token : d.token = c.token := token
    have reached := h.tail moved
    have closing' : d.token.tag = .rParen ∨ d.token.tag = .rBracket := token ▸ closing
    rw [← token] at mismatch ⊢
    rcases Frame.mismatch_cases closing' mismatch with yields | refuses | rfl
    · rw [strayError_yields _ _ yields]
      refine Config.dooms_of_step (Config.hands_closing (c := d.noted) reached.sheltered closing' goal'
        yields) ?_
      rintro e moved' ⟨goal'', frames', token'⟩
      have token' : e.token = d.token := token'
      rw [List.filterMap_cons_none (Frame.bracket?_yields yields), ← token'] at mismatch
      rw [← token']
      exact ih (reached.tail moved') goal'' (token' ▸ closing') frames' mismatch
    · have outermost : f = .root → d.frames = [] := by
        rintro rfl
        exact reached.outermost goal'
      rw [strayError_refuses refuses outermost]
      exact Config.dooms_of_fail (Config.dispatch_refuses (c := d.noted) closing' goal' refuses)
    · exact Config.dooms_of_fail (Config.dispatch_header (c := d.noted) closing' goal')

theorem Reaches.token_full (h : s.Reaches a c)
    (closing : c.token.tag = .rParen ∨ c.token.tag = .rBracket) : c.token.start < c.token.stop := by
  obtain ⟨u, read, -⟩ := h.read
  have token : u.next.1 = c.token := by rw [read]
  rw [← token] at closing ⊢
  have tag : u.next.1.tag ≠ .indent ∧ u.next.1.tag ≠ .eof := by
    rcases closing with found | found <;> simp [found]
  have full := List.length_pos_iff.mpr ((scan_sound u.flags u.rest).full tag.1 tag.2)
  obtain ⟨-, stop, -, -⟩ := u.next_spans
  omega

/-- Behind the first indentation, a token that is not empty stands in one place only. -/
theorem layoutTokens_split {before after before' after' : List Token} {t : Token}
    (lexed : s.lexemes?.isSome = true) (plain : t.tag ≠ .indent) (full : t.start < t.stop)
    (split : s.layoutTokens = before ++ t :: after)
    (split' : s.layoutTokens = before' ++ t :: after') : before = before' := by
  obtain ⟨ts, lexemes⟩ := Option.isSome_iff_exists.mp lexed
  obtain ⟨first, rest, line, tokens, -, sorted⟩ := lexemes_label lexemes
  have inside : ∀ {xs ys : List Token}, first :: rest = xs ++ t :: ys →
      ∃ zs, xs = first :: zs ∧ rest = zs ++ t :: ys := by
    intro xs ys same
    cases xs with
    | nil =>
      obtain ⟨rfl, -⟩ := List.cons.inj same
      exact absurd line plain
    | cons x zs =>
      obtain ⟨rfl, inner⟩ := List.cons.inj same
      exact ⟨zs, rfl, inner⟩
  obtain ⟨xs, rfl, here⟩ := inside (tokens.symm.trans split)
  obtain ⟨ys, rfl, there⟩ := inside (tokens.symm.trans split')
  rw [here] at sorted there
  obtain ⟨-, behind, ahead⟩ := List.pairwise_append.mp sorted
  have left : t ∉ xs := by
    intro member
    have bound := ahead t member t List.mem_cons_self
    omega
  have right : t ∉ after := by
    intro member
    have bound := (List.pairwise_cons.mp behind).1 t member
    omega
  obtain ⟨same, -⟩ := (List.append_cons_inj_of_notMem left right).mp there
  rw [same]

theorem layoutTokens_of_within {n : Nat} {ts : List Token}
    (line : ((Scanner.ofSource .layout s).nextFrom .lineStart).1.tag = .indent)
    (h : ((Scanner.ofSource .layout s).nextFrom .lineStart).2.tokensWithin n = some ts) :
    s.layoutTokens = ((Scanner.ofSource .layout s).nextFrom .lineStart).1 :: ts := by
  have going : ¬(((Scanner.ofSource .layout s).nextFrom .lineStart).1.tag = .eof ∨
      false = true) := by
    rw [line]
    decide
  rw [layoutTokens, Scanner.entriesFrom, if_neg going]
  exact congrArg (_ :: ·) (Scanner.tokens_of_within h)

/-- A closing bracket that is met behind an operand and does not match the innermost bracket open
before it makes the parse fail at it, whatever else is open. It is reported as unmatched, unless the
header of a control construct is open inside that bracket: then it is unexpected. -/
theorem mismatch_reported (reaches : s.Reaches a c) (goal : c.goal = .operator)
    (closing : c.token.tag = .rParen ∨ c.token.tag = .rBracket) {before after : List Token}
    (tokens : s.layoutTokens = before ++ c.token :: after) {stack : List Bracket}
    (opened : unclosed [] (before.map Token.tag) = some stack)
    (mismatch : ∀ b ∈ stack.head?, c.token.tag.shuts? ≠ some b)
    (room : (s.parse a).outcome ≠ .error .outOfMemory) :
    (s.parse a).outcome =
      .error (if awaitsBody c.frames then .unexpectedToken c.token else .unmatchedBracket c.token) := by
  obtain ⟨ts, P, lexemes, -, expects⟩ := reaches.tracks_lexemes
  rw [goal] at expects
  obtain ⟨front, back, split, leaves⟩ := layoutTokens_opened lexemes expects.opened_operator
  obtain rfl : before = front := layoutTokens_split (Option.isSome_iff_exists.mpr ⟨ts, lexemes⟩)
    (TokenTag.ne_indent_of_closing closing) (reaches.token_full closing) tokens split
  obtain rfl : c.frames.filterMap Frame.bracket? = stack :=
    Option.some.inj (leaves.unclosed_eq.symm.trans opened)
  obtain ⟨f, ran, reported⟩ := reaches.dooms_closing goal closing mismatch
  obtain ⟨start, begun, moves⟩ := reaches
  have ended := (parse_error begun ((Config.run_of_moves moves).trans ran)).1
  rcases reported with full | reported
  · rw [full] at ended
    exact absurd ended room
  · rw [ended, reported, strayError]

/- A value and a name stand between the operand and the group. -/
theorem mismatch_reported_value :
    ∃ c : Config, (ofText "(.a = 1]").Reaches .empty c ∧ c.goal = .operator ∧
      c.token = ⟨.rBracket, 7, 8⟩ ∧ c.frames = [.value, .group 0 false, .root] ∧
      ((ofText "(.a = 1]").parse .empty).outcome = .error (.unmatchedBracket ⟨.rBracket, 7, 8⟩) := by
  have reached : ∃ c : Config, (ofText "(.a = 1]").Reaches .empty c ∧ c.goal = .operator ∧
      c.token = ⟨.rBracket, 7, 8⟩ ∧ c.frames = [.value, .group 0 false, .root] :=
    ⟨_, ⟨_, rfl, .tail (.tail (.tail (.tail (.tail (.tail .refl rfl) rfl) rfl) rfl) rfl) rfl⟩, rfl,
      rfl, rfl⟩
  obtain ⟨c, reaches, goal, token, frames⟩ := reached
  have closing : c.token.tag = .rParen ∨ c.token.tag = .rBracket := .inr (by rw [token])
  have tokens : (ofText "(.a = 1]").layoutTokens =
      [⟨.indent, 0, 0⟩, ⟨.lParen, 0, 1⟩, ⟨.dot, 1, 2⟩, ⟨.identifier, 2, 3⟩, ⟨.equal, 4, 5⟩,
        ⟨.number, 6, 7⟩] ++ c.token :: [⟨.eof, 8, 8⟩] := by
    rw [token]
    exact layoutTokens_of_within (n := 7) rfl rfl
  have mismatch : ∀ b ∈ [Bracket.round].head?, c.token.tag.shuts? ≠ some b := by
    rw [token]
    decide
  have failed : ((ofText "(.a = 1]").parse .empty).outcome =
      .error (.unmatchedBracket ⟨.rBracket, 7, 8⟩) := outcome_of_within (n := 30) rfl
  have room : ((ofText "(.a = 1]").parse .empty).outcome ≠ .error .outOfMemory := by
    rw [failed]
    simp
  have reported := mismatch_reported reaches goal closing tokens rfl mismatch room
  rw [frames, token] at reported
  exact ⟨c, reaches, goal, token, frames, reported⟩

/- The header of a control construct is met first. -/
theorem exists_mismatch_unexpected :
    ∃ c : Config, (ofText "if x)").Reaches .empty c ∧ c.goal = .operator ∧
      c.token = ⟨.rParen, 4, 5⟩ ∧
      (ofText "if x)").layoutTokens =
        [⟨.indent, 0, 0⟩, ⟨.kwIf, 0, 2⟩, ⟨.identifier, 3, 4⟩] ++ c.token :: [⟨.eof, 5, 5⟩] ∧
      unclosed [] [.indent, .kwIf, .identifier] = some [] ∧
      ((ofText "if x)").parse .empty).outcome = .error (.unexpectedToken c.token) ∧
      ((ofText "if x)").parse .empty).outcome ≠ .error (.unmatchedBracket c.token) := by
  have reached : ∃ c : Config, (ofText "if x)").Reaches .empty c ∧ c.goal = .operator ∧
      c.token = ⟨.rParen, 4, 5⟩ :=
    ⟨_, ⟨_, rfl, .tail (.tail .refl rfl) rfl⟩, rfl, rfl⟩
  obtain ⟨c, reaches, goal, token⟩ := reached
  have failed : ((ofText "if x)").parse .empty).outcome =
      .error (.unexpectedToken ⟨.rParen, 4, 5⟩) := outcome_of_within (n := 30) rfl
  have tokens : (ofText "if x)").layoutTokens =
      [⟨.indent, 0, 0⟩, ⟨.kwIf, 0, 2⟩, ⟨.identifier, 3, 4⟩, ⟨.rParen, 4, 5⟩, ⟨.eof, 5, 5⟩] :=
    layoutTokens_of_within (n := 4) rfl rfl
  refine ⟨c, reaches, goal, token, ?_, rfl, ?_, ?_⟩
  · rw [token]
    exact tokens
  · rw [token]
    exact failed
  · rw [token, failed]
    simp

end Source
end Offside
