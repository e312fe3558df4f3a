import Offside.Proofs.Discipline
import Offside.Proofs.Faults
import Offside.Proofs.Frontier
import Offside.Proofs.Pairs

/-! Brackets that close nothing. Only the end of a group, of an attribute list or of the source
reports one, and it reports the token at hand; what is open there are the brackets of the frames. -/
namespace Offside

theorem Nested.root_outermost {G : List Frame} {O : List Pending} {n : Nat} (h : Nested G O n) :
    ∀ F, G = .root :: F → F = [] := by
  induction h with
  | root =>
    rintro F ⟨⟩
    rfl
  | binary _ _ ih => exact ih
  | negate _ ih => exact ih
  | _ => rintro F ⟨⟩

theorem Frame.Refuses.mismatch {f : Frame} {F : List Frame} {tag : TokenTag} (h : f.Refuses tag)
    (outermost : f = .root → F = []) :
    (tag = .rParen ∨ tag = .rBracket) ∧
      ∀ b ∈ ((f :: F).filterMap Frame.bracket?).head?, tag.shuts? ≠ some b := by
  cases f with
  | group outer block =>
    obtain rfl := h
    exact ⟨.inr rfl, by simp [Frame.bracket?, TokenTag.shuts?]⟩
  | attrs =>
    obtain rfl := h
    exact ⟨.inl rfl, by simp [Frame.bracket?, TokenTag.shuts?]⟩
  | root =>
    rw [outermost rfl]
    exact ⟨h, by simp [Frame.bracket?]⟩
  | value => exact h.elim
  | body outer => exact h.elim
  | header => exact h.elim
  | control outer => exact h.elim

namespace Source

variable {s : Source} {a : Arena} {c : Config} {f : Fault}

theorem Reaches.exists_failure (h : s.Reaches a c) (ran : c.run = .error f) :
    ∃ d, s.Reaches a d ∧ d.step = .error f := by
  induction c using Config.run.induct with
  | case1 c d moved ih =>
    rw [Config.run_of_move moved] at ran
    obtain ⟨start, begun, moves⟩ := h
    exact ih ⟨start, begun, moves.tail moved⟩ ran
  | case2 c root d finished =>
    rw [Config.run_of_done finished] at ran
    cases ran
  | case3 c fault failed =>
    rw [Config.run_of_error failed] at ran
    cases ran
    exact ⟨c, h, failed⟩

theorem parse_ends (s : Source) (a : Arena) :
    (∃ t, (s.parse a).outcome = .error (.unexpectedToken t)) ∨
    (Config.ofSource a s = .ok none ∧ (s.parse a).outcome = .ok none) ∨
    (∃ root, (s.parse a).outcome = .ok (some root)) ∨
    ∃ c f, s.Reaches a c ∧ c.step = .error f ∧ (s.parse a).outcome = .error f.error := by
  cases start : Config.ofSource a s with
  | error f =>
    have ended := (parse_broken start).1
    unfold Config.ofSource at start
    dsimp only at start
    split at start
    · cases start
    · cases start
    · cases start
      exact .inl ⟨_, ended⟩
  | ok c? =>
    cases c? with
    | none => exact .inr (.inl ⟨rfl, (parse_blank start).1⟩)
    | some c =>
      cases ran : c.run with
      | ok r => exact .inr (.inr (.inl ⟨r.1, (parse_ok start ran).1⟩))
      | error f =>
        obtain ⟨d, reaches, failed⟩ := Reaches.exists_failure ⟨c, start, .refl⟩ ran
        exact .inr (.inr (.inr ⟨d, f, reaches, failed, (parse_error start ran).1⟩))

theorem exists_unmatched {t : Token} (failed : (s.parse a).outcome = .error (.unmatchedBracket t)) :
    ∃ c, s.Reaches a c ∧ t = c.token ∧ ∃ f, c.goal = .close f ∧ f.Refuses t.tag := by
  rcases parse_ends s a with ⟨u, ended⟩ | ⟨-, ended⟩ | ⟨root, ended⟩ |
    ⟨c, f, reaches, step, ended⟩
  · cases ended.symm.trans failed
  · cases ended.symm.trans failed
  · cases ended.symm.trans failed
  · have reported := Except.error.inj (ended.symm.trans failed)
    exact ⟨c, reaches, Config.step_unmatched step reported⟩

theorem Reaches.outermost (h : s.Reaches a c) (goal : c.goal = .close .root) : c.frames = [] := by
  obtain ⟨ts, P, tracks⟩ := h.tracks
  have matched := tracks.disciplined.matched
  simp only [Config.Matched, goal] at matched
  rcases matched with ⟨m, -, -, nested⟩ | ⟨_, _, other, -⟩
  · exact nested.root_outermost _ rfl
  · cases other

/-- Of the tokens of the source, those before the one at hand leave open what has been opened. -/
theorem layoutTokens_opened {ts : List Lexeme} {F : List Frame} (lexemes : s.lexemes? = some ts)
    (opened : Opened ts F c.ahead) :
    ∃ before after, s.layoutTokens = before ++ c.token :: after ∧
      LeavesOpen (F.filterMap Frame.bracket?) (before.map Token.tag) := by
  obtain ⟨used, split, leaves⟩ := opened
  obtain ⟨level, rest, ahead⟩ := c.ahead_head
  obtain ⟨first, line, tokens, -⟩ := lexemes_tokens lexemes
  refine ⟨first :: used.map Lexeme.token, rest.map Lexeme.token, ?_, ?_⟩
  · rw [tokens, split, ahead]
    simp
  · have indent : WellNested [first.tag] := by
      rw [line]
      exact .plain rfl rfl
    have tags : (first :: used.map Lexeme.token).map Token.tag =
        [first.tag] ++ used.map Lexeme.tag := by
      simp [Lexeme.tag]
    rw [tags]
    exact leaves.prepend indent

theorem Reaches.opened {f : Frame} (h : s.Reaches a c) (goal : c.goal = .close f) :
    ∃ before after, s.layoutTokens = before ++ c.token :: after ∧
      LeavesOpen ((f :: c.frames).filterMap Frame.bracket?) (before.map Token.tag) := by
  obtain ⟨ts, P, lexemes, -, expects⟩ := h.tracks_lexemes
  rw [goal] at expects
  exact layoutTokens_opened lexemes expects.opened

theorem Document.tidy {ends : Tail → List Lexeme → Prop} {tree : Tree}
    (h : s.Document ends tree) :
    WellNested (s.layoutTokens.map Token.tag) ∧ ∀ t ∈ s.layoutTokens, t.tag.isStray = false := by
  obtain ⟨ts, lexemes, x, e, der, last, -⟩ := h
  obtain ⟨first, line, tokens, -⟩ := lexemes_tokens lexemes
  obtain ⟨used, rfl, tidy⟩ := der.paired
  have begins : Tidy [⟨first, none⟩] := tidy_lone (by rw [Lexeme.tag, line]; rfl)
  have ended : Tidy [e] := tidy_lone (by rw [last]; rfl)
  have all : Tidy (⟨first, none⟩ :: (used ++ [e])) := begins.append (tidy.append ended)
  have same : s.layoutTokens = (⟨first, none⟩ :: (used ++ [e])).map Lexeme.token := tokens
  rw [same]
  refine ⟨?_, ?_⟩
  · rw [List.map_map]
    exact all.1
  · intro t member
    obtain ⟨y, inside, rfl⟩ := List.mem_map.mp member
    exact all.2 y inside

theorem layoutTokens_of_blank (blank : (s.parse a).outcome = .ok none) :
    ∃ last : Token, last.tag = .eof ∧ s.layoutTokens = [last] := by
  have start : Config.ofSource a s = .ok none := by
    rcases parse_ends s a with ⟨u, ended⟩ | ⟨start, -⟩ | ⟨root, ended⟩ | ⟨c, f, -, -, ended⟩
    · cases ended.symm.trans blank
    · exact start
    · cases ended.symm.trans blank
    · cases ended.symm.trans blank
  unfold Config.ofSource at start
  dsimp only at start
  split at start
  · rename_i last
    refine ⟨_, last, ?_⟩
    rw [layoutTokens, Scanner.entriesFrom, if_pos (.inl last)]
    rfl
  · cases start
  · cases start

/-- Brackets. A parse that succeeds has met them in pairs, and none of the tokens that no rule takes.
One that reports a bracket has met a closing one, behind brackets that could all have been closed,
and the innermost of those still open is not of its kind. -/
theorem parse_brackets (s : Source) (a : Arena) :
    (∀ root, (s.parse a).outcome = .ok root →
      WellNested (s.layoutTokens.map Token.tag) ∧
        ∀ t ∈ s.layoutTokens, t.tag.isStray = false) ∧
      ∀ t, (s.parse a).outcome = .error (.unmatchedBracket t) →
        (t.tag = .rParen ∨ t.tag = .rBracket) ∧
          ∃ before after, s.layoutTokens = before ++ t :: after ∧
            (∃ more, WellNested (before.map Token.tag ++ more)) ∧
            ∃ stack, unclosed [] (before.map Token.tag) = some stack ∧
              ∀ b ∈ stack.head?, t.tag.shuts? ≠ some b := by
  constructor
  · intro root parsed
    cases root with
    | some root =>
      obtain ⟨tree, document, -⟩ := parse_shows parsed
      exact document.tidy
    | none =>
      obtain ⟨last, eof, tokens⟩ := layoutTokens_of_blank parsed
      rw [tokens]
      refine ⟨?_, ?_⟩
      · rw [List.map_singleton, eof]
        exact .plain rfl rfl
      · intro t member
        rw [List.mem_singleton.mp member, eof]
        rfl
  · intro t failed
    obtain ⟨c, reaches, rfl, f, goal, refuses⟩ := exists_unmatched failed
    obtain ⟨before, after, tokens, leaves⟩ := reaches.opened goal
    have outermost : f = .root → c.frames = [] := by
      rintro rfl
      exact reaches.outermost goal
    obtain ⟨closing, mismatch⟩ := refuses.mismatch outermost
    obtain ⟨more, closes⟩ := leaves.exists_closing
    exact ⟨closing, before, after, tokens, ⟨more, closes [] .nil⟩, _, leaves.unclosed_eq, mismatch⟩

theorem parse_brackets_crossed :
    (((ofText ".a[(1)]").parse .empty).outcome = .ok (some ⟨2⟩) ∧
      WellNested ((ofText ".a[(1)]").layoutTokens.map Token.tag)) ∧
    ((ofText "(.a[1)]").parse .empty).outcome = .error (.unmatchedBracket ⟨.rParen, 5, 6⟩) ∧
      ∃ before after, (ofText "(.a[1)]").layoutTokens = before ++ ⟨.rParen, 5, 6⟩ :: after ∧
        ∃ stack, unclosed [] (before.map Token.tag) = some stack ∧
          ∀ b ∈ stack.head?, TokenTag.rParen.shuts? ≠ some b := by
  have parsed : ((ofText ".a[(1)]").parse .empty).outcome = .ok (some ⟨2⟩) :=
    outcome_of_within (n := 30) rfl
  have failed : ((ofText "(.a[1)]").parse .empty).outcome =
      .error (.unmatchedBracket ⟨.rParen, 5, 6⟩) :=
    outcome_of_within (n := 30) rfl
  obtain ⟨-, before, after, tokens, -, open_⟩ := (parse_brackets _ _).2 _ failed
  exact ⟨⟨parsed, ((parse_brackets _ _).1 _ parsed).1⟩, failed, before, after, tokens, open_⟩

end Source
end Offside
