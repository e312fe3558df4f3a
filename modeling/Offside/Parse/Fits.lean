import Offside.Parse.Choice

/-!
What a choice of the rules can be. A token that is used up is there to be used up, a token that is
kept ends something or begins the operand of a group, and what may run out of room is all that can
fail behind a look at the next token.
-/

namespace Offside

/-- A token may be read for the goal; the others only take over a token that was kept. -/
def Goal.isFresh : Goal → Bool
  | .operand | .operator | .afterParen | .afterDot | .afterName _ => true
  | .close .header | .close (.group _ false) => true
  | .close _ => false

def Goal.endsName : Goal → Bool
  | .afterName _ | .close .value | .close (.body _) => true
  | _ => false

def Frame.Refuses : Frame → TokenTag → Prop
  | .group _ _, tag => tag = .rBracket
  | .attrs, tag => tag = .rParen
  | .root, tag => tag = .rParen ∨ tag = .rBracket
  | _, _ => False

def Act.keeps : Act → Bool
  | .push _ keeps | .build _ keeps | .binary _ keeps => keeps
  | _ => false

/-- The act only fails for lack of room. -/
def Act.IsSure (goal : Goal) : Act → Prop
  | .idle | .push _ _ | .build _ _ => True
  | .binary _ _ => goal = .operator
  | _ => False

structure Deed.Takes (tag : TokenTag) (d : Deed) : Prop where
  found : tag ≠ .eof
  valid : tag ≠ .invalid
  plain : d.act.keeps = true → tag ≠ .indent
  fresh : d.goal.isFresh = true

/-- The deeds that leave the token at hand, by the goal it was read for. -/
inductive Deed.Retains (goal : Goal) : Deed → Prop where
  | name {act level} : goal.endsName = true →
      (act = .complete .nameDef ∨ ∃ marker, act = .define marker) →
      Retains goal { act, level, goal := .operator }
  | group {f} : goal = .afterParen → Retains goal { opens := some f, goal := .operand }
  | control {outer tag level} : goal = .close (.control outer) →
      Retains goal { act := .complete tag, level, goal := .operator }

theorem Deed.Retains.keeps_eq {goal : Goal} {d : Deed} (h : d.Retains goal) :
    d.act.keeps = false := by
  cases h with
  | name _ act => obtain rfl | ⟨marker, rfl⟩ := act <;> rfl
  | group => rfl
  | control => rfl

inductive Sight.Fits (goal : Goal) (tag : TokenTag) : Sight → Prop where
  | refuse : Fits goal tag .refuse
  | read {d} : d.Takes tag → d.act.IsSure goal → Fits goal tag (.read d)
  | pass {d} : d.Takes tag → d.act.IsSure goal → Fits goal tag (.pass d)

/-- What the rules may choose for a goal and a kind of token. -/
inductive Choice.Fits (goal : Goal) (tag : TokenTag) : Choice → Prop where
  | refuse {why} : (why = .unmatched → ∃ f, goal = .close f ∧ f.Refuses tag) →
      Fits goal tag (.refuse why)
  | finish : Fits goal tag .finish
  | leave : goal = .operator → Fits goal tag .leave
  | keep {d} : d.Retains goal → Fits goal tag (.keep d)
  | read {d} : d.Takes tag → Fits goal tag (.read d)
  | look {kind found other} : tag ≠ .invalid → kind ≠ .invalid → found.Fits goal tag →
      other.Fits goal tag → (∀ d, other ≠ .pass d) → Fits goal tag (.look kind found other)

section Fits

variable {c : Config} {d : Deed} {goal : Goal} {tag : TokenTag} {level outer : Nat}

theorem fits_unexpected : (Choice.refuse .unexpected).Fits goal tag := .refuse nofun

theorem fits_unaligned : (Choice.refuse .unaligned).Fits goal tag := .refuse nofun

theorem Deed.Takes.of_line (keeps : d.act.keeps = false) (fresh : d.goal.isFresh = true) :
    d.Takes .indent :=
  ⟨by decide, by decide, by simp [keeps], fresh⟩

theorem Deed.Takes.of_token (solid : tag ≠ .eof ∧ tag ≠ .invalid ∧ tag ≠ .indent)
    (fresh : d.goal.isFresh = true) : d.Takes tag :=
  ⟨solid.1, solid.2.1, fun _ => solid.2.2, fresh⟩

theorem fits_blockChoice (keeps : d.act.keeps = false) (fresh : d.goal.isFresh = true) :
    (c.blockChoice level d).Fits goal .indent := by
  unfold Config.blockChoice
  split
  · exact .read (.of_line keeps fresh)
  · split
    · exact fits_unaligned
    · exact fits_unexpected

theorem fits_dedentChoice {ended : Choice} (fits : ended.Fits goal tag) :
    (Config.dedentChoice level outer ended).Fits goal tag := by
  unfold Config.dedentChoice
  split
  · exact fits_unaligned
  · split
    · exact fits_unexpected
    · exact fits

theorem fits_nameChoice (ends : goal.endsName = true) : Config.nameChoice.Fits goal tag :=
  .keep (.name ends (.inl rfl))

theorem fits_bodyChoice : (Config.bodyChoice outer).Fits (.close (.body outer)) tag :=
  .keep (.name rfl (.inr ⟨_, rfl⟩))

theorem fits_controlChoice : (c.controlChoice outer).Fits (.close (.control outer)) tag := by
  unfold Config.controlChoice
  split
  · exact .keep (.control rfl)
  · exact fits_unexpected

theorem fits_lineChoice (c : Config) (level : Nat) : (c.lineChoice level).Fits c.goal .indent := by
  unfold Config.lineChoice
  cases c.goal with
  | operand => exact fits_unexpected
  | afterDot => exact fits_unexpected
  | operator =>
    dsimp only
    split
    · apply Choice.Fits.look (by decide) (by decide)
      · exact .pass (.of_line rfl rfl) rfl
      · exact .read (.of_line rfl rfl) rfl
      · simp
    · exact .leave rfl
  | afterParen => exact fits_blockChoice rfl rfl
  | afterName attrs =>
    dsimp only
    split
    · exact fits_nameChoice rfl
    · exact fits_blockChoice rfl rfl
  | close f =>
    cases f with
    | group outer block =>
      cases block with
      | true =>
        apply fits_dedentChoice
        apply Choice.Fits.look (by decide) (by decide)
        · exact .read (.of_line rfl rfl) trivial
        · exact .refuse
        · simp
      | false => exact fits_unexpected
    | body outer => exact fits_dedentChoice fits_bodyChoice
    | header =>
      dsimp only
      split
      · exact fits_blockChoice rfl rfl
      · exact fits_unexpected
    | control outer => exact fits_dedentChoice fits_controlChoice
    | attrs => exact fits_unexpected
    | value => exact fits_unexpected
    | root => exact fits_unexpected

theorem fits_operandChoice (tag : TokenTag) : (Config.operandChoice tag).Fits .operand tag := by
  unfold Config.operandChoice
  split
  iterate 12 exact .read (.of_token (by decide) rfl)
  exact fits_unexpected

theorem fits_operatorChoice (plain : c.token.tag ≠ .indent) :
    c.operatorChoice.Fits .operator c.token.tag := by
  unfold Config.operatorChoice
  split
  · exact .leave rfl
  · exact .leave rfl
  · exact .leave rfl
  · rename_i equal
    rw [equal]
    split
    · exact .read (.of_token (by decide) rfl)
    · exact fits_unexpected
  · rename_i eof _
    split
    · rename_i operator found
      have valid : c.token.tag ≠ .invalid := by
        intro invalid
        simp [invalid, operatorTag?] at found
      exact .read (.of_token ⟨eof, valid, plain⟩ rfl)
    · exact fits_unexpected

theorem fits_tokenChoice (c : Config) (plain : c.token.tag = .indent → c.goal = .close .value) :
    c.tokenChoice.Fits c.goal c.token.tag := by
  unfold Config.tokenChoice
  cases goal : c.goal with
  | operand => exact fits_operandChoice _
  | operator =>
    apply fits_operatorChoice
    intro line
    cases goal.symm.trans (plain line)
  | afterParen => exact .keep (.group rfl)
  | afterDot =>
    dsimp only
    split
    · rename_i found
      rw [found]
      exact .read (.of_token (by decide) rfl)
    · exact fits_unexpected
  | afterName attrs =>
    cases c.token.tag with
    | lBracket =>
      dsimp only
      split
      · exact fits_nameChoice rfl
      · apply Choice.Fits.look (by decide) (by decide)
        · exact .pass (.of_token (by decide) rfl) trivial
        · exact .read (.of_token (by decide) rfl) trivial
        · simp
    | equal => exact .read (.of_token (by decide) rfl)
    | _ => exact fits_nameChoice rfl
  | close f =>
    cases f with
    | group outer block =>
      cases c.token.tag with
      | rParen => exact .read (.of_token (by decide) rfl)
      | rBracket => exact .refuse fun _ => ⟨_, rfl, rfl⟩
      | _ => exact fits_unexpected
    | attrs =>
      cases c.token.tag with
      | rBracket => exact .read (.of_token (by decide) rfl)
      | rParen => exact .refuse fun _ => ⟨_, rfl, rfl⟩
      | _ => exact fits_unexpected
    | value => exact .keep (.name rfl (.inr ⟨_, rfl⟩))
    | body outer => exact fits_bodyChoice
    | header => exact fits_unexpected
    | control outer => exact fits_controlChoice
    | root =>
      cases c.token.tag with
      | eof => exact .finish
      | rParen => exact .refuse fun _ => ⟨_, rfl, .inl rfl⟩
      | rBracket => exact .refuse fun _ => ⟨_, rfl, .inr rfl⟩
      | _ => exact fits_unexpected

end Fits

namespace Config

theorem choice_fits (c : Config) : c.choice.2.Fits c.goal c.token.tag := by
  unfold choice
  split
  · rename_i measures
    split
    · rename_i level grid _
      rw [measures.1]
      exact fits_lineChoice { c with grid } level
    · exact fits_unaligned
  · rename_i other
    apply fits_tokenChoice
    intro line
    exact Decidable.byContradiction fun goal => other ⟨line, goal⟩

end Config
end Offside
