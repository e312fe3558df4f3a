import Offside.Parse.Error

/-!
The grid on which lines are indented. The first line of a source fixes the trim, the width of
level zero; the first line beyond the trim fixes the unit. From then on every width is the trim and
a whole number of units.
-/

namespace Offside

/-- The grid as far as it is known, and the level of the innermost open block. -/
structure Grid where
  trim : Nat
  unit : Option Nat
  level : Nat
  deriving DecidableEq, Repr

namespace Grid

def ofTrim (trim : Nat) : Grid := ⟨trim, none, 0⟩

/-- The level of an indentation, and the grid after it: the first deeper line fixes the unit. -/
def measure (g : Grid) (t : Token) : Except ParseError (Nat × Grid) :=
  if t.length < g.trim then .error (.unalignedIndent t)
  else
    let depth := t.length - g.trim
    if depth = 0 then .ok (0, g)
    else
      match g.unit with
      | none => .ok (1, { g with unit := some depth })
      | some unit =>
        if depth % unit = 0 then .ok (depth / unit, g) else .error (.unalignedIndent t)

theorem measure_cases (g : Grid) (t : Token) :
    (∃ level h, g.measure t = .ok (level, h)) ∨ g.measure t = .error (.unalignedIndent t) := by
  unfold measure
  split
  · exact .inr rfl
  · dsimp only
    split
    · exact .inl ⟨_, _, rfl⟩
    · split
      · exact .inl ⟨_, _, rfl⟩
      · split
        · exact .inl ⟨_, _, rfl⟩
        · exact .inr rfl

theorem measure_level {g g' : Grid} {t : Token} {level : Nat} (h : g.measure t = .ok (level, g')) :
    g'.level = g.level := by
  unfold measure at h
  split at h
  · cases h
  · dsimp only at h
    split at h
    · cases h
      rfl
    · split at h
      · cases h
        rfl
      · split at h
        · cases h
          rfl
        · cases h

theorem measure_again {g g' : Grid} {t : Token} {level : Nat}
    (h : g.measure t = .ok (level, g')) : g'.measure t = .ok (level, g') := by
  obtain ⟨trim, unit, depth⟩ := g
  unfold measure at h
  split at h
  · cases h
  · rename_i wide
    dsimp only at h wide
    split at h
    · rename_i flat
      cases h
      simp [measure, wide, flat]
    · rename_i deep
      split at h
      -- The line fixes the unit, and is one unit deep ever after.
      · cases h
        simp [measure, wide, deep, Nat.div_self (Nat.pos_of_ne_zero deep)]
      · rename_i unit
        split at h
        · rename_i whole
          cases h
          simp [measure, wide, deep, whole]
        · cases h

end Grid
end Offside
