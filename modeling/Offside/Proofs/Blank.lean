import Offside.Proofs.Brackets
import Offside.Proofs.Recognition
import Offside.Proofs.Relaid

/-! The sources without a tree. Before its first token a parse passes over the lines that are blank, so
it ends without a tree just where all lines are. -/
namespace Offside

/-- The byte at the place is a space, or is part of a line end. -/
def BlankAt (x : List Byte) (i : Nat) : Prop :=
  x[i]? = some Byte.space ∨ x[i]? = some Byte.lineFeed ∨
    (x[i]? = some Byte.carriageReturn ∧ x[i + 1]? = some Byte.lineFeed)

instance (x : List Byte) (i : Nat) : Decidable (BlankAt x i) := inferInstanceAs (Decidable (_ ∨ _ ∨ _))

def IsBlank (x : List Byte) : Prop := ∀ i < x.length, BlankAt x i

instance (x : List Byte) : Decidable (IsBlank x) := inferInstanceAs (Decidable (∀ i < x.length, _))

theorem isBlank_nil : IsBlank [] := by
  intro i inside
  cases inside

theorem isBlank_cons {b : Byte} {x : List Byte} :
    IsBlank (b :: x) ↔ BlankAt (b :: x) 0 ∧ IsBlank x := by
  constructor
  · intro blank
    refine ⟨blank 0 (Nat.zero_lt_succ _), ?_⟩
    intro i inside
    exact blank (i + 1) (Nat.succ_lt_succ inside)
  · rintro ⟨first, blank⟩ i inside
    cases i with
    | zero => exact first
    | succ i => exact blank i (Nat.lt_of_succ_lt_succ inside)

theorem isBlank_space {x : List Byte} : IsBlank (Byte.space :: x) ↔ IsBlank x := by
  rw [isBlank_cons]
  exact and_iff_right (.inl rfl)

theorem isBlank_lineEnd {e x : List Byte} (h : LineEnd e) : IsBlank (e ++ x) ↔ IsBlank x := by
  have feed : IsBlank (Byte.lineFeed :: x) ↔ IsBlank x := by
    rw [isBlank_cons]
    exact and_iff_right (.inr (.inl rfl))
  cases h with
  | feed => exact feed
  | returned =>
    have returned : BlankAt (Byte.carriageReturn :: Byte.lineFeed :: x) 0 := .inr (.inr ⟨rfl, rfl⟩)
    exact (isBlank_cons.trans (and_iff_right returned)).trans feed

theorem not_isBlank_of_opens {x : List Byte} (h : Opens x) : ¬IsBlank x := by
  cases x with
  | nil => exact h.elim
  | cons b x =>
    obtain ⟨space, feed, returned⟩ := h
    intro blank
    rcases blank 0 (Nat.zero_lt_succ _) with found | found | ⟨found, behind⟩
    · exact space (Option.some.inj found)
    · exact feed (Option.some.inj found)
    · rw [List.getElem?_cons_succ, ← List.head?_eq_getElem?] at behind
      exact returned ⟨Option.some.inj found, behind⟩

theorem leading_eof_iff (w : Nat) (x : List Byte) :
    (leading false w x).tag = .eof ↔ IsBlank x := by
  induction x using leading_cases generalizing w with
  | nil => exact iff_of_true rfl isBlank_nil
  | space z ih => rw [leading_space, isBlank_space, ih]
  | ended e z h ih =>
    rw [leading_lineEnd w h, isBlank_lineEnd h, ← ih 0]
    rfl
  | opens z h =>
    refine iff_of_false ?_ (not_isBlank_of_opens h)
    rw [leading_opens w h]
    split <;> nofun

namespace Source

theorem ofSource_none_iff (s : Source) (a : Arena) :
    Config.ofSource a s = .ok none ↔ IsBlank s.bytes := by
  rw [← leading_eof_iff 0]
  have tag : ((Scanner.ofSource .layout s).nextFrom .lineStart).1.tag =
      (leading false 0 s.bytes).tag := rfl
  rw [← tag]
  unfold Config.ofSource
  dsimp only
  split
  · rename_i last
    exact iff_of_true rfl last
  · rename_i line
    refine iff_of_false nofun ?_
    rw [line]
    nofun
  · rename_i other _
    exact iff_of_false nofun other

theorem none_iff_isBlank (s : Source) (a : Arena) :
    (s.parse a).outcome = .ok none ↔ IsBlank s.bytes := by
  rw [← ofSource_none_iff s a]
  constructor
  · intro blank
    rcases parse_ends s a with ⟨t, ended⟩ | ⟨start, -⟩ | ⟨root, ended⟩ | ⟨c, f, -, -, ended⟩
    · cases blank.symm.trans ended
    · exact start
    · cases blank.symm.trans ended
    · cases blank.symm.trans ended
  · intro start
    exact (parse_blank start).1

theorem arena_of_isBlank {s : Source} (a : Arena) (blank : IsBlank s.bytes) :
    (s.parse a).arena = a :=
  (parse_blank ((ofSource_none_iff s a).mpr blank)).2

/-- A source has neither a tree nor an error just where each of its bytes is a space, a line feed or a
carriage return right before a line feed; then nothing is built. A tree is always built of new nodes. -/
theorem parse_none_iff_blank (s : Source) (a : Arena) :
    ((s.parse a).outcome = .ok none ↔ IsBlank s.bytes) ∧
      (IsBlank s.bytes → (s.parse a).arena = a) ∧
      (¬IsBlank s.bytes → (∃ root, (s.parse a).outcome = .ok (some root)) ∨
        ∃ e, (s.parse a).outcome = .error e) ∧
      ∀ root, (s.parse a).outcome = .ok (some root) → a.size < (s.parse a).arena.size := by
  refine ⟨none_iff_isBlank s a, arena_of_isBlank a, ?_, ?_⟩
  · intro inked
    cases ended : (s.parse a).outcome with
    | error e => exact .inr ⟨e, rfl⟩
    | ok root =>
      cases root with
      | none => exact absurd ((none_iff_isBlank s a).mp ended) inked
      | some root => exact .inl ⟨root, rfl⟩
  · intro root parsed
    obtain ⟨tree, -, shown⟩ := parse_shows parsed
    rw [size_of_shows parsed shown]
    exact Nat.lt_add_of_pos_right tree.size_pos

/- A line of a space, one that ends in a return, and a space at the end; then a return that ends no line,
and a number. -/
theorem parse_none_iff_blank_lines :
    (IsBlank [0x20, 0x0A, 0x0D, 0x0A, 0x20] ∧
      (parse ⟨[0x20, 0x0A, 0x0D, 0x0A, 0x20]⟩ .empty).outcome = .ok none ∧
      (parse ⟨[0x20, 0x0A, 0x0D, 0x0A, 0x20]⟩ .empty).arena = .empty) ∧
    (¬IsBlank [0x0D, 0x20] ∧
      ((∃ root, (parse ⟨[0x0D, 0x20]⟩ .empty).outcome = .ok (some root)) ∨
        ∃ e, (parse ⟨[0x0D, 0x20]⟩ .empty).outcome = .error e)) ∧
    ((ofText "1").parse .empty).outcome = .ok (some ⟨0⟩) ∧
      Arena.empty.size < ((ofText "1").parse .empty).arena.size := by
  have blank : IsBlank [0x20, 0x0A, 0x0D, 0x0A, 0x20] := by decide
  have inked : ¬IsBlank [0x0D, 0x20] := by decide
  have parsed : ((ofText "1").parse .empty).outcome = .ok (some ⟨0⟩) :=
    outcome_of_within (n := 5) rfl
  obtain ⟨none_iff, unchanged, -, -⟩ := parse_none_iff_blank ⟨[0x20, 0x0A, 0x0D, 0x0A, 0x20]⟩ .empty
  obtain ⟨-, -, ends, -⟩ := parse_none_iff_blank ⟨[0x0D, 0x20]⟩ .empty
  obtain ⟨-, -, -, grows⟩ := parse_none_iff_blank (ofText "1") .empty
  exact ⟨⟨blank, none_iff.mpr blank, unchanged blank⟩, ⟨inked, ends inked⟩, parsed, grows _ parsed⟩

end Source
end Offside
