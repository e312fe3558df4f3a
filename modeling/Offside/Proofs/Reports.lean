import Offside.Command.Options
import Offside.Command.Report
import Offside.Proofs.Blank
import Offside.Proofs.Faithful
import Offside.Proofs.Growth

/-! What the commands say of one text. The report on a text and its outline agree: both fail with the
same words, or the report counts the lines of the whole outline. -/
namespace Offside

/-- The options that ask for as many levels as can be asked for. -/
def Options.deepest : Options := { depth := Options.countLimit - 1 }

namespace Report

variable {text : String}

theorem commands_error {e : ParseError} (path : String) (depth : Nat)
    (failed : ((Source.ofText text).parse .empty).outcome = .error e) :
    ofText path text = ⟨path, 0, some (e.describe (Source.ofText text))⟩ ∧
      outlineOf text depth = .error (e.describe (Source.ofText text)) := by
  simp only [ofText, outlineOf, failed, and_self]

theorem commands_ok {root : Option NodeId} (path : String) (depth : Nat)
    (parsed : ((Source.ofText text).parse .empty).outcome = .ok root) :
    ofText path text = ⟨path, ((Source.ofText text).parse .empty).arena.size, none⟩ ∧
      outlineOf text depth = .ok ((root.bind (Outline.render?
        ((Source.ofText text).parse .empty).arena (Source.ofText text) depth)).getD "") := by
  simp only [ofText, outlineOf, parsed, and_self]

theorem commands_blank (path : String)
    (blank : ((Source.ofText text).parse .empty).outcome = .ok none) :
    (ofText path text).nodes = 0 ∧ ∀ depth, outlineOf text depth = .ok "" := by
  refine ⟨?_, fun depth => (commands_ok path depth blank).2⟩
  have arena := Source.arena_of_isBlank .empty ((Source.none_iff_isBlank _ .empty).mp blank)
  rw [(commands_ok path 0 blank).1, arena]
  rfl

theorem height_lt_deepest {s : Source} {root : NodeId} {tree : Tree}
    (parsed : (s.parse .empty).outcome = .ok (some root))
    (shown : (s.parse .empty).arena.Shows root tree) : tree.height < Options.deepest.depth :=
  calc tree.height
    _ < (s.parse .empty).arena.size := Source.height_lt_nodes parsed shown
    _ ≤ 0 + Arena.maxNodes := s.parse_size_le .empty
    _ < Options.deepest.depth := by decide

theorem nodes_eq_lines {root : NodeId} {dump : String} (path : String)
    (parsed : ((Source.ofText text).parse .empty).outcome = .ok (some root))
    (found : outlineOf text Options.deepest.depth = .ok dump) :
    (ofText path text).nodes = (Text.linesOf dump.toList).length := by
  obtain ⟨report, outline⟩ := commands_ok path Options.deepest.depth parsed
  obtain ⟨tree, document, shown⟩ := Source.parse_shows parsed
  obtain ⟨dump', rendered, -⟩ := document.outline shown Options.deepest.depth
  have same : dump' = dump := by
    rw [outline, Option.bind_some, rendered] at found
    exact Except.ok.inj found
  have lines := document.whole_outline shown (height_lt_deepest parsed shown) rendered
  have size : ((Source.ofText text).parse .empty).arena.size = 0 + tree.size :=
    Source.size_of_shows parsed shown
  calc (ofText path text).nodes
      = ((Source.ofText text).parse .empty).arena.size := by rw [report]
    _ = (tree.levels (Source.ofText text) 0).length := by rw [size, Tree.length_levels, Nat.zero_add]
    _ = (Text.linesOf dump.toList).length := by rw [← same, lines, List.length_map]

/-- The report on a text and its outlines agree. The text has no failure just where it has outlines, of
any depth; a failure is told in the same words; and the nodes that are counted are the lines of the
outline of all levels, which are none for a text that is blank. -/
theorem ofText_agrees (path text : String) :
    (∀ o : Options, (ofText path text).isOk = true ↔ ∃ dump, outlineOf text o.depth = .ok dump) ∧
      (∀ (o : Options) (message : String),
        (ofText path text).failure = some message ↔ outlineOf text o.depth = .error message) ∧
      (∀ dump, outlineOf text Options.deepest.depth = .ok dump →
        (ofText path text).nodes = (Text.linesOf dump.toList).length) ∧
      (IsBlank (Source.ofText text).bytes →
        (ofText path text).nodes = 0 ∧ ∀ o : Options, outlineOf text o.depth = .ok "") := by
  have blank : IsBlank (Source.ofText text).bytes →
      (ofText path text).nodes = 0 ∧ ∀ o : Options, outlineOf text o.depth = .ok "" := by
    intro blank
    obtain ⟨none, empty⟩ := commands_blank path ((Source.none_iff_isBlank _ .empty).mpr blank)
    exact ⟨none, fun o => empty o.depth⟩
  cases ended : ((Source.ofText text).parse .empty).outcome with
  | error e =>
    have report := (commands_error path 0 ended).1
    have outline : ∀ o : Options, outlineOf text o.depth = _ :=
      fun o => (commands_error path o.depth ended).2
    refine ⟨?_, ?_, ?_, blank⟩
    · intro o
      rw [report, outline]
      exact iff_of_false nofun nofun
    · intro o message
      rw [report, outline, Option.some.injEq, Except.error.injEq]
    · intro dump found
      cases (outline .deepest).symm.trans found
  | ok root? =>
    have report := (commands_ok path 0 ended).1
    have outline : ∀ o : Options, outlineOf text o.depth = _ :=
      fun o => (commands_ok path o.depth ended).2
    refine ⟨?_, ?_, ?_, blank⟩
    · intro o
      rw [report, outline]
      exact iff_of_true rfl ⟨_, rfl⟩
    · intro o message
      rw [report, outline]
      exact iff_of_false nofun nofun
    · intro dump found
      cases root? with
      | none =>
        obtain ⟨none, empty⟩ := commands_blank path ended
        obtain rfl := Except.ok.inj ((empty _).symm.trans found)
        exact none
      | some root => exact nodes_eq_lines path ended found

/- A text with a tree of three nodes, and one that is blank. -/
theorem ofText_agrees_sum :
    (∃ dump, outlineOf "1+a" Options.deepest.depth = .ok dump ∧
      (ofText "sum" "1+a").nodes = 3 ∧ (Text.linesOf dump.toList).length = 3) ∧
    (IsBlank (Source.ofText " ").bytes ∧ (ofText "blank" " ").nodes = 0 ∧
      ∀ o : Options, outlineOf " " o.depth = .ok "") := by
  obtain ⟨ok_iff, -, lines, -⟩ := ofText_agrees "sum" "1+a"
  have parsed : ((Source.ofText "1+a").parse .empty).outcome = .ok (some ⟨2⟩) :=
    Source.outcome_of_within (n := 20) rfl
  have size : ((Source.ofText "1+a").parse .empty).arena.size = 3 :=
    Source.size_of_within (n := 20) rfl
  have report := (commands_ok "sum" 0 parsed).1
  obtain ⟨dump, found⟩ := (ok_iff .deepest).mp (by rw [report]; rfl)
  have three : (ofText "sum" "1+a").nodes = 3 := by
    rw [report]
    exact size
  have blank : IsBlank (Source.ofText " ").bytes := by decide
  exact ⟨⟨dump, found, three, (lines dump found).symm.trans three⟩, blank,
    (ofText_agrees "blank" " ").2.2.2 blank⟩

end Report
end Offside
