import Offside.Proofs.Brackets
import Offside.Proofs.Levels
import Offside.Proofs.Lines

/-! Outlines of parsed trees. No token of such a tree goes over the end of a line, so the lines of an
outline are those of its nodes, and two outlines are the same only if they show the same. -/
namespace Offside

theorem Byte.toNat_of_within {low high b : Byte} (h : within low high b = true) :
    low.toNat ≤ b.toNat ∧ b.toNat ≤ high.toNat := by
  simpa [within, UInt8.le_iff_toNat_le] using h

namespace Utf8

def Pending.Long (p : Pending) : Prop := 2 ≤ p.value ∨ p.more ≠ 0 ∧ (1 ≤ p.value ∨ 0x90 ≤ p.low)

def Lead.Plain (b : Byte) : Lead → Prop
  | .char c => c = '\n' → b = Byte.lineFeed
  | .pending p => p.Long

theorem ofNat_lineFeed {n : Nat} (h : Char.ofNat n = '\n') : n = 10 := by
  by_cases valid : n.isValidChar
  · rw [Char.ofNat, dif_pos valid] at h
    exact congrArg Char.toNat h
  · rw [Char.ofNat, dif_neg valid] at h
    cases h

theorem lead_plain (b : Byte) : (lead b).Plain b := by
  unfold lead
  split
  · intro feed
    exact UInt8.toNat_inj.mp (ofNat_lineFeed feed)
  split
  · rename_i found
    have low : 2 + 0xC0 ≤ b.toNat := (Byte.toNat_of_within found).1
    exact .inl (Nat.le_sub_of_add_le low)
  split
  · exact .inr ⟨Nat.succ_ne_zero _, .inr (by decide)⟩
  split
  · exact .inl (by decide)
  split
  · rename_i found
    have low : 1 + 0xE0 ≤ b.toNat := (Byte.toNat_of_within found).1
    exact .inr ⟨Nat.succ_ne_zero _, .inl (Nat.le_sub_of_add_le low)⟩
  split
  · exact .inr ⟨Nat.succ_ne_zero _, .inr (by decide)⟩
  split
  · rename_i found
    have low : 1 + 0xF0 ≤ b.toNat := (Byte.toNat_of_within found).1
    exact .inr ⟨Nat.succ_ne_zero _, .inl (Nat.le_sub_of_add_le low)⟩
  split
  · exact .inl (by decide)
  · intro feed
    cases feed

theorem Pending.extend_plain {p : Pending} {b : Byte} (long : p.Long)
    (inside : Byte.within p.low p.high b = true) : (p.extend b).Plain b := by
  obtain ⟨more, low, high, value⟩ := p
  have low_le : low.toNat ≤ b.toNat := (Byte.toNat_of_within inside).1
  have value_ge : 2 ≤ value * 64 + (b.toNat - 0x80) := by
    rcases long with large | ⟨-, some | high⟩
    · have large : 2 ≤ value := large
      omega
    · have some : 1 ≤ value := some
      omega
    · have high : (0x90 : Byte).toNat ≤ low.toNat := UInt8.le_iff_toNat_le.mp high
      have high : 0x90 ≤ low.toNat := high
      omega
  cases more with
  | zero =>
    intro feed
    have value_eq := ofNat_lineFeed feed
    rcases long with large | ⟨more, -⟩
    · have large : 2 ≤ value := large
      omega
    · exact absurd rfl more
  | succ more => exact .inl value_ge

theorem decodeFrom_unbroken {p : Option Pending} {bytes : List Byte} (long : ∀ q ∈ p, q.Long)
    (unbroken : Byte.lineFeed ∉ bytes) : '\n' ∉ decodeFrom p bytes := by
  induction bytes generalizing p with
  | nil =>
    cases p with
    | none => exact List.not_mem_nil
    | some p => exact List.not_mem_cons_of_ne_of_not_mem (by decide) List.not_mem_nil
  | cons b rest ih =>
    have inline : b ≠ Byte.lineFeed := (List.ne_of_not_mem_cons unbroken).symm
    have later : ∀ {q : Option Pending}, (∀ r ∈ q, r.Long) → '\n' ∉ decodeFrom q rest :=
      fun long => ih long (List.not_mem_of_not_mem_cons unbroken)
    have onward : ∀ l : Lead, l.Plain b → '\n' ∉ (match l with
        | .char c => c :: decodeFrom none rest
        | .pending q => decodeFrom (some q) rest) := by
      intro l plain
      cases l with
      | char c =>
        refine List.not_mem_cons_of_ne_of_not_mem ?_ (later nofun)
        intro feed
        exact inline (plain feed.symm)
      | pending q =>
        refine later ?_
        rintro r ⟨⟩
        exact plain
    cases p with
    | none => exact onward (lead b) (lead_plain b)
    | some p =>
      rw [decodeFrom]
      split
      · rename_i inside
        exact onward (p.extend b) (Pending.extend_plain (long p rfl) inside)
      · have fresh := onward (lead b) (lead_plain b)
        generalize lead b = l at fresh ⊢
        cases l with
        | char c => exact List.not_mem_cons_of_ne_of_not_mem (by decide) fresh
        | pending q => exact List.not_mem_cons_of_ne_of_not_mem (by decide) fresh

end Utf8

theorem Source.preview_unbroken {s : Source} {t : Token} (unbroken : Byte.lineFeed ∉ s.text t) :
    '\n' ∉ s.preview t := by
  refine Utf8.decodeFrom_unbroken nofun ?_
  intro feed
  exact unbroken (List.mem_of_mem_take feed)

section Scans

variable {flags : Flags} {behind : List TextLine} {o : Nat} {f : Scan}

theorem Beyond.unbroken (h : Beyond behind o f) (sound : f.tag ≠ .invalid ∧ f.tag ≠ .incomplete)
    (ended : f.tag = .eof → f.text = []) : Byte.lineFeed ∉ f.text := by
  cases h with
  | fault fault => exact absurd fault (not_or.mpr sound)
  | ended eof =>
    rw [ended eof]
    exact List.not_mem_nil
  | line w tag text =>
    rw [text]
    intro feed
    cases List.eq_of_mem_replicate feed

/-- Where lines are told apart, no token that is sound goes over the end of its line. -/
theorem scan_unbroken (tracked : flags.indent = true) (whole : flags.chunked = false)
    {state : ScanState} (between : state = .gap ∨ state = .lineStart) (rest : List Byte)
    (sound : (scan flags state rest).tag ≠ .invalid ∧ (scan flags state rest).tag ≠ .incomplete) :
    Byte.lineFeed ∉ (scan flags state rest).text := by
  rcases between with rfl | rfl
  · rcases between_beyond tracked whole 0 [] rest with inline | beyond
    · intro feed
      exact inline.resolve.unbroken _ (List.mem_append_right _ feed) rfl
    · exact beyond.resolve.unbroken sound fun eof => ((scan_sound flags rest).ended eof).1
  · rw [scan, whole] at sound ⊢
    have beyond := leading_beyond 0 0 rest
    exact beyond.unbroken sound fun eof => ((leading_sound tracked false 0 rest).ended eof).1

def Tells (P : List Byte → Prop) : Prop := ∀ state : ScanState, state = .gap ∨ state = .lineStart →
  ∀ rest, (scan .layout state rest).tag ≠ .invalid ∧ (scan .layout state rest).tag ≠ .incomplete →
    P (scan .layout state rest).text

end Scans

namespace Scanner

variable {s : Source} {u : Scanner}

theorem Faces.text_told {P : List Byte → Prop} (faces : u.Faces s) (told : Tells P)
    (flags : u.flags = .layout) {state : ScanState} (between : state = .gap ∨ state = .lineStart)
    (sound : (u.nextFrom state).1.tag ≠ .invalid ∧ (u.nextFrom state).1.tag ≠ .incomplete) :
    P (s.text (u.nextFrom state).1) := by
  rw [tag_nextFrom, flags] at sound
  rw [(faces.next state).1, flags]
  exact told state between u.rest sound

theorem Faces.tokens_told {P : List Byte → Prop} (faces : u.Faces s) (told : Tells P)
    (flags : u.flags = .layout) :
    ∀ t ∈ u.tokens, t.tag ≠ .invalid ∧ t.tag ≠ .incomplete → P (s.text t) := by
  induction u using entries.induct fun _ => false with
  | case1 u step last =>
    have eof : u.next.1.tag = .eof := by simpa using last
    rw [tokens_eq, if_pos eof]
    intro t member
    obtain rfl := List.mem_singleton.mp member
    exact faces.text_told told flags (.inl rfl)
  | case2 u step more ih =>
    have going : ¬u.next.1.tag = .eof := by simpa using more
    rw [tokens_eq, if_neg going]
    intro t member
    rcases List.mem_cons.mp member with rfl | member
    · exact faces.text_told told flags (.inl rfl)
    · exact ih (faces.next .gap).2 flags t member

end Scanner

namespace Source

variable {s : Source} {a : Arena} {root : NodeId} {tree : Tree} {ends : Tail → List Lexeme → Prop}

theorem layoutTokens_told {P : List Byte → Prop} (told : Tells P) : ∀ t ∈ s.layoutTokens,
    t.tag ≠ .invalid ∧ t.tag ≠ .incomplete → P (s.text t) := by
  have faces : (Scanner.ofSource .layout s).Faces s := rfl
  intro t member sound
  rw [layoutTokens, Scanner.entriesFrom] at member
  split at member
  · obtain rfl := List.mem_singleton.mp member
    exact faces.text_told told rfl (.inr rfl) sound
  · rcases List.mem_cons.mp member with rfl | member
    · exact faces.text_told told rfl (.inr rfl) sound
    · exact (faces.next .lineStart).2.tokens_told told rfl t member sound

theorem Document.told {P : List Byte → Prop} (h : s.Document ends tree) (told : Tells P) :
    ∀ u ∈ tree.tokens, P (s.text u) := by
  intro u kept
  obtain ⟨first, last, used, -, -, tokens, spans, -⟩ := h.spans
  obtain ⟨x, inside, rfl⟩ := spans.within tree List.mem_cons_self u kept
  have member : x.token ∈ s.layoutTokens := by
    rw [tokens]
    exact List.mem_cons_of_mem _ (List.mem_append_left _ (List.mem_map_of_mem inside))
  have sound := h.tidy.2 x.token member
  refine layoutTokens_told told x.token member ⟨?_, ?_⟩
  · intro invalid
    rw [invalid] at sound
    cases sound
  · intro incomplete
    rw [incomplete] at sound
    cases sound

theorem Document.unbroken (h : s.Document ends tree) : ∀ u ∈ tree.tokens, Byte.lineFeed ∉ s.text u := by
  have told : Tells fun text => Byte.lineFeed ∉ text := fun _ => scan_unbroken rfl rfl
  exact h.told told

theorem Document.level_unbroken (h : s.Document ends tree) (depth : Nat) {k : Nat} :
    ∀ l ∈ tree.levels s k, '\n' ∉ l.text depth := by
  intro l member
  refine Level.text_unbroken depth ?_
  intro text shown
  obtain ⟨u, kept, rfl⟩ := Tree.levels_preview tree l member text shown
  exact preview_unbroken (h.unbroken u kept)

theorem Document.outline (h : s.Document ends tree) (shown : a.Shows root tree) (depth : Nat) :
    ∃ dump, Outline.render? a s depth root = some dump ∧
      dump.toList = (((tree.levels s 0).filter (·.depth ≤ depth)).map (Level.text depth)).flatMap
        (· ++ ['\n']) ∧
      Text.linesOf dump.toList =
        ((tree.levels s 0).filter (·.depth ≤ depth)).map (Level.text depth) := by
  obtain ⟨dump, found, text⟩ := Outline.render_of_shows (s := s) shown depth
  refine ⟨dump, found, text, ?_⟩
  rw [text]
  refine Text.linesOf_join ?_
  intro line member
  obtain ⟨l, inside, rfl⟩ := List.mem_map.mp member
  exact h.level_unbroken depth l (List.mem_of_mem_filter inside)

theorem Document.whole_outline {depth : Nat} {dump : String} (h : s.Document ends tree)
    (shown : a.Shows root tree) (deep : tree.height < depth)
    (found : Outline.render? a s depth root = some dump) :
    Text.linesOf dump.toList = (tree.levels s 0).map (Level.text depth) := by
  obtain ⟨dump', found', -, lines⟩ := h.outline shown depth
  obtain rfl := Option.some.inj (found.symm.trans found')
  have all : (tree.levels s 0).filter (·.depth ≤ depth) = tree.levels s 0 := by
    rw [List.filter_eq_self]
    intro l member
    exact decide_eq_true (Nat.le_of_lt (Tree.levels_lt deep l member))
  rw [lines, all]

theorem height_lt_nodes (parsed : (s.parse a).outcome = .ok (some root))
    (shown : (s.parse a).arena.Shows root tree) : tree.height < (s.parse a).arena.size := by
  rw [size_of_shows parsed shown]
  exact Nat.lt_of_lt_of_le tree.height_lt_size (Nat.le_add_left _ _)

/-- Outlines are faithful. The outline of a parsed tree has a line for each node down to its last
level, one after the other as the nodes stand in the tree, and nothing else; a node on the level below
the last has a mark there. Two outlines that show whole trees are the same only if the trees look the
same: they have the same nodes, and on each of them the same kind and the same beginning of a token. -/
theorem outline_faithful (s : Source) (a : Arena) (root : NodeId)
    (parsed : (s.parse a).outcome = .ok (some root)) :
    ∃ tree, (s.parse a).arena.Shows root tree ∧
      (∀ depth, ∃ dump, Outline.render? (s.parse a).arena s depth root = some dump ∧
        dump.toList = (((tree.levels s 0).filter (·.depth ≤ depth)).map (Level.text depth)).flatMap
          (· ++ ['\n']) ∧
        Text.linesOf dump.toList =
          ((tree.levels s 0).filter (·.depth ≤ depth)).map (Level.text depth)) ∧
      ∀ (s' : Source) (a' : Arena) (root' : NodeId) (tree' : Tree) (depth depth' : Nat),
        (s'.parse a').outcome = .ok (some root') → (s'.parse a').arena.Shows root' tree' →
          tree.height < depth → tree'.height < depth' →
          Outline.render? (s.parse a).arena s depth root =
            Outline.render? (s'.parse a').arena s' depth' root' →
          tree.sketch s = tree'.sketch s' := by
  obtain ⟨tree, document, shown⟩ := parse_shows parsed
  refine ⟨tree, shown, document.outline shown, ?_⟩
  intro s' a' root' tree' depth depth' parsed' shown' deep deep' same
  obtain ⟨tree'', document', shown''⟩ := parse_shows parsed'
  obtain rfl := shown'.unique shown''
  obtain ⟨dump, found, -⟩ := document.outline shown depth
  have lines := document.whole_outline shown deep found
  rw [document'.whole_outline shown' deep' (same.symm.trans found)] at lines
  have same_levels : tree'.levels s' 0 = tree.levels s 0 :=
    Level.texts_inj (Tree.levels_lt deep') (Tree.levels_lt deep) lines
  have levels : (tree.sketch s).levels 0 ++ [] = (tree'.sketch s').levels 0 ++ [] := by
    rw [List.append_nil, List.append_nil]
    exact same_levels.symm
  exact (Sketch.levels_inj (Sketch.above_nil _) (Sketch.above_nil _) _ _ levels).1

def branching : Source := ofText ".a[b+c*2]\n\"word word\""

def bracketed : Source := ofText ".a[((b)+c*2)]\n(\"word word\")"

def branchingTree (name b plus c star two text : Nat) : Tree :=
  let product := .node .mul (some ⟨.star, star, star + 1⟩)
    [.node .identifier (some ⟨.identifier, c, c + 1⟩) [],
      .node .number (some ⟨.number, two, two + 1⟩) []]
  let sum := .node .add (some ⟨.plus, plus, plus + 1⟩)
    [.node .identifier (some ⟨.identifier, b, b + 1⟩) [], product]
  .node .blockAnd none
    [.node .nameDef (some ⟨.identifier, name, name + 1⟩) [.node .attrs none [sum]],
      .node .string (some ⟨.string, text, text + 11⟩) []]

theorem outline_faithful_enclosed :
    let tree := branchingTree 1 3 4 5 6 7 10
    let tree' := branchingTree 1 5 7 8 9 10 15
    let a := (branching.parse .empty).arena
    let a' := (bracketed.parse .empty).arena
    (branching.parse .empty).outcome = .ok (some ⟨8⟩) ∧ a.Shows ⟨8⟩ tree ∧
      (∃ dump, Outline.render? a branching 2 ⟨8⟩ = some dump ∧
        Text.linesOf dump.toList =
          ["· block_and".toList, "  · name_def 'a'".toList, "    …".toList,
            "  · string '\"word word'".toList]) ∧
      (bracketed.parse .empty).outcome = .ok (some ⟨8⟩) ∧ a'.Shows ⟨8⟩ tree' ∧
      tree.height < 6 ∧ tree'.height < 9 ∧
      Outline.render? a branching 6 ⟨8⟩ = Outline.render? a' bracketed 9 ⟨8⟩ ∧
      tree.sketch branching = tree'.sketch bracketed := by
  intro tree tree' a a'
  have parsed : (branching.parse .empty).outcome = .ok (some ⟨8⟩) := outcome_of_within (n := 60) rfl
  have parsed' : (bracketed.parse .empty).outcome = .ok (some ⟨8⟩) :=
    outcome_of_within (n := 60) rfl
  have shown : a.Shows ⟨8⟩ tree := shows_of_within (n := 60) (m := 9) rfl
  have shown' : a'.Shows ⟨8⟩ tree' := shows_of_within (n := 60) (m := 9) rfl
  have deep : tree.height < 6 := by decide
  have deep' : tree'.height < 9 := by decide
  have same : Outline.render? a branching 6 ⟨8⟩ = Outline.render? a' bracketed 9 ⟨8⟩ := by
    obtain ⟨b, ran⟩ : ∃ b, branching.arenaWithin 60 .empty = some b := ⟨_, rfl⟩
    obtain ⟨b', ran'⟩ : ∃ b, bracketed.arenaWithin 60 .empty = some b := ⟨_, rfl⟩
    have lines : (branching.arenaWithin 60 .empty).bind (Outline.lines? · branching 6 0 ⟨8⟩) =
        (bracketed.arenaWithin 60 .empty).bind (Outline.lines? · bracketed 9 0 ⟨8⟩) := by
      decide +kernel
    rw [ran, ran'] at lines
    change Outline.render? (branching.parse .empty).arena branching 6 ⟨8⟩ =
      Outline.render? (bracketed.parse .empty).arena bracketed 9 ⟨8⟩
    rw [arena_of_within ran, arena_of_within ran']
    exact congrArg (Option.map _) lines
  obtain ⟨_, found, lines, faithful⟩ := outline_faithful branching .empty ⟨8⟩ parsed
  obtain rfl := found.unique shown
  obtain ⟨dump, rendered, -, text⟩ := lines 2
  refine ⟨parsed, shown, ⟨dump, rendered, text.trans ?_⟩, parsed', shown', deep, deep', same, ?_⟩
  · decide +kernel
  · exact faithful bracketed .empty ⟨8⟩ tree' 6 9 parsed' shown' deep deep' same

end Source
end Offside
