import Mathlib.Data.Nat.Find
import Offside.Proofs.Frontier
import Offside.Proofs.Forest
import Offside.Tree.Outline

/-! What an outline shows of a tree, and that the tree can be read back from it. An outline has a line
for each node; the lines tell where the node stands by how far in they are. -/
namespace Offside

namespace Text

def linesWith (line : List Char) : List Char → List (List Char)
  | [] => if line = [] then [] else [line]
  | c :: rest => if c = '\n' then line :: linesWith [] rest else linesWith (line ++ [c]) rest

def linesOf (text : List Char) : List (List Char) := linesWith [] text

theorem linesWith_line {line text : List Char} (unbroken : '\n' ∉ text) (rest : List Char) :
    linesWith line (text ++ '\n' :: rest) = (line ++ text) :: linesOf rest := by
  induction text generalizing line with
  | nil =>
    rw [List.append_nil]
    exact if_pos rfl
  | cons c text ih =>
    have inline : ¬c = '\n' := Ne.symm (List.ne_of_not_mem_cons unbroken)
    rw [List.cons_append, linesWith, if_neg inline, ih (List.not_mem_of_not_mem_cons unbroken),
      List.append_assoc]
    rfl

theorem linesOf_join {lines : List (List Char)} (unbroken : ∀ line ∈ lines, '\n' ∉ line) :
    linesOf (lines.flatMap (· ++ ['\n'])) = lines := by
  induction lines with
  | nil => rfl
  | cons line lines ih =>
    obtain ⟨first, unbroken⟩ := List.forall_mem_cons.mp unbroken
    rw [List.flatMap_cons, List.append_assoc, linesOf]
    refine (linesWith_line first _).trans ?_
    rw [List.nil_append]
    exact congrArg _ (ih unbroken)

end Text

theorem split_at_first {c : Char} {x x' y y' : List Char} (none : c ∉ x) (none' : c ∉ x')
    (same : x ++ c :: y = x' ++ c :: y') : x = x' ∧ y = y' := by
  induction x generalizing x' with
  | nil =>
    cases x' with
    | nil => exact ⟨rfl, (List.cons.inj same).2⟩
    | cons d x' => exact absurd (List.cons.inj same).1 (List.ne_of_not_mem_cons none')
  | cons b x ih =>
    cases x' with
    | nil => exact absurd (List.cons.inj same).1.symm (List.ne_of_not_mem_cons none)
    | cons d x' =>
      obtain ⟨rfl, behind⟩ := List.cons.inj same
      obtain ⟨rfl, rfl⟩ := ih (List.not_mem_of_not_mem_cons none)
        (List.not_mem_of_not_mem_cons none') behind
      exact ⟨rfl, rfl⟩

@[ext]
structure Level where
  depth : Nat
  tag : NodeTag
  preview : Option (List Char)
  deriving DecidableEq

theorem NodeTag.name_inj {tag tag' : NodeTag} (same : tag.name = tag'.name) : tag = tag' := by
  have found : ∀ tag : NodeTag, ofName? tag.name = some tag := by
    intro tag
    cases tag <;> decide
  exact Option.some.inj ((found tag).symm.trans ((congrArg ofName? same).trans (found tag')))

theorem NodeTag.name_plain (tag : NodeTag) : ' ' ∉ tag.name.toList ∧ '\n' ∉ tag.name.toList := by
  cases tag <;> decide

theorem NodeTag.name_ne_quoted (tag tag' : NodeTag) (rest : List Char) :
    tag.name.toList ≠ tag'.name.toList ++ ' ' :: rest := by
  intro same
  exact (name_plain tag).1 (same ▸ List.mem_append_right _ List.mem_cons_self)

namespace Level

/-- What a line says of a node, the preview between quotes. -/
def label (l : Level) : List Char :=
  '·' :: ' ' :: (l.tag.name.toList ++ (l.preview.elim [] fun text => ' ' :: '\'' :: (text ++ ['\''])))

/-- The line of a node in an outline of so many levels: two spaces for each level around the node, then
the node, or a mark in its place on the level below the last. -/
def text (depth : Nat) (l : Level) : List Char :=
  List.replicate (2 * l.depth) ' ' ++ if l.depth < depth then l.label else ['…']

theorem label_inj {l l' : Level} (same : l.label = l'.label) :
    l.tag = l'.tag ∧ l.preview = l'.preview := by
  obtain ⟨depth, tag, preview⟩ := l
  obtain ⟨depth', tag', preview'⟩ := l'
  have same := (List.cons.inj (List.cons.inj same).2).2
  cases preview with
  | none =>
    have same := (List.append_nil _).symm.trans same
    cases preview' with
    | none =>
      have name := same.trans (List.append_nil _)
      exact ⟨NodeTag.name_inj (String.toList_inj.mp name), rfl⟩
    | some text => exact absurd same (NodeTag.name_ne_quoted tag tag' _)
  | some text =>
    cases preview' with
    | none => exact absurd (same.trans (List.append_nil _)).symm (NodeTag.name_ne_quoted tag' tag _)
    | some text' =>
      obtain ⟨name, quoted⟩ := split_at_first (NodeTag.name_plain tag).1 (NodeTag.name_plain tag').1 same
      obtain rfl : text = text' := List.append_cancel_right (List.cons.inj quoted).2
      exact ⟨NodeTag.name_inj (String.toList_inj.mp name), rfl⟩

theorem text_shown {depth : Nat} {l : Level} (shown : l.depth < depth) :
    l.text depth = List.replicate (2 * l.depth) ' ' ++ l.label := by
  rw [text, if_pos shown]

theorem text_inj {depth depth' : Nat} {l l' : Level} (shown : l.depth < depth)
    (shown' : l'.depth < depth') (same : l.text depth = l'.text depth') : l = l' := by
  have indented : ∀ n, '·' ∉ List.replicate n ' ' := by
    intro n member
    cases List.eq_of_mem_replicate member
  rw [text_shown shown, text_shown shown'] at same
  obtain ⟨margin, label⟩ := split_at_first (indented _) (indented _) same
  have width := congrArg List.length margin
  rw [List.length_replicate, List.length_replicate] at width
  obtain ⟨tag, preview⟩ := label_inj (congrArg ('·' :: ·) label)
  exact Level.ext (by omega) tag preview

theorem text_unbroken {l : Level} (depth : Nat) (plain : ∀ text, l.preview = some text → '\n' ∉ text) :
    '\n' ∉ l.text depth := by
  intro broken
  rcases List.mem_append.mp broken with member | member
  · cases List.eq_of_mem_replicate member
  · split at member
    · simp only [label, List.mem_cons, List.mem_append] at member
      rcases member with first | second | name | shown
      · cases first
      · cases second
      · exact (NodeTag.name_plain _).2 name
      · cases found : l.preview with
        | none => simp [found] at shown
        | some text =>
          have inside := plain text found
          simp [found, inside] at shown
    · simp at member

/-- An outline that shows all the nodes tells them. -/
theorem texts_inj {depth depth' : Nat} {ls ls' : List Level} (shown : ∀ l ∈ ls, l.depth < depth)
    (shown' : ∀ l ∈ ls', l.depth < depth') (same : ls.map (text depth) = ls'.map (text depth')) :
    ls = ls' := by
  induction ls generalizing ls' with
  | nil => exact (List.map_eq_nil_iff.mp same.symm).symm
  | cons l ls ih =>
    cases ls' with
    | nil => cases same
    | cons l' ls' =>
      obtain ⟨first, same⟩ := List.cons.inj same
      obtain ⟨here, shown⟩ := List.forall_mem_cons.mp shown
      obtain ⟨here', shown'⟩ := List.forall_mem_cons.mp shown'
      rw [text_inj here here' first, ih shown shown' same]

end Level

/-- No continuation byte comes after the first so many bytes. -/
def mayCut (text : List Byte) (n : Nat) : Bool := text[n]?.all fun b => !(0x80 ≤ b && b ≤ 0xBF)

/-- The beginning of a token as it is shown: as much of ten bytes as divides no character, with a
replacement character for what is no text. -/
def Source.preview (s : Source) (t : Token) : List Char :=
  Utf8.decode ((s.text t).take (Nat.findGreatest (fun n => mayCut (s.text t) n) 10))

theorem mayCut_behind {text : List Byte} {n : Nat} (behind : text.length ≤ n) :
    mayCut text n = true := by
  rw [mayCut, List.getElem?_eq_none behind]
  rfl

theorem Outline.cutBefore_eq (text : List Byte) (place : Nat) :
    cutBefore text place = Nat.findGreatest (fun n => mayCut text n) place := by
  induction place with
  | zero => rfl
  | succ place ih =>
    rw [cutBefore, Nat.findGreatest_succ, ih, mayCut]
    cases text[place + 1]? with
    | none => rfl
    | some b =>
      rw [Option.all_some, ← Byte.within, ← Byte.isContinuation]
      cases first : Byte.isContinuation b <;> simp [first]

theorem Source.preview_eq (s : Source) (t : Token) :
    s.preview t = Utf8.decode (Outline.preview (s.text t)) := by
  rw [preview, Outline.preview, Outline.cutBefore_eq]
  rcases Nat.le_total 10 (s.text t).length with long | short
  · rw [Outline.previewBytes, Nat.min_eq_right long]
  · have whole : ∀ n, (s.text t).length ≤ n →
        (s.text t).take (Nat.findGreatest (fun n => mayCut (s.text t) n) n) = s.text t := by
      intro n behind
      rw [Nat.findGreatest_eq (mayCut_behind behind), List.take_of_length_le behind]
    rw [Outline.previewBytes, Nat.min_eq_left short, whole 10 short, whole _ (Nat.le_refl _)]

/-- What can be seen of a tree: the kinds of its nodes and the beginnings of their tokens. -/
inductive Sketch where
  | node (tag : NodeTag) (preview : Option (List Char)) (children : List Sketch)

namespace Sketch

mutual

def levels (k : Nat) : Sketch → List Level
  | node tag preview kids => ⟨k, tag, preview⟩ :: levelsAll (k + 1) kids

def levelsAll (k : Nat) : List Sketch → List Level
  | [] => []
  | t :: rest => t.levels k ++ levelsAll k rest

end

def Above (k : Nat) (rest : List Level) : Prop := ∀ l ∈ rest.head?, l.depth < k

theorem above_nil (k : Nat) : Above k [] := by
  rintro l ⟨⟩

theorem above_levelsAll {k : Nat} (ts : List Sketch) {rest : List Level} (above : Above k rest) :
    Above (k + 1) (levelsAll k ts ++ rest) := by
  cases ts with
  | nil =>
    intro l first
    exact Nat.lt_succ_of_lt (above l first)
  | cons t ts =>
    obtain ⟨tag, preview, kids⟩ := t
    rintro l ⟨⟩
    exact Nat.lt_succ_self k

theorem not_above_levelsAll {k : Nat} (t : Sketch) (ts : List Sketch) (rest : List Level) :
    ¬Above k (levelsAll k (t :: ts) ++ rest) := by
  obtain ⟨tag, preview, kids⟩ := t
  intro above
  exact Nat.lt_irrefl k (above _ rfl)

mutual

/-- A sketch is read back from its nodes: those below a node are the ones up to the next that does not
stand deeper. -/
theorem levels_inj {k : Nat} {rest rest' : List Level} (above : Above (k + 1) rest)
    (above' : Above (k + 1) rest') (t t' : Sketch)
    (same : t.levels k ++ rest = t'.levels k ++ rest') : t = t' ∧ rest = rest' := by
  match t, t' with
  | node tag preview kids, node tag' preview' kids' =>
    obtain ⟨root, below⟩ := List.cons.inj same
    obtain ⟨-, rfl, rfl⟩ := Level.mk.inj root
    obtain ⟨rfl, rfl⟩ := levelsAll_inj above above' kids kids' below
    exact ⟨rfl, rfl⟩

theorem levelsAll_inj {k : Nat} {rest rest' : List Level} (above : Above k rest)
    (above' : Above k rest') (ts ts' : List Sketch)
    (same : levelsAll k ts ++ rest = levelsAll k ts' ++ rest') : ts = ts' ∧ rest = rest' := by
  match ts, ts' with
  | [], [] => exact ⟨rfl, same⟩
  | [], t' :: ts' =>
    have same : rest = levelsAll k (t' :: ts') ++ rest' := same
    exact absurd (same ▸ above) (not_above_levelsAll t' ts' rest')
  | t :: ts, [] =>
    have same : levelsAll k (t :: ts) ++ rest = rest' := same
    exact absurd (same ▸ above') (not_above_levelsAll t ts rest)
  | t :: ts, t' :: ts' =>
    rw [levelsAll, levelsAll, List.append_assoc, List.append_assoc] at same
    obtain ⟨rfl, behind⟩ := levels_inj (above_levelsAll ts above) (above_levelsAll ts' above') t t' same
    obtain ⟨rfl, rfl⟩ := levelsAll_inj above above' ts ts' behind
    exact ⟨rfl, rfl⟩

end

end Sketch

namespace Tree

mutual

def height : Tree → Nat
  | node _ _ kids => heights kids

def heights : List Tree → Nat
  | [] => 0
  | t :: rest => max (t.height + 1) (heights rest)

end

mutual

def sketch (s : Source) : Tree → Sketch
  | node tag token kids =>
    .node tag (token.map s.preview) (sketches s kids)

def sketches (s : Source) : List Tree → List Sketch
  | [] => []
  | t :: rest => t.sketch s :: sketches s rest

end

def levels (s : Source) (k : Nat) (t : Tree) : List Level := (t.sketch s).levels k

theorem height_lt {tag : NodeTag} {token : Option Token} {kids : List Tree} {t : Tree}
    (member : t ∈ kids) : t.height < (node tag token kids).height := by
  show t.height < heights kids
  induction kids with
  | nil => cases member
  | cons u kids ih =>
    rcases List.mem_cons.mp member with rfl | member
    · exact Nat.le_max_left _ _
    · exact Nat.lt_of_lt_of_le (ih member) (Nat.le_max_right _ _)

theorem levels_node (s : Source) (k : Nat) (tag : NodeTag) (token : Option Token)
    (kids : List Tree) : (node tag token kids).levels s k =
      ⟨k, tag, token.map s.preview⟩ :: kids.flatMap (levels s (k + 1)) := by
  have below : Sketch.levelsAll (k + 1) (sketches s kids) = kids.flatMap (levels s (k + 1)) := by
    induction kids with
    | nil => rfl
    | cons t kids ih => rw [sketches, Sketch.levelsAll, ih, List.flatMap_cons, levels]
  rw [levels, sketch, Sketch.levels, below]

variable {s : Source} {k : Nat}

theorem levels_depth (t : Tree) :
    ∀ l ∈ t.levels s k, k ≤ l.depth ∧ l.depth ≤ k + t.height := by
  induction t using induct generalizing k with
  | step tag token kids ih =>
    intro l member
    rw [levels_node] at member
    rcases List.mem_cons.mp member with rfl | member
    · exact ⟨Nat.le_refl _, Nat.le_add_right _ _⟩
    · obtain ⟨t, kid, member⟩ := List.mem_flatMap.mp member
      obtain ⟨low, high⟩ := ih t kid l member
      have lower : t.height < (node tag token kids).height := height_lt kid
      omega

/-- An outline of more levels than a tree has shows all its nodes. -/
theorem levels_lt {t : Tree} {depth : Nat} (deep : t.height < depth) :
    ∀ l ∈ t.levels s 0, l.depth < depth := by
  intro l member
  have high := (levels_depth t l member).2
  omega

theorem length_levels (t : Tree) : (t.levels s k).length = t.size := by
  induction t using induct generalizing k with
  | step tag token kids ih =>
    have below : (kids.flatMap (levels s (k + 1))).length = sizes kids := by
      induction kids with
      | nil => rfl
      | cons t kids ih' =>
        obtain ⟨first, others⟩ := List.forall_mem_cons.mp ih
        rw [List.flatMap_cons, List.length_append, first, ih' others, sizes]
    rw [levels_node, List.length_cons, below, size]

theorem levels_preview (t : Tree) : ∀ l ∈ t.levels s k, ∀ text, l.preview = some text →
    ∃ u ∈ t.tokens, text = s.preview u := by
  induction t using induct generalizing k with
  | step tag token kids ih =>
    intro l member text shown
    rw [levels_node] at member
    rcases List.mem_cons.mp member with rfl | member
    · obtain ⟨u, found, rfl⟩ := Option.map_eq_some_iff.mp shown
      exact ⟨u, mem_tokens_node.mpr (.inl found), rfl⟩
    · obtain ⟨t, kid, member⟩ := List.mem_flatMap.mp member
      obtain ⟨u, inside, rfl⟩ := ih t kid l member text shown
      exact ⟨u, mem_tokens_node.mpr (.inr ⟨t, kid, inside⟩), rfl⟩

theorem height_lt_size (t : Tree) : t.height < t.size := by
  induction t using induct with
  | step tag token kids ih =>
    show heights kids < sizes kids + 1
    induction kids with
    | nil => exact Nat.one_pos
    | cons t kids ih' =>
      obtain ⟨first, others⟩ := List.forall_mem_cons.mp ih
      have rest := ih' others
      rw [heights, sizes]
      omega

theorem levels_top (tag : NodeTag) (token : Option Token) (kids : List Tree) :
    ((node tag token kids).levels s k).filter (·.depth ≤ k) =
      [⟨k, tag, token.map s.preview⟩] := by
  have deeper : (kids.flatMap (levels s (k + 1))).filter (·.depth ≤ k) = [] := by
    rw [List.filter_eq_nil_iff]
    intro l member
    obtain ⟨t, -, member⟩ := List.mem_flatMap.mp member
    have low := (levels_depth t l member).1
    simpa using by omega
  rw [levels_node, List.filter_cons_of_pos (by simp), deeper]

theorem levels_below (tag : NodeTag) (token : Option Token) (kids : List Tree) {depth : Nat}
    (shown : k ≤ depth) : ((node tag token kids).levels s k).filter (·.depth ≤ depth) =
      ⟨k, tag, token.map s.preview⟩ ::
        kids.flatMap fun t => (t.levels s (k + 1)).filter (·.depth ≤ depth) := by
  rw [levels_node, List.filter_cons_of_pos (by simpa using shown), List.filter_flatMap]

end Tree

namespace Outline

theorem render_elided (k : Nat) (tag : NodeTag) (preview : Option (List Char)) :
    (OutlineLine.render ⟨k, .elided⟩).toList = Level.text k ⟨k, tag, preview⟩ ++ ['\n'] := by
  rw [Level.text, if_neg (Nat.lt_irrefl k)]
  simp [OutlineLine.render, OutlineItem.render]

theorem render_lineOf (s : Source) {k depth : Nat} (shown : k < depth) (n : Node) :
    (lineOf s k n).render.toList = Level.text depth
      ⟨k, n.tag, n.token.map s.preview⟩ ++ ['\n'] := by
  rw [Level.text_shown shown]
  cases found : n.token with
  | none => simp [lineOf, found, OutlineLine.render, OutlineItem.render, Level.label]
  | some t =>
    simp [lineOf, found, OutlineLine.render, OutlineItem.render, Level.label, Source.preview_eq]

theorem mapM_lines (lines : NodeId → Option (List OutlineLine)) (texts : Tree → List (List Char))
    {ids : List NodeId} {kids : List Tree} (length : ids.length = kids.length)
    (each : ∀ p ∈ ids.zip kids, ∃ ls, lines p.1 = some ls ∧
      ls.map (fun l => l.render.toList) = texts p.2) :
    ∃ below, ids.mapM lines = some below ∧
      below.flatten.map (fun l => l.render.toList) = kids.flatMap texts := by
  induction ids generalizing kids with
  | nil =>
    obtain rfl := List.length_eq_zero_iff.mp length.symm
    exact ⟨[], rfl, rfl⟩
  | cons id ids ih =>
    cases kids with
    | nil => cases length
    | cons t kids =>
      obtain ⟨first, others⟩ := List.forall_mem_cons.mp each
      obtain ⟨ls, found, shown⟩ := first
      obtain ⟨below, listed, rest⟩ := ih (Nat.succ.inj length) others
      refine ⟨ls :: below, ?_, ?_⟩
      · rw [List.mapM_cons, found, listed]
        rfl
      · rw [List.flatten_cons, List.map_append, shown, rest, List.flatMap_cons]

/-- The lines of an outline are those of the nodes of the tree down to the level below the last. -/
theorem lines_of_shows {a : Arena} {s : Source} {id : NodeId} {t : Tree} (h : a.Shows id t)
    (more k : Nat) : ∃ lines, lines? a s more k id = some lines ∧
      lines.map (fun l => l.render.toList) =
        ((t.levels s k).filter (·.depth ≤ k + more)).map fun l => l.text (k + more) ++ ['\n'] := by
  induction h generalizing more k with
  | @node id n kids found length each ih =>
    cases more with
    | zero =>
      refine ⟨[⟨k, .elided⟩], rfl, ?_⟩
      rw [Nat.add_zero, Tree.levels_top]
      exact congrArg (· :: []) (render_elided k n.tag _)
    | succ more =>
      have onward : k + 1 + more = k + (more + 1) := by omega
      obtain ⟨below, mapped, shown⟩ := mapM_lines (lines? a s more (k + 1))
        (fun t => ((t.levels s (k + 1)).filter (·.depth ≤ k + 1 + more)).map
          fun l => l.text (k + 1 + more) ++ ['\n']) length fun p member => ih p member more (k + 1)
      refine ⟨lineOf s k n :: below.flatten, ?_, ?_⟩
      · rw [lines?, found]
        simp [mapped]
      · have here : k < k + (more + 1) := Nat.lt_add_of_pos_right (Nat.succ_pos more)
        rw [onward] at shown
        rw [Tree.levels_below _ _ _ (Nat.le_of_lt here), List.map_cons, List.map_cons, shown,
          render_lineOf s here, List.map_flatMap]

theorem render_of_shows {a : Arena} {s : Source} {root : NodeId} {t : Tree} (h : a.Shows root t)
    (depth : Nat) : ∃ dump, render? a s depth root = some dump ∧
      dump.toList = (((t.levels s 0).filter (·.depth ≤ depth)).map (Level.text depth)).flatMap
        (· ++ ['\n']) := by
  obtain ⟨lines, found, shown⟩ := lines_of_shows (s := s) h depth 0
  rw [Nat.zero_add] at shown
  refine ⟨_, congrArg (Option.map _) found, ?_⟩
  calc (String.join (lines.map OutlineLine.render)).toList
      = (lines.map fun l => l.render.toList).flatten := by
        rw [String.toList_join, List.flatMap_map, List.flatMap_def]
    _ = _ := by rw [shown, ← List.flatMap_def, List.flatMap_map]

end Outline
end Offside
