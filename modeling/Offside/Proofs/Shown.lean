import Offside.Proofs.Framing
import Offside.Proofs.Relaid

/-! What a parse shows of a source, apart from where things stand in it. Two texts that are laid out
differently are parsed in lockstep, and show the same. -/
namespace Offside

/-- The outcome of a parse and the nodes it has made. A token is shown by its kind and its text, that
of an error by its kind and its place. -/
structure Shown (α : Type) where
  outcome : Except (String × Option (TokenTag × α)) (Option NodeId)
  nodes : List (NodeTag × Payload × Option (TokenTag × List Byte))

namespace Source

variable {α : Type}

def showError (place : Nat → α) (e : ParseError) : String × Option (TokenTag × α) :=
  (e.kind, e.token?.map fun t => (t.tag, place t.start))

def showNode (s : Source) (n : Node) : NodeTag × Payload × Option (TokenTag × List Byte) :=
  (n.tag, n.payload, n.token.map s.wording)

def shown (s : Source) (a : Arena) (place : Nat → α) : Shown α where
  outcome := (s.parse a).outcome.mapError (showError place)
  nodes := ((s.parse a).arena.nodes.toList.drop a.size).map s.showNode

end Source

theorem Payload.map_id (p : Payload) : p.map id = p := by
  cases p with
  | list children => exact congrArg list (List.map_id children)
  | _ => rfl

namespace Layout

variable (lay : Layout)

theorem width_lt {k m : Nat} : lay.width m < lay.width k ↔ m < k := by
  simp [width, Nat.mul_lt_mul_left lay.unit_pos]

theorem width_sub (k m : Nat) : lay.width m - lay.width k = lay.unit * (m - k) := by
  rw [width, width, Nat.add_sub_add_left, Nat.mul_sub]

def scale (g : Grid) : Grid := ⟨lay.width g.trim, g.unit.map (lay.unit * ·), g.level⟩

theorem measure_scale (g : Grid) {t : Token} {m : Nat} (wide : t.length = lay.width m) :
    (lay.scale g).measure t =
      match g.measure ⟨.indent, 0, m⟩ with
      | .ok (level, h) => .ok (level, lay.scale h)
      | .error _ => .error (.unalignedIndent t) := by
  have length : Token.length ⟨.indent, 0, m⟩ = m := Token.length_of_le (Nat.zero_le m)
  have pos := lay.unit_pos
  by_cases short : m < g.trim
  · simp only [Grid.measure, scale, wide, length, lay.width_lt, short, ↓reduceIte]
  · have depth := lay.width_sub g.trim m
    have flat : lay.unit * (m - g.trim) = 0 ↔ m - g.trim = 0 := by
      rw [Nat.mul_eq_zero]
      omega
    simp only [Grid.measure, scale, wide, length, lay.width_lt, short, depth, flat, ↓reduceIte]
    split
    · rfl
    · cases fixed : g.unit with
      | none => rfl
      | some unit =>
        have even : lay.unit * ((m - g.trim) % unit) = 0 ↔ (m - g.trim) % unit = 0 := by
          rw [Nat.mul_eq_zero]
          omega
        simp only [Option.map_some, Nat.mul_mod_mul_left, Nat.mul_div_mul_left _ _ pos, even]
        split
        · simp [fixed]
        · rfl

end Layout

def Scanner.Behind (src : Source) (front : List Byte) (s : Scanner) : Prop :=
  src.bytes = front ++ s.rest ∧ s.here.offset = front.length

theorem Scanner.Behind.faces {src : Source} {front : List Byte} {s : Scanner}
    (h : s.Behind src front) : s.Faces src := by
  rw [Faces, h.1, h.2, List.drop_left]

theorem Scanner.Behind.next {src : Source} {front : List Byte} {s : Scanner}
    (h : s.Behind src front) (state : ScanState) {found : Scan}
    (read : scan s.flags state s.rest = found) :
    src.bytes = (front ++ found.skipped) ++ (found.text ++ found.rest) ∧
      (s.nextFrom state).1.start = (front ++ found.skipped).length ∧
      (s.nextFrom state).1.length = found.text.length ∧
      (s.nextFrom state).2.Behind src (front ++ found.skipped ++ found.text) := by
  subst read
  have whole := scan_bytes s.flags state s.rest
  obtain ⟨bytes, here⟩ := h
  rw [← whole, Scan.bytes] at bytes
  simp only [Behind, Token.length, nextFrom, Place.offset_advance, here, List.length_append,
    List.append_assoc, bytes]
  refine ⟨trivial, trivial, ?_, trivial, by omega⟩
  rw [if_pos (by omega)]
  omega

namespace Relayout

variable (R : Relayout)

def Places (s s' : Source) (i i' : Nat) : Prop :=
  ∃ front front' rest rest', s.bytes = front ++ rest ∧ s'.bytes = front' ++ rest' ∧
    i = front.length ∧ i' = front'.length ∧ R.meets rest rest'

structure Alike (s s' : Source) (t t' : Token) : Prop where
  tag : t.tag = t'.tag
  start : R.Places s s' t.start t'.start
  text : t.tag ≠ .indent → t.tag ≠ .invalid → s.text t = s'.text t'
  width : t.tag = .indent → R.Widths t.length t'.length

structure Ahead (s s' : Source) (u u' : Scanner) : Prop where
  flags : u.flags = .layout
  flags' : u'.flags = .layout
  front : ∃ front, u.Behind s front
  front' : ∃ front, u'.Behind s' front
  rest : R.Relaid .inside u.rest u'.rest

variable {R} {s s' : Source} {u u' : Scanner}

theorem alike_of_scans {front front' : List Byte} (h : u.Behind s front) (h' : u'.Behind s' front')
    (flags : u.flags = .layout) (flags' : u'.flags = .layout) (state : ScanState)
    (scans : R.Scans (scan .layout state u.rest) (scan .layout state u'.rest)) :
    R.Alike s s' (u.nextFrom state).1 (u'.nextFrom state).1 ∧
      ((u.nextFrom state).1.tag ≠ .invalid →
        R.Ahead s s' (u.nextFrom state).2 (u'.nextFrom state).2) := by
  obtain ⟨bytes, start, length, behind⟩ := h.next state rfl
  obtain ⟨bytes', start', length', behind'⟩ := h'.next state rfl
  have text := (h.faces.next state).1
  have text' := (h'.faces.next state).1
  rw [flags] at bytes start length behind text
  rw [flags'] at bytes' start' length' behind' text'
  have tag : (u.nextFrom state).1.tag = (scan .layout state u.rest).tag := by
    rw [Scanner.tag_nextFrom, flags]
  have tag' : (u'.nextFrom state).1.tag = (scan .layout state u'.rest).tag := by
    rw [Scanner.tag_nextFrom, flags']
  refine ⟨⟨?_, ?_, ?_, ?_⟩, fun valid => ?_⟩
  · rw [tag, tag', scans.tag]
  · exact ⟨_, _, _, _, bytes, bytes', start, start', scans.start⟩
  · rw [tag, text, text']
    exact scans.text
  · rw [tag, length, length']
    exact scans.width
  · refine ⟨flags, flags', ⟨_, behind⟩, ⟨_, behind'⟩, ?_⟩
    rw [Scanner.rest_nextFrom, Scanner.rest_nextFrom, flags, flags']
    exact scans.behind (tag ▸ valid)

/-- The parses of two sources that differ in their layout. -/
def lockstep (R : Relayout) (s s' : Source) (a : Arena) : Lockstep where
  alike := R.Alike s s'
  kept t t' := s.wording t = s'.wording t'
  ahead := R.Ahead s s'
  grids g g' := ∃ h, g = R.left.scale h ∧ g' = R.right.scale h
  left := a
  right := a
  narrow := Nat.le_refl _
  tag_eq alike := alike.tag
  keeps alike plain valid := Prod.ext alike.tag (alike.text plain valid)
  next := by
    intro u u' h
    obtain ⟨front, behind⟩ := h.front
    obtain ⟨front', behind'⟩ := h.front'
    exact alike_of_scans behind behind' h.flags h.flags' .gap (Scans.resolve h.rest.reads)
  level_eq := by
    rintro _ _ ⟨h, rfl, rfl⟩
    rfl
  atLevel := by
    rintro _ _ level ⟨h, rfl, rfl⟩
    exact ⟨{ h with level }, rfl, rfl⟩
  measure := by
    rintro _ _ t t' ⟨g, rfl, rfl⟩ alike line
    obtain ⟨m, wide, wide'⟩ := alike.width line
    rw [R.left.measure_scale g wide, R.right.measure_scale g wide']
    cases g.measure ⟨.indent, 0, m⟩ with
    | ok r => exact .inl ⟨r.1, _, _, rfl, rfl, r.2, rfl, rfl⟩
    | error e => exact .inr ⟨rfl, rfl⟩

theorem begins_of_relaid (a : Arena) (h : R.Relaid (.margin 0 0) s.bytes s'.bytes) :
    (R.lockstep s s' a).Begins s s' := by
  have origin : ∀ s, (Scanner.ofSource .layout s).Behind s [] := fun _ => ⟨rfl, rfl⟩
  obtain ⟨alike, ahead⟩ := alike_of_scans (origin s) (origin s') rfl rfl .lineStart h.reads
  refine ⟨alike, fun line => ⟨ahead (by rw [line]; nofun), ?_⟩⟩
  obtain ⟨m, wide, wide'⟩ := alike.width line
  rw [wide, wide']
  exact ⟨.ofTrim m, rfl, rfl⟩

section Shown

variable {a b b' : Arena} {α : Type} {place place' : Nat → α}

theorem lockstep_ids {id id' : NodeId} (h : (R.lockstep s s' a).Ids id id') : id = id' := by
  obtain ⟨-, -, i, index, index'⟩ := h
  have same : (R.lockstep s s' a).left.size = (R.lockstep s s' a).right.size := rfl
  obtain ⟨_⟩ := id
  obtain ⟨_⟩ := id'
  simp only [NodeId.mk.injEq] at index index' ⊢
  omega

theorem lockstep_nodes {n n' : Node} (h : (R.lockstep s s' a).Nodes n n') :
    s.showNode n = s'.showNode n' := by
  obtain ⟨tag, token, payload⟩ := n
  obtain ⟨tag', token', payload'⟩ := n'
  obtain ⟨rfl, tokens, payloads⟩ := h
  have token : token.map s.wording = token'.map s'.wording := by
    cases tokens with
    | none => rfl
    | some same => exact congrArg some same
  have payload : payload' = payload :=
    (payloads.eq_map rfl fun _ _ ids => (lockstep_ids ids).symm).trans payload.map_id
  simp only [Source.showNode, payload, token]

theorem lockstep_arenas (h : (R.lockstep s s' a).Arenas b b') :
    (b.nodes.toList.drop a.size).map s.showNode = (b'.nodes.toList.drop a.size).map s'.showNode := by
  obtain ⟨ns, ns', left, right, each, -⟩ := h.nodes
  have left : b.nodes.toList = a.nodes.toList ++ ns := left
  have right : b'.nodes.toList = a.nodes.toList ++ ns' := right
  have shown : List.Forall₂ Eq (ns.map s.showNode) (ns'.map s'.showNode) :=
    List.forall₂_map_left_iff.mpr (List.forall₂_map_right_iff.mpr (each.imp fun _ _ => lockstep_nodes))
  rw [left, right, Arena.size, ← Array.length_toList, List.drop_left, List.drop_left]
  rwa [List.forall₂_eq_eq_eq] at shown

theorem lockstep_outcomes {r r' : Except ParseError (Option NodeId)}
    (places : ∀ i i', R.Places s s' i i' → place i = place' i')
    (h : (R.lockstep s s' a).Outcomes r r') :
    r.mapError (Source.showError place) = r'.mapError (Source.showError place') := by
  have token : ∀ t t', R.Alike s s' t t' → (t.tag, place t.start) = (t'.tag, place' t'.start) :=
    fun t t' alike => Prod.ext alike.tag (places _ _ alike.start)
  cases h with
  | blank => rfl
  | root ids => rw [lockstep_ids ids]; rfl
  | error errors =>
    cases errors with
    | unaligned alike | unexpected alike | unmatched alike =>
      simp only [Except.mapError, Source.showError, ParseError.kind, ParseError.token?,
        Option.map_some, token _ _ alike]
    | full => rfl

theorem parse_of_relaid (a : Arena) (h : R.Relaid (.margin 0 0) s.bytes s'.bytes) :
    (R.lockstep s s' a).Outcomes (s.parse a).outcome (s'.parse a).outcome ∧
      (R.lockstep s s' a).Arenas (s.parse a).arena (s'.parse a).arena := by
  rcases (begins_of_relaid a h).parse with both | ⟨past, -, -⟩
  · exact both
  · have past : a.size + a.room < (s.parse a).arena.size := past
    exact absurd (s.parse_size_le a) (Nat.not_le.mpr past)

/-- Texts that differ in their layout show the same. -/
theorem shown_eq_of_relaid (a : Arena) (h : R.Relaid (.margin 0 0) s.bytes s'.bytes)
    (places : ∀ i i', R.Places s s' i i' → place i = place' i') :
    s.shown a place = s'.shown a place' := by
  obtain ⟨outcomes, arenas⟩ := parse_of_relaid a h
  rw [Source.shown, Source.shown]
  exact congrArg₂ Shown.mk (lockstep_outcomes places outcomes) (lockstep_arenas arenas)

theorem ne_outOfMemory_of_relaid {a : Arena} (h : R.Relaid (.margin 0 0) s.bytes s'.bytes)
    (room : (s.parse a).outcome ≠ .error .outOfMemory) :
    (s'.parse a).outcome ≠ .error .outOfMemory := by
  intro full
  have outcomes := (parse_of_relaid a h).1
  rw [full] at outcomes
  generalize left : (s.parse a).outcome = r at outcomes
  cases outcomes with
  | error errors =>
    cases errors with
    | full => exact room left

end Shown
end Relayout
end Offside
