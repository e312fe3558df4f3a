import Offside.Proofs.Topics

/-! How an outline is nested. The parser reads its lines from the first to the last, with one line open
on each level down to the last one read; the tree, and the first line that does not fit, follow from the
levels alone. -/
namespace Offside

def Tree.block : List Tree → Tree
  | [t] => t
  | ts => .node .blockAnd none ts

namespace Topics

variable (o : Topics)

def Step (i : Nat) : Prop := o.level i ≤ o.level (i + 1) + 1 ∧ o.level (i + 1) ≤ o.level i + 1

def Steps : Prop := ∀ i, i + 1 < o.size → o.Step i

/-- The first step that is too large is the one behind this line. -/
def Breaks (i : Nat) : Prop := i + 1 < o.size ∧ ¬o.Step i ∧ ∀ k < i, o.Step k

def Heads (i j : Nat) : Prop :=
  i < j ∧ o.level i + 1 = o.level j ∧ ∀ k < j, i < k → o.level k + 1 ≠ o.level j

/-- The line belongs to the body of another line, or to that of none. -/
def Under : Option Nat → Nat → Prop
  | some i, j => o.Heads i j
  | none, j => ∀ i < j, ¬o.Heads i j

instance (i : Nat) : Decidable (o.Step i) := inferInstanceAs (Decidable (_ ∧ _))

instance : Decidable o.Steps :=
  decidable_of_iff (∀ i < o.size - 1, o.Step i) (by simp only [Steps, Nat.lt_sub_iff_add_lt])

instance (i j : Nat) : Decidable (o.Heads i j) := inferInstanceAs (Decidable (_ ∧ _ ∧ _))

instance (owner : Option Nat) (j : Nat) : Decidable (o.Under owner j) :=
  match owner with
  | some i => inferInstanceAs (Decidable (o.Heads i j))
  | none => inferInstanceAs (Decidable (∀ i < j, ¬o.Heads i j))

def bodyWithin (n : Nat) (owner : Option Nat) : List Nat :=
  (List.range n).filter fun j => o.Under owner j

/-- The lines of the body of a line, or of the outline itself. -/
def body (owner : Option Nat) : List Nat := o.bodyWithin o.size owner

theorem mem_body {o : Topics} {i j : Nat} (member : j ∈ o.body (some i)) : i < j ∧ j < o.size := by
  obtain ⟨inside, heads⟩ := List.mem_filter.mp member
  have heads : o.Heads i j := of_decide_eq_true heads
  exact ⟨heads.1, List.mem_range.mp inside⟩

/-- The tree of a line: its name, and as its value the block of the lines of its body, if there are
any. -/
def topic (i : Nat) : Tree :=
  .node .nameDef (some (o.name i))
    (match (o.body (some i)).attach.map fun j => topic j.1 with
      | [] => []
      | ts => [.node .value none [.block ts]])
termination_by o.size - i
decreasing_by
  have inside := mem_body j.2
  omega

def tree : Tree := .block ((o.body none).map o.topic)

section Levels

variable {o} {i j n : Nat}

theorem topic_eq (i : Nat) : o.topic i = .node .nameDef (some (o.name i))
    (match (o.body (some i)).map o.topic with
      | [] => []
      | ts => [.node .value none [.block ts]]) := by
  rw [topic, List.attach_map_val]

theorem Heads.unique {i' : Nat} (h : o.Heads i j) (h' : o.Heads i' j) : i = i' := by
  obtain ⟨before, above, last⟩ := h
  obtain ⟨before', above', last'⟩ := h'
  rcases Nat.lt_trichotomy i i' with less | same | more
  · exact absurd above' (last i' before' less)
  · exact same
  · exact absurd above (last' i before more)

theorem Steps.passes (steps : o.Steps) {v : Nat} (le : i ≤ j) (inside : j < o.size)
    (low : o.level i ≤ v) (high : v < o.level j) : ∃ k, i ≤ k ∧ k < j ∧ o.level k = v := by
  induction j, le using Nat.le_induction with
  | base => omega
  | succ j le ih =>
    have step := steps j inside
    by_cases early : v < o.level j
    · obtain ⟨k, after, before, same⟩ := ih (by omega) early
      exact ⟨k, after, by omega, same⟩
    · have up := step.2
      exact ⟨j, le, Nat.lt_succ_self j, by omega⟩

theorem Steps.body_eq (steps : o.Steps) (before : i < n) (inside : n ≤ o.size)
    (closed : n = o.size ∨ o.level n ≤ o.level i) :
    o.body (some i) = o.bodyWithin n (some i) := by
  have rest : (List.range' n (o.size - n)).filter (fun j => o.Under (some i) j) = [] := by
    rw [List.filter_eq_nil_iff]
    intro m member heads
    obtain ⟨after, below⟩ := List.mem_range'_1.mp member
    obtain ⟨-, above, last⟩ : o.Heads i m := of_decide_eq_true heads
    have low : o.level n ≤ o.level i := closed.resolve_left (by omega)
    obtain ⟨k, late, early, same⟩ := steps.passes after (by omega) low (by omega)
    exact last k early (by omega) (by rw [same]; exact above)
  have split : List.range o.size = List.range n ++ List.range' n (o.size - n) := by
    simpa only [List.range_eq_range', Nat.zero_add, Nat.add_sub_of_le inside] using
      (List.range'_append_1 (s := 0) (m := n) (n := o.size - n)).symm
  rw [body, bodyWithin, split, List.filter_append, rest, List.append_nil]
  rfl

theorem bodyWithin_last (i : Nat) : o.bodyWithin (i + 1) (some i) = [] := by
  rw [bodyWithin, List.filter_eq_nil_iff]
  intro j member heads
  have heads : o.Heads i j := of_decide_eq_true heads
  have before := List.mem_range.mp member
  have after := heads.1
  omega

theorem Steps.childless (steps : o.Steps) (inside : i < o.size)
    (closed : i + 1 = o.size ∨ o.level (i + 1) ≤ o.level i) :
    o.topic i = .node .nameDef (some (o.name i)) [] := by
  rw [topic_eq, steps.body_eq (Nat.lt_succ_self i) inside closed, bodyWithin_last]
  rfl

theorem bodyWithin_succ (owner : Option Nat) : o.bodyWithin (n + 1) owner =
    o.bodyWithin n owner ++ if o.Under owner n then [n] else [] := by
  rw [bodyWithin, List.range_succ, List.filter_append, bodyWithin, List.filter_singleton]
  simp

end Levels

structure Branch where
  done : List Nat
  trees : List Tree
  line : Nat

def owner (S : List Branch) : Option Nat := S.head?.map Branch.line

/-- What is known of an open line and of the lines before it when the first `n` lines have been
read. -/
structure Keeps (n : Nat) (b : Branch) (owner : Option Nat) (depth : Nat) : Prop where
  read : b.line < n
  level : o.level b.line = depth
  deeper : ∀ k < n, b.line < k → depth < o.level k
  lines : b.done ++ [b.line] = o.bodyWithin n owner
  named : ∀ t ∈ b.trees, t.tag = .nameDef
  topics : o.Steps → b.trees = b.done.map o.topic

def Tracks (n : Nat) : List Branch → Prop
  | [] => True
  | b :: S => o.Keeps n b (owner S) S.length ∧ Tracks n S

section Spine

variable {o} {n : Nat} {b : Branch} {S : List Branch} {t : Tree}

theorem Tracks.under (tracks : o.Tracks n S) (level : o.level n = S.length) (i : Option Nat) :
    o.Under i n ↔ i = owner S := by
  have none : o.level n = 0 → ∀ k, ¬o.Heads k n := by
    rintro zero k ⟨-, above, -⟩
    omega
  cases S with
  | nil =>
    cases i with
    | none => exact iff_of_true (fun k _ => none level k) rfl
    | some i => exact iff_of_false (none level i) nofun
  | cons b S =>
    obtain ⟨keeps, -⟩ := tracks
    have heads : o.Heads b.line n := by
      refine ⟨keeps.read, ?_, ?_⟩
      · rw [keeps.level, level]
        rfl
      · intro k before after
        have deeper := keeps.deeper k before after
        rw [level, List.length_cons]
        omega
    cases i with
    | none => exact iff_of_false (fun free => free b.line keeps.read heads) nofun
    | some i =>
      constructor
      · intro heads'
        exact congrArg some (heads'.unique heads)
      · rintro ⟨⟩
        exact heads

theorem Tracks.grow (tracks : o.Tracks n S) (low : S.length ≤ o.level n)
    (headed : S ≠ [] → ¬o.Under none n) : o.Tracks (n + 1) S := by
  induction S with
  | nil => trivial
  | cons b S ih =>
    obtain ⟨keeps, below⟩ := tracks
    have low' : S.length < o.level n := low
    have other : ¬o.Under (owner S) n := by
      cases S with
      | nil => exact headed (List.cons_ne_nil b [])
      | cons b' S =>
        rintro ⟨-, above, -⟩
        rw [below.1.level] at above
        rw [List.length_cons] at low'
        omega
    refine ⟨⟨Nat.lt_succ_of_lt keeps.read, keeps.level, ?_, ?_, keeps.named, keeps.topics⟩, ?_⟩
    · intro k before after
      rcases Nat.lt_succ_iff_lt_or_eq.mp before with before | rfl
      · exact keeps.deeper k before after
      · exact low'
    · rw [bodyWithin_succ, if_neg other, List.append_nil]
      exact keeps.lines
    · exact ih below (Nat.le_of_lt low') fun _ => headed (List.cons_ne_nil b S)

theorem Tracks.next (tracks : o.Tracks n S) (level : o.level n = S.length) {done : List Nat}
    {trees : List Tree} (lines : done = o.bodyWithin n (owner S)) (named : ∀ t ∈ trees, t.tag = .nameDef)
    (topics : o.Steps → trees = done.map o.topic) : o.Tracks (n + 1) (⟨done, trees, n⟩ :: S) := by
  have under := tracks.under level
  refine ⟨⟨Nat.lt_succ_self n, level, ?_, ?_, named, topics⟩, tracks.grow level.ge ?_⟩
  · intro k before after
    exact absurd after (Nat.not_lt.mpr (Nat.lt_succ_iff.mp before))
  · rw [bodyWithin_succ, if_pos ((under _).mpr rfl), lines]
  · intro more free
    cases S with
    | nil => exact more rfl
    | cons b S => cases (under none).mp free

theorem Tracks.parent {b' : Branch} (tracks : o.Tracks n (b :: b' :: S)) (inside : n ≤ o.size)
    (closed : n = o.size ∨ o.level n ≤ S.length) (whole : o.Steps → t = o.topic b.line)
    (steps : o.Steps) : o.topic b'.line = .node .nameDef (some (o.name b'.line))
      [.node .value none [.block (b.trees ++ [t])]] := by
  obtain ⟨keeps, keeps', -⟩ := tracks
  have lines : b.done ++ [b.line] = o.bodyWithin n (some b'.line) := keeps.lines
  have trees : b.trees ++ [t] = (o.body (some b'.line)).map o.topic := by
    rw [steps.body_eq keeps'.read inside (keeps'.level ▸ closed), ← lines, List.map_append,
      keeps.topics steps, whole steps]
    rfl
  rw [topic_eq, ← trees]
  cases b.trees <;> rfl

end Spine

def held : List Tree → List Piece
  | [] => []
  | ts => [⟨.block ts, false⟩]

def waiting (base : Nat) : List Tree → List Pending
  | [] => []
  | _ => [⟨.blockAnd, none, base + 1⟩]

/- The pieces, the operators and the frames behind which a block is read, given the lines above it. -/
def pieces : List Branch → List Piece
  | [] => []
  | b :: S => held b.trees ++ pieces S

def marker (b : Branch) (S : List Branch) : Pending :=
  ⟨.nameDef, some (o.name b.line), (pieces (b :: S)).length⟩

def pendings : List Branch → List Pending
  | [] => []
  | b :: S => ⟨.blockAssign, none, (pieces (b :: S)).length⟩ :: o.marker b S ::
      (waiting (pieces S).length b.trees ++ pendings S)

def frames : List Branch → List Frame
  | [] => [.root]
  | _ :: S => .body S.length :: frames S

def Open (old : List Node) (n : Nat) (b : Branch) (S : List Branch) (c : Config) : Prop :=
  c.Stands old (.afterName false) (frames S)
    (o.marker b S :: (waiting (pieces S).length b.trees ++ o.pendings S)) (pieces (b :: S)) S.length
    (o.lexemesFrom n)

def Done (old : List Node) (n : Nat) (t : Tree) (b : Branch) (S : List Branch) (c : Config) : Prop :=
  c.Stands old .operator (frames S) (waiting (pieces S).length b.trees ++ o.pendings S)
    (⟨t, false⟩ :: pieces (b :: S)) S.length (o.lexemesFrom n)

section Stacks

variable {o} {old : List Node} {n : Nat} {b : Branch} {S : List Branch} {t : Tree} {c : Config}

theorem held_concat (ts : List Tree) (t : Tree) : held (ts ++ [t]) = [⟨.block (ts ++ [t]), false⟩] := by
  cases ts <;> rfl

theorem waiting_concat (base : Nat) (ts : List Tree) (t : Tree) :
    waiting base (ts ++ [t]) = [⟨.blockAnd, none, base + 1⟩] := by
  cases ts <;> rfl

theorem mem_waiting {base : Nat} {ts : List Tree} : ∀ op ∈ waiting base ts, op.tag = .blockAnd := by
  intro op member
  cases ts with
  | nil => cases member
  | cons t ts =>
    obtain rfl := List.mem_singleton.mp member
    rfl

theorem fold_waiting {ts : List Tree} (named : ∀ t ∈ ts, t.tag = .nameDef) (base : Nat) (t : Tree)
    (P : List Piece) :
    foldAll? (waiting base ts) (⟨t, false⟩ :: (held ts ++ P)) =
      some (⟨.block (ts ++ [t]), false⟩ :: P) := by
  match ts with
  | [] => rfl
  | [u] =>
    have name : u.tag = .nameDef := named u (List.mem_singleton_self u)
    have apart : Piece.join .blockAnd none ⟨u, false⟩ ⟨t, false⟩ = .ofNode .blockAnd none [u, t] := by
      rw [Piece.join, name]
      rfl
    show some (Piece.join .blockAnd none ⟨u, false⟩ ⟨t, false⟩ :: P) = _
    rw [apart]
    rfl
  | u :: v :: ts => rfl

theorem scopeOf_frames (S : List Branch) : scopeOf (frames S) = .block := by
  cases S <;> rfl

theorem head_pendings (S : List Branch) : ∀ top ∈ (o.pendings S).head?, top.tag = .blockAssign := by
  intro top member
  cases S with
  | nil => cases member
  | cons b S =>
    cases member
    rfl

theorem ahead_cases (inside : n ≤ o.size) : (n = o.size ∧ o.lexemesFrom n = [.plain o.eof]) ∨
    (n < o.size ∧ ∃ i : Lexeme, i.IsLine (o.level n) ∧ i.token = o.indent n ∧
      o.lexemesFrom n = i :: .plain (o.dot n) :: .plain (o.name n) :: o.lexemesFrom (n + 1)) := by
  rcases Nat.lt_or_eq_of_le inside with more | rfl
  · exact .inr ⟨more, _, ⟨rfl, rfl⟩, rfl, lexemesFrom_line more⟩
  · exact .inl ⟨rfl, lexemesFrom_size⟩

theorem Open.deeper (h : o.Open old n b S c) (more : n < o.size) (level : o.level n = S.length + 1) :
    c.Leads (o.Open old (n + 1) ⟨[], [], n⟩ (b :: S)) := by
  rw [Open, lexemesFrom_line more] at h
  refine (h.opensBody ⟨rfl, congrArg some level⟩).trans ?_
  intro d hd
  exact hd.readsName rfl rfl

theorem Open.finish (h : o.Open old n b S c) (inside : n ≤ o.size)
    (closed : n = o.size ∨ o.level n ≤ S.length) :
    c.Leads (o.Done old n (.node .nameDef (some (o.name b.line)) []) b S) := by
  have allowed : (Tail.name false S.length).Allows (o.lexemesFrom n) := by
    rcases ahead_cases inside with ⟨-, ahead⟩ | ⟨more, i, line, -, ahead⟩
    · rw [ahead]
      exact ⟨nofun, nofun, nofun⟩
    · rw [ahead]
      refine ⟨by simp [line.1], by simp [line.1], fun _ => ⟨_, line.2, ?_⟩⟩
      exact closed.resolve_left (by omega)
  exact Runs.undefined allowed c (frames S) _ (pieces (b :: S)) [] _ h

theorem Done.join (h : o.Done old n t b S c) (named : ∀ t ∈ b.trees, t.tag = .nameDef)
    (more : n < o.size) (level : o.level n = S.length) :
    c.Leads (o.Open old (n + 1) ⟨b.done ++ [b.line], b.trees ++ [t], n⟩ S) := by
  rw [Done, lexemesFrom_line more] at h
  have found : (scopeOf (frames S)).operator? S.length
      (⟨o.indent n, some (o.level n)⟩ :: .plain (o.dot n) :: .plain (o.name n) :: o.lexemesFrom (n + 1)) =
      some (.blockAnd, none, .plain (o.dot n) :: .plain (o.name n) :: o.lexemesFrom (n + 1)) := by
    rw [scopeOf_frames, level]
    simp [Scope.operator?, Lexeme.tag, Lexeme.plain, indent, dot]
  have room : ∀ top ∈ (o.pendings S).head?, top.tag.rightStrength ≤ NodeTag.blockAnd.precedence := by
    intro top member
    rw [head_pendings S top member]
    decide
  refine (h.joins (fun op member => by rw [mem_waiting op member]; rfl)
    (fun op member => by rw [mem_waiting op member]; decide) room
    (fold_waiting named _ t (pieces S)) found ?_).trans ?_
  · rw [scopeOf_frames]
    intro attrs
    cases attrs
  intro d hd
  refine (hd.readsName rfl rfl).trans ?_
  intro e he
  refine .here ?_
  rw [Open, marker, pieces, held_concat, waiting_concat]
  exact he

theorem Done.leave {f : Frame} {F : List Frame} (h : o.Done old n t b S c)
    (named : ∀ t ∈ b.trees, t.tag = .nameDef) (split : frames S = f :: F) (inside : n ≤ o.size)
    (closed : n = o.size ∨ o.level n < S.length) :
    c.Leads fun d => d.Stands old (.close f) F (o.pendings S)
      (⟨.block (b.trees ++ [t]), false⟩ :: pieces S) S.length (o.lexemesFrom n) := by
  have ended : f.scope.Ends S.length (o.lexemesFrom n) := by
    rcases ahead_cases inside with ⟨-, ahead⟩ | ⟨more, i, line, -, ahead⟩
    · rw [ahead]
      exact .inl rfl
    · rw [ahead]
      refine .inr ⟨_, line, ?_⟩
      rintro ⟨same, -⟩
      exact absurd (closed.resolve_left (by omega)) (by omega)
  have settled : Settled (o.pendings S) := by
    intro top member
    rw [head_pendings S top member]
    rfl
  rw [Done, split] at h
  exact h.ends settled (fun op member => by rw [mem_waiting op member]; rfl)
    (fold_waiting named _ t (pieces S)) ended

theorem Done.close {b' : Branch} (h : o.Done old n t b (b' :: S) c)
    (named : ∀ t ∈ b.trees, t.tag = .nameDef) (inside : n ≤ o.size)
    (closed : n = o.size ∨ o.level n = S.length) :
    c.Leads (o.Done old n (.node .nameDef (some (o.name b'.line))
      [.node .value none [.block (b.trees ++ [t])]]) b' S) := by
  have allowed : (Tail.body S.length).Allows (o.lexemesFrom n) := by
    rcases ahead_cases inside with ⟨-, ahead⟩ | ⟨more, i, line, -, ahead⟩
    · rw [ahead]
      exact .inr rfl
    · rw [ahead]
      rw [closed.resolve_left (by omega)] at line
      exact .inl line
  refine (h.leave named rfl inside (closed.imp_right fun same => ?_)).trans ?_
  · rw [same]
    exact Nat.lt_succ_self _
  · intro d hd
    exact Config.Stands.closesBody (P := pieces (b' :: S)) (Q := []) hd allowed

theorem Open.breaks (h : o.Open old n b S c) (more : n < o.size)
    (deep : S.length + 1 < o.level n) :
    ∃ w, c.run = .error ⟨.unalignedIndent (o.indent n), w⟩ := by
  rw [Open, lexemesFrom_line more] at h
  refine h.refusesLine .unaligned ⟨rfl, rfl⟩ (by simp) ?_
  intro e he
  simp only [Config.lineChoice, he.goal_eq, Config.blockChoice, he.level]
  rw [if_neg (by omega), if_neg (by omega), if_pos deep]

theorem Done.breaks {b' : Branch} (h : o.Done old n t b (b' :: S) c)
    (named : ∀ t ∈ b.trees, t.tag = .nameDef) (more : n < o.size) (shallow : o.level n < S.length) :
    ∃ e, (e = .outOfMemory ∨ e = .unalignedIndent (o.indent n)) ∧ ∃ w, c.run = .error ⟨e, w⟩ := by
  have left := h.leave named rfl (Nat.le_of_lt more) (.inr (Nat.lt_succ_of_lt shallow))
  rcases left with ⟨w, full⟩ | ⟨d, same, hd⟩
  · exact ⟨_, .inl rfl, w, full⟩
  · rw [lexemesFrom_line more] at hd
    obtain ⟨w, broken⟩ := hd.refusesLine .unaligned ⟨rfl, rfl⟩ (by simp) (by
      intro e he
      simp only [Config.lineChoice, he.goal_eq, Config.dedentChoice]
      rw [if_pos shallow])
    exact ⟨_, .inr rfl, w, same.trans broken⟩

end Stacks

/-- What a run comes to: the tree of the outline, or the first line that does not fit. -/
def Outcome (old : List Node) : Attempt (NodeId × Config) → Prop
  | .ok (root, d) =>
    o.Steps ∧ root = o.tree.root old.length ∧ d.work.Carries old [⟨o.tree, false⟩]
  | .error f => f.error = .outOfMemory ∨
    ∃ i, o.Breaks i ∧ f.error = .unalignedIndent (o.indent (i + 1))

section Runs

variable {o} {old : List Node} {n : Nat} {b : Branch} {S : List Branch} {t : Tree} {c : Config}

theorem Outcome.of_leads {Q : Config → Prop} (leads : c.Leads Q)
    (next : ∀ d, Q d → o.Outcome old d.run) : o.Outcome old c.run := by
  rcases leads with ⟨w, full⟩ | ⟨d, same, hd⟩
  · rw [full]
    exact .inl rfl
  · rw [same]
    exact next d hd

/-- At the end of the text all open lines are at their end, the deepest first. -/
theorem Done.ends (h : o.Done old o.size t b S c) (tracks : o.Tracks o.size (b :: S)) (steps : o.Steps)
    (whole : o.topic b.line = t) : o.Outcome old c.run := by
  induction S generalizing b t c with
  | nil =>
    have lines : b.done ++ [b.line] = o.body none := tracks.1.lines
    have tree : o.tree = .block (b.trees ++ [t]) := by
      rw [Topics.tree, ← lines, List.map_append, ← tracks.1.topics steps, ← whole]
      rfl
    refine .of_leads (h.leave tracks.1.named rfl (Nat.le_refl _) (.inl rfl)) ?_
    intro d hd
    rw [lexemesFrom_size] at hd
    obtain ⟨e, ran, carries⟩ := Config.Stands.finishes (x := ⟨.block (b.trees ++ [t]), false⟩) hd rfl
    rw [ran, Outcome, tree]
    exact ⟨steps, rfl, carries⟩
  | cons b' S ih =>
    refine .of_leads (h.close tracks.1.named (Nat.le_refl _) (.inl rfl)) ?_
    intro d hd
    exact ih hd tracks.2 (tracks.parent (Nat.le_refl _) (.inl rfl) (fun _ => whole.symm) steps)

/-- From the line that was read last, whatever is open above it, the run comes to what it should. -/
def Settles (o : Topics) (old : List Node) (n : Nat) : Prop :=
  ∀ {b : Branch} {S : List Branch} {c : Config}, b.line + 1 = n → (∀ k < b.line, o.Step k) →
    o.Tracks n (b :: S) → o.Open old n b S c → o.Outcome old c.run

theorem settles_size : o.Settles old o.size := by
  intro b S c last before tracks h
  have steps : o.Steps := fun k below => before k (by omega)
  refine .of_leads (h.finish (Nat.le_refl _) (.inl rfl)) ?_
  intro d hd
  exact hd.ends tracks steps (steps.childless tracks.1.read (.inl last))

theorem Done.next (h : o.Done old n t b S c) (tracks : o.Tracks n (b :: S)) (more : n < o.size)
    (level : o.level n = S.length) (name : t.tag = .nameDef) (whole : o.Steps → o.topic b.line = t)
    (before : ∀ k < n, o.Step k) (later : o.Settles old (n + 1)) : o.Outcome old c.run := by
  refine .of_leads (h.join tracks.1.named more level) ?_
  intro d hd
  refine later rfl before (tracks.2.next level tracks.1.lines ?_ ?_) hd
  · intro u member
    rcases List.mem_append.mp member with member | member
    · exact tracks.1.named u member
    · rw [List.mem_singleton.mp member]
      exact name
  · intro steps
    rw [List.map_append, ← tracks.1.topics steps, ← whole steps]
    rfl

theorem Open.back (h : o.Open old (b.line + 1) b S c) (tracks : o.Tracks (b.line + 1) (b :: S))
    (more : b.line + 1 < o.size) (shallow : o.level (b.line + 1) ≤ S.length)
    (before : ∀ k < b.line, o.Step k) (later : o.Settles old (b.line + 1 + 1)) :
    o.Outcome old c.run := by
  have level : o.level b.line = S.length := tracks.1.level
  have beforeNext : o.Step b.line → ∀ k < b.line + 1, o.Step k := fun step =>
    Nat.forall_lt_succ_right.mpr ⟨before, step⟩
  have whole : o.Steps → o.topic b.line = .node .nameDef (some (o.name b.line)) [] := fun steps =>
    steps.childless (Nat.lt_of_succ_lt more) (.inr (by omega))
  refine .of_leads (h.finish more.le (.inr shallow)) ?_
  intro d hd
  by_cases same : o.level (b.line + 1) = S.length
  · exact hd.next tracks more same rfl whole (beforeNext ⟨by omega, by omega⟩) later
  cases S with
  | nil => exact absurd (Nat.le_zero.mp shallow) same
  | cons b' S =>
    rw [List.length_cons] at shallow same level
    by_cases back : o.level (b.line + 1) = S.length
    · refine .of_leads (hd.close tracks.1.named more.le (.inr back)) ?_
      intro e he
      have parent := tracks.parent more.le (.inr back.le) fun steps => (whole steps).symm
      exact he.next tracks.2 more back rfl parent (beforeNext ⟨by omega, by omega⟩) later
    · obtain ⟨e, cause, w, failed⟩ := hd.breaks tracks.1.named more (by omega)
      rw [failed]
      refine cause.imp id fun fault => ⟨b.line, ⟨more, ?_, before⟩, fault⟩
      rintro ⟨down, -⟩
      omega

theorem settles_line (more : n < o.size) (later : o.Settles old (n + 1)) : o.Settles old n := by
  rintro b S c rfl before tracks h
  have level : o.level b.line = S.length := tracks.1.level
  rcases Nat.lt_trichotomy (o.level (b.line + 1)) (S.length + 1) with shallow | deeper | deep
  · exact h.back tracks more (Nat.le_of_lt_succ shallow) before later
  · refine .of_leads (h.deeper more deeper) ?_
    intro d hd
    have first : o.Tracks (b.line + 1 + 1) (⟨[], [], b.line + 1⟩ :: b :: S) :=
      tracks.next deeper (bodyWithin_last b.line).symm nofun fun _ => rfl
    exact later rfl (Nat.forall_lt_succ_right.mpr ⟨before, by omega, by omega⟩) first hd
  · obtain ⟨w, failed⟩ := h.breaks more deep
    rw [failed]
    refine .inr ⟨b.line, ⟨more, ?_, before⟩, rfl⟩
    rintro ⟨-, up⟩
    omega

/- From the last line back to the first. -/
theorem settles (inside : n ≤ o.size) : o.Settles old n := by
  induction inside using Nat.decreasingInduction with
  | self => exact settles_size
  | of_succ n more later => exact settles_line more later

end Runs

theorem Breaks.not_steps {i : Nat} (breaks : o.Breaks i) : ¬o.Steps :=
  fun steps => breaks.2.1 (steps i breaks.1)

theorem parse_cases (a : Arena) (room : a.size + o.text.length ≤ a.limit) :
    (o.Steps ∧ ∃ root, (o.source.parse a).outcome = .ok (some root) ∧
      (o.source.parse a).arena.Shows root o.tree) ∨
    ∃ i, o.Breaks i ∧ (o.source.parse a).outcome = .error (.unalignedIndent (o.indent (i + 1))) := by
  obtain ⟨c, start, stands⟩ := Source.start_of_lexemes o.lexemes_eq a
  have outcome : o.Outcome a.nodes.toList c.run := by
    refine .of_leads (stands.readsName rfl rfl) ?_
    intro d hd
    have opened : o.Open a.nodes.toList 1 ⟨[], [], 0⟩ [] d := hd
    have none : o.Tracks 0 [] := trivial
    have first : o.Tracks 1 [⟨[], [], 0⟩] := none.next o.level_zero rfl nofun fun _ => rfl
    exact settles o.size_pos rfl (by nofun) first opened
  cases ran : c.run with
  | ok r =>
    obtain ⟨root, d⟩ := r
    rw [ran] at outcome
    obtain ⟨steps, rfl, carries⟩ := outcome
    obtain ⟨parsed, arena⟩ := Source.parse_ok start ran
    obtain ⟨nodes, fits⟩ := carries.2.laid
    refine .inl ⟨steps, _, parsed, ?_⟩
    rw [arena]
    exact (carries.1.lies_single (fits ⟨o.tree, false⟩ (by simp))
      (by simpa [Tree.layAll] using nodes)).shows
  | error f =>
    rw [ran] at outcome
    have failed := (Source.parse_error start ran).1
    rcases outcome with full | ⟨i, breaks, fault⟩
    · rw [full] at failed
      exact absurd failed (Source.parse_ne_outOfMemory o.source a room)
    · rw [fault] at failed
      exact .inr ⟨i, breaks, failed⟩

/-- An outline is parsed exactly if its levels change by one at most from line to line. Then the tree is
that of the outline, and a line that no deeper one follows has no value; otherwise the first line that
does not fit is at fault. -/
theorem parse_outline (a : Arena) (room : a.size + o.text.length ≤ a.limit) :
    ((∃ root, (o.source.parse a).outcome = .ok root) ↔ o.Steps) ∧
      (o.Steps → (∃ root, (o.source.parse a).outcome = .ok (some root) ∧
          (o.source.parse a).arena.Shows root o.tree) ∧
        ∀ i < o.size, (i + 1 < o.size → o.level (i + 1) ≤ o.level i) →
          o.topic i = .node .nameDef (some (o.name i)) []) ∧
      (¬o.Steps → ∃ i, o.Breaks i ∧
        (o.source.parse a).outcome = .error (.unalignedIndent (o.indent (i + 1)))) := by
  have childless : o.Steps → ∀ i < o.size, (i + 1 < o.size → o.level (i + 1) ≤ o.level i) →
      o.topic i = .node .nameDef (some (o.name i)) [] := by
    intro steps i inside followed
    rcases Nat.lt_or_eq_of_le inside with more | last
    · exact steps.childless inside (.inr (followed more))
    · exact steps.childless inside (.inl last)
  rcases o.parse_cases a room with ⟨steps, root, parsed, shown⟩ | ⟨i, breaks, failed⟩
  · exact ⟨iff_of_true ⟨_, parsed⟩ steps, fun _ => ⟨⟨root, parsed, shown⟩, childless steps⟩,
      absurd steps⟩
  · refine ⟨iff_of_false ?_ breaks.not_steps, (absurd · breaks.not_steps), fun _ => ⟨i, breaks, failed⟩⟩
    rintro ⟨root, parsed⟩
    cases failed.symm.trans parsed

theorem parse_ofBytes (fits : o.text.length ≤ Source.capacity) :
    (o.Steps ∧ ∃ root, ((Source.ofBytes o.text).parse .empty).outcome = .ok (some root) ∧
      ((Source.ofBytes o.text).parse .empty).arena.Shows root o.tree) ∨
    ∃ i, o.Breaks i ∧ ((Source.ofBytes o.text).parse .empty).outcome =
      .error (.unalignedIndent (o.indent (i + 1))) := by
  rw [Source.ofBytes_eq fits]
  have short : o.source.length < Source.capacity + Source.lineBytes :=
    Nat.lt_of_le_of_lt fits (by decide)
  exact o.parse_cases .empty (Source.room_empty short)

def nested : Topics := ⟨⟨1, 2, by decide⟩, [0, 1, 2, 1, 0], rfl, by decide⟩

def jumping : Topics := ⟨⟨0, 1, by decide⟩, [0, 1, 2, 0], rfl, by decide⟩

theorem parse_outline_nested :
    nested.source = .ofText " .n0\n   .n1\n     .n2\n   .n3\n .n4\n" ∧
      (∃ root, (nested.source.parse .empty).outcome = .ok (some root) ∧
        (nested.source.parse .empty).arena.Shows root nested.tree) ∧
      jumping.source = .ofText ".n0\n .n1\n  .n2\n.n3\n" ∧
      ∃ i, jumping.Breaks i ∧ (jumping.source.parse .empty).outcome =
        .error (.unalignedIndent (jumping.indent (i + 1))) :=
  ⟨by decide, ((parse_outline nested .empty (Source.room_empty (by decide))).2.1 (by decide)).1, by decide,
    (parse_outline jumping .empty (Source.room_empty (by decide))).2.2 (by decide)⟩

end Topics
end Offside
