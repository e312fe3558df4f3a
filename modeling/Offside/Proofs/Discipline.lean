import Offside.Proofs.Ownership

/-! How the stacks of the parser stand to each other. Frames and markers are nested in the same way,
the operands between two markers are those that the operators there wait for, and the level counts
the blocks that are open. None of the branches that guard against anything else is ever taken. -/
namespace Offside

def Frame.opensBlock : Frame → Bool
  | .body _ | .control _ | .group _ true => true
  | .root | .group _ false | .attrs | .value | .header => false

def depth : List Frame → Nat
  | [] => 0
  | f :: F => depth F + f.opensBlock.toNat

def NodeTag.IsBinary (tag : NodeTag) : Prop :=
  (tag.shape = .pair ∨ tag.shape = .list) ∧ tag.isMarker = false

/- Frames, operators and the number of operands when another operand is expected. Each construct has
its marker above all that was there before it, and a name has a second one below that of its
attributes or of its definition. -/
inductive Nested : List Frame → List Pending → Nat → Prop where
  | root : Nested [.root] [] 0
  | binary {F O n tag token} :
      Nested F O n → tag.IsBinary → Nested F (⟨tag, token, n + 1⟩ :: O) (n + 1)
  | negate {F O n token} : Nested F O n → Nested F (⟨.negate, token, n⟩ :: O) n
  | group {F O n token} (block : Bool) :
      Nested F O n → Nested (.group (depth F) block :: F) (⟨.group, token, n⟩ :: O) n
  | attrs {F O n token} :
      Nested F O n → Nested (.attrs :: F) (⟨.attrs, none, n⟩ :: ⟨.nameDef, token, n⟩ :: O) n
  | value {F O n token} (attributed : Bool) : Nested F O n →
      Nested (.value :: F)
        (⟨.value, none, n + attributed.toNat⟩ :: ⟨.nameDef, token, n⟩ :: O) (n + attributed.toNat)
  | body {F O n token} (attributed : Bool) : Nested F O n →
      Nested (.body (depth F) :: F)
        (⟨.blockAssign, none, n + attributed.toNat⟩ :: ⟨.nameDef, token, n⟩ :: O)
        (n + attributed.toNat)
  | header {F O n word tag token} :
      Nested F O n → headerTag? word = some tag → Nested (.header :: F) (⟨tag, token, n⟩ :: O) n
  | control {F O n word tag token} : Nested F O n → headerTag? word = some tag →
      Nested (.control (depth F) :: F) (⟨tag, token, n⟩ :: O) (n + 1)
  | otherwise {F O n token} :
      Nested F O n → Nested (.control (depth F) :: F) (⟨.elseThen, token, n⟩ :: O) n

namespace Config

/-- The open constructs; the goal is one of them while it is to be closed. -/
def openFrames (c : Config) : List Frame :=
  match c.goal with
  | .close f => f :: c.frames
  | _ => c.frames

/-- How the operators and the number of operands fit the goal. -/
def Matched (c : Config) : Prop :=
  let O := c.work.operators
  let n := c.work.operands.length
  match c.goal with
  | .operand | .afterDot => Nested c.frames O n
  | .operator => ∃ m, n = m + 1 ∧ Nested c.frames O m
  | .afterParen => ∃ token rest, O = ⟨.group, token, n⟩ :: rest ∧ Nested c.frames rest n
  | .afterName attributed => ∃ token rest m, n = m + attributed.toNat ∧
      O = ⟨.nameDef, token, m⟩ :: rest ∧ Nested c.frames rest m
  | .close f => (∃ m, n = m + 1 ∧ Settled O ∧ Nested (f :: c.frames) O m) ∨
      ∃ token rest, f = .header ∧ O = ⟨.elseThen, token, n⟩ :: rest ∧ Nested c.frames rest n

structure Disciplined (c : Config) : Prop where
  matched : c.Matched
  level : c.grid.level = depth c.openFrames

end Config

theorem Derives.attributed {ends : Tail → List Lexeme → Prop} {l : Nat} {ts rest : List Lexeme}
    {A : List Piece} (h : Derives ends (.attributes l) ts A rest) :
    A.length = (!A.isEmpty).toNat := by
  cases h <;> rfl

theorem Context.nested {stream : List Lexeme} {F : List Frame} {O : List Pending} {P : List Piece}
    {l q : Nat} {ts : List Lexeme} (ctx : Context stream F O P l q ts) :
    Nested F O P.length ∧ l = depth F := by
  induction ctx with
  | start => exact ⟨.root, rfl⟩
  | binary _ _ found _ ih =>
    obtain ⟨shape, positive, _⟩ := operator?_binary found
    exact ⟨.binary ih.1 ⟨shape, beq_eq_false_iff_ne.mpr (Nat.ne_of_gt positive)⟩, ih.2⟩
  | negate _ _ ih => exact ⟨.negate ih.1, ih.2⟩
  | group _ _ ih =>
    obtain ⟨nested, rfl⟩ := ih
    exact ⟨.group false nested, rfl⟩
  | groupBlock _ _ _ ih =>
    obtain ⟨nested, rfl⟩ := ih
    exact ⟨.group true nested, rfl⟩
  | attrs _ _ _ _ ih => exact ⟨.attrs ih.1, ih.2⟩
  | value _ _ _ attrs _ ih =>
    rw [List.length_append, Nat.add_comm, attrs.attributed]
    exact ⟨.value _ ih.1, ih.2⟩
  | body _ _ _ attrs _ ih =>
    obtain ⟨nested, rfl⟩ := ih
    rw [List.length_append, Nat.add_comm, attrs.attributed]
    exact ⟨.body _ nested, rfl⟩
  | header _ found ih => exact ⟨.header ih.1 found, ih.2⟩
  | control _ heading _ ih =>
    obtain ⟨nested, rfl⟩ := ih
    cases heading with
    | header found _ =>
      rw [List.length_append, Nat.add_comm]
      exact ⟨.control nested found, rfl⟩
    | otherwise _ => exact ⟨.otherwise nested, rfl⟩

namespace Config

variable {stream : List Lexeme} {old : List Node} {c : Config} {P : List Piece}

theorem Tracks.disciplined (tracks : c.Tracks stream old P) : c.Disciplined := by
  obtain ⟨⟨_, carried⟩, expects⟩ := tracks
  have count := carried.length
  suffices ∀ goal, c.goal = goal → c.Matched ∧ c.grid.level = depth c.openFrames from
    ⟨(this _ rfl).1, (this _ rfl).2⟩
  intro goal same
  rw [same] at expects
  simp only [Matched, openFrames, same, count]
  generalize c.work.operators = O at expects
  generalize c.grid.level = l at expects
  generalize c.ahead = ts at expects
  cases expects with
  | operand ctx => exact ctx.nested
  | operator ctx der => exact ⟨⟨_, rfl, ctx.nested.1⟩, ctx.nested.2⟩
  | afterParen ctx _ => exact ⟨⟨_, _, rfl, ctx.nested.1⟩, ctx.nested.2⟩
  | afterDot ctx _ => exact ctx.nested
  | afterName ctx _ _ attrs =>
    refine ⟨⟨_, _, _, ?_, rfl, ctx.nested.1⟩, ctx.nested.2⟩
    rw [List.length_append, Nat.add_comm, attrs.attributed]
  | close ctx settled _ _ => exact ⟨.inl ⟨_, rfl, settled, ctx.nested.1⟩, ctx.nested.2⟩
  | closeLine ctx =>
    obtain ⟨nested, rfl⟩ := ctx.nested
    refine ⟨.inl ⟨_, rfl, ?_, .group false nested⟩, rfl⟩
    rintro _ ⟨⟩
    rfl
  | closeHeading ctx _ => exact ⟨.inr ⟨_, _, rfl, rfl, ctx.nested.1⟩, ctx.nested.2⟩

end Config

/- Only memory can run out. -/
def Survives {α : Type} (r : Attempt α) (Q : α → Prop) : Prop :=
  match r with
  | .ok a => Q a
  | .error fault => fault.error = .outOfMemory

theorem Survives.bind {α β : Type} {r : Attempt α} {f : α → Attempt β} {Q : α → Prop}
    {R : β → Prop} (h : Survives r Q) (next : ∀ a, Q a → Survives (f a) R) :
    Survives (r >>= f) R := by
  cases r with
  | ok a => exact next a h
  | error e => exact h

theorem Survives.mono {α : Type} {r : Attempt α} {Q R : α → Prop} (h : Survives r Q)
    (imp : ∀ a, Q a → R a) : Survives r R := by
  cases r with
  | ok a => exact imp a h
  | error e => exact h

namespace Assembly

variable {w : Assembly} {F : List Frame} {O : List Pending} {op : Pending} {n : Nat}

theorem build_survives (w : Assembly) (tag : NodeTag) (token : Option Token)
    (children : List Operand) :
    Survives (w.build tag token children) fun w' =>
      w'.operators = w.operators ∧ w'.operands.length = w.operands.length + 1 := by
  unfold build
  split
  · exact ⟨rfl, rfl⟩
  · rfl

theorem apply_survives (nested : Nested F (op :: O) n) (plain : op.tag.isMarker = false)
    (count : w.operands.length = n + 1) (near : Token) :
    Survives (w.apply op near) fun w' =>
      w'.operators = w.operators ∧ ∃ m, w'.operands.length = m + 1 ∧ Nested F O m := by
  obtain ⟨right, more, operands⟩ := List.exists_cons_of_length_eq_add_one count
  have more_count : more.length = n := by simpa [operands] using count
  have made : ∀ rest children, Nested F O rest.length →
      Survives ({ w with operands := rest }.build op.tag op.token children) fun w' =>
        w'.operators = w.operators ∧ ∃ m, w'.operands.length = m + 1 ∧ Nested F O m := by
    intro rest children below
    refine (build_survives { w with operands := rest } op.tag op.token children).mono ?_
    rintro w' ⟨operators, length⟩
    exact ⟨operators, rest.length, length, below⟩
  unfold apply
  cases nested with
  | @binary _ _ m tag token below binary =>
    obtain ⟨left, rest, rfl⟩ := List.exists_cons_of_length_eq_add_one more_count
    have rest_count : rest.length = m := by simpa using more_count
    rw [← rest_count] at below
    rcases binary.1 with shape | shape
    · simp only [shape, operands]
      exact made rest _ below
    · simp only [shape, operands]
      split
      · exact ⟨rfl, rest.length, rfl, below⟩
      · exact made rest _ below
  | negate below =>
    rw [← more_count] at below
    simp only [NodeTag.shape, operands]
    exact made more _ below
  | group => cases plain
  | attrs => cases plain
  | value => cases plain
  | body => cases plain
  | header _ found => simp [(headerTag?_marker found).2.1] at plain
  | control _ found => simp [(headerTag?_marker found).2.1] at plain
  | otherwise => cases plain

theorem reduceTimes_survives {ops rest : List Pending} (nested : Nested F w.operators n)
    (count : w.operands.length = n + 1) (stack : w.operators = ops ++ rest)
    (plain : ∀ op ∈ ops, op.tag.isMarker = false) (near : Token) :
    Survives (reduceTimes near ops.length w) fun w' =>
      ∃ m, w'.operands.length = m + 1 ∧ Nested F w'.operators m := by
  -- There is always one operand more than the operators that are left wait for.
  induction ops generalizing w n with
  | nil => exact ⟨n, count, nested⟩
  | cons op ops ih =>
    rw [stack, List.cons_append] at nested
    rw [List.length_cons, reduceTimes]
    simp only [reduce, stack, List.cons_append]
    refine (apply_survives (w := ({ w with operators := ops ++ rest }.note
      (.reduced op.tag w.operands.length))) nested (plain op (by simp)) count near).bind ?_
    rintro w' ⟨same, m, count', nested'⟩
    have same : w'.operators = ops ++ rest := same
    rw [← same] at nested'
    exact ih nested' count' same fun o ho => plain o (by simp [ho])

theorem reducesBefore_plain {tag next : NodeTag} (h : tag.reducesBefore next = true) :
    tag.isMarker = false := by
  by_contra mark
  have zero : tag.precedence = 0 := by simpa [NodeTag.isMarker] using mark
  simp [NodeTag.reducesBefore, NodeTag.isRightAssoc, zero] at h

theorem reduceWhile_survives {test : NodeTag → Bool} (nested : Nested F w.operators n)
    (count : w.operands.length = n + 1) (plain : ∀ tag, test tag = true → tag.isMarker = false)
    (near : Token) :
    Survives (w.reduceWhile test near) fun w' =>
      ∃ m, w'.operands.length = m + 1 ∧ Nested F w'.operators m := by
  refine reduceTimes_survives nested count List.takeWhile_append_dropWhile.symm ?_ near
  intro op member
  exact plain op.tag (List.mem_takeWhile_imp (p := fun op : Pending => test op.tag) member)

theorem takeScope_ok {tag : NodeTag} {token : Option Token} (stack : w.operators = ⟨tag, token, n⟩ :: O)
    (low : n ≤ w.operands.length) (near : Token) :
    ∃ top inner w', w.takeScope tag near = .ok (top, inner, w') ∧
      inner.length = w.operands.length - n ∧ w'.operators = O ∧ w'.operands.length = n := by
  refine ⟨_, _, _, takeScope_top stack low near, ?_, rfl, ?_⟩
  · rw [List.length_reverse, List.length_take]
    omega
  · rw [List.length_drop]
    omega

end Assembly

/-- The construct finds its scope as it expects it. -/
def Frame.Closes (w : Assembly) (near : Token) : Frame → Prop
  | .group _ _ => ∃ top o w', w.takeScope .group near = .ok (top, [o], w')
  | .attrs => ∃ top o w', w.takeScope .attrs near = .ok (top, [o], w')
  | .value => (∃ top o w', w.takeScope .value near = .ok (top, [o], w')) ∧
      Survives (w.wrap .value .value near) fun w' => ∃ r, w'.takeScope .nameDef near = .ok r
  | .body _ => (∃ top o w', w.takeScope .blockAssign near = .ok (top, [o], w')) ∧
      Survives (w.wrap .blockAssign .value near) fun w' => ∃ r, w'.takeScope .nameDef near = .ok r
  | .header => True
  | .control _ => ∃ tag r, w.innermost? = some tag ∧ w.takeScope tag near = .ok r
  | .root => w.operators = [] ∧ ∃ o, w.operands = [o]

namespace Config

/-- The branches for stacks that do not match are never taken. -/
structure Sheltered (c : Config) : Prop where
  join : c.goal = .operator → ∀ tag token, Survives (c.join tag token) fun _ => True
  leave : c.goal = .operator → Survives c.leave fun _ => True
  name : ∀ attributed, c.goal = .afterName attributed →
    ∃ r, c.work.takeScope .nameDef c.token = .ok r
  close : ∀ f, c.goal = .close f → f.Closes c.work c.token

end Config

namespace Assembly

variable {w : Assembly} {O : List Pending} {n : Nat} {tag : NodeTag} {token : Option Token}

theorem takeScope_single (stack : w.operators = ⟨tag, token, n⟩ :: O)
    (count : w.operands.length = n + 1) (near : Token) :
    ∃ top o w', w.takeScope tag near = .ok (top, [o], w') ∧ w'.operators = O ∧
      w'.operands.length = n := by
  obtain ⟨top, inner, w', taken, length, operators, operands⟩ :=
    takeScope_ok stack (by omega) near
  obtain ⟨o, rfl⟩ := List.length_eq_one_iff.mp (length.trans (by omega))
  exact ⟨top, o, w', taken, operators, operands⟩

theorem wrap_survives {m : Nat} {name : Option Token}
    (stack : w.operators = ⟨tag, token, n⟩ :: ⟨.nameDef, name, m⟩ :: O)
    (count : w.operands.length = n + 1) (low : m ≤ n) (near : Token) :
    (∃ top o w', w.takeScope tag near = .ok (top, [o], w')) ∧
      Survives (w.wrap tag .value near) fun w' => ∃ r, w'.takeScope .nameDef near = .ok r := by
  obtain ⟨top, o, w', taken, operators, operands⟩ := takeScope_single stack count near
  refine ⟨⟨top, o, w', taken⟩, ?_⟩
  simp only [wrap, taken, bind, Except.bind]
  refine (build_survives w' .value none [o]).mono ?_
  rintro v ⟨same, length⟩
  obtain ⟨_, _, _, named, _⟩ := takeScope_ok (same.trans operators) (by omega) near
  exact ⟨_, named⟩

end Assembly

theorem Settled.closes {O : List Pending} {f : Frame} {F : List Frame} {n : Nat} {w : Assembly}
    (settled : Settled O) (nested : Nested (f :: F) O n) (stack : w.operators = O)
    (count : w.operands.length = n + 1) (near : Token) : f.Closes w near := by
  cases nested with
  | root => exact ⟨stack, List.length_eq_one_iff.mp count⟩
  | binary _ binary =>
    have mark := settled _ rfl
    exact absurd mark (by simp [binary.2])
  | negate => exact settled.not_negate.elim
  | group =>
    obtain ⟨top, o, w', taken, _⟩ := Assembly.takeScope_single stack count near
    exact ⟨top, o, w', taken⟩
  | attrs =>
    obtain ⟨top, o, w', taken, _⟩ := Assembly.takeScope_single stack count near
    exact ⟨top, o, w', taken⟩
  | value => exact Assembly.wrap_survives stack count (by omega) near
  | body => exact Assembly.wrap_survives stack count (by omega) near
  | header => trivial
  | @control _ _ m word tag token _ found =>
    obtain ⟨_, _, _, taken, _⟩ := Assembly.takeScope_ok stack (by omega) near
    exact ⟨tag, _, by simp [Assembly.innermost?, stack, (headerTag?_marker found).2.1], taken⟩
  | otherwise =>
    obtain ⟨_, _, _, taken, _⟩ := Assembly.takeScope_ok stack (by omega) near
    exact ⟨.elseThen, _, by simp [Assembly.innermost?, stack, NodeTag.isMarker, NodeTag.precedence],
      taken⟩

theorem Nested.frames_ne_nil {F : List Frame} {O : List Pending} {n : Nat} (h : Nested F O n) :
    F ≠ [] := by
  induction h with
  | binary _ _ ih => exact ih
  | negate _ ih => exact ih
  | _ => simp

/-- Where the stacks match, nothing but memory can run out. -/
theorem Config.Disciplined.sheltered {c : Config} (h : c.Disciplined) : c.Sheltered := by
  have matched := h.matched
  unfold Config.Matched at matched
  refine ⟨?_, ?_, ?_, ?_⟩
  · intro goal tag token
    simp only [goal] at matched
    obtain ⟨m, count, nested⟩ := matched
    have pushed : Survives (c.work.binary tag token c.token) fun _ => True := by
      refine (Assembly.reduceWhile_survives nested count ?_ c.token).bind fun _ _ => trivial
      exact fun _ => Assembly.reducesBefore_plain
    exact pushed.bind fun _ _ => trivial
  · intro goal
    simp only [goal] at matched
    obtain ⟨m, count, nested⟩ := matched
    obtain ⟨f, rest, frames⟩ := List.exists_cons_of_ne_nil nested.frames_ne_nil
    refine (Assembly.reduceWhile_survives nested count ?_ c.token).bind fun w _ => ?_
    · exact fun tag passes => by simpa using passes
    · rw [frames]
      trivial
  · intro attributed goal
    simp only [goal] at matched
    obtain ⟨token, rest, m, count, stack, _⟩ := matched
    obtain ⟨_, _, _, taken, _⟩ := Assembly.takeScope_ok stack (by omega) c.token
    exact ⟨_, taken⟩
  · intro f goal
    simp only [goal] at matched
    rcases matched with ⟨m, count, settled, nested⟩ | ⟨_, _, rfl, _⟩
    · exact settled.closes nested rfl count c.token
    · trivial

def Config.Moves (c d : Config) : Prop := c.step = .ok (.move d)

def Source.Reaches (s : Source) (a : Arena) (c : Config) : Prop :=
  ∃ start, Config.ofSource a s = .ok (some start) ∧ Relation.ReflTransGen Config.Moves start c

theorem Source.Reaches.tracks_lexemes {s : Source} {a : Arena} {c : Config} (h : s.Reaches a c) :
    ∃ ts P, s.lexemes? = some ts ∧ c.Tracks ts a.nodes.toList P := by
  obtain ⟨start, begun, moves⟩ := h
  obtain ⟨ts, lexemes, first⟩ := Config.ofSource_tracks begun
  -- The lexemes stay those of the source; the pieces are others after each move.
  induction moves with
  | refl => exact ⟨ts, [], lexemes, first⟩
  | tail _ moved ih =>
    obtain ⟨ts, P, lexemes, tracks⟩ := ih
    have reached := Config.step_yields tracks
    rw [moved] at reached
    obtain ⟨P', tracks'⟩ := reached
    exact ⟨ts, P', lexemes, tracks'⟩

theorem Source.Reaches.tracks {s : Source} {a : Arena} {c : Config} (h : s.Reaches a c) :
    ∃ ts P, c.Tracks ts a.nodes.toList P := by
  obtain ⟨ts, P, -, tracks⟩ := h.tracks_lexemes
  exact ⟨ts, P, tracks⟩

/-- Every node made so far is on the operand stack or the child of one other. -/
theorem Assembly.Carries.owned {old : List Node} {w : Assembly} {P : List Piece}
    (h : w.Carries old P) :
    (w.operands.map Operand.node ++ w.arena.owned old.length).Perm
      ((List.range' old.length (w.arena.size - old.length)).map NodeId.mk) := by
  obtain ⟨within, carried⟩ := h
  obtain ⟨nodes, fits⟩ := carried.laid
  have each : ∀ t ∈ P.reverse.map Piece.tree, t.Fits := by
    intro t ht
    obtain ⟨p, hp, rfl⟩ := List.mem_map.mp ht
    exact fits p (List.mem_reverse.mp hp)
  have roots : w.operands.reverse.map Operand.node =
      Tree.roots old.length (P.reverse.map Piece.tree) := by
    have split : Carried old (w.operands ++ []) (P ++ []) w.arena.nodes.toList := by
      simpa using carried
    obtain ⟨ns, bottom, _, _, ids⟩ := split.split carried.length
    cases bottom
    exact ids
  have size := Arena.size_eq nodes
  have perm := Arena.owned_perm within each nodes
  rw [← roots, List.map_reverse] at perm
  rw [size, Nat.add_sub_cancel_left]
  exact ((List.reverse_perm _).symm.append_right _).trans perm

/-- In every configuration that a parse comes to, the stacks match the open constructs and the
level; no branch that guards against a mismatch is taken, and no child is lost. -/
theorem Source.Reaches.stack_discipline {s : Source} {a : Arena} {c : Config} (h : s.Reaches a c) :
    c.Disciplined ∧ c.noted.Sheltered ∧
      (c.work.operands.map Operand.node ++ c.work.arena.owned a.size).Perm
        ((List.range' a.size (c.work.arena.size - a.size)).map NodeId.mk) := by
  obtain ⟨ts, P, tracks⟩ := h.tracks
  have noted : c.noted.Tracks ts a.nodes.toList P := tracks
  have length : a.nodes.toList.length = a.size := Array.length_toList
  refine ⟨tracks.disciplined, noted.disciplined.sheltered, ?_⟩
  rw [← length]
  exact tracks.1.owned

theorem Source.Reaches.stack_discipline_group : ∃ c : Config, (ofText "(1").Reaches .empty c ∧
    c.frames = [.group 0 false, .root] ∧ c.Disciplined := by
  have reached : ∃ c : Config, (ofText "(1").Reaches .empty c ∧ c.frames = [.group 0 false, .root] :=
    ⟨_, ⟨_, rfl, .tail (.tail (.tail .refl rfl) rfl) rfl⟩, rfl⟩
  obtain ⟨c, reaches, frames⟩ := reached
  exact ⟨c, reaches, frames, reaches.stack_discipline.1⟩

end Offside
