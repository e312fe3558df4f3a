import Offside.Proofs.Forest
import Offside.Proofs.Soundness

/-! Readings and runs that are cut off after a number of steps. These can be evaluated, and what they
come to is what the whole reading or run comes to. -/
namespace Offside

def Scanner.tokensWithin : Nat → Scanner → Option (List Token)
  | 0, _ => none
  | n + 1, s =>
    if s.next.1.tag = .eof then some [s.next.1]
    else (s.next.2.tokensWithin n).map (s.next.1 :: ·)

theorem Scanner.tokens_of_within {n : Nat} {s : Scanner} {ts : List Token}
    (h : s.tokensWithin n = some ts) : s.tokens = ts := by
  induction n generalizing s ts with
  | zero => cases h
  | succ n ih =>
    rw [tokens_eq]
    unfold tokensWithin at h
    split at h
    · rename_i last
      rw [if_pos last]
      exact Option.some.inj h
    · rename_i more
      obtain ⟨rest, found, rfl⟩ := Option.map_eq_some_iff.mp h
      rw [if_neg more, ih found]

def Source.lexemesWithin (n : Nat) (s : Source) : Option (List Lexeme) :=
  let first := (Scanner.ofSource .layout s).nextFrom .lineStart
  if first.1.tag = .indent then
    (first.2.tokensWithin n).map (Grid.ofTrim first.1.length).label
  else none

theorem Source.lexemes_of_within {n : Nat} {s : Source} {ts : List Lexeme}
    (h : s.lexemesWithin n = some ts) : s.lexemes? = some ts := by
  unfold lexemesWithin at h
  unfold lexemes?
  dsimp only at h ⊢
  split at h
  · rename_i line
    obtain ⟨tokens, found, rfl⟩ := Option.map_eq_some_iff.mp h
    rw [if_pos line, Scanner.tokens_of_within found]
  · cases h

def Config.runWithin : Nat → Config → Option (Attempt (NodeId × Config))
  | 0, _ => none
  | n + 1, c =>
    match c.step with
    | .ok (.move d) => d.runWithin n
    | .ok (.done root d) => some (.ok (root, d))
    | .error fault => some (.error fault)

theorem Config.run_of_within {n : Nat} {c : Config} {r : Attempt (NodeId × Config)}
    (h : c.runWithin n = some r) : c.run = r := by
  induction n generalizing c with
  | zero => cases h
  | succ n ih =>
    unfold runWithin at h
    split at h
    · rename_i moved
      rw [run_of_move moved]
      exact ih h
    · rename_i finished
      cases h
      exact run_of_done finished
    · rename_i failed
      cases h
      exact run_of_error failed

def Source.outcomeWithin (n : Nat) (s : Source) (a : Arena) :
    Option (Except ParseError (Option NodeId)) :=
  match Config.ofSource a s with
  | .error fault => some (.error fault.error)
  | .ok none => some (.ok none)
  | .ok (some c) =>
    match c.runWithin n with
    | some (.ok r) => some (.ok (some r.1))
    | some (.error fault) => some (.error fault.error)
    | none => none

theorem Source.outcome_of_within {n : Nat} {s : Source} {a : Arena}
    {outcome : Except ParseError (Option NodeId)} (h : s.outcomeWithin n a = some outcome) :
    (s.parse a).outcome = outcome := by
  unfold outcomeWithin at h
  split at h
  · rename_i start
    cases h
    simp only [parse, Assembly.parse, start, bind, Except.bind]
  · rename_i start
    cases h
    simp only [parse, Assembly.parse, start, bind, Except.bind]
    rfl
  · rename_i start
    split at h
    · rename_i ran
      cases h
      exact (parse_ok start (Config.run_of_within ran)).1
    · rename_i ran
      cases h
      exact (parse_error start (Config.run_of_within ran)).1
    · cases h

def Source.arenaWithin (n : Nat) (s : Source) (a : Arena) : Option Arena :=
  match Config.ofSource a s with
  | .error fault => some fault.work.arena
  | .ok none => some a
  | .ok (some c) =>
    match c.runWithin n with
    | some (.ok r) => some r.2.work.arena
    | some (.error fault) => some fault.work.arena
    | none => none

theorem Source.arena_of_within {n : Nat} {s : Source} {a b : Arena}
    (h : s.arenaWithin n a = some b) : (s.parse a).arena = b := by
  unfold arenaWithin at h
  split at h
  · rename_i start
    cases h
    rw [(parse_broken start).2]
  · rename_i start
    cases h
    rw [(parse_blank start).2]
  · rename_i start
    split at h
    · rename_i ran
      cases h
      rw [(parse_ok start (Config.run_of_within ran)).2]
    · rename_i ran
      cases h
      rw [(parse_error start (Config.run_of_within ran)).2]
    · cases h

theorem Source.size_of_within {n : Nat} {s : Source} {a : Arena} {size : Nat}
    (h : (s.arenaWithin n a).map Arena.size = some size) : (s.parse a).arena.size = size := by
  obtain ⟨b, ran, rfl⟩ := Option.map_eq_some_iff.mp h
  rw [arena_of_within ran]

def Arena.treeWithin (a : Arena) : Nat → NodeId → Option Tree
  | 0, _ => none
  | n + 1, id => do
    let node ← a.get? id
    let kids ← node.children.mapM (a.treeWithin n)
    return .node node.tag node.token kids

theorem mapM_some {α β : Type} {f : α → Option β} {xs : List α} {ys : List β}
    (h : xs.mapM f = some ys) : xs.length = ys.length ∧ ∀ p ∈ xs.zip ys, f p.1 = some p.2 := by
  induction xs generalizing ys with
  | nil =>
    obtain rfl : [] = ys := Option.some.inj h
    exact ⟨rfl, nofun⟩
  | cons x xs ih =>
    simp only [List.mapM_cons, Option.bind_eq_bind, Option.bind_eq_some_iff] at h
    obtain ⟨y, found, rest, others, eq⟩ := h
    obtain rfl : y :: rest = ys := Option.some.inj eq
    obtain ⟨length, each⟩ := ih others
    exact ⟨congrArg (· + 1) length, List.forall_mem_cons.mpr ⟨found, each⟩⟩

theorem Arena.shows_of_within {n : Nat} {a : Arena} {id : NodeId} {tree : Tree}
    (h : a.treeWithin n id = some tree) : a.Shows id tree := by
  induction n generalizing id tree with
  | zero => cases h
  | succ n ih =>
    simp only [treeWithin, Option.bind_eq_bind, Option.bind_eq_some_iff] at h
    obtain ⟨node, found, kids, read, eq⟩ := h
    obtain rfl := Option.some.inj eq
    obtain ⟨length, each⟩ := mapM_some read
    exact .node found length fun p member => ih (each p member)

theorem Source.shows_of_within {n m : Nat} {s : Source} {a : Arena} {root : NodeId} {tree : Tree}
    (h : (s.arenaWithin n a).bind (·.treeWithin m root) = some tree) :
    (s.parse a).arena.Shows root tree := by
  obtain ⟨b, ran, read⟩ := Option.bind_eq_some_iff.mp h
  rw [arena_of_within ran]
  exact Arena.shows_of_within read

end Offside
