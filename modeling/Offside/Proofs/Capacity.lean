import Offside.Proofs.Soundness

/-! A parse does not run out of room in an arena that has room for one node per byte. Every operator
or marker that waits makes one node at most, and a token is used up for every one that is pushed and
for every leaf: the nodes, the stack and the unread input together never grow. -/
namespace Offside

/- The outcome of an attempt that may run out of room only if the bound is beyond the limit. -/
def Affords {α : Type} (limit bound : Nat) (r : Attempt α) (Q : α → Prop) : Prop :=
  match r with
  | .ok a => Q a
  | .error fault => fault.error = .outOfMemory → limit < bound

section Affords

variable {α β : Type} {limit bound : Nat} {Q : α → Prop} {R : β → Prop}

theorem Affords.bind {r : Attempt α} {f : α → Attempt β} (h : Affords limit bound r Q)
    (next : ∀ a, Q a → Affords limit bound (f a) R) : Affords limit bound (r >>= f) R := by
  cases r with
  | ok a => exact next a h
  | error e => exact h

theorem Affords.mono {r : Attempt α} {bound' : Nat} (h : Affords limit bound r Q)
    (le : bound ≤ bound') : Affords limit bound' r Q := by
  cases r with
  | ok a => exact h
  | error e => exact fun full => Nat.lt_of_lt_of_le (h full) le

theorem affords_fail {w : Assembly} {e : ParseError} (other : e ≠ .outOfMemory) :
    Affords limit bound (w.fail e) Q := fun full => absurd full other

end Affords

namespace Assembly

def load (w : Assembly) : Nat := w.arena.size + w.operators.length

def Bears (limit bound : Nat) (w : Assembly) : Prop := w.arena.limit = limit ∧ w.load ≤ bound

variable {w : Assembly} {limit bound : Nat} {near : Token}

theorem Bears.withOperands (h : w.Bears limit bound) (operands : List Operand) :
    { w with operands }.Bears limit bound := h

theorem build_affords (h : w.Bears limit bound) (tag : NodeTag) (token : Option Token)
    (children : List Operand) :
    Affords limit (bound + 1) (w.build tag token children) (Bears limit (bound + 1)) := by
  obtain ⟨rfl, load⟩ := h
  unfold Assembly.load at load
  unfold build
  rw [createWith?_eq]
  by_cases room : w.arena.size < w.arena.limit
  · simp only [room, ↓reduceIte, Affords]
    refine ⟨rfl, ?_⟩
    simp only [Assembly.load, Arena.size, Array.size_push] at load ⊢
    omega
  · simp only [room, ↓reduceIte, Affords, fail]
    omega

theorem apply_affords (h : w.Bears limit bound) (op : Pending) :
    Affords limit (bound + 1) (w.apply op near) (Bears limit (bound + 1)) := by
  unfold apply
  split
  · exact build_affords (h.withOperands _) _ _ _
  · exact build_affords (h.withOperands _) _ _ _
  · split
    · refine ⟨h.1, ?_⟩
      have load := h.2
      simp only [Assembly.load, Arena.size, Arena.attach, Array.size_modify] at load ⊢
      omega
    · exact build_affords (h.withOperands _) _ _ _
  · exact affords_fail (by simp)

theorem reduce_affords (h : w.Bears limit bound) :
    Affords limit bound (w.reduce near) (Bears limit bound) := by
  obtain ⟨same, load⟩ := h
  unfold reduce
  split
  · exact affords_fail (by simp)
  · rename_i op rest stack
    simp only [Assembly.load, stack, List.length_cons, ← Nat.add_assoc] at load
    obtain ⟨spare, rfl⟩ := Nat.exists_eq_add_of_le' load
    have popped : Bears limit (spare + (w.arena.size + rest.length))
        ({ w with operators := rest }.note (.reduced op.tag w.operands.length)) :=
      ⟨same, Nat.le_add_left _ _⟩
    exact apply_affords popped op

theorem reduceTimes_affords (h : w.Bears limit bound) (count : Nat) :
    Affords limit bound (reduceTimes near count w) (Bears limit bound) := by
  induction count generalizing w with
  | zero => exact h
  | succ count ih => exact (reduce_affords h).bind fun w' h' => ih h'

theorem push_bears (h : w.Bears limit bound) (tag : NodeTag) (token : Option Token) :
    (w.push tag token).Bears limit (bound + 1) :=
  ⟨h.1, Nat.succ_le_succ h.2⟩

theorem binary_affords (h : w.Bears limit bound) (tag : NodeTag) (token : Option Token) :
    Affords limit (bound + 1) (w.binary tag token near) (Bears limit (bound + 1)) :=
  ((reduceTimes_affords h _).mono (Nat.le_succ _)).bind fun _ h' => push_bears h' tag token

theorem settleScope_affords (h : w.Bears limit bound) :
    Affords limit bound (w.settleScope near) (Bears limit bound) := reduceTimes_affords h _

theorem takeScope_affords (h : w.Bears limit bound) (marker : NodeTag) :
    Affords limit bound (w.takeScope marker near) fun r =>
      ∃ spare, spare + 1 = bound ∧ r.2.2.Bears limit spare := by
  obtain ⟨same, load⟩ := h
  unfold takeScope
  split
  · exact affords_fail (by simp)
  · rename_i top rest stack
    split
    · simp only [Assembly.load, stack, List.length_cons, ← Nat.add_assoc] at load
      obtain ⟨spare, rfl⟩ := Nat.exists_eq_add_of_le' load
      exact ⟨spare + (w.arena.size + rest.length), rfl, same, Nat.le_add_left _ _⟩
    · exact affords_fail (by simp)

theorem wrap_affords (h : w.Bears limit bound) (marker tag : NodeTag) :
    Affords limit bound (w.wrap marker tag near) (Bears limit bound) := by
  refine (takeScope_affords h marker).bind ?_
  rintro ⟨_, inner, w'⟩ ⟨spare, rfl, h'⟩
  dsimp only
  split
  · exact build_affords h' _ _ _
  · exact affords_fail (by simp)

theorem complete_affords (h : w.Bears limit bound) (marker : NodeTag) :
    Affords limit bound (w.complete marker near) (Bears limit bound) := by
  refine (takeScope_affords h marker).bind ?_
  rintro ⟨_, inner, w'⟩ ⟨spare, rfl, h'⟩
  exact build_affords h' _ _ _

end Assembly

def Act.cost : Act → Nat
  | .push _ _ | .build _ _ | .binary _ _ => 1
  | _ => 0

theorem Act.run_affords {w : Assembly} {limit bound : Nat} (h : w.Bears limit bound) (near : Token)
    (act : Act) :
    Affords limit (bound + act.cost) (act.run near w) (Assembly.Bears limit (bound + act.cost)) := by
  cases act with
  | idle => exact h
  | push tag keeps => exact Assembly.push_bears h tag _
  | build tag keeps => exact Assembly.build_affords h tag _ _
  | binary tag keeps => exact Assembly.binary_affords h tag _
  | wrap marker tag => exact Assembly.wrap_affords h marker tag
  | define marker =>
    apply (Assembly.wrap_affords h marker .value).bind
    intro v h'
    exact Assembly.complete_affords h' .nameDef
  | complete marker => exact Assembly.complete_affords h marker
  | group =>
    apply (Assembly.takeScope_affords h .group).bind
    rintro ⟨_, inner, v⟩ ⟨spare, taken, same, load⟩
    dsimp only at same load ⊢
    split
    · exact ⟨same, Nat.le_trans load (by omega)⟩
    · exact affords_fail (by simp)

theorem Act.cost_le_one (act : Act) : act.cost ≤ 1 := by
  cases act <;> simp [cost]

theorem Deed.Retains.cost_eq {goal : Goal} {d : Deed} (h : d.Retains goal) : d.act.cost = 0 := by
  cases h with
  | name _ act => obtain rfl | ⟨marker, rfl⟩ := act <;> rfl
  | group => rfl
  | control => rfl

namespace Config

/-- The nodes there are, and those that may still come. -/
def need (c : Config) : Nat := c.work.load + c.unread

end Config

def Next.Bears (limit bound : Nat) : Next → Prop
  | .move d => d.work.arena.limit = limit ∧ d.need ≤ bound
  | .done _ _ => True

namespace Config

abbrev Spends (c : Config) (r : Attempt Next) : Prop :=
  Affords c.work.arena.limit c.need r (Next.Bears c.work.arena.limit c.need)

variable {c e : Config} {d : Deed}

theorem bears_work (c : Config) : c.work.Bears c.work.arena.limit c.work.load := ⟨rfl, Nat.le_refl _⟩

/-- A token that is used up pays for one more node. -/
theorem spends_consume (takes : d.Takes c.token.tag) (work : e.work = c.work)
    (rest : e.scanner.rest.length ≤ c.scanner.rest.length) :
    c.Spends (d.run e Config.consume) := by
  have ahead : c.unread = c.scanner.rest.length + 1 := by simp [unread, takes.found]
  have cost := d.act.cost_le_one
  have enough : c.work.load + d.act.cost ≤ c.need := by
    unfold need
    omega
  unfold Deed.run
  rw [work]
  apply ((d.act.run_affords c.bears_work e.token).mono enough).bind
  rintro w ⟨same, load⟩
  refine ⟨same, ?_⟩
  have read := unread_consume_le (d.apply e w) d.goal
  have behind : (d.apply e w).scanner.rest.length ≤ c.scanner.rest.length := rest
  have load : ((d.apply e w).consume d.goal).work.load ≤ c.work.load + d.act.cost := load
  unfold need
  omega

theorem spends_redo (retains : d.Retains c.goal) (grid : Grid) :
    c.Spends (d.run { c with grid } Config.redo) := by
  have acted := (d.act.run_affords c.bears_work c.token).mono (Nat.le_add_right _ c.unread)
  rw [retains.cost_eq, Nat.add_zero] at acted
  apply acted.bind
  rintro w ⟨same, load⟩
  exact ⟨same, Nat.add_le_add_right load _⟩

theorem spends_leave (c : Config) (grid : Grid) : c.Spends (leave { c with grid }) := by
  apply ((Assembly.settleScope_affords c.bears_work).mono (Nat.le_add_right _ _)).bind
  intro w h
  cases frames : c.frames with
  | nil => exact affords_fail (by simp)
  | cons f rest => exact ⟨h.1, Nat.add_le_add_right h.2 _⟩

theorem spends_sight {s : Sight} (fits : s.Fits c.goal c.token.tag) (grid : Grid) :
    c.Spends (s.run { c with grid }) := by
  cases fits with
  | refuse => exact affords_fail (by simp)
  | read takes => exact spends_consume takes rfl (Nat.le_refl _)
  | pass takes => exact spends_consume takes rfl c.scanner.rest_next_le

theorem spends_run {ch : Choice} (fits : ch.Fits c.goal c.token.tag) (grid : Grid) :
    c.Spends (ch.run { c with grid }) := by
  cases fits with
  | @refuse why =>
    apply affords_fail
    cases why <;> simp [Reason.error]
  | finish =>
    simp only [Choice.run, finish]
    split
    · trivial
    · exact affords_fail (by simp)
  | leave => exact spends_leave c grid
  | keep retains => exact spends_redo retains grid
  | read takes => exact spends_consume takes rfl (Nat.le_refl _)
  | look _ _ found other =>
    simp only [Choice.run]
    split
    · exact spends_sight found grid
    · exact spends_sight other grid

/-- No step adds to what is needed, and it lacks room only if more is needed than there may be. -/
theorem step_spends (c : Config) : c.Spends c.step := by
  rw [step_eq]
  exact spends_run (c := c.noted) c.noted.choice_fits _

theorem run_affords (c : Config) :
    Affords c.work.arena.limit c.need c.run fun _ => True := by
  induction c using run.induct with
  | case1 c d moved ih =>
    have spends := c.step_spends
    rw [moved] at spends
    obtain ⟨same, less⟩ := spends
    rw [run_of_move moved, ← same]
    exact ih.mono less
  | case2 c root d finished =>
    rw [run_of_done finished]
    trivial
  | case3 c fault failed =>
    have spends := c.step_spends
    rw [failed] at spends
    rw [run_of_error failed]
    exact spends

end Config

theorem Config.ofSource_affords (a : Arena) (s : Source) :
    Affords a.limit (a.size + s.length) (Config.ofSource a s) fun start =>
      ∀ c ∈ start, c.work.arena.limit = a.limit ∧ c.need ≤ a.size + s.length := by
  unfold ofSource
  dsimp only
  split
  · simp [Affords]
  · rintro _ ⟨⟩
    refine ⟨rfl, Nat.add_le_add_left ?_ a.size⟩
    exact Nat.le_trans (Scanner.rest_next_add_le _) (Scanner.rest_nextFrom_le _ .lineStart)
  · exact affords_fail (by simp)

theorem Assembly.parse_affords (a : Arena) (s : Source) :
    Affords a.limit (a.size + s.length) (Assembly.parse a s) fun _ => True := by
  refine (Config.ofSource_affords a s).bind ?_
  intro start need
  cases start with
  | none => trivial
  | some c =>
    obtain ⟨same, less⟩ := need c rfl
    have ran := c.run_affords.mono less
    rw [same] at ran
    exact ran.bind fun _ _ => trivial

theorem Source.room_empty {s : Source} (h : s.length < capacity + lineBytes) :
    Arena.empty.size + s.length ≤ Arena.empty.limit :=
  calc Arena.empty.size + s.length = s.length := Nat.zero_add _
    _ ≤ capacity + lineBytes - 1 := Nat.le_sub_one_of_lt h
    _ ≤ Arena.empty.limit := by decide

/-- With room for one node per byte, no parse runs out of it. -/
theorem Source.parse_ne_outOfMemory (s : Source) (a : Arena)
    (room : a.size + s.length ≤ a.limit) : (s.parse a).outcome ≠ .error .outOfMemory := by
  have affords := Assembly.parse_affords a s
  unfold Source.parse
  cases parsed : Assembly.parse a s with
  | ok r => exact nofun
  | error fault =>
    rw [parsed] at affords
    intro full
    exact absurd (affords (Except.error.inj full)) (Nat.not_lt.mpr room)

end Offside
