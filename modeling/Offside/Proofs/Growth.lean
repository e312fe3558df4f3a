import Offside.Proofs.Soundness

/-! What a parse can do to its arena: make a node, or put a child into one. Whatever survives these
two survives every step and every run, whether it ends with a tree or with an error. -/
namespace Offside

structure Arena.Stable (P : Arena → Prop) : Prop where
  made : ∀ {a b : Arena} {id : NodeId} (tag : NodeTag) (token : Option Token) (ids : List NodeId),
    a.createWith? tag token ids = some (id, b) → P a → P b
  attached : ∀ {a : Arena} (parent child : NodeId), P a → P (a.attach parent child)

/- The arena of a result, or the one that a failure leaves behind, has the property. -/
def Keeps {α : Type} (P : Arena → Prop) (arena : α → Arena) : Attempt α → Prop
  | .ok x => P (arena x)
  | .error fault => P fault.work.arena

section Keeps

variable {α β : Type} {P : Arena → Prop} {arena : α → Arena} {arena' : β → Arena}

theorem Keeps.bind {r : Attempt α} {f : α → Attempt β} (h : Keeps P arena r)
    (next : ∀ x, P (arena x) → Keeps P arena' (f x)) : Keeps P arena' (r >>= f) := by
  cases r with
  | ok x => exact next x h
  | error fault => exact h

theorem keeps_fail {w : Assembly} (h : P w.arena) (e : ParseError) :
    Keeps P arena (w.fail e) := h

end Keeps

variable {P : Arena → Prop}

namespace Assembly

variable {w : Assembly} {near : Token}

theorem build_keeps (stable : Arena.Stable P) (h : P w.arena) (tag : NodeTag)
    (token : Option Token) (children : List Operand) :
    Keeps P Assembly.arena (w.build tag token children) := by
  unfold build
  split
  · rename_i made
    exact stable.made _ _ _ made h
  · exact keeps_fail h _

theorem apply_keeps (stable : Arena.Stable P) (h : P w.arena) (op : Pending) :
    Keeps P Assembly.arena (w.apply op near) := by
  have built : ∀ operands tag token children,
      Keeps P Assembly.arena ({ w with operands }.build tag token children) := by
    intro operands tag token children
    apply build_keeps stable
    exact h
  unfold apply
  split
  · exact built _ _ _ _
  · exact built _ _ _ _
  · split
    · exact stable.attached _ _ h
    · exact built _ _ _ _
  · exact keeps_fail h _

theorem reduce_keeps (stable : Arena.Stable P) (h : P w.arena) :
    Keeps P Assembly.arena (w.reduce near) := by
  unfold reduce
  split
  · exact keeps_fail h _
  · apply apply_keeps stable
    exact h

theorem reduceTimes_keeps (stable : Arena.Stable P) (h : P w.arena) (count : Nat) :
    Keeps P Assembly.arena (reduceTimes near count w) := by
  induction count generalizing w with
  | zero => exact h
  | succ count ih => exact (reduce_keeps stable h).bind fun _ h' => ih h'

theorem binary_keeps (stable : Arena.Stable P) (h : P w.arena) (tag : NodeTag)
    (token : Option Token) : Keeps P Assembly.arena (w.binary tag token near) :=
  (reduceTimes_keeps stable h _).bind fun _ h' => h'

theorem settleScope_keeps (stable : Arena.Stable P) (h : P w.arena) :
    Keeps P Assembly.arena (w.settleScope near) := reduceTimes_keeps stable h _

theorem takeScope_keeps (h : P w.arena) (marker : NodeTag) :
    Keeps P (fun r => r.2.2.arena) (w.takeScope marker near) := by
  unfold takeScope
  split
  · exact keeps_fail h _
  · split
    · exact h
    · exact keeps_fail h _

theorem wrap_keeps (stable : Arena.Stable P) (h : P w.arena) (marker tag : NodeTag) :
    Keeps P Assembly.arena (w.wrap marker tag near) := by
  refine (takeScope_keeps h marker).bind fun r h' => ?_
  dsimp only
  split
  · exact build_keeps stable h' _ _ _
  · exact keeps_fail h' _

theorem complete_keeps (stable : Arena.Stable P) (h : P w.arena) (marker : NodeTag) :
    Keeps P Assembly.arena (w.complete marker near) :=
  (takeScope_keeps h marker).bind fun _ h' => build_keeps stable h' _ _ _

end Assembly

def Next.arena : Next → Arena
  | .move c | .done _ c => c.work.arena

theorem Act.run_keeps (stable : Arena.Stable P) {w : Assembly} (h : P w.arena) (near : Token)
    (act : Act) : Keeps P Assembly.arena (act.run near w) := by
  cases act with
  | idle => exact h
  | push => exact h
  | build tag keeps => exact Assembly.build_keeps stable h tag _ _
  | binary tag keeps => exact Assembly.binary_keeps stable h tag _
  | wrap marker tag => exact Assembly.wrap_keeps stable h marker tag
  | define marker =>
    apply (Assembly.wrap_keeps stable h marker .value).bind
    intro v h'
    exact Assembly.complete_keeps stable h' .nameDef
  | complete marker => exact Assembly.complete_keeps stable h marker
  | group =>
    apply (Assembly.takeScope_keeps h .group).bind
    intro r h'
    dsimp only
    split <;> exact h'

namespace Config

def arena (c : Config) : Arena := c.work.arena

variable {c : Config}

theorem deed_keeps (stable : Arena.Stable P) (h : P c.arena) (d : Deed)
    {go : Config → Goal → Config} (same : ∀ e goal, (go e goal).work = e.work) :
    Keeps P Next.arena (d.run c go) := by
  apply (Act.run_keeps stable h c.token d.act).bind
  intro w h'
  have kept : P (go (d.apply c w) d.goal).work.arena := by
    rw [same]
    exact h'
  exact kept

theorem sight_keeps (stable : Arena.Stable P) (h : P c.arena) (s : Sight) :
    Keeps P Next.arena (s.run c) := by
  cases s with
  | refuse => exact h
  | read d => exact deed_keeps stable h d fun _ _ => rfl
  | pass d => exact deed_keeps (c := c.dropToken) stable h d fun _ _ => rfl

theorem choice_keeps (stable : Arena.Stable P) (h : P c.arena) (ch : Choice) :
    Keeps P Next.arena (ch.run c) := by
  cases ch with
  | refuse why => exact h
  | finish =>
    simp only [Choice.run, finish]
    split <;> exact h
  | leave =>
    apply (Assembly.settleScope_keeps stable h).bind
    intro w h'
    split <;> exact h'
  | keep d => exact deed_keeps stable h d fun _ _ => rfl
  | read d => exact deed_keeps stable h d fun _ _ => rfl
  | look tag found other =>
    simp only [Choice.run]
    split
    · exact sight_keeps stable h found
    · exact sight_keeps stable h other

theorem step_keeps (stable : Arena.Stable P) (h : P c.arena) : Keeps P Next.arena c.step := by
  rw [step_eq]
  apply choice_keeps stable
  exact h

theorem run_keeps (stable : Arena.Stable P) (h : P c.arena) :
    Keeps P (fun r => r.2.arena) c.run := by
  induction c using run.induct with
  | case1 c d moved ih =>
    have kept := step_keeps stable h
    rw [moved] at kept
    rw [run_of_move moved]
    exact ih kept
  | case2 c root d finished =>
    have kept := step_keeps stable h
    rw [finished] at kept
    rw [run_of_done finished]
    exact kept
  | case3 c fault failed =>
    have kept := step_keeps stable h
    rw [failed] at kept
    rw [run_of_error failed]
    exact kept

end Config

namespace Arena

def room (a : Arena) : Nat := a.limit - a.size

/- An arena that took in nodes as long as it had room. -/
def Fills (a b : Arena) : Prop := b.limit = a.limit ∧ b.size ≤ a.size + a.room

theorem fills_stable (a : Arena) : Stable a.Fills where
  made := by
    intro b c id tag token ids made h
    rw [createWith?_eq] at made
    split at made
    · cases made
      obtain ⟨limit, size⟩ := h
      refine ⟨limit, ?_⟩
      simp only [room, Arena.size, Array.size_push] at *
      omega
    · cases made
  attached := by
    intro b parent child h
    simpa [Fills, Arena.size, Arena.attach] using h

end Arena

/-- A parse makes no more nodes than the arena has room for. -/
theorem Source.parse_size_le (s : Source) (a : Arena) :
    (s.parse a).arena.size ≤ a.size + a.room := by
  cases start : Config.ofSource a s with
  | error f =>
    rw [(parse_broken start).2, Config.ofSource_error start]
    exact Nat.le_add_right _ _
  | ok c? =>
    cases c? with
    | none =>
      rw [(parse_blank start).2]
      exact Nat.le_add_right _ _
    | some c =>
      obtain ⟨-, -, -, -, -, -, -, -, arena⟩ := Config.ofSource_some start
      have begun : a.Fills c.arena := by
        rw [Config.arena, arena]
        exact ⟨rfl, Nat.le_add_right _ _⟩
      have kept := Config.run_keeps a.fills_stable begun
      cases ran : c.run with
      | error f =>
        rw [ran] at kept
        rw [(parse_error start ran).2]
        exact kept.2
      | ok r =>
        rw [ran] at kept
        rw [(parse_ok start ran).2]
        exact kept.2

end Offside
