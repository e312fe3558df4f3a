import Offside.Proofs.Shown

/-! How wide the levels of a text are does not matter: the same lines on another grid are parsed to the
same tree, or fail on the same line. -/
namespace Offside

structure Line where
  level : Nat
  content : List Byte
  nonempty : content ≠ []
  unbroken : Byte.lineFeed ∉ content
  flush : content.head? ≠ some Byte.space

namespace Layout

variable (lay lay' : Layout)

def line (l : Line) : List Byte := margin (lay.width l.level) ++ l.content

/-- The lines of a text, each with the margin of its level. -/
def text (ls : List Line) : Source := ⟨List.intercalate [Byte.lineFeed] (ls.map lay.line)⟩

def tail : List Line → List Byte
  | [] => []
  | l :: ls => Byte.lineFeed :: (lay.text (l :: ls)).bytes

theorem text_cons (l : Line) (ls : List Line) :
    (lay.text (l :: ls)).bytes = margin (lay.width l.level) ++ (l.content ++ lay.tail ls) := by
  cases ls with
  | nil => simp [text, tail, line]
  | cons m ls => simp [text, tail, line, List.intercalate_cons_cons]

theorem count_margin (w : Nat) : (margin w).count Byte.lineFeed = 0 :=
  List.count_eq_zero.mpr fun member => absurd (List.eq_of_mem_replicate member) (by decide)

theorem count_tail (ls : List Line) : (lay.tail ls).count Byte.lineFeed = ls.length := by
  induction ls with
  | nil => rfl
  | cons l ls ih =>
    have content := List.count_eq_zero.mpr l.unbroken
    rw [tail, text_cons, List.count_cons_self, List.count_append, List.count_append, count_margin,
      content, ih, List.length_cons]
    omega

theorem count_text (ls : List Line) :
    (lay.text ls).bytes.count Byte.lineFeed = (lay'.text ls).bytes.count Byte.lineFeed := by
  cases ls with
  | nil => rfl
  | cons l ls =>
    have left := lay.count_tail (l :: ls)
    have right := lay'.count_tail (l :: ls)
    rw [tail, List.count_cons_self] at left right
    omega

/- At the same place both texts have the same number of lines before them. -/
def reindent : Relayout where
  left := lay
  right := lay'
  meets x x' := x.count Byte.lineFeed = x'.count Byte.lineFeed

variable {lay lay'}

theorem relaid_append {c x x' : List Byte} (unbroken : Byte.lineFeed ∉ c)
    (h : (lay.reindent lay').Relaid .inside x x')
    (meets : x.count Byte.lineFeed = x'.count Byte.lineFeed) :
    (lay.reindent lay').Relaid .inside (c ++ x) (c ++ x') := by
  induction c with
  | nil => exact h
  | cons b c ih =>
    simp only [List.mem_cons, not_or] at unbroken
    refine .byte (Ne.symm unbroken.1) ?_ (ih unbroken.2)
    show (b :: (c ++ x)).count _ = (b :: (c ++ x')).count _
    simp only [List.count_cons, List.count_append, meets]

/- A line is blank only if it is a carriage return with a line feed behind it. -/
theorem opens_line (lay : Layout) (l : Line) {ls : List Line}
    (seen : l.content = [Byte.carriageReturn] → ls = []) : Opens (l.content ++ lay.tail ls) := by
  obtain ⟨level, content, nonempty, unbroken, flush⟩ := l
  obtain - | ⟨b, c⟩ := content
  · exact absurd rfl nonempty
  · simp only [List.mem_cons, not_or] at unbroken
    refine ⟨fun space => flush (congrArg some space), Ne.symm unbroken.1, ?_⟩
    rintro ⟨rfl, feed⟩
    obtain - | ⟨d, c⟩ := c
    · rw [seen rfl] at feed
      cases feed
    · exact unbroken.2 (Option.some.inj feed ▸ List.mem_cons_self)

theorem relaid_line (l : Line) {ls : List Line}
    (more : (lay.reindent lay').Relaid (.margin 0 0) (lay.text ls).bytes (lay'.text ls).bytes) :
    (lay.reindent lay').Relaid (.margin 0 0) (lay.text (l :: ls)).bytes
      (lay'.text (l :: ls)).bytes := by
  have meets : (lay.tail ls).count Byte.lineFeed = (lay'.tail ls).count Byte.lineFeed := by
    rw [count_tail, count_tail]
  have inside : (lay.reindent lay').Relaid .inside (lay.tail ls) (lay'.tail ls) := by
    cases ls with
    | nil => exact .done rfl
    | cons m ls => exact .feed .feed .feed more
  rw [text_cons, text_cons]
  refine .margins ?_
  rw [Nat.zero_add, Nat.zero_add]
  by_cases seen : l.content = [Byte.carriageReturn] → ls = []
  · refine .line ?_ ⟨l.level, rfl, rfl⟩ (lay.opens_line l seen) (lay'.opens_line l seen)
      (relaid_append l.unbroken inside meets)
    show List.count _ _ = List.count _ _
    simp only [List.count_append, count_margin, meets]
  · obtain ⟨blank, others⟩ := Classical.not_imp.mp seen
    obtain ⟨m, ls, rfl⟩ := List.exists_cons_of_ne_nil others
    rw [blank]
    show Relayout.Relaid _ _ ([Byte.carriageReturn, Byte.lineFeed] ++ (lay.text (m :: ls)).bytes)
      ([Byte.carriageReturn, Byte.lineFeed] ++ (lay'.text (m :: ls)).bytes)
    exact .blankLeft .returned (.blankRight .returned more)

theorem relaid_text (ls : List Line) :
    (lay.reindent lay').Relaid (.margin 0 0) (lay.text ls).bytes (lay'.text ls).bytes := by
  induction ls with
  | nil => exact .done rfl
  | cons l ls ih => exact relaid_line l ih

end Layout

def Source.lineAt (s : Source) (offset : Nat) : Nat := (s.locate offset).line

theorem Layout.lineAt_eq {lay lay' : Layout} {ls : List Line} {i i' : Nat}
    (h : (lay.reindent lay').Places (lay.text ls) (lay'.text ls) i i') :
    (lay.text ls).lineAt i = (lay'.text ls).lineAt i' := by
  obtain ⟨front, front', rest, rest', bytes, bytes', rfl, rfl, meets⟩ := h
  have meets : rest.count Byte.lineFeed = rest'.count Byte.lineFeed := meets
  have total := lay.count_text lay' ls
  simp only [Source.lineAt, Source.locate, bytes, bytes', List.take_left]
  rw [bytes, bytes', List.count_append, List.count_append] at total
  omega

/-- The same lines in two layouts: the parses show the same nodes and the same root, or that there is
none, or the same error with the same kind of token on the same line. -/
theorem Source.parse_reindented (ls : List Line) (lay lay' : Layout) (a : Arena) :
    (lay.text ls).shown a (lay.text ls).lineAt = (lay'.text ls).shown a (lay'.text ls).lineAt :=
  Relayout.shown_eq_of_relaid a (Layout.relaid_text ls) fun _ _ => Layout.lineAt_eq

theorem Source.shown_ofBytes_text (ls : List Line) (lay lay' : Layout) (a : Arena)
    (fits : (lay.text ls).bytes.length ≤ capacity) (fits' : (lay'.text ls).bytes.length ≤ capacity) :
    (ofBytes (lay.text ls).bytes).shown a (lay.text ls).lineAt =
      (ofBytes (lay'.text ls).bytes).shown a (lay'.text ls).lineAt := by
  rw [ofBytes_eq fits, ofBytes_eq fits']
  exact Relayout.shown_eq_of_relaid a (Layout.relaid_text ls) fun _ _ => Layout.lineAt_eq

end Offside
