import Mathlib.Data.List.Infix
import Offside.Text.Utf8

/-! Encoded text. Its bytes are read back as the text, and they tell where its characters begin: at the
bytes that continue no character. -/
namespace Offside.Utf8

def encoded (text : List Char) : List Byte := text.flatMap String.utf8EncodeChar

theorem encoded_cons (c : Char) (text : List Char) :
    encoded (c :: text) = String.utf8EncodeChar c ++ encoded text := List.flatMap_cons

theorem encoded_append (front back : List Char) :
    encoded (front ++ back) = encoded front ++ encoded back := List.flatMap_append

section Decoding

theorem lead_one : ∀ n < 0x80, lead (UInt8.ofNat n) = .char (Char.ofNat n) := by
  decide +kernel

theorem lead_two : ∀ n < 0x20, 2 ≤ n →
    lead (UInt8.ofNat (n + 0xC0)) = .pending ⟨0, 0x80, 0xBF, n⟩ := by
  decide

theorem lead_three : ∀ n < 0x10, lead (UInt8.ofNat (n + 0xE0)) =
    .pending ⟨1, if n = 0 then 0xA0 else 0x80, if n = 0xD then 0x9F else 0xBF, n⟩ := by
  decide

theorem lead_four : ∀ n < 5, lead (UInt8.ofNat (n + 0xF0)) =
    .pending ⟨2, if n = 0 then 0x90 else 0x80, if n = 4 then 0x8F else 0xBF, n⟩ := by
  decide

section Tails

variable {n : Nat} (small : n < 0x40)
include small

theorem toNat_tail : (UInt8.ofNat (n + 0x80)).toNat = n + 0x80 :=
  UInt8.toNat_ofNat_of_lt' (Nat.lt_trans (Nat.add_lt_add_right small 0x80) (by decide))

omit small in
theorem tail_above : (0x80 : Byte).toNat ≤ n + 0x80 := Nat.le_add_left 0x80 n

theorem tail_below : n + 0x80 ≤ (0xBF : Byte).toNat := Nat.le_of_lt_succ (Nat.add_lt_add_right small _)

variable {low high : Byte}

theorem within_tail (above : low.toNat ≤ n + 0x80) (below : n + 0x80 ≤ high.toNat) :
    Byte.within low high (UInt8.ofNat (n + 0x80)) = true := by
  simp only [Byte.within, Bool.and_eq_true, decide_eq_true_iff, UInt8.le_iff_toNat_le,
    toNat_tail small]
  exact ⟨above, below⟩

theorem decodeFrom_more (more value : Nat) (rest : List Byte) (above : low.toNat ≤ n + 0x80)
    (below : n + 0x80 ≤ high.toNat) :
    decodeFrom (some ⟨more + 1, low, high, value⟩) (UInt8.ofNat (n + 0x80) :: rest) =
      decodeFrom (some ⟨more, 0x80, 0xBF, value * 0x40 + n⟩) rest := by
  simp only [decodeFrom, within_tail small above below, Pending.extend, toNat_tail small,
    Nat.add_sub_cancel, ↓reduceIte]

theorem decodeFrom_last (value : Nat) (rest : List Byte) (above : low.toNat ≤ n + 0x80)
    (below : n + 0x80 ≤ high.toNat) :
    decodeFrom (some ⟨0, low, high, value⟩) (UInt8.ofNat (n + 0x80) :: rest) =
      Char.ofNat (value * 0x40 + n) :: decodeFrom none rest := by
  simp only [decodeFrom, within_tail small above below, Pending.extend, toNat_tail small,
    Nat.add_sub_cancel, ↓reduceIte]

theorem decodeFrom_second {narrow narrow' : Prop} [Decidable narrow] [Decidable narrow']
    (more value : Nat) (rest : List Byte) (above : narrow → low.toNat ≤ n + 0x80)
    (below : narrow' → n + 0x80 ≤ high.toNat) :
    decodeFrom (some ⟨more + 1, if narrow then low else 0x80, if narrow' then high else 0xBF, value⟩)
        (UInt8.ofNat (n + 0x80) :: rest) =
      decodeFrom (some ⟨more, 0x80, 0xBF, value * 0x40 + n⟩) rest := by
  apply decodeFrom_more small
  · split
    · exact above ‹narrow›
    · exact tail_above
  · split
    · exact below ‹narrow'›
    · exact tail_below small

end Tails

section Lengths

variable {a b c d : Nat} (rest : List Byte)

theorem decodeFrom_two (ha : a < 0x20) (hb : b < 0x40) (long : 2 ≤ a) :
    decodeFrom none (UInt8.ofNat (a + 0xC0) :: UInt8.ofNat (b + 0x80) :: rest) =
      Char.ofNat (a * 0x40 + b) :: decodeFrom none rest := by
  calc decodeFrom none _
      = decodeFrom (some ⟨0, 0x80, 0xBF, a⟩) _ := by rw [decodeFrom, lead_two a ha long]
    _ = _ := decodeFrom_last hb _ _ tail_above (tail_below hb)

/-- A form that is not too long has a high second byte after the least first one, and one that is no
surrogate a low second byte after the last but two. -/
theorem decodeFrom_three (ha : a < 0x10) (hb : b < 0x40) (hc : c < 0x40) (long : a = 0 → 0x20 ≤ b)
    (plain : a = 0xD → b < 0x20) :
    decodeFrom none
        (UInt8.ofNat (a + 0xE0) :: UInt8.ofNat (b + 0x80) :: UInt8.ofNat (c + 0x80) :: rest) =
      Char.ofNat ((a * 0x40 + b) * 0x40 + c) :: decodeFrom none rest := by
  have above : a = 0 → (0xA0 : Byte).toNat ≤ b + 0x80 :=
    fun least => Nat.add_le_add_right (long least) 0x80
  have below : a = 0xD → b + 0x80 ≤ (0x9F : Byte).toNat :=
    fun surrogate => Nat.le_of_lt_succ (Nat.add_lt_add_right (plain surrogate) 0x80)
  calc decodeFrom none _
      = decodeFrom (some ⟨1, _, _, a⟩) _ := by rw [decodeFrom, lead_three a ha]
    _ = decodeFrom (some ⟨0, 0x80, 0xBF, a * 0x40 + b⟩) _ := decodeFrom_second hb _ _ _ above below
    _ = _ := decodeFrom_last hc _ _ tail_above (tail_below hc)

theorem decodeFrom_four (ha : a < 5) (hb : b < 0x40) (hc : c < 0x40) (hd : d < 0x40)
    (long : a = 0 → 0x10 ≤ b) (inside : a = 4 → b < 0x10) :
    decodeFrom none
        (UInt8.ofNat (a + 0xF0) :: UInt8.ofNat (b + 0x80) :: UInt8.ofNat (c + 0x80) ::
          UInt8.ofNat (d + 0x80) :: rest) =
      Char.ofNat (((a * 0x40 + b) * 0x40 + c) * 0x40 + d) :: decodeFrom none rest := by
  have above : a = 0 → (0x90 : Byte).toNat ≤ b + 0x80 :=
    fun least => Nat.add_le_add_right (long least) 0x80
  have below : a = 4 → b + 0x80 ≤ (0x8F : Byte).toNat :=
    fun last => Nat.le_of_lt_succ (Nat.add_lt_add_right (inside last) 0x80)
  calc decodeFrom none _
      = decodeFrom (some ⟨2, _, _, a⟩) _ := by rw [decodeFrom, lead_four a ha]
    _ = decodeFrom (some ⟨1, 0x80, 0xBF, a * 0x40 + b⟩) _ := decodeFrom_second hb _ _ _ above below
    _ = decodeFrom (some ⟨0, 0x80, 0xBF, (a * 0x40 + b) * 0x40 + c⟩) _ :=
      decodeFrom_more hc _ _ _ tail_above (tail_below hc)
    _ = _ := decodeFrom_last hd _ _ tail_above (tail_below hd)

end Lengths

theorem decodeFrom_char (c : Char) (rest : List Byte) :
    decodeFrom none (String.utf8EncodeChar c ++ rest) = c :: decodeFrom none rest := by
  -- A code point is no surrogate, and the bytes hold all of its bits.
  have valid : c.toNat < 0xD800 ∨ 0xDFFF < c.toNat ∧ c.toNat < 0x110000 := c.valid
  have self : Char.ofNat c.toNat = c := Char.ofNat_toNat c
  have value : c.val.toNat = c.toNat := rfl
  rw [String.utf8EncodeChar, value]
  generalize c.toNat = v at valid self
  split
  · rename_i one
    rw [List.cons_append, List.nil_append, decodeFrom, lead_one v (by omega)]
    exact congrArg (· :: _) self
  split
  · rename_i two
    have whole : v / 64 % 32 * 64 + v % 64 = v := by omega
    apply (decodeFrom_two rest (by omega) (by omega) (by omega)).trans
    rw [whole, self]
  split
  · rename_i three
    have whole : (v / 4096 % 16 * 64 + v / 64 % 64) * 64 + v % 64 = v := by omega
    apply (decodeFrom_three rest (by omega) (by omega) (by omega) (by omega) (by omega)).trans
    rw [whole, self]
  · have whole : ((v / 262144 % 8 * 64 + v / 4096 % 64) * 64 + v / 64 % 64) * 64 + v % 64 = v := by
      omega
    apply (decodeFrom_four rest (by omega) (by omega) (by omega) (by omega) (by omega)
      (by omega)).trans
    rw [whole, self]

theorem decode_encoded (text : List Char) : decode (encoded text) = text := by
  induction text with
  | nil => rfl
  | cons c text ih =>
    rw [encoded_cons, decode, decodeFrom_char]
    exact congrArg _ ih

theorem encoded_inj {text text' : List Char} (same : encoded text = encoded text') : text = text' := by
  rw [← decode_encoded text, same, decode_encoded]

end Decoding

section Boundaries

theorem first_alone : ∀ n < 0x80, Byte.isContinuation (UInt8.ofNat n) = false := by
  decide

theorem first_of_more : ∀ n < 0x40, Byte.isContinuation (UInt8.ofNat (n + 0xC0)) = false ∧
    ¬UInt8.ofNat (n + 0xC0) < 0x80 := by
  decide

theorem tail_continues (n : Nat) : Byte.isContinuation (UInt8.ofNat (n % 0x40 + 0x80)) = true := by
  have small : n % 0x40 < 0x40 := Nat.mod_lt _ (by decide)
  exact within_tail small tail_above (tail_below small)

theorem char_bytes (c : Char) : ∃ b tail, String.utf8EncodeChar c = b :: tail ∧
    Byte.isContinuation b = false ∧ (∀ d ∈ tail, Byte.isContinuation d = true) ∧
      (b < 0x80 → tail = []) := by
  have more : ∀ n < 0x40, ∀ tail : List Byte, (∀ d ∈ tail, Byte.isContinuation d = true) →
      ∃ b tail', UInt8.ofNat (n + 0xC0) :: tail = b :: tail' ∧ Byte.isContinuation b = false ∧
        (∀ d ∈ tail', Byte.isContinuation d = true) ∧ (b < 0x80 → tail' = []) := by
    intro n small tail continues
    obtain ⟨first, high⟩ := first_of_more n small
    exact ⟨_, tail, rfl, first, continues, fun low => absurd low high⟩
  have continues : ∀ ns : List Nat, ∀ d ∈ ns.map fun n => UInt8.ofNat (n % 0x40 + 0x80),
      Byte.isContinuation d = true := by
    intro ns d member
    obtain ⟨n, -, rfl⟩ := List.mem_map.mp member
    exact tail_continues n
  rw [String.utf8EncodeChar]
  generalize c.val.toNat = v
  split
  · rename_i one
    exact ⟨_, [], rfl, first_alone v (Nat.lt_succ_of_le one), nofun, fun _ => rfl⟩
  split
  · exact more (v / 64 % 32) (by omega) _ (continues [v])
  split
  · exact more (v / 4096 % 16 + 0x20) (by omega) _ (continues [v / 64, v])
  · exact more (v / 262144 % 8 + 0x30) (by omega) _ (continues [v / 4096, v / 64, v])

/-- A text can be divided before every byte of it that continues no character. -/
theorem encoded_split {text : List Char} {x rest : List Byte} {b : Byte}
    (whole : encoded text = x ++ b :: rest) (first : Byte.isContinuation b = false) :
    ∃ front back, text = front ++ back ∧ encoded front = x ∧ encoded back = b :: rest := by
  induction text generalizing x with
  | nil => exact absurd whole.symm (List.append_ne_nil_of_right_ne_nil _ (List.cons_ne_nil _ _))
  | cons c text ih =>
    obtain ⟨d, tail, bytes, -, continues, -⟩ := char_bytes c
    cases x with
    | nil => exact ⟨[], c :: text, rfl, rfl, whole⟩
    | cons e x =>
      rw [encoded_cons, bytes] at whole
      obtain rfl : d = e := (List.cons.inj whole).1
      have behind_first : tail ++ encoded text = x ++ b :: rest := (List.cons.inj whole).2
      rcases List.append_eq_append_iff.mp behind_first with ⟨m, rfl, behind⟩ | ⟨m, rfl, behind⟩
      · obtain ⟨front, back, rfl, encoded_front, encoded_back⟩ := ih behind
        refine ⟨c :: front, back, rfl, ?_, encoded_back⟩
        rw [encoded_cons, bytes, encoded_front]
        rfl
      · cases m with
        | nil =>
          refine ⟨[c], text, rfl, ?_, behind.symm⟩
          rw [encoded_cons, bytes, List.append_nil]
          exact List.append_nil _
        | cons d m =>
          obtain ⟨rfl, -⟩ := List.cons.inj behind
          have inside := continues b (List.mem_append_right _ List.mem_cons_self)
          cases first.symm.trans inside

/-- A place in encoded text between two characters, or at one of its ends. -/
def Boundary (bytes : List Byte) (place : Nat) : Prop :=
  ∃ front back, bytes = encoded (front ++ back) ∧ (encoded front).length = place

theorem Boundary.start {bytes : List Byte} (valid : Valid bytes) : Boundary bytes 0 := by
  obtain ⟨text, whole⟩ := valid
  exact ⟨[], text, whole, rfl⟩

/-- The places that stand before no continuation byte are the ones between characters. -/
theorem boundary_iff {bytes : List Byte} {place : Nat} (valid : Valid bytes)
    (inside : place ≤ bytes.length) :
    Boundary bytes place ↔ ∀ b ∈ bytes[place]?, Byte.isContinuation b = false := by
  constructor
  · rintro ⟨front, back, rfl, rfl⟩ b found
    rw [encoded_append, List.getElem?_append_right (Nat.le_refl _), Nat.sub_self] at found
    cases back with
    | nil => cases found
    | cons c back =>
      obtain ⟨d, tail, bytes, first, -⟩ := char_bytes c
      rw [encoded_cons, bytes] at found
      obtain rfl : d = b := Option.some.inj found
      exact first
  · intro first
    obtain ⟨text, whole⟩ := valid
    have whole : bytes = encoded text := whole
    rcases Nat.lt_or_eq_of_le inside with within | rfl
    · have cut : encoded text = bytes.take place ++ bytes[place] :: bytes.drop (place + 1) := by
        rw [← whole, List.getElem_cons_drop, List.take_append_drop]
      obtain ⟨front, back, rfl, encoded_front, -⟩ :=
        encoded_split cut (first _ (List.getElem?_eq_getElem within))
      refine ⟨front, back, whole, ?_⟩
      rw [encoded_front, List.length_take, Nat.min_eq_left inside]
    · exact ⟨text, [], by rw [List.append_nil, whole], by rw [whole]⟩

def Framed (bytes : List Byte) : Prop :=
  (∃ b rest, bytes = b :: rest ∧ b < 0x80) ∧ ∃ front b, bytes = front ++ [b] ∧ b < 0x80

theorem first_of_ascii {b : Byte} (ascii : b < 0x80) : Byte.isContinuation b = false := by
  have read : UInt8.ofNat b.toNat = b := UInt8.ofNat_toNat
  rw [← read]
  exact first_alone b.toNat ascii

theorem encoded_part {text : List Char} {x part z : List Byte}
    (whole : encoded text = x ++ part ++ z) (framed : Framed part) :
    ∃ front run back, text = front ++ run ++ back ∧ encoded front = x ∧ encoded run = part := by
  obtain ⟨⟨b, rest, first, ascii⟩, init, l, last, ascii'⟩ := framed
  -- The last byte is a character of its own, so the text can be divided behind it.
  have at_last : encoded text = (x ++ init) ++ l :: z := by
    rw [whole, last]
    simp
  obtain ⟨f, g, rfl, encoded_f, encoded_g⟩ := encoded_split at_last (first_of_ascii ascii')
  cases g with
  | nil => cases encoded_g
  | cons c back =>
    obtain ⟨d, tail, bytes, -, -, alone⟩ := char_bytes c
    rw [encoded_cons, bytes] at encoded_g
    obtain rfl : d = l := (List.cons.inj encoded_g).1
    obtain rfl := alone ascii'
    have at_first : encoded (f ++ [c]) = x ++ b :: rest := by
      rw [encoded_append, encoded_f, encoded_cons, bytes, ← first, last]
      simp [encoded]
    obtain ⟨front, run, split, encoded_front, encoded_run⟩ :=
      encoded_split at_first (first_of_ascii ascii)
    refine ⟨front, run, back, ?_, encoded_front, encoded_run.trans first.symm⟩
    rw [← split]
    simp

/-- The longest beginning of so many bytes at most that ends between characters. -/
structure LongestWhole (limit : Nat) (bytes part : List Byte) : Prop where
  initial : part <+: bytes
  short : part.length ≤ limit
  whole : Boundary bytes part.length
  longest : ∀ other, other <+: bytes → other.length ≤ limit → Boundary bytes other.length →
    other.length ≤ part.length

/-- The part of a text that is encoded from so many bytes on. -/
def StandsAt (text run : List Char) (offset : Nat) : Prop :=
  ∃ front back, text = front ++ run ++ back ∧ (encoded front).length = offset

theorem StandsAt.front {text run rest : List Char} {offset : Nat}
    (h : StandsAt text (run ++ rest) offset) : StandsAt text run offset := by
  obtain ⟨front, back, whole, place⟩ := h
  refine ⟨front, rest ++ back, ?_, place⟩
  rw [whole]
  simp only [List.append_assoc]

end Boundaries

end Offside.Utf8
