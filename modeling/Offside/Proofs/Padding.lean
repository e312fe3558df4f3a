import Offside.Proofs.Sentinel

/-! How far a reader may look. The padding of a source always has room for the zero byte behind it, but
not always for one byte more: a look ahead from the end of the source leaves the padded source if the
source fills all but one byte of its last line. -/
namespace Offside

namespace Source

variable {s : Source} {bytes : List Byte}

theorem padded_dvd (s : Source) : lineBytes ∣ s.padded.length := by
  rw [s.padded_length.1]
  exact Nat.dvd_mul_left lineBytes _

/- Behind the source there is a zero byte, and then the end of the line or another one. -/
theorem length_succ_lt (s : Source) :
    s.length + 1 < s.paddedLength ↔ ¬s.length % lineBytes = lineBytes - 1 := by
  simp only [paddedLength, lineBytes]
  omega

theorem padded_getElem? (s : Source) (i : Nat) :
    s.padded[i]? = if i < s.paddedLength then some (s.bytes[i]?.getD 0) else none := by
  have longer : s.bytes.length < s.paddedLength := s.padded_length.2
  by_cases inside : i < s.bytes.length
  · have padded : i < s.paddedLength := Nat.lt_trans inside longer
    simp only [Source.padded, if_pos padded, List.getElem?_append_left inside,
      List.getElem?_eq_getElem inside, Option.getD_some]
  · have behind : s.bytes.length ≤ i := Nat.le_of_not_lt inside
    simp only [Source.padded, List.getElem?_append_right behind, List.getElem?_replicate,
      List.getElem?_eq_none behind, Option.getD_none, length]
    by_cases padded : i < s.paddedLength
    · have room : i - s.bytes.length < s.paddedLength - s.bytes.length := by omega
      simp only [if_pos padded, if_pos room]
    · have full : ¬i - s.bytes.length < s.paddedLength - s.bytes.length := by omega
      simp only [if_neg padded, if_neg full]

end Source

namespace Reader

theorem advance_ofSource {s : Source} {n : Nat} (fits : s.length ≤ Source.capacity)
    (inside : n ≤ s.length) : (ofSource s).advance n = ⟨s, n⟩ := by
  have small : n < Token.wordSize := by
    have room : Source.capacity < Token.wordSize := by decide
    omega
  simp only [advance, ofSource, Nat.zero_add, Nat.mod_eq_of_lt small]

end Reader

namespace Source

variable {bytes : List Byte}

theorem reads_ofBytes (fits : bytes.length ≤ capacity) {position : Nat}
    (inside : position ≤ bytes.length) :
    ((Reader.ofSource (ofBytes bytes)).advance position).current? =
        some (bytes[position]?.getD 0) ∧
      ((Reader.ofSource (ofBytes bytes)).advance position).peek? =
        if position = bytes.length ∧ bytes.length % lineBytes = lineBytes - 1 then none
        else some (bytes[position + 1]?.getD 0) := by
  have longer := (ofBytes bytes).padded_length.2
  have ahead := (ofBytes bytes).length_succ_lt
  rw [ofBytes_eq fits] at longer ahead ⊢
  have length_eq : (⟨bytes⟩ : Source).length = bytes.length := rfl
  rw [length_eq] at longer ahead
  simp only [Reader.advance_ofSource fits inside, Reader.current?, Reader.peek?, padded_getElem?]
  constructor
  · rw [if_pos (Nat.lt_of_le_of_lt inside longer)]
  · by_cases full : position = bytes.length ∧ bytes.length % lineBytes = lineBytes - 1
    · obtain ⟨rfl, one⟩ := full
      have outside : ¬bytes.length + 1 < (⟨bytes⟩ : Source).paddedLength := fun next => ahead.mp next one
      rw [if_neg outside, if_pos ⟨rfl, one⟩]
    · have next : position + 1 < (⟨bytes⟩ : Source).paddedLength := by
        by_cases last : position = bytes.length
        · rw [last]
          exact ahead.mpr fun one => full ⟨last, one⟩
        · omega
      rw [if_pos next, if_neg full]

/-- The padded source is a whole number of lines; it holds the source and behind it zero bytes. At every
position from the first through the end of the source, the byte that stands there can be read. The one
behind it can be read as well, but for the end of a source that leaves a single byte of its last line
free. -/
theorem padding_reads (bytes : List Byte) (fits : bytes.length ≤ capacity) :
    lineBytes ∣ (ofBytes bytes).padded.length ∧
      (∃ n, 0 < n ∧ (ofBytes bytes).padded = bytes ++ List.replicate n 0) ∧
      ∀ position ≤ bytes.length,
        ((Reader.ofSource (ofBytes bytes)).advance position).current? =
            some (bytes[position]?.getD 0) ∧
          ((Reader.ofSource (ofBytes bytes)).advance position).peek? =
            if position = bytes.length ∧ bytes.length % lineBytes = lineBytes - 1 then none
            else some (bytes[position + 1]?.getD 0) := by
  refine ⟨padded_dvd _, ?_, fun position inside => reads_ofBytes fits inside⟩
  obtain ⟨n, positive, zeros⟩ :=
    padded_drop (s := ofBytes bytes) (i := 0) List.drop_zero (Nat.zero_le _)
  refine ⟨n, positive, ?_⟩
  rw [List.drop_zero] at zeros
  rw [zeros, ofBytes_eq fits]

theorem padding_reads_word :
    [0x61, 0x62].length ≤ capacity ∧
      ((Reader.ofSource (ofBytes [0x61, 0x62])).advance 2).current? = some 0 ∧
      ((Reader.ofSource (ofBytes [0x61, 0x62])).advance 2).peek? = some 0 := by
  have fits : [0x61, 0x62].length ≤ capacity := by decide
  exact ⟨fits, (padding_reads [0x61, 0x62] fits).2.2 2 (by decide)⟩

/-- Behind sixty-three bytes there is one zero byte, and no other to look ahead to. -/
theorem padding_short :
    (List.replicate 63 (0x78 : Byte)).length = 63 ∧ 63 < capacity ∧
      ((Reader.ofSource (ofBytes (List.replicate 63 0x78))).advance 63).current? = some 0 ∧
      ((Reader.ofSource (ofBytes (List.replicate 63 0x78))).advance 63).peek? = none := by
  decide

end Source
end Offside
