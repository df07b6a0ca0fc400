import TypeTheory.Proofs.Encoding.Reading
import Mathlib.Algebra.Group.Nat.Defs

/-!
# Numbers take the fewest bytes

A number is written in its first byte if it is below a limit, and otherwise as a
first byte that holds the number of its digits, and the digits. Integers and headers are
this one format: for an integer the limit is 128, for a header it is eight and the flag
stands in front (`Encoding.spelling`).

A reader also takes other spellings (`Encoding.Spells`): a number below the limit may come
with digits, and digits may have zeros behind them. Each of them is longer than the one
that is written. For the digits this is because a string of digits is the digits of its
number with zeros behind them (`Encoding.exists_eq_digits_append`).
-/

namespace TypeTheory

open Encoding

namespace Decoder

variable {α : Type}

/-- The decoder reads `bytes` completely as `a`, and every other string that it reads
completely as `a` is longer. -/
structure Shortest (d : Decoder α) (a : α) (bytes : Bytes) : Prop where
  reads : d bytes = .ok a []
  least : ∀ other, d other = .ok a [] → other ≠ bytes → bytes.length < other.length

theorem byte_eq_ok {wanted : Wanted} {input rest : Bytes} {b : UInt8}
    (h : byte wanted input = .ok b rest) : input = b :: rest := by
  cases input with
  | nil => cases h
  | cons => cases h; rfl

/-- A block that ends the input is the input. -/
theorem block_eq_ok_nil {n : Nat} {wanted : Wanted} {input bytes : Bytes}
    (h : block n wanted input = .ok bytes []) : input = bytes ∧ input.length = n := by
  unfold block at h
  split at h
  · rename_i hHolds
    rw [Bytes.holds_iff] at hHolds
    injection h with hTake hDrop
    have hLength : input.length ≤ n := List.drop_eq_nil_iff.mp hDrop
    rw [List.take_of_length_le hLength] at hTake
    exact ⟨hTake, by omega⟩
  · cases h

end Decoder

open Decoder

namespace Encoding

variable {limit start n x : Nat} {bytes : Bytes}

/-! ## Digits -/

/-- **A string of digits is the digits of its number and zeros.** -/
theorem exists_eq_digits_append (bytes : Bytes) :
    ∃ k, bytes = digits (ofDigits bytes) ++ List.replicate k 0 := by
  induction bytes with
  | nil => exact ⟨0, by rw [ofDigits, digits, if_pos rfl]; rfl⟩
  | cons b rest ih =>
    obtain ⟨k, hRest⟩ := ih
    have hByte : b.toNat < 256 := b.toNat_lt
    rw [ofDigits, digits]
    by_cases hZero : b.toNat + 256 * ofDigits rest = 0
    · -- the digit and all above it are zeros
      have hb : b = 0 := UInt8.toNat_inj.mp (show b.toNat = 0 by omega)
      have hValue : ofDigits rest = 0 := by omega
      rw [hValue, digits, if_pos rfl, List.nil_append] at hRest
      refine ⟨k + 1, ?_⟩
      rw [if_pos hZero, List.nil_append, List.replicate_succ, ← hRest, hb]
    · have hLow : (b.toNat + 256 * ofDigits rest) % 256 = b.toNat := by omega
      have hHigh : (b.toNat + 256 * ofDigits rest) / 256 = ofDigits rest := by omega
      refine ⟨k, ?_⟩
      rw [if_neg hZero, hLow, hHigh, UInt8.ofNat_toNat, List.cons_append, ← hRest]

/-- Other digits of a number are more digits. -/
theorem length_digits_lt (h : ofDigits bytes = x) (hne : bytes ≠ digits x) :
    (digits x).length < bytes.length := by
  obtain ⟨k, hBytes⟩ := exists_eq_digits_append bytes
  rw [h] at hBytes
  have hLength := congrArg List.length hBytes
  rw [List.length_append, List.length_replicate] at hLength
  have hk : k ≠ 0 := by
    rintro rfl
    exact hne (hBytes.trans (List.append_nil _))
  omega

/-- Digits that are read to the end are all of the input, and make up the number. -/
theorem getDigits_eq_ok_nil (h : getDigits n bytes = .ok x []) :
    bytes.length = n ∧ ofDigits bytes = x := by
  unfold getDigits at h
  split at h
  · cases h
  · obtain ⟨read, rest, hBlock, hPure⟩ := EStateM.bind_eq_ok.mp h
    cases hPure
    obtain ⟨rfl, hLength⟩ := block_eq_ok_nil hBlock
    exact ⟨hLength, rfl⟩

/-! ## The one format -/

/-- How a number is written: in the first byte if it is below the limit, and else with its
digits behind a byte that counts them. First bytes are numbered from `start`. -/
def spelling (limit start x : Nat) : Bytes :=
  if x < limit then [UInt8.ofNat (start + x)]
  else UInt8.ofNat (start + limit + ((digits x).length - 1)) :: digits x

/-- How a number may be read: from the first byte if it is below the limit, or from any
digits of it. -/
def Spells (limit start x : Nat) (bytes : Bytes) : Prop :=
  (x < limit ∧ bytes = [UInt8.ofNat (start + x)]) ∨
    ∃ read, read ≠ [] ∧ ofDigits read = x ∧
      bytes = UInt8.ofNat (start + limit + (read.length - 1)) :: read

/-- **Every other spelling is longer.** -/
theorem Spells.length_lt (h : Spells limit start x bytes) (hne : bytes ≠ spelling limit start x) :
    (spelling limit start x).length < bytes.length := by
  unfold spelling at hne ⊢
  rcases h with ⟨hLimit, rfl⟩ | ⟨read, hRead, hValue, rfl⟩
  · rw [if_pos hLimit] at hne
    exact absurd rfl hne
  · split
    · have hPos : 0 < read.length := List.length_pos_iff.mpr hRead
      rw [List.length_singleton, List.length_cons]
      omega
    · rename_i hLarge
      rw [if_neg hLarge] at hne
      have hOther : read ≠ digits x := by
        rintro rfl
        exact hne rfl
      exact Nat.succ_lt_succ (length_digits_lt hValue hOther)

/-- An integer is the format with the limit 128 and nothing in front of it. -/
theorem putUint_eq_spelling (x : Nat) : putUint x = spelling 128 0 x := by
  simp [putUint, spelling]

theorem Header.put_eq_spelling (h : Header) : h.put = spelling 8 (16 * h.flag) h.size := rfl

/-- **What is read as an integer spells it.** -/
theorem spells_of_getUint (h : getUint bytes = .ok x []) : Spells 128 0 x bytes := by
  obtain ⟨head, rest, hHead, hRest⟩ := EStateM.bind_eq_ok.mp h
  obtain rfl := byte_eq_ok hHead
  split at hRest
  · rename_i hLarge
    obtain ⟨hLength, hValue⟩ := getDigits_eq_ok_nil hRest
    refine .inr ⟨rest, List.ne_nil_of_length_pos (by omega), hValue, ?_⟩
    have hCount : 0 + 128 + (rest.length - 1) = head.toNat := by omega
    rw [hCount, UInt8.ofNat_toNat]
  · rename_i hSmall
    cases hRest
    refine .inl ⟨by omega, ?_⟩
    rw [Nat.zero_add, UInt8.ofNat_toNat]

/-- **What is read as a header spells its size behind its flag.** -/
theorem Header.spells_of_get {h : Header} (hGet : Header.get bytes = .ok h []) :
    Spells 8 (16 * h.flag) h.size bytes := by
  obtain ⟨head, rest, hHead, hRest⟩ := EStateM.bind_eq_ok.mp hGet
  obtain rfl := byte_eq_ok hHead
  split at hRest
  · rename_i hLarge
    obtain ⟨size, middle, hSize, hPure⟩ := EStateM.bind_eq_ok.mp hRest
    cases hPure
    obtain ⟨hLength, hValue⟩ := getDigits_eq_ok_nil hSize
    refine .inr ⟨rest, List.ne_nil_of_length_pos (by omega), hValue, ?_⟩
    have hCount : 16 * (head.toNat / 16) + 8 + (rest.length - 1) = head.toNat := by omega
    rw [hCount, UInt8.ofNat_toNat]
  · rename_i hSmall
    cases hRest
    refine .inl ⟨Nat.lt_of_not_le hSmall, ?_⟩
    have hHalves : 16 * (head.toNat / 16) + head.toNat % 16 = head.toNat := by omega
    rw [hHalves, UInt8.ofNat_toNat]

/-- No bytes that are read as a word are fewer than the bytes that are written for it. -/
theorem shortest_putUint (h : x ≤ maxWord) : Shortest getUint x (putUint x) where
  reads := by
    have hRead := getUint_append h []
    rwa [List.append_nil] at hRead
  least other hOther hne := by
    rw [putUint_eq_spelling] at hne ⊢
    exact (spells_of_getUint hOther).length_lt hne

/-- No bytes that are read as a header are fewer than those that are written for it, if its flag
fits half a byte. -/
theorem Header.shortest_put {h : Header} (hFlag : h.flag < 16) (hSize : h.size ≤ maxWord) :
    Shortest Header.get h h.put where
  reads := by
    have hRead := Header.get_append hFlag hSize []
    rwa [List.append_nil] at hRead
  least other hOther hne := by
    rw [Header.put_eq_spelling] at hne ⊢
    exact (Header.spells_of_get hOther).length_lt hne

/-- **Integers and headers are exact and shortest.** A machine word is read back from the
bytes that are written for it, alone or behind a flag, whatever follows them, and nothing of
what follows is taken. No other bytes that are read completely as the same integer or
header are as short. -/
theorem exact_and_shortest {x flag : Nat} (hx : x < 2 ^ 64) (hFlag : flag < 16) :
    ((∀ s, getUint (putUint x ++ s) = .ok x s) ∧
      ∀ s, Header.get (Header.put ⟨flag, x⟩ ++ s) = .ok ⟨flag, x⟩ s) ∧
    Shortest getUint x (putUint x) ∧
      Shortest Header.get ⟨flag, x⟩ (Header.put ⟨flag, x⟩) := by
  have hWord : x ≤ maxWord := by
    unfold maxWord
    omega
  exact ⟨⟨getUint_append hWord, Header.get_append hFlag hWord⟩, shortest_putUint hWord,
    Header.shortest_put hFlag hWord⟩

/-- The largest integer of one byte and the smallest header with two digits. Both can be
read from more bytes, and the largest word is read back. -/
theorem exact_and_shortest_boundaries :
    (getUint [0x80, 0x7F] = .ok 127 [] ∧ (putUint 127).length < 2) ∧
      (Header.get [0xFA, 0x00, 0x01, 0x00] = .ok ⟨15, 256⟩ [] ∧
        (Header.put ⟨15, 256⟩).length < 4) ∧
      ∀ s, getUint (putUint 0xFFFFFFFFFFFFFFFF ++ s) = .ok 0xFFFFFFFFFFFFFFFF s := by
  have hInteger : getUint [0x80, 0x7F] = .ok 127 [] := by cbv
  have hHeader : Header.get [0xFA, 0x00, 0x01, 0x00] = .ok ⟨15, 256⟩ [] := by cbv
  have hOne := @exact_and_shortest 127 0 (by decide) (by decide)
  have hTwo := @exact_and_shortest 256 15 (by decide) (by decide)
  have hWord := @exact_and_shortest 0xFFFFFFFFFFFFFFFF 0 (by decide) (by decide)
  refine ⟨⟨hInteger, hOne.2.1.least _ hInteger ?_⟩, ⟨hHeader, hTwo.2.2.least _ hHeader ?_⟩,
    hWord.1.1⟩
  · decide +kernel
  · decide +kernel

end Encoding

end TypeTheory
