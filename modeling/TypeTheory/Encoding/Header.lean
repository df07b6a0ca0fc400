import TypeTheory.Encoding.Basic

/-!
# Integers and headers

Integers are written in as few bytes as possible. One below 128 is its own byte;
a larger one is a byte with the high bit set that holds the number of bytes less
one, followed by its base 256 digits, lowest first. A `Header` packs four bits of
flag in front of such an integer, whose limit is then eight.
-/

namespace TypeTheory

namespace Encoding

/-! ## Base 256 -/

/-- The base 256 digits of a number, lowest first, without zeros at the end. -/
def digits (x : Nat) : Bytes :=
  if x = 0 then [] else UInt8.ofNat (x % 256) :: digits (x / 256)
termination_by x

/-- The number with the given base 256 digits. -/
def ofDigits : Bytes → Nat
  | [] => 0
  | b :: rest => b.toNat + 256 * ofDigits rest

/-- Reads a number of `n` digits. No number has more than eight. -/
def getDigits (n : Nat) : Decoder Nat := do
  if 8 < n then throw (.malformed .wideInteger)
  else do
    let bytes ← Decoder.block n .integerBytes
    pure (ofDigits bytes)

/-! ## Integers -/

/-- Writes an integer. -/
def putUint (x : Nat) : Bytes :=
  if x < 128 then [UInt8.ofNat x]
  else UInt8.ofNat (128 + ((digits x).length - 1)) :: digits x

/-- Reads an integer. -/
def getUint : Decoder Nat := do
  let head ← Decoder.byte .integer
  if 128 ≤ head.toNat then getDigits (head.toNat - 128 + 1) else pure head.toNat

/-! ## Headers -/

/-- Four bits of flag and a size. -/
structure Header where
  flag : Nat
  size : Nat
  deriving DecidableEq, Inhabited, Repr

namespace Header

/-- Writes a header. -/
def put (h : Header) : Bytes :=
  if h.size < 8 then [UInt8.ofNat (16 * h.flag + h.size)]
  else UInt8.ofNat (16 * h.flag + 8 + ((digits h.size).length - 1)) :: digits h.size

/-- Reads a header. -/
def get : Decoder Header := do
  let head ← Decoder.byte .tag
  let flag := head.toNat / 16
  let low := head.toNat % 16
  if 8 ≤ low then do
    let size ← getDigits (low - 8 + 1)
    pure ⟨flag, size⟩
  else pure ⟨flag, low⟩

end Header

/-! ## Reading only forward -/

open Decoder

theorem shrinks_getDigits (n : Nat) : Shrinks (getDigits n) := by
  unfold getDigits
  split
  · exact shrinks_throw _
  · exact (shrinks_block n _).bind fun _ => shrinks_pure _

theorem consumes_getUint : Consumes getUint :=
  (consumes_byte _).bind fun head => by
    split
    · exact shrinks_getDigits _
    · exact shrinks_pure _

theorem Header.consumes_get : Consumes Header.get :=
  (consumes_byte _).bind fun head => by
    dsimp only
    split
    · exact (shrinks_getDigits _).bind fun _ => shrinks_pure _
    · exact shrinks_pure _

end Encoding

end TypeTheory
