import TypeTheory.Bytes

/-!
# Digests

A digest is 32 bytes. It is shown in hexadecimal, in full or as its first
sixteen digits, and digests are ordered by their bytes from left to right.
-/

namespace TypeTheory

/-- A digest of 32 bytes. -/
structure Digest where
  word : Vector UInt8 32
  deriving DecidableEq, Inhabited, Repr

namespace Digest

/-- The number of bytes of a digest. -/
def size : Nat :=
  32

/-- The bytes of a digest. -/
def bytes (d : Digest) : Bytes :=
  d.word.toList

/-- The digest with the given bytes, if they are 32. -/
def ofBytes? (bytes : Bytes) : Option Digest :=
  if h : bytes.length = 32 then some ⟨⟨bytes.toArray, by simpa using h⟩⟩ else none

/-- The hexadecimal digits of a digest. -/
def hex (d : Digest) : String :=
  Bytes.hex d.bytes

/-- The first sixteen hexadecimal digits, by which a digest is shown. -/
def short (d : Digest) : String :=
  Bytes.hex (d.bytes.take 8)

def cmp (a b : Digest) : Ordering :=
  Bytes.cmp a.bytes b.bytes

end Digest

end TypeTheory
