import TypeTheory.Computation
import TypeTheory.Digest.Basic

/-!
# Bytes and decoders

A decoder reads from the front of a byte string and fails with a cause. It is a
state computation on the bytes not yet read, so the unread rest is known also
after a failure: a failed read consumes nothing of what it failed on.

`Decoder.Shrinks` says that a decoder never gives bytes back; the loops of the
level and term decoders end because of it.
-/

namespace TypeTheory

namespace Encoding

/-- What a decoder was about to read when the input ended. -/
inductive Wanted where
  | tag
  | integer
  | integerBytes
  | nameSegment
  | bool
  | magic
  | version
  | digest
  deriving DecidableEq, Inhabited, Repr

/-- Why bytes that are there cannot be meant. -/
inductive Flaw where
  | wideInteger
  | levelOffset
  | levelOperand
  | level
  | termIndex
  | termArity
  | termDepth
  | termOperand
  | term
  deriving DecidableEq, Inhabited, Repr

/-- What a tag stands for. -/
inductive TagUse where
  | level
  | term
  deriving DecidableEq, Inhabited, Repr

end Encoding

open Encoding

/-- Why a byte string is refused. -/
inductive DecodeError where
  | unexpectedEnd (wanted : Wanted)
  | badMagic
  | badVersion (version : Nat)
  | badFlag (flag : Nat) (use : TagUse)
  | badBool (value : Nat)
  | badText
  | malformed (flaw : Flaw)
  | trailing (count : Nat)
  /-- The digest that the bytes record and the one computed from them. -/
  | wrongDigest (recorded computed : Digest)
  deriving DecidableEq, Inhabited, Repr

namespace Encoding

def Wanted.text : Wanted → String
  | .tag => "tag"
  | .integer => "integer"
  | .integerBytes => "integer bytes"
  | .nameSegment => "name segment"
  | .bool => "bool"
  | .magic => "unit magic"
  | .version => "unit version"
  | .digest => "unit digest"

def Flaw.text : Flaw → String
  | .wideInteger => "integer wider than 8 bytes"
  | .levelOffset => "level offset"
  | .levelOperand => "level operand missing"
  | .level => "level"
  | .termIndex => "bound variable index"
  | .termArity => "application arity"
  | .termDepth => "term nesting depth"
  | .termOperand => "term operand missing"
  | .term => "term"

def TagUse.text : TagUse → String
  | .level => "level"
  | .term => "term"

end Encoding

/-- The text of a decoding error. -/
def DecodeError.message : DecodeError → String
  | .unexpectedEnd wanted => "unexpected EOF, expected " ++ wanted.text
  | .badMagic => "not a compiled unit"
  | .badVersion v => "unsupported unit version " ++ toString v
  | .badFlag flag use => "invalid flag " ++ toString flag ++ " in " ++ use.text
  | .badBool v => "invalid bool value " ++ toString v
  | .badText => "name segment is not valid UTF-8"
  | .malformed flaw => "malformed input: " ++ flaw.text
  | .trailing count => toString count ++ " trailing byte(s) after unit"
  | .wrongDigest recorded computed =>
    "unit digest mismatch: recorded " ++ recorded.hex ++ ", computed " ++ computed.hex

/-- A reader of bytes. -/
abbrev Decoder := EStateM DecodeError Bytes

namespace Decoder

/-- Reads one byte. -/
def byte (wanted : Wanted) : Decoder UInt8 := fun input =>
  match input with
  | [] => .error (.unexpectedEnd wanted) []
  | b :: rest => .ok b rest

/-- Reads `n` bytes. -/
def block (n : Nat) (wanted : Wanted) : Decoder Bytes := fun input =>
  if Bytes.holds n input then .ok (input.take n) (input.drop n)
  else .error (.unexpectedEnd wanted) input

/-- Reads `n` items one after the other. -/
def times {α : Type} (item : Decoder α) : Nat → Decoder (List α)
  | 0 => pure []
  | n + 1 => do
    let x ← item
    let xs ← times item n
    pure (x :: xs)

/-! ## Reading only forward -/

/-- The decoder leaves no more bytes than it was given. -/
def Shrinks {α : Type} (d : Decoder α) : Prop :=
  ∀ ⦃input : Bytes⦄ ⦃a : α⦄ ⦃rest : Bytes⦄,
    d input = .ok a rest → rest.length ≤ input.length

/-- The decoder leaves fewer bytes than it was given. -/
def Consumes {α : Type} (d : Decoder α) : Prop :=
  ∀ ⦃input : Bytes⦄ ⦃a : α⦄ ⦃rest : Bytes⦄,
    d input = .ok a rest → rest.length < input.length

variable {α β : Type}

theorem shrinks_pure (a : α) : Shrinks (pure a) := by
  intro input b rest h
  cases h
  exact Nat.le_refl _

theorem shrinks_throw (e : DecodeError) : Shrinks (throw e : Decoder α) := by
  intro input b rest h
  cases h

theorem Consumes.shrinks {d : Decoder α} (h : Consumes d) : Shrinks d :=
  fun _ _ _ eq => Nat.le_of_lt (h eq)

theorem Shrinks.bind {d : Decoder α} {f : α → Decoder β} (hd : Shrinks d)
    (hf : ∀ a, Shrinks (f a)) : Shrinks (d >>= f) := by
  intro input b rest h
  obtain ⟨a, middle, h₁, h₂⟩ := EStateM.bind_eq_ok.mp h
  exact Nat.le_trans (hf a h₂) (hd h₁)

theorem Consumes.bind {d : Decoder α} {f : α → Decoder β} (hd : Consumes d)
    (hf : ∀ a, Shrinks (f a)) : Consumes (d >>= f) := by
  intro input b rest h
  obtain ⟨a, middle, h₁, h₂⟩ := EStateM.bind_eq_ok.mp h
  exact Nat.lt_of_le_of_lt (hf a h₂) (hd h₁)

theorem consumes_byte (wanted : Wanted) : Consumes (byte wanted) := by
  intro input b rest h
  cases input with
  | nil => cases h
  | cons => cases h; exact Nat.lt_succ_self _

theorem shrinks_block (n : Nat) (wanted : Wanted) : Shrinks (block n wanted) := by
  intro input b rest h
  unfold block at h
  split at h
  · cases h
    simp
  · cases h

theorem Shrinks.times {d : Decoder α} (hd : Shrinks d) : ∀ n, Shrinks (times d n)
  | 0 => shrinks_pure _
  | n + 1 => hd.bind fun _ => (Shrinks.times hd n).bind fun _ => shrinks_pure _

end Decoder

end TypeTheory
