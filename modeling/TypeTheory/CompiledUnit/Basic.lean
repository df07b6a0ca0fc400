import TypeTheory.Encoding.Declaration

/-!
# Compiled units

A unit is a list of declarations. Its body is four bytes of magic, a version, the
number of declarations and the declarations; behind the body stands its digest.
The digest is compared before the declarations are read. Which function computes
digests is a parameter, so nothing here depends on how they are made.
-/

namespace TypeTheory

open Encoding

/-- A list of declarations to be written or loaded together. -/
structure CompiledUnit where
  decls : List Declaration
  deriving DecidableEq, Inhabited, Repr

namespace CompiledUnit

/-- The unit of all declarations of an environment. -/
def ofEnvironment (env : Environment) : CompiledUnit :=
  { decls := env.toList }

def size (u : CompiledUnit) : Nat :=
  u.decls.length

def isEmpty (u : CompiledUnit) : Bool :=
  u.decls.isEmpty

/-! ## Writing -/

/-- The bytes every unit starts with. -/
def magic : Bytes :=
  [0x44, 0x54, 0x4B, 0x55]

/-- The version of the format. -/
def version : UInt8 :=
  1

/-- The number of bytes in front of the number of declarations. -/
def preambleSize : Nat :=
  magic.length + 1

/-- The number and the declarations. -/
def putDecls (u : CompiledUnit) : Bytes :=
  putUint u.decls.length ++ u.decls.flatMap Declaration.put

/-- The part of a unit that is digested. -/
def body (u : CompiledUnit) : Bytes :=
  magic ++ version :: u.putDecls

/-- Appends the digest of some bytes to them. -/
def withDigest (digest : Bytes → Digest) (body : Bytes) : Bytes :=
  body ++ (digest body).bytes

/-- The bytes of a unit. -/
def toBytes (digest : Bytes → Digest) (u : CompiledUnit) : Bytes :=
  withDigest digest u.body

/-! ## Reading -/

/-- Reads the given bytes of magic. -/
def getMagic : Bytes → Decoder Unit
  | [] => pure ()
  | m :: rest => do
    let b ← Decoder.byte .magic
    if b = m then getMagic rest else throw .badMagic

/-- Reads the magic and the version. -/
def getPreamble : Decoder Unit := do
  getMagic magic
  let v ← Decoder.byte .version
  if v = version then pure () else throw (.badVersion v.toNat)

/-- Reads the number and the declarations. -/
def getDecls : Decoder (List Declaration) := do
  let count ← getUint
  Declaration.get.times count

/-- The body in front of the digest, if the digest is right. -/
def withoutDigest (digest : Bytes → Digest) (bytes : Bytes) : Except DecodeError Bytes :=
  let bodySize := bytes.length - Digest.size
  if bytes.length < preambleSize + Digest.size then .error (.unexpectedEnd .digest)
  else
    match Digest.ofBytes? (bytes.drop bodySize) with
    | none => .error (.unexpectedEnd .digest)
    | some recorded =>
      let body := bytes.take bodySize
      let computed := digest body
      if recorded = computed then .ok body else .error (.wrongDigest recorded computed)

/-- Runs a decoder on bytes that it has to read to the end. -/
def readAll {α : Type} (d : Decoder α) (bytes : Bytes) : Except DecodeError α :=
  match d bytes with
  | .ok a [] => .ok a
  | .ok _ rest => .error (.trailing rest.length)
  | .error e _ => .error e

/-- Runs a decoder at the front of some bytes and forgets the rest. -/
def readFront {α : Type} (d : Decoder α) (bytes : Bytes) : Except DecodeError α :=
  match d bytes with
  | .ok a _ => .ok a
  | .error e _ => .error e

/-- Reads a unit. Its preamble is read first, then the digest is compared, and
the declarations are read last. -/
def ofBytes (digest : Bytes → Digest) (bytes : Bytes) : Except DecodeError CompiledUnit := do
  readFront getPreamble bytes
  let body ← withoutDigest digest bytes
  let decls ← readAll getDecls (body.drop preambleSize)
  return { decls }

end CompiledUnit

end TypeTheory
