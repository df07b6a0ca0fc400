import TypeTheory.Encoding.Term
import TypeTheory.Environment.Basic

/-!
# Declarations as bytes

A declaration is its name, its universe parameters, its type, a byte that says
whether there is a value, and the value.
-/

namespace TypeTheory

open Encoding

namespace Encoding

/-- Writes a truth value. -/
def putBool (b : Bool) : Bytes :=
  [if b then 1 else 0]

/-- Reads a truth value. -/
def getBool : Decoder Bool := do
  let b ← Decoder.byte .bool
  if b = 0 then pure false
  else if b = 1 then pure true
  else throw (.badBool b.toNat)

end Encoding

namespace Declaration

/-- Writes a declaration. -/
def put (d : Declaration) : Bytes :=
  d.name.put ++ Name.putList d.params ++ d.type.put ++ putBool d.value.isSome ++
    d.value.elim [] Term.put

/-- Reads a declaration. -/
def get : Decoder Declaration := do
  let name ← Name.get
  let params ← Name.getList
  let type ← Term.get
  if ← getBool then do
    let value ← Term.get
    pure { name, params, type, value := some value }
  else pure { name, params, type, value := none }

end Declaration

end TypeTheory
