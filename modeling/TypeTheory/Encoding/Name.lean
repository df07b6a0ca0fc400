import TypeTheory.Encoding.Header
import TypeTheory.Name

/-!
# Names as bytes

A name is the number of its segments and the segments, root first, each as the
number of its bytes in UTF-8 and the bytes. The decoder takes the segments as
they are.
-/

namespace TypeTheory

open Encoding Decoder

namespace Name

/-- Writes one segment. -/
def putSegment (segment : String) : Bytes :=
  let bytes := segment.toUTF8.toList
  putUint bytes.length ++ bytes

/-- Writes a name. -/
def put (n : Name) : Bytes :=
  putUint n.segments.length ++ n.segments.flatMap putSegment

/-- Reads the bytes of one segment. Bytes that are no text are not consumed. -/
def getText (length : Nat) : Decoder String := fun input =>
  if Bytes.holds length input then
    match String.fromUTF8? ⟨(input.take length).toArray⟩ with
    | some segment => .ok segment (input.drop length)
    | none => .error .badText input
  else .error (.unexpectedEnd .nameSegment) input

/-- Reads one segment. -/
def getSegment : Decoder String := do
  let length ← getUint
  getText length

/-- Reads a name. -/
def get : Decoder Name := do
  let count ← getUint
  let segments ← getSegment.times count
  pure (ofSegments segments)

/-- Writes a list of names. -/
def putList (names : List Name) : Bytes :=
  putUint names.length ++ names.flatMap put

/-- Reads a list of names. -/
def getList : Decoder (List Name) := do
  let count ← getUint
  get.times count

/-! ## Reading only forward -/

theorem shrinks_getText (length : Nat) : Shrinks (getText length) := by
  intro input s rest h
  unfold getText at h
  split at h
  · split at h
    · cases h
      simp
    · cases h
  · cases h

theorem shrinks_getSegment : Shrinks getSegment :=
  consumes_getUint.shrinks.bind shrinks_getText

theorem consumes_get : Consumes get :=
  consumes_getUint.bind fun count =>
    (shrinks_getSegment.times count).bind fun _ => shrinks_pure _

end Name

end TypeTheory
