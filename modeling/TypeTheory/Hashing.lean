/-!
# Hashes of plain arithmetic

Names, levels and terms are hashed by the two functions here. They are
arithmetic on words and nothing else, so a hash can be computed wherever a term
can, and two terms whose hashes differ are known to differ.
-/

namespace TypeTheory

/-- Joins a word to a hash. The order of the two matters. -/
def mixWords (a b : UInt64) : UInt64 :=
  let x : UInt64 := (a ^^^ (a >>> 31)) * 0xBF58476D1CE4E5B9 + b
  (x ^^^ (x >>> 29)) * 0x94D049BB133111EB

/-- A hash of a text. -/
def textHash (text : String) : UInt64 :=
  text.toList.foldl (fun h c => mixWords h c.toNat.toUInt64) 5

end TypeTheory
