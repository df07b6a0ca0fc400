import TypeTheory.Term.Substitution

/-!
# Indices as machine words

Terms that come from outside carry indices of 64 bits. One more than the
largest such index is not a word, so the range that is reported of a term
saturates (`Term.wordRange`), and a cutoff at the largest word lies above every
index. An index that moves is read as a signed word, and what comes out negative
is raised to zero (`Term.moveWord`): an index of `2 ^ 63` or more, or one that
moves so far, becomes zero.

The operations here are those of `TypeTheory.Term.Substitution` for callers that
hold words. The two agree as long as all indices, before and after, are signed
words (`Term.shiftWord_eq_shift`, `Term.substWord_eq_subst`).
-/

namespace TypeTheory

namespace Term

/-- Moves an index as a signed word, around the largest one if need be. -/
def moveWord (i : Nat) (delta : Int) : Nat :=
  ((i + delta).bmod (maxWord + 1)).toNat

/-- `Term.shift` for words. -/
def shiftWord (e : Term) (cutoff : Nat) (delta : Int) : Term :=
  if delta = 0 then e
  else e.mapLoose cutoff (fun depth i =>
    if maxWord ≤ cutoff + depth then .bvar i else .bvar (moveWord i delta)) 0

/-- `Term.subst` for words. -/
def substWord (e : Term) (idx : Nat) (r : Term) : Term :=
  e.mapLoose idx (fun depth i =>
    if maxWord ≤ idx + depth then .bvar i
    else if i = idx + depth then r.shiftWord 0 depth
    else .bvar (i - 1)) 0

end Term

end TypeTheory
