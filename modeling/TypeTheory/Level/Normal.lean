import TypeTheory.Level.Basic

/-!
# Canonical forms of levels

Every level is brought to a right-nested maximum of *atoms*: a base with an
offset, the base being zero, a parameter or an `imax` that no rule simplifies.
Atoms are listed by increasing base, one atom a base, and a constant is kept
only where it exceeds every other offset. Two levels are equal when their
canonical forms are the same level.

`Level.atoms` collects the atoms. An `imax` is decided by the canonical form of
its right side: it is zero if that is zero, the maximum if that is never zero,
the right side if the left is at most one, and otherwise it is spread over the
atoms of the right side (`Level.spread`).
-/

namespace TypeTheory

namespace Level

/-- A level `succ^offset base`. -/
structure Atom where
  base : Level
  offset : Nat
  deriving DecidableEq, Inhabited, Repr

namespace Atom

/-- The level of an atom. -/
def level (a : Atom) : Level :=
  a.base.addOffset a.offset

/-- The atom `k` levels up. -/
def raise (k : Nat) (a : Atom) : Atom :=
  ⟨a.base, a.offset + k⟩

/-- Inserts an atom into a list with increasing bases. Of two atoms with the
same base the larger offset is kept. -/
def insert (a : Atom) : List Atom → List Atom
  | [] => [a]
  | b :: rest =>
    match a.base.cmp b.base with
    | .lt => a :: b :: rest
    | .eq => ⟨b.base, Nat.max a.offset b.offset⟩ :: rest
    | .gt => b :: insert a rest

/-- Whether the atom is a constant that another atom of the list dominates. -/
def dominatedIn (atoms : List Atom) (a : Atom) : Bool :=
  a.base = .zero && atoms.any fun b => b.base ≠ .zero && a.offset ≤ b.offset

/-- Atoms by increasing base, one a base, without dominated constants. -/
def canonical (atoms : List Atom) : List Atom :=
  let sorted := atoms.foldr insert []
  sorted.filter fun a => !a.dominatedIn sorted

/-- The maximum of a list of atoms, nested to the right. -/
def maximum : List Atom → Level
  | [] => .zero
  | [a] => a.level
  | a :: rest => .max a.level (maximum rest)

end Atom

/-! ## Collecting atoms -/

/-- The atoms of a canonical form raised by `k`: maxima are split, successors
are counted, and an `imax` is an atom. -/
def summandsFrom (k : Nat) : Level → List Atom
  | succ l => l.summandsFrom (k + 1)
  | max a b => a.summandsFrom k ++ b.summandsFrom k
  | l => [⟨l, k⟩]

/-- The atoms of a canonical form. -/
def summands (l : Level) : List Atom :=
  l.summandsFrom 0

/-- The atoms of `imax a b` for canonical `a` above one and canonical `b`
without offsets: `imax` goes to every atom of `b`, and `imax a a` is `a`. -/
def spread (a b : Level) : List Atom :=
  if a = b then a.summands
  else match b with
    | max x y => a.spread x ++ a.spread y
    | _ => [⟨imax a b, 0⟩]

/-- The atoms of `imax a b`, where `a` is given by its atoms and `b` by its
canonical form. -/
def imaxAtoms (atoms : List Atom) (b : Level) : List Atom :=
  if b = zero then [⟨zero, 0⟩]
  else if b.summands.any (0 < ·.offset) then atoms ++ b.summands
  else
    let a := Atom.maximum (Atom.canonical atoms)
    if a = zero ∨ a = succ zero then b.summands else a.spread b

/-- The atoms of a level raised by `k`, in no particular order. -/
def atomsFrom (k : Nat) : Level → List Atom
  | zero => [⟨zero, k⟩]
  | param n => [⟨param n, k⟩]
  | succ l => l.atomsFrom (k + 1)
  | max a b => a.atomsFrom k ++ b.atomsFrom k
  | imax a b =>
    (imaxAtoms (a.atomsFrom 0) (Atom.maximum (Atom.canonical (b.atomsFrom 0)))).map
      (Atom.raise k)

/-- The atoms of a level, in no particular order. -/
def atoms (l : Level) : List Atom :=
  l.atomsFrom 0

/-! ## Canonical forms and equality -/

/-- The canonical form of a level. -/
def normalize (l : Level) : Level :=
  Atom.maximum (Atom.canonical l.atoms)

/-- Equality of levels: the same level, or the same canonical form. -/
def equiv (a b : Level) : Bool :=
  a = b || a.normalize = b.normalize

/-- Pointwise equality of two lists of levels of the same length. -/
def equivAll : List Level → List Level → Bool
  | [], [] => true
  | a :: as, b :: bs => a.equiv b && equivAll as bs
  | _, _ => false

/-- Whether the canonical form of a level is zero. -/
def isZero (l : Level) : Bool :=
  l.normalize = zero

end Level

end TypeTheory
