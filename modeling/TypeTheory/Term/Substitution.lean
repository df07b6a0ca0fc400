import TypeTheory.Term.Basic

/-!
# Shifting and substitution

All operations here change the leaves of a term and rebuild the rest. Those
that act on constants, levels and free variables are instances of
`Term.mapLeaves`. Those that act on loose indices are instances of
`Term.mapLoose`, which does not enter a part whose range shows that it holds no
index in question.

`Term.shift` moves the loose indices from a cutoff on, and `Term.subst` puts a
term for one index and closes the gap.
-/

namespace TypeTheory

namespace Term

/-! ## Loose indices -/

/-- Replaces every index that is loose from `cutoff` on. The replacement is
given the number of binders crossed and the index as it stands there. -/
def mapLoose (cutoff : Nat) (f : Nat → Nat → Term) (depth : Nat) (e : Term) : Term :=
  if e.looseRange ≤ cutoff + depth then e
  else match e with
    | .bvar i => f depth i
    | .app g a => .app (mapLoose cutoff f depth g) (mapLoose cutoff f depth a)
    | .bind k n t b => .bind k n (mapLoose cutoff f depth t) (mapLoose cutoff f (depth + 1) b)
    | .letE n t v b =>
      .letE n (mapLoose cutoff f depth t) (mapLoose cutoff f depth v)
        (mapLoose cutoff f (depth + 1) b)
    | .pair a b => .pair (mapLoose cutoff f depth a) (mapLoose cutoff f depth b)
    | .proj k p => .proj k (mapLoose cutoff f depth p)
    | .fvar n => .fvar n
    | .sort l => .sort l
    | .const n ls => .const n ls

/-- Moves every index that is loose from `cutoff` on by `delta`. A negative
`delta` is meant for indices that stay at or above the cutoff. -/
def shift (e : Term) (cutoff : Nat) (delta : Int) : Term :=
  if delta = 0 then e
  else e.mapLoose cutoff (fun _ i => .bvar (i + delta).toNat) 0

/-- Puts `r` for the index `idx` and lowers the indices above it by one. The
term `r` belongs to the resulting scope and is shifted under binders. -/
def subst (e : Term) (idx : Nat) (r : Term) : Term :=
  e.mapLoose idx (fun depth i => if i = idx + depth then r.shift 0 depth else .bvar (i - 1)) 0

/-- Puts `arg` for the variable of the binder around `body`. -/
def instantiate (body arg : Term) : Term :=
  body.subst 0 arg

/-- The function type from `a` to `b`, where `b` does not mention the argument. -/
def arrow (a b : Term) : Term :=
  .pi .anonymous a (b.shift 0 1)

/-- The type of pairs of an `a` and a `b`, where `b` does not mention the first
component. -/
def prod (a b : Term) : Term :=
  .sigma .anonymous a (b.shift 0 1)

/-! ## Leaves -/

/-- Replaces every leaf. The replacement is given the number of binders crossed. -/
def mapLeaves (f : Nat → Term → Term) (depth : Nat) : Term → Term
  | .app g a => .app (mapLeaves f depth g) (mapLeaves f depth a)
  | .bind k n t b => .bind k n (mapLeaves f depth t) (mapLeaves f (depth + 1) b)
  | .letE n t v b =>
    .letE n (mapLeaves f depth t) (mapLeaves f depth v) (mapLeaves f (depth + 1) b)
  | .pair a b => .pair (mapLeaves f depth a) (mapLeaves f depth b)
  | .proj k p => .proj k (mapLeaves f depth p)
  | leaf => f depth leaf

/-- Gives universe parameters their values throughout a term. -/
def substLevels (e : Term) (σ : Level.Assignment) : Term :=
  if σ.isEmpty then e
  else e.mapLeaves (fun _ leaf => match leaf with
    | .sort l => .sort (l.subst σ)
    | .const n ls => .const n (ls.map (·.subst σ))
    | _ => leaf) 0

/-- Replaces every constant for which `f` gives a term. The term is put in
place as it is, also under binders. -/
def replaceConsts (e : Term) (f : Name → List Level → Option Term) : Term :=
  e.mapLeaves (fun _ leaf => match leaf with
    | .const n ls => (f n ls).getD leaf
    | _ => leaf) 0

/-- Turns the named free variables into loose indices: the last of `names` is
the innermost one. -/
def abstractFvars (e : Term) (names : List Name) : Term :=
  e.mapLeaves (fun depth leaf => match leaf with
    | .fvar n => match names.idxOf? n with
      | some i => .bvar (names.length - 1 - i + depth)
      | none => leaf
    | _ => leaf) 0

end Term

end TypeTheory
