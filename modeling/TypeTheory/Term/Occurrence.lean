import TypeTheory.Term.Basic

/-!
# What occurs in a term

Spines of applications, immediate parts, and the free variables, constants and
universe parameters that a term mentions. Lists of names give each name once,
in the order in which it first occurs from left to right.
-/

namespace TypeTheory

namespace Term

/-! ## Spines -/

/-- The head of a spine in front of more arguments. -/
def spineOnto : Term → List Term → Term × List Term
  | .app f a, args => f.spineOnto (a :: args)
  | e, args => (e, args)

/-- Splits `f a₁ … aₙ` into its head, which is no application, and its
arguments. -/
def spine (e : Term) : Term × List Term :=
  e.spineOnto []

/-- The head of a spine. -/
def head : Term → Term
  | .app f _ => f.head
  | e => e

/-- The application of `f` to a list of arguments. -/
def apps (f : Term) (args : List Term) : Term :=
  args.foldl .app f

/-! ## Parts -/

/-- The number of nodes of a term. -/
@[simp] def size : Term → Nat
  | .bvar _ | .fvar _ | .sort _ | .const .. => 1
  | .app f a => f.size + a.size + 1
  | .bind _ _ t b => t.size + b.size + 1
  | .letE _ t v b => t.size + v.size + b.size + 1
  | .pair a b => a.size + b.size + 1
  | .proj _ p => p.size + 1

/-- The component of a pair on one side; other terms have none. -/
def component? : Term → Side → Option Term
  | .pair a _, .fst => some a
  | .pair _ b, .snd => some b
  | _, _ => none

/-- The immediate parts of a term, left to right. -/
def children : Term → List Term
  | .app f a => [f, a]
  | .bind _ _ t b => [t, b]
  | .letE _ t v b => [t, v, b]
  | .pair a b => [a, b]
  | .proj _ p => [p]
  | .bvar _ | .fvar _ | .sort _ | .const .. => []

/-! ## Names -/

/-- All occurrences of free variables in front of a list, left to right. -/
def fvarsOnto : Term → List Name → List Name
  | .fvar n, rest => n :: rest
  | .app f a, rest => f.fvarsOnto (a.fvarsOnto rest)
  | .bind _ _ t b, rest => t.fvarsOnto (b.fvarsOnto rest)
  | .letE _ t v b, rest => t.fvarsOnto (v.fvarsOnto (b.fvarsOnto rest))
  | .pair a b, rest => a.fvarsOnto (b.fvarsOnto rest)
  | .proj _ p, rest => p.fvarsOnto rest
  | .bvar _, rest | .sort _, rest | .const .., rest => rest

/-- The free variables of a term. -/
def fvars (e : Term) : List Name :=
  (e.fvarsOnto []).eraseDups

/-- Whether a free variable occurs in the term. -/
def hasFvars : Term → Bool
  | .fvar _ => true
  | .app f a => f.hasFvars || a.hasFvars
  | .bind _ _ t b => t.hasFvars || b.hasFvars
  | .letE _ t v b => t.hasFvars || v.hasFvars || b.hasFvars
  | .pair a b => a.hasFvars || b.hasFvars
  | .proj _ p => p.hasFvars
  | .bvar _ | .sort _ | .const .. => false

/-- All occurrences of constants in front of a list, left to right. -/
def constsOnto : Term → List Name → List Name
  | .const n _, rest => n :: rest
  | .app f a, rest => f.constsOnto (a.constsOnto rest)
  | .bind _ _ t b, rest => t.constsOnto (b.constsOnto rest)
  | .letE _ t v b, rest => t.constsOnto (v.constsOnto (b.constsOnto rest))
  | .pair a b, rest => a.constsOnto (b.constsOnto rest)
  | .proj _ p, rest => p.constsOnto rest
  | .bvar _, rest | .fvar _, rest | .sort _, rest => rest

/-- The names of the constants of a term. -/
def consts (e : Term) : List Name :=
  (e.constsOnto []).eraseDups

/-- Whether every universe parameter of the term is among `params`. -/
@[simp] def paramsWithin (params : List Name) : Term → Bool
  | .sort l => l.paramsWithin params
  | .const _ ls => ls.all (·.paramsWithin params)
  | .app f a => f.paramsWithin params && a.paramsWithin params
  | .bind _ _ t b => t.paramsWithin params && b.paramsWithin params
  | .letE _ t v b => t.paramsWithin params && v.paramsWithin params && b.paramsWithin params
  | .pair a b => a.paramsWithin params && b.paramsWithin params
  | .proj _ p => p.paramsWithin params
  | .bvar _ | .fvar _ => true

end Term

end TypeTheory
