import TypeTheory.Name

/-!
# Universe levels

Levels index the hierarchy of sorts. They are built from zero, parameters,
successor, maximum and the impredicative maximum `imax`, which is zero when its
right side is. The hierarchy is not cumulative, so the only question asked of
two levels is whether they are equal; `TypeTheory.Level.Normal` answers it by
canonical forms.

Functions here walk a chain of successors in a loop, because such a chain is
the one part of a level that is long in practice.
-/

namespace TypeTheory

/-- A universe level. The order of the constructors is the order in which
canonical forms list their parts. -/
inductive Level where
  | zero
  | param (name : Name)
  | succ (level : Level)
  | max (a b : Level)
  | imax (a b : Level)
  deriving DecidableEq, Inhabited, Repr

namespace Level

/-! ## Offsets -/

/-- The level `l` with `k` successors on top. -/
def addOffset (l : Level) : Nat → Level
  | 0 => l
  | k + 1 => l.succ.addOffset k

/-- The level of a natural number. -/
def ofNat (n : Nat) : Level :=
  zero.addOffset n

/-- The level under all leading successors, and their number added to `k`. -/
def splitFrom (k : Nat) : Level → Level × Nat
  | succ l => l.splitFrom (k + 1)
  | l => (l, k)

/-- Splits `l` into a level that is no successor and the number of successors
on top of it. -/
def split (l : Level) : Level × Nat :=
  l.splitFrom 0

/-! ## Order -/

/-- The total order of levels: by outermost constructor, then by arguments from
left to right. -/
def cmp : Level → Level → Ordering
  | zero, zero => .eq
  | zero, _ => .lt
  | param _, zero => .gt
  | param m, param n => m.cmp n
  | param _, _ => .lt
  | succ _, zero | succ _, param _ => .gt
  | succ a, succ b => cmp a b
  | succ _, _ => .lt
  | max a b, max c d => (cmp a c).then (cmp b d)
  | max .., imax .. => .lt
  | max .., _ => .gt
  | imax a b, imax c d => (cmp a c).then (cmp b d)
  | imax .., _ => .gt

/-! ## Parameters -/

/-- Values for universe parameters. The first entry of a name counts. -/
abbrev Assignment := List (Name × Level)

/-- Replaces every parameter that has a value in `σ`. -/
def subst (σ : Assignment) : Level → Level
  | zero => zero
  | param n => (σ.lookup n).getD (param n)
  | succ l => succ (l.subst σ)
  | max a b => max (a.subst σ) (b.subst σ)
  | imax a b => imax (a.subst σ) (b.subst σ)

/-- Whether every parameter of the level is among `params`. -/
def paramsWithin (params : List Name) : Level → Bool
  | zero => true
  | param n => params.contains n
  | succ l => l.paramsWithin params
  | max a b | imax a b => a.paramsWithin params && b.paramsWithin params

/-! ## Text and hash -/

/-- The text of a base with `k` successors on top of it. -/
def offsetText (base : String) (k : Nat) : String :=
  if k = 0 then base else base ++ "+" ++ toString k

/-- The text of a level with `k` more successors on top: a number, or a base
with its offset. -/
def textFrom (k : Nat) : Level → String
  | zero => toString k
  | param n => offsetText n.text k
  | succ l => l.textFrom (k + 1)
  | max a b => offsetText ("(max " ++ a.textFrom 0 ++ " " ++ b.textFrom 0 ++ ")") k
  | imax a b => offsetText ("(imax " ++ a.textFrom 0 ++ " " ++ b.textFrom 0 ++ ")") k

/-- The text of a level. -/
def text (l : Level) : String :=
  l.textFrom 0

/-- A hash of a level with `k` more successors on top. -/
def hashFrom (k : Nat) : Level → UInt64
  | zero => mixWords 13 k.toUInt64
  | param n => mixWords (mixWords 17 n.hash) k.toUInt64
  | succ l => l.hashFrom (k + 1)
  | max a b => mixWords (mixWords (mixWords 19 (a.hashFrom 0)) (b.hashFrom 0)) k.toUInt64
  | imax a b => mixWords (mixWords (mixWords 23 (a.hashFrom 0)) (b.hashFrom 0)) k.toUInt64

/-- A hash of a level. -/
protected def hash (l : Level) : UInt64 :=
  l.hashFrom 0

/-- A hash of a list of levels. -/
def listHash (levels : List Level) : UInt64 :=
  levels.foldl (fun h l => mixWords h l.hash) 11

end Level

end TypeTheory
