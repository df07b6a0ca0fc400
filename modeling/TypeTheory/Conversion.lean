import TypeTheory.Level.Normal
import TypeTheory.Reduction
import TypeTheory.Term.Alpha

/-!
# Conversion

Two terms are convertible when reduction and equality of universe levels make
them alpha-equal. Conversion is decided on a stack of equations, all of which
must hold. An equation is decided at once where its sides are alpha-equal or
both sorts; otherwise both sides are brought to weak-head normal form without
delta, definitions at their heads are unfolded one at a time, and what remains
is taken apart into equations between parts. There is no eta rule.

`Checker.unfoldHeads` unfolds the definition that was declared later. If both
sides have the same definition at the head, the arguments are compared before it
is unfolded. Every equation taken from the stack and every round of unfolding
pays for a step, so the steps that remain bound both loops.
-/

namespace TypeTheory

/-- Two terms to be compared in a context. -/
structure Equation where
  lhs : Term
  rhs : Term
  context : Context
  deriving DecidableEq, Inhabited, Repr

/-- Which of two terms has its head unfolded. -/
inductive Turn where
  | left
  | right
  | both
  deriving DecidableEq, Inhabited, Repr

/-- What unfolding the heads of two terms comes to. -/
inductive Unfolding where
  /-- The terms were found equal or different. -/
  | decided (equal : Bool)
  /-- Neither term has a definition at its head. -/
  | stuck (lhs rhs : Term)
  deriving DecidableEq, Inhabited, Repr

namespace Term

/-- Comparison without reduction: alpha-equal terms are equal, and two sorts are
compared by their levels. -/
def quickEq? (x y : Term) : Option Bool :=
  if AlphaEq x y then some true
  else match x, y with
    | .sort l, .sort r => some (l.equiv r)
    | _, _ => none

/-- Whether two terms are the same variable, or the same constant at equal
levels. -/
def sameAtom : Term → Term → Bool
  | .const m ls, .const n rs => m = n && Level.equivAll ls rs
  | .bvar i, .bvar j => i = j
  | .fvar m, .fvar n => m = n
  | _, _ => false

/-- The equations between parts that make two terms equal. The last argument of
a spine comes first, and a body comes before its domain. -/
def parts? (Γ : Context) (x y : Term) : Option (List Equation) :=
  if x.sameAtom y then some []
  else match x, y with
    | .app .., .app .. =>
      let (f, as) := x.spine
      let (g, bs) := y.spine
      if as.length = bs.length then
        some ((List.zipWith (⟨·, ·, Γ⟩) as bs).reverse ++ [⟨f, g, Γ⟩])
      else none
    | .bind k n t b, .bind k' _ u b' =>
      if k = k' then some [⟨b, b', Γ.push n t⟩, ⟨t, u, Γ⟩] else none
    | .pair a b, .pair a' b' => some [⟨b, b', Γ⟩, ⟨a, a', Γ⟩]
    | .proj k p, .proj k' q => if k = k' then some [⟨p, q, Γ⟩] else none
    | _, _ => none

end Term

namespace Checker

variable (c : Checker)

/-- Compares two lists of terms from left to right, up to the first difference. -/
def allEqual (equal : Term → Term → CheckM Bool) : List Term → List Term → CheckM Bool
  | a :: as, b :: bs => do
    if ← equal a b then allEqual equal as bs else pure false
  | _, _ => pure true

/-- Whether two spines have the same constant as head and equal arguments. -/
def sameSpine (equal : Term → Term → CheckM Bool) (x y : Term) : CheckM Bool :=
  let (f, as) := x.spine
  let (g, bs) := y.spine
  if as.length = bs.length && f.sameAtom g then allEqual equal as bs else pure false

/-- Unfolds the definition at the head of `e` and reduces without delta. -/
def unfoldHead (e : Term) (Γ : Context) : CheckM Term :=
  match c.unfolded? e with
  | some next => c.whnfCore next Γ
  | none => pure e

/-- Which heads of two terms unfold next, or `none` if neither is a definition:
the later declared one, or both if they are the same. -/
def turn? (x y : Term) : Option Turn :=
  match c.definition? x, c.definition? y with
  | none, none => none
  | some _, none => some .left
  | none, some _ => some .right
  | some d, some d' =>
    if d.name = d'.name then some .both
    else match c.constPosition? d.name, c.constPosition? d'.name with
      | some i, some j => some (if i < j then .right else .left)
      | _, _ => some .left

/-- One equation: the equations that remain to be solved for it, or `none` if it
does not hold. -/
def reduceEquation (unfoldHeads : Term → Term → Context → CheckM Unfolding) (q : Equation) :
    CheckM (Option (List Equation)) := do
  match q.lhs.quickEq? q.rhs with
  | some equal => pure (if equal then some [] else none)
  | none => do
    let x ← c.whnfCore q.lhs q.context
    let y ← c.whnfCore q.rhs q.context
    match x.quickEq? y with
    | some equal => pure (if equal then some [] else none)
    | none => do
      match ← unfoldHeads x y q.context with
      | .decided equal => pure (if equal then some [] else none)
      | .stuck x y => pure (x.parts? q.context y)

mutual

/-- Whether all equations of a stack hold. The bound is at least the number of
steps that remain. -/
def solve : (bound : Nat) → List Equation → CheckM Bool
  | _, [] => pure true
  | 0, _ :: _ => c.exhaust
  | n + 1, q :: rest => do
    c.tick
    match ← c.reduceEquation (unfoldHeads n) q with
    | none => pure false
    | some parts => solve n (parts ++ rest)

/-- Unfolds definitions at the heads of two terms until they are decided or
neither has one. -/
def unfoldHeads : (bound : Nat) → Term → Term → Context → CheckM Unfolding
  | 0, _, _, _ => c.exhaust
  | n + 1, x, y, Γ => do
    c.tick
    match c.turn? x y with
    | none => pure (.stuck x y)
    | some turn => do
      let same ←
        (if turn = .both then sameSpine (fun a b => solve n [⟨a, b, Γ⟩]) x y else pure false)
      if same then pure (.decided true)
      else do
        let x ← (if turn = .right then pure x else c.unfoldHead x Γ)
        let y ← (if turn = .left then pure y else c.unfoldHead y Γ)
        match x.quickEq? y with
        | some equal => pure (.decided equal)
        | none => unfoldHeads n x y Γ

end

/-- Whether `x` and `y` are convertible in `Γ`. -/
def conv (x y : Term) (Γ : Context) : CheckM Bool := do
  modify fun p => { p with convCalls := p.convCalls + 1 }
  c.solve (← c.remaining) [⟨x, y, Γ⟩]

end Checker

end TypeTheory
