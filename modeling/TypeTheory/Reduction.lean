import TypeTheory.Checker.Basic
import TypeTheory.Term.Occurrence
import TypeTheory.Term.Substitution

/-!
# Reduction

Weak-head reduction works at the head of a spine of applications:

- beta: `(fun x => b) a` becomes `b` with `a` for `x`;
- zeta: `let x := v; b` becomes `b` with `v` for `x`, and a variable whose entry
  in the context carries a value becomes that value;
- delta: a visible definition becomes its value at the given levels;
- iota: a projection of a pair becomes the component.

The head of a spine and the target of a projection are reduced completely before
the spine or the projection itself takes a step. `Checker.headStep` is one step,
given how to finish a reduction; `Checker.reduceHead` repeats it, bounded by the
steps that remain. `Checker.whnf` and `Checker.whnfCore`, without delta, remember
their results.

`Checker.normalizeWithin` reduces under binders and in arguments too. A
remembered result costs no step, so the budget does not bound its nesting, and
it takes the nesting it may use as an argument.
-/

namespace TypeTheory

namespace Checker

variable (c : Checker)

/-! ## Unfolding definitions -/

/-- The visible definition that the head of `e` names at the right number of
levels. -/
def definition? (e : Term) : Option Declaration :=
  match e.head with
  | .const n levels =>
    (c.const? n).filter fun d => d.value.isSome && d.params.length = levels.length
  | _ => none

/-- The term with the definition at its head unfolded once. -/
def unfolded? (e : Term) : Option Term :=
  match e.spine with
  | (.const n levels, args) =>
    match c.const? n with
    | some { params, value := some v, .. } =>
      if params.length = levels.length then
        some ((v.substLevels (params.zip levels)).apps args)
      else none
    | _ => none
  | _ => none

/-! ## Weak-head reduction -/

/-- Takes the step, if there is one, and goes on with `reduce`. -/
@[inline] def settle (reduce : Term → CheckM Term) (e : Term) (step : CheckM (Option Term)) :
    CheckM Term := do
  match ← step with
  | none => pure e
  | some next => do
    c.tick
    reduce next

/-- A step of `head` applied to `args`, given the step of `head` alone. A head
with arguments is reduced completely first. -/
@[inline] def stepSpine (reduce : Term → CheckM Term) (head : Term) (args : List Term)
    (step : CheckM (Option Term)) : CheckM (Option Term) :=
  match args with
  | [] => step
  | arg :: rest => do
    let reduced ← c.settle reduce head step
    match reduced with
    | .lam _ _ body => pure (some ((body.instantiate arg).apps rest))
    | _ => pure (if reduced = head then none else some (reduced.apps args))

/-- One step at the head of `e` applied to `args`, or `none` if no rule applies.
`δ` says whether definitions unfold. -/
def headStep (δ : Bool) (Γ : Context) (reduce : Term → CheckM Term) :
    (e : Term) → (args : List Term) → CheckM (Option Term)
  | .app f a, args => headStep δ Γ reduce f (a :: args)
  | .proj k p, args => c.stepSpine reduce (.proj k p) args do
    let target ← c.settle reduce p (headStep δ Γ reduce p [])
    pure (target.component? k)
  | .letE n t v b, args =>
    c.stepSpine reduce (.letE n t v b) args (pure (some (b.instantiate v)))
  | .bvar i, args => c.stepSpine reduce (.bvar i) args do
    match Γ[i]? with
    | none => throw (.looseIndex i)
    | some entry => pure (entry.value.map (·.shift 0 (i + 1)))
  | .const n levels, args =>
    c.stepSpine reduce (.const n levels) args
      (pure (if δ then c.unfolded? (.const n levels) else none))
  | e, args => c.stepSpine reduce e args (pure none)

/-- Repeats head steps until no rule applies. The bound is at least the number
of steps that remain. -/
def reduceHead (δ : Bool) (Γ : Context) : (bound : Nat) → Term → CheckM Term
  | 0, e => c.settle (fun _ => c.exhaust) e (c.headStep δ Γ (fun _ => c.exhaust) e [])
  | n + 1, e =>
    c.settle (reduceHead δ Γ n) e (c.headStep δ Γ (reduceHead δ Γ n) e [])

/-- The weak-head normal form of `e`, with or without unfolding definitions. -/
def reduce (δ : Bool) (Γ : Context) (e : Term) : CheckM Term := do
  c.reduceHead δ Γ (← c.remaining) e

/-- The weak-head normal form of `e`. -/
def whnf (e : Term) (Γ : Context) : CheckM Term :=
  c.remembered .whnf e do
    modify fun p => { p with whnfCalls := p.whnfCalls + 1 }
    c.reduce true Γ e

/-- The weak-head normal form of `e` without unfolding definitions. -/
def whnfCore (e : Term) (Γ : Context) : CheckM Term :=
  c.remembered .core e (c.reduce false Γ e)

/-! ## Full normal forms -/

/-- The normal form of `e`, if it is found within the given nesting: the
weak-head normal form with all its parts in normal form. -/
def normalizeWithin : (depth : Nat) → Term → Context → OptionT CheckM Term
  | 0, _, _ => failure
  | d + 1, e, Γ => do
    let w ← c.whnf e Γ
    match w with
    | .bind k n t b => do
      let t' ← normalizeWithin d t Γ
      let b' ← normalizeWithin d b (Γ.push n t)
      pure (.bind k n t' b')
    | .app .. => do
      let (head, args) := w.spine
      let head' ← normalizeWithin d head Γ
      let args' ← args.mapM fun a => normalizeWithin d a Γ
      pure (head'.apps args')
    | .pair a b => do
      let a' ← normalizeWithin d a Γ
      let b' ← normalizeWithin d b Γ
      pure (.pair a' b')
    | .proj k p => do
      let p' ← normalizeWithin d p Γ
      pure (.proj k p')
    | _ => pure w

/-- The nesting that normalization may use. -/
def nestingLimit : Nat :=
  0x100000000

/-- The normal form of `e`, unless it is nested too deeply. -/
def normalize (e : Term) (Γ : Context) : CheckM (Option Term) :=
  (c.normalizeWithin nestingLimit e Γ).run

end Checker

end TypeTheory
