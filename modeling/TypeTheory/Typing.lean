import TypeTheory.Conversion

/-!
# Typing

`Checker.infer` finds the type of a term and `Checker.check` compares a term with
an expected type. Functions, local definitions and pairs are checked part by
part against the expected type; everything else is inferred and its type
compared with the expected one by conversion. A sort lives in the next sort, and
a dependent function or pair type in the maximum of the sorts of its parts.

Both recurse on the term, so they end whatever the environment holds.
-/

namespace TypeTheory

/-- A binding form taken apart: display name, domain and body. -/
structure Binding where
  name : Name
  domain : Term
  body : Term
  deriving DecidableEq, Inhabited, Repr

namespace Checker

variable (c : Checker)

/-! ## Expected shapes -/

/-- The level of the sort that `type`, the type of `e`, reduces to. -/
def ensureSort (type e : Term) (Γ : Context) : CheckM Level := do
  match type with
  | .sort l => pure l
  | _ => do
    match ← c.whnf type Γ with
    | .sort l => pure l
    | _ => throw (.notASort e type)

/-- The dependent function type that `type`, the type of `e`, reduces to. -/
def ensurePi (type e : Term) (Γ : Context) : CheckM Binding := do
  match type with
  | .pi n t b => pure ⟨n, t, b⟩
  | _ => do
    match ← c.whnf type Γ with
    | .pi n t b => pure ⟨n, t, b⟩
    | _ => throw (.notAFunction e type)

/-- The dependent pair type that `type`, the type of `e`, reduces to. -/
def ensureSigma (type e : Term) (Γ : Context) : CheckM Binding := do
  match type with
  | .sigma n t b => pure ⟨n, t, b⟩
  | _ => do
    match ← c.whnf type Γ with
    | .sigma n t b => pure ⟨n, t, b⟩
    | _ => throw (.notAPair e type)

/-- Requires `found`, the type of `e`, to be convertible to `expected`. -/
def requireConv (found expected e : Term) (Γ : Context) : CheckM Unit := do
  if ← c.conv found expected Γ then pure () else throw (.typeMismatch e expected found)

/-- The type of a constant at the given levels. -/
def constType (name : Name) (levels : List Level) : CheckM Term :=
  match c.const? name with
  | none => throw (.unknownConstant name)
  | some d =>
    if d.params.length = levels.length then
      pure (d.type.substLevels (d.params.zip levels))
    else throw (.universeArity name d.params.length levels.length)

/-! ## Inference and checking -/

mutual

/-- The type of `e` in `Γ`. -/
def infer (e : Term) (Γ : Context) : CheckM Term :=
  c.remembered .type e do
    modify fun p => { p with inferCalls := p.inferCalls + 1 }
    inferNode e Γ
termination_by 4 * e.size + 1

/-- The level of the sort that `e` lives in. -/
def sortOf (e : Term) (Γ : Context) : CheckM Level := do
  let type ← infer e Γ
  c.ensureSort type e Γ
termination_by 4 * e.size + 2

/-- The type of `e` by the rule for its outermost form. -/
def inferNode (e : Term) (Γ : Context) : CheckM Term := do
  match e with
  | .bvar i =>
    match Γ[i]? with
    | some entry => pure (entry.type.shift 0 (i + 1))
    | none => throw (.looseIndex i)
  | .fvar n => throw (.freeVariable n)
  | .sort l => pure (.sort l.succ)
  | .const n levels => c.constType n levels
  | .app f a => do
    let fnType ← infer f Γ
    let fn ← c.ensurePi fnType f Γ
    check a fn.domain Γ
    pure (fn.body.instantiate a)
  | .lam n t b => do
    let _ ← sortOf t Γ
    let bodyType ← infer b (Γ.push n t)
    pure (.pi n t bodyType)
  | .bind _ n t b => do
    let l ← sortOf t Γ
    let r ← sortOf b (Γ.push n t)
    pure (.sort (Level.max l r).normalize)
  | .letE n t v b => do
    let _ ← sortOf t Γ
    check v t Γ
    let bodyType ← infer b (Γ.pushLet n t v)
    pure (bodyType.instantiate v)
  | .pair a b => do
    let fstType ← infer a Γ
    let sndType ← infer b Γ
    pure (.prod fstType sndType)
  | .proj k p => do
    let pairType ← infer p Γ
    let pair ← c.ensureSigma pairType p Γ
    match k with
    | .fst => pure pair.domain
    | .snd => pure (pair.body.instantiate (.proj1 p))
termination_by 4 * e.size

/-- Requires the inferred type of `e` to be convertible to `expected`. -/
def checkInferred (e expected : Term) (Γ : Context) : CheckM Unit := do
  let found ← infer e Γ
  c.requireConv found expected e Γ
termination_by 4 * e.size + 2

/-- Requires `e` to have the type `expected` in `Γ`. -/
def check (e expected : Term) (Γ : Context) : CheckM Unit := do
  match e with
  | .lam n t b => do
    match ← c.whnf expected Γ with
    | .pi _ t' b' => do
      let _ ← sortOf t Γ
      if ← c.conv t t' Γ then check b b' (Γ.push n t)
      else checkInferred (.lam n t b) expected Γ
    | _ => checkInferred (.lam n t b) expected Γ
  | .letE n t v b => do
    let _ ← sortOf t Γ
    check v t Γ
    check b (expected.shift 0 1) (Γ.pushLet n t v)
  | .pair a b => do
    match ← c.whnf expected Γ with
    | .sigma _ t u => do
      check a t Γ
      check b (u.instantiate a) Γ
    | _ => checkInferred (.pair a b) expected Γ
  | e => checkInferred e expected Γ
termination_by 4 * e.size + 3

end

end Checker

end TypeTheory
