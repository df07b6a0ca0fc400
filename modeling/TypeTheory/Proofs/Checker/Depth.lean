import TypeTheory.Proofs.Checker.Transparency

/-!
# How deep a failure lies

Typing goes under the binders of a term, and an error that it meets there carries terms
of the context inside them. `Checker.failureDepth` is the number of binders between a
request and the place where it fails. It follows the run: a sequence fails where the
first of its parts fails that does (`FailureDepth.bind`), and under a binder one more
binder is counted.

Reduction and conversion are not followed. They may go under binders too, but their errors
carry no terms.
-/

namespace TypeTheory

/-- The number of binders between the start of a computation and the place where it fails,
by the state that it starts in. It means nothing where the computation does not fail. -/
abbrev FailureDepth := Progress → Nat

namespace FailureDepth

/-- The failure lies outside the binders of the term. -/
def here : FailureDepth :=
  fun _ => 0

/-- The failure lies under one more binder. -/
def inside (depth : FailureDepth) : FailureDepth :=
  fun p => depth p + 1

/-- A sequence fails where its first part fails, and else where the rest does. -/
def bind {α : Type} (m : CheckM α) (first : FailureDepth) (rest : α → FailureDepth) :
    FailureDepth := fun p =>
  match m p with
  | .ok a q => rest a q
  | .error .. => first p

end FailureDepth

open FailureDepth

namespace Checker

variable (c : Checker)

mutual

/-- Where the type of `e` is not found. -/
def inferDepth (e : Term) (Γ : Context) : FailureDepth := fun p =>
  nodeDepth e Γ { p with inferCalls := p.inferCalls + 1 }
termination_by 4 * e.size + 1

/-- Where the type of `e` is not found or not as it should be. -/
def inferredDepth (e : Term) (Γ : Context) : FailureDepth :=
  bind (c.infer e Γ) (inferDepth e Γ) fun _ => here
termination_by 4 * e.size + 2

/-- Where the rule for the outermost form of `e` fails. -/
def nodeDepth (e : Term) (Γ : Context) : FailureDepth :=
  match e with
  | .app f a =>
    bind (c.infer f Γ) (inferDepth f Γ) fun fnType =>
      bind (c.ensurePi fnType f Γ) here fun fn => checkDepth a fn.domain Γ
  | .lam n t b =>
    bind (c.sortOf t Γ) (inferredDepth t Γ) fun _ => inside (inferDepth b (Γ.push n t))
  | .bind _ n t b =>
    bind (c.sortOf t Γ) (inferredDepth t Γ) fun _ => inside (inferredDepth b (Γ.push n t))
  | .letE n t v b =>
    bind (c.sortOf t Γ) (inferredDepth t Γ) fun _ =>
      bind (c.check v t Γ) (checkDepth v t Γ) fun _ => inside (inferDepth b (Γ.pushLet n t v))
  | .pair a b => bind (c.infer a Γ) (inferDepth a Γ) fun _ => inferDepth b Γ
  | .proj _ p => inferredDepth p Γ
  | .bvar _ | .fvar _ | .sort _ | .const .. => here
termination_by 4 * e.size

/-- Where `e` is found not to have the type `expected`. -/
def checkDepth (e expected : Term) (Γ : Context) : FailureDepth :=
  match e with
  | .lam n t b =>
    bind (c.whnf expected Γ) here fun
      | .pi _ t' b' =>
        bind (c.sortOf t Γ) (inferredDepth t Γ) fun _ =>
          bind (c.conv t t' Γ) here fun same =>
            if same then inside (checkDepth b b' (Γ.push n t)) else inferredDepth (.lam n t b) Γ
      | _ => inferredDepth (.lam n t b) Γ
  | .letE n t v b =>
    bind (c.sortOf t Γ) (inferredDepth t Γ) fun _ =>
      bind (c.check v t Γ) (checkDepth v t Γ) fun _ =>
        inside (checkDepth b (expected.shift 0 1) (Γ.pushLet n t v))
  | .pair a b =>
    bind (c.whnf expected Γ) here fun
      | .sigma _ t u =>
        bind (c.check a t Γ) (checkDepth a t Γ) fun _ => checkDepth b (u.instantiate a) Γ
      | _ => inferredDepth (.pair a b) Γ
  | e => inferredDepth e Γ
termination_by 4 * e.size + 3

end

/-- Where a request fails. -/
def failureDepth : Request → FailureDepth
  | .infer e Γ => c.inferDepth e Γ
  | .check e type Γ => c.checkDepth e type Γ
  | .whnf .. | .whnfCore .. | .normalize .. | .conv .. => here

end Checker

end TypeTheory
