import TypeTheory.Typing

/-!
# Forms in typing

Two things that proofs about typing share. Functions, local definitions and pairs
are the forms with a rule for being checked; every other form is inferred, and
its type compared. And a dependent function type and a dependent pair type are
looked for in one way, which `Checker.ensureBinding` says once for both.
-/

namespace TypeTheory

/-! ## Checking by inference -/

/-- The form has no rule of its own for being checked against a type. -/
def Term.Inferred : Term → Prop
  | .lam .. | .letE .. | .pair .. => False
  | _ => True

namespace Checker

variable {c : Checker}

/-- A form without a rule of its own is checked by comparing its inferred type. -/
theorem check_eq_checkInferred {e : Term} (h : e.Inferred) (t : Term) (Γ : Context) :
    c.check e t Γ = c.checkInferred e t Γ := by
  cases e with
  | letE | pair => exact h.elim
  | bind k x u b =>
    cases k with
    | lam => exact h.elim
    | pi | sigma => rw [check] <;> (intros; rename_i heq; cases heq)
  | bvar | fvar | sort | const | app | proj =>
    rw [check] <;> (intros; rename_i heq; cases heq)

end Checker

/-! ## Expected binders -/

/-- The parts of a term whose outermost form is the given binder. -/
def Term.binding? (k : Binder) : Term → Option Binding
  | .bind k' x t b => if k' = k then some ⟨x, t, b⟩ else none
  | _ => none

/-- The binding that is found in a term is all of the term: the term is that binder over those
parts. -/
theorem Term.eq_bind_of_binding? {k : Binder} {e : Term} {b : Binding}
    (h : e.binding? k = some b) : e = .bind k b.name b.domain b.body := by
  unfold binding? at h
  split at h
  · split at h
    · rename_i hk
      cases h
      rw [hk]
    · cases h
  · cases h

namespace Checker

variable {c : Checker}

/-- The parts of the binder that a type reduces to. -/
def ensureBinding (c : Checker) (k : Binder) (error : KernelError) (t : Term) (Γ : Context) :
    CheckM Binding :=
  match t.binding? k with
  | some b => pure b
  | none => do
    match (← c.whnf t Γ).binding? k with
    | some b => pure b
    | none => throw error

/-- To look for a function type is to look for a dependent product, with the error that no function
was found. -/
theorem ensurePi_eq (t e : Term) (Γ : Context) :
    c.ensurePi t e Γ = c.ensureBinding .pi (.notAFunction e t) t Γ := by
  cases t with
  | bind k' x u b =>
    cases k' with
    | pi => rfl
    | lam | sigma =>
      refine bind_congr (x := c.whnf _ Γ) fun r => ?_
      cases r with
      | bind k' => cases k' <;> rfl
      | _ => rfl
  | _ =>
    refine bind_congr (x := c.whnf _ Γ) fun r => ?_
    cases r with
    | bind k' => cases k' <;> rfl
    | _ => rfl

/-- To look for a pair type is to look for a dependent sum, with the error that no pair was
found. -/
theorem ensureSigma_eq (t e : Term) (Γ : Context) :
    c.ensureSigma t e Γ = c.ensureBinding .sigma (.notAPair e t) t Γ := by
  cases t with
  | bind k' x u b =>
    cases k' with
    | sigma => rfl
    | lam | pi =>
      refine bind_congr (x := c.whnf _ Γ) fun r => ?_
      cases r with
      | bind k' => cases k' <;> rfl
      | _ => rfl
  | _ =>
    refine bind_congr (x := c.whnf _ Γ) fun r => ?_
    cases r with
    | bind k' => cases k' <;> rfl
    | _ => rfl

end Checker

end TypeTheory
