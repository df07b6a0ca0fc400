import TypeTheory.Proofs.Term.Substitution
import TypeTheory.Term.Occurrence

/-!
# Spines

Taking a spine apart and putting it together again gives the term back, and the
head that `Term.head` finds is the head of the spine.
-/

namespace TypeTheory

namespace Term

@[simp] theorem apps_nil (f : Term) : f.apps [] = f := rfl

@[simp] theorem apps_cons (f a : Term) (args : List Term) :
    f.apps (a :: args) = (app f a).apps args := rfl

/-- **A spine put together is the term.** -/
theorem apps_spineOnto (e : Term) (args : List Term) :
    (e.spineOnto args).1.apps (e.spineOnto args).2 = e.apps args := by
  induction e generalizing args with
  | app f a ihf _ => exact ihf (a :: args)
  | _ => rfl

/-- A spine that was taken apart is put together again to the same term. -/
theorem apps_spine (e : Term) : e.spine.1.apps e.spine.2 = e :=
  apps_spineOnto e []

/-- The term is the head of its spine applied to the arguments. -/
theorem eq_apps_of_spine {e f : Term} {args : List Term} (h : e.spine = (f, args)) :
    e = f.apps args := by
  have := apps_spine e
  rw [h] at this
  exact this.symm

theorem spineOnto_fst (e : Term) (args : List Term) : (e.spineOnto args).1 = e.head := by
  induction e generalizing args with
  | app f a ihf _ => exact ihf (a :: args)
  | _ => rfl

/-- The head that is found by itself is the head of the spine. -/
theorem spine_fst (e : Term) : e.spine.1 = e.head :=
  spineOnto_fst e []

end Term

end TypeTheory
