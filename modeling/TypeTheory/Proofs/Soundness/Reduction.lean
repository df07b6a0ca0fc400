import TypeTheory.Proofs.Checker.Run
import TypeTheory.Proofs.Judgement
import TypeTheory.Reduction

/-!
# Reduction stays within conversion

Every head step is an instance of a rule of conversion, applied at the head of a
spine or at the target of a projection, so a weak-head normal form is
convertible to the term it was computed from. The argument is the same with and
without unfolding definitions. Nothing is asked of the term: an ill-typed term
reduces to convertible ones as well.
-/

namespace TypeTheory

open CheckM

namespace Checker

variable {c : Checker} {Γ : Context}

/-! ## Unfolding -/

/-- A term with its head unfolded is convertible to it. -/
theorem convertible_of_unfolded? {e next : Term} (h : c.unfolded? e = some next) :
    Convertible c.const? Γ e next := by
  unfold unfolded? at h
  split at h
  · rename_i n levels args hspine
    split at h
    · rename_i name params type v hconst
      split at h
      · rename_i hlen
        cases h
        rw [Term.eq_apps_of_spine hspine]
        exact (Convertible.delta hconst rfl hlen).apps_head args
      · cases h
    · cases h
  · cases h

/-! ## Head steps -/

variable {reduce : Term → CheckM Term}

/-- Taking a step and going on stays within conversion if both do. -/
theorem yields_settle {e : Term} {step : CheckM (Option Term)}
    (hreduce : ∀ x, Yields (reduce x) (Convertible c.const? Γ x))
    (hstep : Yields step fun o => ∀ next, o = some next → Convertible c.const? Γ e next) :
    Yields (c.settle reduce e step) (Convertible c.const? Γ e) := by
  refine hstep.bind fun o ho => ?_
  cases o with
  | none => exact .pure (.refl e)
  | some next =>
    refine yields_tick.andThen fun _ => (hreduce next).mono fun r hr => ?_
    exact (ho next rfl).trans hr

/-- A step of a head is a step of the spine: the reduced head is put back in
front of the arguments, or takes the first of them if it is a function. -/
theorem yields_stepSpine {head : Term} {args : List Term} {step : CheckM (Option Term)}
    (hreduce : ∀ x, Yields (reduce x) (Convertible c.const? Γ x))
    (hstep : Yields step fun o => ∀ next, o = some next → Convertible c.const? Γ head next) :
    Yields (c.stepSpine reduce head args step) fun o =>
      ∀ next, o = some next → Convertible c.const? Γ (head.apps args) next := by
  cases args with
  | nil => exact hstep
  | cons arg rest =>
    refine (yields_settle hreduce hstep).bind fun reduced hreduced => ?_
    have hspine : Convertible c.const? Γ (head.apps (arg :: rest)) (reduced.apps (arg :: rest)) :=
      hreduced.apps_head (arg :: rest)
    split
    · refine .pure fun next hnext => ?_
      cases hnext
      exact hspine.trans ((Convertible.beta _ _ _ arg).apps_head rest)
    · refine .pure fun next hnext => ?_
      split at hnext
      · cases hnext
      · cases hnext
        exact hspine

/-- **A head step is a rule of conversion.** By induction on the term: the head
of an application and the target of a projection are parts of it. -/
theorem yields_headStep {δ : Bool} (hreduce : ∀ x, Yields (reduce x) (Convertible c.const? Γ x))
    (e : Term) (args : List Term) :
    Yields (c.headStep δ Γ reduce e args) fun o =>
      ∀ next, o = some next → Convertible c.const? Γ (e.apps args) next := by
  induction e generalizing args with
  | app f a ihf _ => exact ihf (a :: args)
  | proj k p ih =>
    refine yields_stepSpine hreduce ?_
    refine (yields_settle hreduce (ih [])).bind fun target htarget => .pure fun next hnext => ?_
    exact (Convertible.proj htarget).trans (Convertible.component hnext)
  | letE n t v b =>
    refine yields_stepSpine hreduce (.pure fun next hnext => ?_)
    cases hnext
    exact Convertible.zeta n t v b
  | bvar i =>
    refine yields_stepSpine hreduce ?_
    split
    · exact .throw
    · rename_i entry hentry
      refine .pure fun next hnext => ?_
      obtain ⟨v, hv, rfl⟩ := Option.map_eq_some_iff.mp hnext
      exact Convertible.lookup hentry hv
  | const n levels =>
    refine yields_stepSpine hreduce (.pure fun next hnext => ?_)
    split at hnext
    · exact convertible_of_unfolded? hnext
    · cases hnext
  | fvar | sort | bind | pair =>
    exact yields_stepSpine hreduce (.pure fun next hnext => by cases hnext)

/-! ## Normal forms -/

theorem yields_reduceHead (δ : Bool) (n : Nat) (e : Term) :
    Yields (c.reduceHead δ Γ n e) (Convertible c.const? Γ e) := by
  induction n generalizing e with
  | zero =>
    have hspent : ∀ x, Yields c.exhaust (Convertible c.const? Γ x) := fun _ => yields_exhaust
    exact yields_settle hspent (yields_headStep hspent e [])
  | succ n ih => exact yields_settle ih (yields_headStep ih e [])

/-- **A weak-head normal form is convertible to its term.** -/
theorem yields_reduce (δ : Bool) (e : Term) :
    Yields (c.reduce δ Γ e) (Convertible c.const? Γ e) :=
  yields_remaining.andThen fun n => yields_reduceHead δ n e

variable (hc : c.memoize = false)

include hc

theorem yields_whnf (e : Term) : Yields (c.whnf e Γ) (Convertible c.const? Γ e) :=
  yields_remembered hc <|
    (yields_modify fun _ q => by cases q <;> rfl).andThen fun _ => yields_reduce true e

theorem yields_whnfCore (e : Term) : Yields (c.whnfCore e Γ) (Convertible c.const? Γ e) :=
  yields_remembered hc (yields_reduce false e)

end Checker

end TypeTheory
