import TypeTheory.Proofs.Checker.Run
import TypeTheory.Reduction

/-!
# Reduction is deterministic

The value of a head step, and of a whole reduction, depends on the term and the
context alone: neither the steps spent so far nor the bound that a loop was given
decide what it gives, only whether it gives anything. Together with the fact that
a reduction ends in a term without a head step, it follows that a reduction that
has taken a step never comes back to the term it started from
(`Checker.ne_of_gives_reducer`). `Checker.stepSpine` compares a head with its
reduced form to see whether it has moved; by this theorem the comparison is right.
-/

namespace TypeTheory

open CheckM

/-- Two computations have at most one value between them. -/
def CheckM.Agree {α : Type} (m m' : CheckM α) : Prop :=
  ∀ a a', m.Gives a → m'.Gives a' → a = a'

namespace CheckM.Agree

variable {α β : Type}

theorem pure (a : α) : Agree (Pure.pure a) (Pure.pure a) := by
  intro b b' hb hb'
  rw [gives_pure hb, gives_pure hb']

theorem throw (e : KernelError) {m : CheckM α} : Agree (MonadExcept.throw e) m :=
  fun _ _ h => absurd h not_gives_throw

/-- Sequences agree if their first parts do and what follows one value agrees. -/
theorem bind {m m' : CheckM α} {f f' : α → CheckM β} (hm : Agree m m')
    (hf : ∀ a, Agree (f a) (f' a)) : Agree (m >>= f) (m' >>= f') := by
  intro b b' hb hb'
  obtain ⟨a, hma, hfa⟩ := gives_bind hb
  obtain ⟨a', hma', hfa'⟩ := gives_bind hb'
  rw [hm a a' hma hma'] at hfa
  exact hf a' b b' hfa hfa'

end CheckM.Agree

namespace Checker

variable {c : Checker} {Γ : Context} {δ : Bool}

theorem not_gives_exhaust {α : Type} {a : α} : ¬ Gives c.exhaust a := by
  intro h
  obtain ⟨_, _, hthrow⟩ := gives_bind h
  exact not_gives_throw hthrow

/-- How a reduction with the given bound goes on after a step. -/
def reducer (c : Checker) (δ : Bool) (Γ : Context) : (bound : Nat) → Term → CheckM Term
  | 0, _ => c.exhaust
  | n + 1, e => c.reduceHead δ Γ n e

/-- A reduction is a head step, after which it goes on. -/
theorem reduceHead_eq (n : Nat) (e : Term) : c.reduceHead δ Γ n e =
    c.settle (c.reducer δ Γ n) e (c.headStep δ Γ (c.reducer δ Γ n) e []) := by
  cases n <;> rfl

/-! ## One value -/

section

variable {reduce reduce' : Term → CheckM Term} {step step' : CheckM (Option Term)}

theorem agree_tick : Agree c.tick c.tick :=
  fun _ _ _ _ => rfl

/-- Settling agrees if the steps agree and the reducers do on whatever they are given. -/
theorem agree_settle (hreduce : ∀ x, Agree (reduce x) (reduce' x)) (hstep : Agree step step')
    (e : Term) : Agree (c.settle reduce e step) (c.settle reduce' e step') := by
  refine hstep.bind fun o => ?_
  cases o with
  | none => exact .pure e
  | some next => exact agree_tick.bind fun _ => hreduce next

/-- Under a spine of arguments, too, a step agrees with itself for reducers that agree. -/
theorem agree_stepSpine (hreduce : ∀ x, Agree (reduce x) (reduce' x)) (hstep : Agree step step')
    (head : Term) (args : List Term) :
    Agree (c.stepSpine reduce head args step) (c.stepSpine reduce' head args step') := by
  cases args with
  | nil => exact hstep
  | cons arg rest =>
    refine (agree_settle hreduce hstep head).bind fun reduced => ?_
    split
    · exact .pure _
    · exact .pure _

/-- **A head step has one value**, if the reductions it is given have. -/
theorem agree_headStep (hreduce : ∀ x, Agree (reduce x) (reduce' x)) (e : Term)
    (args : List Term) : Agree (c.headStep δ Γ reduce e args) (c.headStep δ Γ reduce' e args) := by
  induction e generalizing args with
  | app f a ihf _ => exact ihf (a :: args)
  | proj k p ih =>
    refine agree_stepSpine hreduce ?_ _ args
    exact (agree_settle hreduce (ih []) p).bind fun target => .pure _
  | letE n t v b => exact agree_stepSpine hreduce (.pure _) _ args
  | bvar i =>
    refine agree_stepSpine hreduce ?_ _ args
    split
    · exact .throw _
    · exact .pure _
  | const | fvar | sort | bind | pair => exact agree_stepSpine hreduce (.pure _) _ args

end

/-- **A reduction has one value**, whatever its bound. -/
theorem agree_reducer (n m : Nat) (e : Term) : Agree (c.reducer δ Γ n e) (c.reducer δ Γ m e) := by
  induction n generalizing m e with
  | zero => exact fun _ _ h => absurd h not_gives_exhaust
  | succ n ih =>
    cases m with
    | zero => exact fun _ _ _ h => absurd h not_gives_exhaust
    | succ m =>
      rw [reducer, reducer, reduceHead_eq, reduceHead_eq]
      exact agree_settle (ih m) (agree_headStep (ih m) e []) e

/-! ## No way back -/

/-- A reduction ends in a term without a head step. -/
theorem gives_headStep_none {n : Nat} {e r : Term} (h : (c.reducer δ Γ n e).Gives r) :
    ∃ m, (c.headStep δ Γ (c.reducer δ Γ m) r []).Gives none := by
  induction n generalizing e with
  | zero => exact absurd h not_gives_exhaust
  | succ n ih =>
    rw [reducer, reduceHead_eq] at h
    -- the last round of the loop is the one whose head step gave nothing
    obtain ⟨o, hstep, hrest⟩ := gives_bind h
    cases o with
    | none =>
      cases gives_pure hrest
      exact ⟨n, hstep⟩
    | some next =>
      obtain ⟨_, _, hnext⟩ := gives_bind hrest
      exact ih hnext

/-- **A reduction that has taken a step does not come back.** Its end has no head
step, and its start has one. -/
theorem ne_of_gives_reducer {n m : Nat} {e next r : Term}
    (hstep : (c.headStep δ Γ (c.reducer δ Γ n) e []).Gives (some next))
    (hr : (c.reducer δ Γ m next).Gives r) : r ≠ e := by
  intro h
  rw [h] at hr
  obtain ⟨k, hnone⟩ := gives_headStep_none hr
  exact nomatch agree_headStep (agree_reducer n k) e [] _ _ hstep hnone

end Checker

end TypeTheory
