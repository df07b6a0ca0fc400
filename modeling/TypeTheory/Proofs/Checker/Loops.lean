import TypeTheory.Proofs.Reduction.Cost
import TypeTheory.Proofs.Simulation.View

/-!
# Loops without bounds

The loops of the kernel take a bound on their rounds, which is at least the number of steps
that remain. The bound is never what ends a loop: with any bound that is large enough a loop
does the same. So a loop satisfies the equation that it would have without a bound:
`Checker.reduce_eq` for reduction, `Checker.solveAll_cons` for the stack of equations and
`Checker.unfoldAll_eq` for the definitions at the heads of two terms.

All three are runs beside themselves in which the two sides have different bounds.
-/

namespace TypeTheory

open CheckM Correspondence

namespace Checker

variable {c : Checker} {δ : Bool} {Γ : Context} {e : Term} {n : Nat}

/-! ## A run beside itself with another bound -/

/-- A run beside itself, in any state. -/
abbrev anyRun (c : Checker) : Correspondence c c :=
  c.ownRuns fun _ => True

/-- Two runs of one checker from one state correspond, whatever bounds on their rounds they are
given. -/
theorem lawful_anyRun : c.anyRun.Lawful :=
  lawful_ownRuns (fun _ _ => trivial) (fun _ _ _ _ _ => trivial) fun _ _ _ _ _ _ _ _ _ => trivial

/-- **Runs that correspond from one state have one result.** -/
theorem eq_of_sim (c : Checker) {α : Type} {value : α → α → Prop} {m m' : CheckM α}
    {p : Progress} (hvalue : ∀ a a', value a a' → a = a') (hn : c.limit - p.steps ≤ n)
    (h : c.anyRun.Sim n n value m m') : m p = m' p := by
  have hout := h p p ⟨rfl, trivial⟩ hn hn
  cases hrun : m p with
  | ok a q =>
    cases hrun' : m' p with
    | ok a' q' =>
      rw [hrun, hrun'] at hout
      obtain ⟨ha, ⟨rfl, -⟩, -⟩ := hout
      rw [hvalue a a' ha]
    | error e q' =>
      rw [hrun, hrun'] at hout
      exact hout.elim
  | error e q =>
    cases hrun' : m' p with
    | ok a' q' =>
      rw [hrun, hrun'] at hout
      exact hout.1.elim
    | error e' q' =>
      rw [hrun, hrun'] at hout
      obtain hspent | ⟨rfl, ⟨rfl, -⟩, -⟩ := hout
      · exact hspent.1.elim
      · rfl

/-! ## Reduction -/

/-- With a bound that is large enough, a reduction does what it does. -/
theorem sim_reduceHead_reduce (n : Nat) (e : Term) :
    c.anyRun.Sim n n Eq (c.reduceHead δ Γ n e) (c.reduce δ Γ e) := by
  rintro p _ ⟨rfl, -⟩ hn -
  have hsim : c.anyRun.Sim n (c.limit - p.steps) Eq (c.reduceHead δ Γ n e)
      (c.reduceHead δ Γ (c.limit - p.steps) e) :=
    lawful_anyRun.sim_reduceHead (w := ()) rfl rfl
  exact hsim p p ⟨rfl, trivial⟩ hn (Nat.le_refl _)

section

variable {reduce reduce' : Term → CheckM Term} {step step' : CheckM (Option Term)}
  (hreduce : ∀ x, c.anyRun.Sim n n Eq (reduce x) (reduce' x))

include hreduce

/-- Settling on a term is in step with itself if what it goes on with is, for reducers that are. -/
theorem sim_settle_anyRun (hstep : c.anyRun.Sim n n Eq step step') (e : Term) :
    c.anyRun.Sim n n Eq (c.settle reduce e step) (c.settle reduce' e step') := by
  refine hstep.bind fun o o' ho => ?_
  cases ho
  cases o with
  | none => exact .pure rfl
  | some next => exact (lawful_anyRun.tick n n).bind fun _ _ _ => hreduce next

/-- Under a spine of arguments, too, a step with one bound is in step with the same step with
another. -/
theorem sim_stepSpine_anyRun (hstep : c.anyRun.Sim n n Eq step step') (head : Term)
    (args : List Term) :
    c.anyRun.Sim n n Eq (c.stepSpine reduce head args step)
      (c.stepSpine reduce' head args step') := by
  cases args with
  | nil => exact hstep
  | cons arg rest =>
    rw [stepSpine_cons, stepSpine_cons]
    refine (sim_settle_anyRun hreduce hstep head).bind fun r r' hr => ?_
    cases hr
    exact .pure rfl

/-- A head step does the same with reductions that do the same. -/
theorem sim_headStep_anyRun (e : Term) (args : List Term) :
    c.anyRun.Sim n n Eq (c.headStep δ Γ reduce e args) (c.headStep δ Γ reduce' e args) := by
  induction e generalizing args with
  | app f a ihf _ => exact ihf (a :: args)
  | proj k p ih =>
    refine sim_stepSpine_anyRun hreduce ?_ _ args
    refine (sim_settle_anyRun hreduce (ih []) p).bind fun target target' htarget => ?_
    cases htarget
    exact .pure rfl
  | bvar i =>
    refine sim_stepSpine_anyRun hreduce ?_ _ args
    split
    · exact .throw rfl
    · exact .pure rfl
  | letE | const | fvar | sort | bind | pair =>
    exact sim_stepSpine_anyRun hreduce (.pure rfl) _ args

end

/-- **A reduction is a head step, after which it goes on**, and so are the reductions that
the head step asks for. -/
theorem reduce_eq (δ : Bool) (Γ : Context) (e : Term) : c.reduce δ Γ e =
    c.settle (c.reduce δ Γ) e (c.headStep δ Γ (c.reduce δ Γ) e []) := by
  funext p
  -- a bound of one round more leaves enough rounds behind the first head step
  have hbound : c.reduceHead δ Γ (c.limit - p.steps + 1) e p = c.reduce δ Γ e p :=
    eq_of_sim c (fun _ _ h => h) (by omega) (sim_reduceHead_reduce _ e)
  have hround := sim_headStep_anyRun (δ := δ) (Γ := Γ)
    (sim_reduceHead_reduce (c := c) (δ := δ) (Γ := Γ) (c.limit - p.steps)) e []
  rw [← hbound]
  exact eq_of_sim c (fun _ _ h => h) (Nat.le_refl _)
    (sim_settle_anyRun (sim_reduceHead_reduce _) hround e)

/-! ## Conversion -/

/-- Whether all equations of a stack hold. -/
def solveAll (c : Checker) (stack : List Equation) : CheckM Bool := do
  c.solve (← c.remaining) stack

/-- Unfolds definitions at the heads of two terms until they are decided or neither has
one. -/
def unfoldAll (c : Checker) (x y : Term) (Γ : Context) : CheckM Unfolding := do
  c.unfoldHeads (← c.remaining) x y Γ

theorem forall₂_equation_refl (stack : List Equation) :
    List.Forall₂ c.anyRun.equation stack stack :=
  List.forall₂_same.mpr fun _ _ => ⟨(), rfl, rfl, rfl⟩

theorem eq_of_unfolding {u u' : Unfolding} (h : c.anyRun.unfolding () u u') : u = u' := by
  cases u with
  | decided equal =>
    cases u' with
    | decided equal' => exact congrArg Unfolding.decided h
    | stuck x' y' => exact h.elim
  | stuck x y =>
    cases u' with
    | decided equal' => exact h.elim
    | stuck x' y' =>
      obtain ⟨hx, hy⟩ := h
      exact congrArg₂ Unfolding.stuck hx hy

/-- With a bound that is large enough, the loop over a stack does what it does. -/
theorem sim_solve_solveAll (n : Nat) {stack stack' : List Equation}
    (hstack : List.Forall₂ c.anyRun.equation stack stack') :
    c.anyRun.Sim n n Eq (c.solve n stack) (c.solveAll stack') := by
  rintro p _ ⟨rfl, -⟩ hn -
  exact (lawful_anyRun.simLoops n (c.limit - p.steps)).solve hstack p p ⟨rfl, trivial⟩ hn
    (Nat.le_refl _)

/-- And so does the loop over two heads. -/
theorem sim_unfoldHeads_unfoldAll (n : Nat) (x y : Term) (Γ : Context) :
    c.anyRun.Sim n n (c.anyRun.unfolding ()) (c.unfoldHeads n x y Γ) (c.unfoldAll x y Γ) := by
  rintro p _ ⟨rfl, -⟩ hn -
  have hsim : c.anyRun.Sim n (c.limit - p.steps) (c.anyRun.unfolding ())
      (c.unfoldHeads n x y Γ) (c.unfoldHeads (c.limit - p.steps) x y Γ) :=
    (lawful_anyRun.simLoops n (c.limit - p.steps)).unfoldHeads rfl rfl rfl
  exact hsim p p ⟨rfl, trivial⟩ hn (Nat.le_refl _)

/-- With no equation left the loop ends at once, and all of them hold. -/
theorem solveAll_nil : c.solveAll [] = pure true := by
  funext p
  change c.solve (c.limit - p.steps) [] p = _
  rw [solve]

/-- **A round of the loop over a stack**: an equation is paid for and reduced, and the
equations between its parts take its place. -/
theorem solveAll_cons (q : Equation) (rest : List Equation) :
    c.solveAll (q :: rest) = (do
      c.tick
      match ← c.reduceEquation c.unfoldAll q with
      | none => pure false
      | some parts => c.solveAll (parts ++ rest)) := by
  funext p
  have hbound : c.solve (c.limit - p.steps + 1) (q :: rest) p = c.solveAll (q :: rest) p :=
    eq_of_sim c (fun _ _ h => h) (by omega) (sim_solve_solveAll _ (forall₂_equation_refl _))
  have hequation : c.anyRun.Sim (c.limit - p.steps) (c.limit - p.steps)
      (Option.Rel (List.Forall₂ c.anyRun.equation))
      (c.reduceEquation (c.unfoldHeads (c.limit - p.steps)) q)
      (c.reduceEquation c.unfoldAll q) := by
    refine lawful_anyRun.sim_reduceEquation ?_ ⟨(), rfl, rfl, rfl⟩
    rintro ⟨⟩ Γ _ x _ y _ rfl rfl rfl
    exact sim_unfoldHeads_unfoldAll _ x y Γ
  rw [← hbound, solve]
  refine eq_of_sim c (fun _ _ h => h) (Nat.le_refl _) ?_
  refine (lawful_anyRun.tick _ _).bind fun _ _ _ => hequation.bind fun o o' ho => ?_
  cases ho with
  | none => exact .pure rfl
  | some hparts =>
    exact sim_solve_solveAll _ (List.rel_append hparts (forall₂_equation_refl rest))

/-- **A round of the loop over two heads.** -/
theorem unfoldAll_eq (x y : Term) (Γ : Context) :
    c.unfoldAll x y Γ = (do
      c.tick
      match c.turn? x y with
      | none => pure (.stuck x y)
      | some turn => do
        let same ←
          (if turn = .both then sameSpine (fun a b => c.solveAll [⟨a, b, Γ⟩]) x y else pure false)
        if same then pure (.decided true)
        else do
          let x ← (if turn = .right then pure x else c.unfoldHead x Γ)
          let y ← (if turn = .left then pure y else c.unfoldHead y Γ)
          match x.quickEq? y with
          | some equal => pure (.decided equal)
          | none => c.unfoldAll x y Γ) := by
  funext p
  have hbound : c.unfoldHeads (c.limit - p.steps + 1) x y Γ p = c.unfoldAll x y Γ p :=
    eq_of_sim c (fun _ _ => eq_of_unfolding) (by omega) (sim_unfoldHeads_unfoldAll _ x y Γ)
  rw [← hbound, unfoldHeads]
  refine eq_of_sim c (fun _ _ => eq_of_unfolding (c := c)) (Nat.le_refl _) ?_
  refine (lawful_anyRun.tick _ _).bind fun _ _ _ => ?_
  cases c.turn? x y with
  | none => exact .pure ⟨rfl, rfl⟩
  | some turn =>
    -- the arguments of one definition are compared by the loop over a stack
    have hsame : c.anyRun.Sim (c.limit - p.steps) (c.limit - p.steps) Eq
        (if turn = .both then
          sameSpine (fun a b => c.solve (c.limit - p.steps) [⟨a, b, Γ⟩]) x y else pure false)
        (if turn = .both then sameSpine (fun a b => c.solveAll [⟨a, b, Γ⟩]) x y
          else pure false) := by
      split
      · refine lawful_anyRun.sim_sameSpine (w := ()) (fun a a' b b' ha hb => ?_) rfl rfl
        exact sim_solve_solveAll _ (.cons ⟨(), rfl, ha, hb⟩ .nil)
      · exact .pure rfl
    have hunfold (side : Turn) (z : Term) : c.anyRun.Sim (c.limit - p.steps) (c.limit - p.steps) Eq
        (if turn = side then pure z else c.unfoldHead z Γ)
        (if turn = side then pure z else c.unfoldHead z Γ) := by
      split
      · exact .pure rfl
      · exact lawful_anyRun.sim_unfoldHead (w := ()) rfl rfl
    refine hsame.bind fun same same' hsame => ?_
    cases hsame
    cases same with
    | true => exact .pure rfl
    | false =>
      refine (hunfold .right x).bind fun x₁ x₁' hx => ?_
      refine (hunfold .left y).bind fun y₁ y₁' hy => ?_
      cases hx
      cases hy
      cases x₁.quickEq? y₁ with
      | some equal => exact .pure rfl
      | none => exact sim_unfoldHeads_unfoldAll _ x₁ y₁ Γ

end Checker

end TypeTheory
