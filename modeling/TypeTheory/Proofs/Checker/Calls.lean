import TypeTheory.Declaration.Check
import TypeTheory.Proofs.Checker.Loops
import TypeTheory.Proofs.Reduction.Nesting

/-!
# The kernel as one recursion

`Invocation` lists the functions of the kernel that call each other, with what they are given. A
loop is a function that calls itself for the next round. `Checker.body` is what each of
them does if it may leave every call to a handler, so that nothing in it recurs, and has no
bound on its rounds or on its depth. `Checker.within` lets the functions call each other to
a given depth, and leaves the calls below it to another handler.

The functions of the kernel are a solution of this recursion (`Checker.run_eq_body`): each
of them is its body, with the functions themselves for the calls.
-/

namespace TypeTheory

open CheckM

/-- A call of a function of the kernel, which gives a result of this type. -/
inductive Invocation : Type → Type where
  /-- Weak-head reduction, or what remains of it after some rounds. -/
  | reduce (δ : Bool) (e : Term) (Γ : Context) : Invocation Term
  | whnf (e : Term) (Γ : Context) : Invocation Term
  | whnfCore (e : Term) (Γ : Context) : Invocation Term
  /-- The equations of a stack, or what remains of them after some rounds. -/
  | solve (stack : List Equation) : Invocation Bool
  | reduceEquation (q : Equation) : Invocation (Option (List Equation))
  /-- Unfolding of heads, or what remains of it after some rounds. -/
  | unfoldHeads (x y : Term) (Γ : Context) : Invocation Unfolding
  | conv (x y : Term) (Γ : Context) : Invocation Bool
  | ensureSort (type e : Term) (Γ : Context) : Invocation Level
  | ensurePi (type e : Term) (Γ : Context) : Invocation Binding
  | ensureSigma (type e : Term) (Γ : Context) : Invocation Binding
  | requireConv (found expected e : Term) (Γ : Context) : Invocation Unit
  | infer (e : Term) (Γ : Context) : Invocation Term
  | sortOf (e : Term) (Γ : Context) : Invocation Level
  | check (e expected : Term) (Γ : Context) : Invocation Unit
  | checkInferred (e expected : Term) (Γ : Context) : Invocation Unit
  | checkDeclaration (d : Declaration) : Invocation Unit

/-- How calls are answered. -/
abbrev Handler := (α : Type) → Invocation α → CheckM α

namespace Checker

variable (c : Checker)

/-- The functions of the kernel. -/
def run : Handler
  | _, .reduce δ e Γ => c.reduce δ Γ e
  | _, .whnf e Γ => c.whnf e Γ
  | _, .whnfCore e Γ => c.whnfCore e Γ
  | _, .solve stack => c.solveAll stack
  | _, .reduceEquation q => c.reduceEquation c.unfoldAll q
  | _, .unfoldHeads x y Γ => c.unfoldAll x y Γ
  | _, .conv x y Γ => c.conv x y Γ
  | _, .ensureSort type e Γ => c.ensureSort type e Γ
  | _, .ensurePi type e Γ => c.ensurePi type e Γ
  | _, .ensureSigma type e Γ => c.ensureSigma type e Γ
  | _, .requireConv found expected e Γ => c.requireConv found expected e Γ
  | _, .infer e Γ => c.infer e Γ
  | _, .sortOf e Γ => c.sortOf e Γ
  | _, .check e expected Γ => c.check e expected Γ
  | _, .checkInferred e expected Γ => c.checkInferred e expected Γ
  | _, .checkDeclaration d => c.checkDeclaration d

/-! ## Bodies -/

/-- One step at the head of a term, or `none` if no rule applies, given how the head of a
spine and the target of a projection are reduced. -/
def stepBy (δ : Bool) (Γ : Context) (reduce : Term → CheckM Term) : Term → CheckM (Option Term)
  | .letE _ _ v b => pure (some (b.instantiate v))
  | .bvar i =>
    match Γ[i]? with
    | none => throw (.looseIndex i)
    | some entry => pure (entry.value.map (·.shift 0 (i + 1)))
  | .proj k p => do
    let target ← reduce p
    pure (target.component? k)
  | .const n levels => pure (if δ then c.unfolded? (.const n levels) else none)
  | .app f a =>
    match (Term.app f a).spine with
    | (_, []) => pure none
    | (head, arg :: rest) => do
      let reduced ← reduce head
      pure (spineStep head arg rest reduced)
  | .fvar _ | .sort _ | .bind .. | .pair .. => pure none

/-- Unfolds the definition at the head of a term, given how its value is reduced. -/
def unfoldBy (reduce : Term → CheckM Term) (e : Term) : CheckM Term :=
  match c.unfolded? e with
  | some next => reduce next
  | none => pure e

/-- The parts of the binder that a type reduces to. -/
def bindingBy (call : Handler) (k : Binder) (error : KernelError) (type : Term) (Γ : Context) :
    CheckM Binding :=
  match type.binding? k with
  | some b => pure b
  | none => do
    match (← call _ (.whnf type Γ)).binding? k with
    | some b => pure b
    | none => throw error

/-- The type of a term by the rule for its outermost form. -/
def inferBody (call : Handler) : Term → Context → CheckM Term
  | .bvar i, Γ =>
    match Γ[i]? with
    | some entry => pure (entry.type.shift 0 (i + 1))
    | none => throw (.looseIndex i)
  | .fvar n, _ => throw (.freeVariable n)
  | .sort l, _ => pure (.sort l.succ)
  | .const n levels, _ => c.constType n levels
  | .app f a, Γ => do
    let fnType ← call _ (.infer f Γ)
    let fn ← call _ (.ensurePi fnType f Γ)
    call _ (.check a fn.domain Γ)
    pure (fn.body.instantiate a)
  | .lam n t b, Γ => do
    let _ ← call _ (.sortOf t Γ)
    let bodyType ← call _ (.infer b (Γ.push n t))
    pure (.pi n t bodyType)
  | .bind _ n t b, Γ => do
    let l ← call _ (.sortOf t Γ)
    let r ← call _ (.sortOf b (Γ.push n t))
    pure (.sort (Level.max l r).normalize)
  | .letE n t v b, Γ => do
    let _ ← call _ (.sortOf t Γ)
    call _ (.check v t Γ)
    let bodyType ← call _ (.infer b (Γ.pushLet n t v))
    pure (bodyType.instantiate v)
  | .pair a b, Γ => do
    let fstType ← call _ (.infer a Γ)
    let sndType ← call _ (.infer b Γ)
    pure (.prod fstType sndType)
  | .proj k p, Γ => do
    let pairType ← call _ (.infer p Γ)
    let pair ← call _ (.ensureSigma pairType p Γ)
    match k with
    | .fst => pure pair.domain
    | .snd => pure (pair.body.instantiate (.proj1 p))

/-- Checking by the rule for the outermost form. -/
def checkBody (call : Handler) : (e expected : Term) → Context → CheckM Unit
  | .lam n t b, expected, Γ => do
    match ← call _ (.whnf expected Γ) with
    | .pi _ t' b' => do
      let _ ← call _ (.sortOf t Γ)
      if ← call _ (.conv t t' Γ) then call _ (.check b b' (Γ.push n t))
      else call _ (.checkInferred (.lam n t b) expected Γ)
    | _ => call _ (.checkInferred (.lam n t b) expected Γ)
  | .letE n t v b, expected, Γ => do
    let _ ← call _ (.sortOf t Γ)
    call _ (.check v t Γ)
    call _ (.check b (expected.shift 0 1) (Γ.pushLet n t v))
  | .pair a b, expected, Γ => do
    match ← call _ (.whnf expected Γ) with
    | .sigma _ t u => do
      call _ (.check a t Γ)
      call _ (.check b (u.instantiate a) Γ)
    | _ => call _ (.checkInferred (.pair a b) expected Γ)
  | e, expected, Γ => call _ (.checkInferred e expected Γ)

/-- **What a function does**, with its calls left to a handler. -/
def body (call : Handler) : Handler
  | _, .reduce δ e Γ =>
    c.settle (fun x => call _ (.reduce δ x Γ)) e
      (c.stepBy δ Γ (fun x => call _ (.reduce δ x Γ)) e)
  | _, .whnf e Γ => c.remembered .whnf e do
    modify fun p => { p with whnfCalls := p.whnfCalls + 1 }
    call _ (.reduce true e Γ)
  | _, .whnfCore e Γ => c.remembered .core e (call _ (.reduce false e Γ))
  | _, .solve [] => pure true
  | _, .solve (q :: rest) => do
    c.tick
    match ← call _ (.reduceEquation q) with
    | none => pure false
    | some parts => call _ (.solve (parts ++ rest))
  | _, .reduceEquation q => do
    match q.lhs.quickEq? q.rhs with
    | some equal => pure (if equal then some [] else none)
    | none => do
      let x ← call _ (.whnfCore q.lhs q.context)
      let y ← call _ (.whnfCore q.rhs q.context)
      match x.quickEq? y with
      | some equal => pure (if equal then some [] else none)
      | none => do
        match ← call _ (.unfoldHeads x y q.context) with
        | .decided equal => pure (if equal then some [] else none)
        | .stuck x y => pure (x.parts? q.context y)
  | _, .unfoldHeads x y Γ => do
    c.tick
    match c.turn? x y with
    | none => pure (.stuck x y)
    | some turn => do
      let same ← (if turn = .both then
        sameSpine (fun a b => call _ (.solve [⟨a, b, Γ⟩])) x y else pure false)
      if same then pure (.decided true)
      else do
        let x ← (if turn = .right then pure x else c.unfoldBy (fun e => call _ (.whnfCore e Γ)) x)
        let y ← (if turn = .left then pure y else c.unfoldBy (fun e => call _ (.whnfCore e Γ)) y)
        match x.quickEq? y with
        | some equal => pure (.decided equal)
        | none => call _ (.unfoldHeads x y Γ)
  | _, .conv x y Γ => do
    modify fun p => { p with convCalls := p.convCalls + 1 }
    call _ (.solve [⟨x, y, Γ⟩])
  | _, .ensureSort type e Γ => do
    match type with
    | .sort l => pure l
    | _ => do
      match ← call _ (.whnf type Γ) with
      | .sort l => pure l
      | _ => throw (.notASort e type)
  | _, .ensurePi type e Γ => bindingBy call .pi (.notAFunction e type) type Γ
  | _, .ensureSigma type e Γ => bindingBy call .sigma (.notAPair e type) type Γ
  | _, .requireConv found expected e Γ => do
    if ← call _ (.conv found expected Γ) then pure () else throw (.typeMismatch e expected found)
  | _, .infer e Γ => c.remembered .type e do
    modify fun p => { p with inferCalls := p.inferCalls + 1 }
    c.inferBody call e Γ
  | _, .sortOf e Γ => do
    let type ← call _ (.infer e Γ)
    call _ (.ensureSort type e Γ)
  | _, .check e expected Γ => checkBody call e expected Γ
  | _, .checkInferred e expected Γ => do
    let found ← call _ (.infer e Γ)
    call _ (.requireConv found expected e Γ)
  | _, .checkDeclaration d => do
    match Declaration.repeated? [] d.params with
    | some n => throw (.duplicateUniverse n)
    | none => do
      d.requireClosed d.type
      let _ ← call _ (.sortOf d.type [])
      match d.value with
      | none => pure ()
      | some v => do
        d.requireClosed v
        call _ (.check v d.type [])

/-- The functions call each other to the given depth. Calls below it are left to
`beyond`. -/
def within (beyond : Handler) : (depth : Nat) → Handler
  | 0, _, q => beyond _ q
  | d + 1, _, q => c.body (within beyond d) _ q

/-! ## The functions solve the recursion -/

variable {c} {δ : Bool} {Γ : Context}

/-- A head step is one that leaves its reductions to the loop. -/
theorem headStep_reduce (e : Term) :
    c.headStep δ Γ (c.reduce δ Γ) e [] = c.stepBy δ Γ (c.reduce δ Γ) e := by
  cases e with
  | proj k p =>
    rw [stepBy, reduce_eq δ Γ p]
    rfl
  | app f a =>
    rcases hspine : (Term.app f a).spine with ⟨head, args⟩
    have happs := Term.eq_apps_of_spine hspine
    have hne (g b : Term) : head ≠ .app g b := by
      have hfst : head = (Term.app f a).head := by rw [← Term.spine_fst, hspine]
      rw [hfst]
      exact head_ne_app _ g b
    cases args with
    | nil => exact absurd happs.symm (hne f a)
    | cons arg rest =>
      have hhead := isHead_of_ne_app (c := c) (δ := δ) (Γ := Γ) hne c.limit (c.reduce δ Γ)
      rw [stepBy, hspine, happs, headStep_apps]
      refine (hhead (arg :: rest)).trans ?_
      rw [stepSpine_cons]
      dsimp only
      rw [reduce_eq δ Γ head]
  | bvar | fvar | sort | const | bind | letE | pair => rfl

/-- **What a step can ask for**: nothing, or the reduction of one smaller term. -/
theorem stepBy_cases (c : Checker) (δ : Bool) (Γ : Context) (e : Term) :
    (∃ o, ∀ reduce, c.stepBy δ Γ reduce e = pure o) ∨
    (∃ error, ∀ reduce, c.stepBy δ Γ reduce e = throw error) ∨
    ∃ (x : Term) (f : Term → Option Term), x.size < e.size ∧
      ∀ reduce, c.stepBy δ Γ reduce e = reduce x >>= fun r => pure (f r) := by
  cases e with
  | proj k target =>
    exact .inr (.inr ⟨target, (·.component? k), by simp only [Term.size]; omega, fun _ => rfl⟩)
  | app f a =>
    have hsize := Term.size_spine_lt f a
    simp only [stepBy]
    generalize (Term.app f a).spine = spine at hsize
    obtain ⟨head, args⟩ := spine
    cases args with
    | nil => exact .inl ⟨none, fun _ => rfl⟩
    | cons arg rest => exact .inr (.inr ⟨head, spineStep head arg rest, hsize, fun _ => rfl⟩)
  | bvar i =>
    simp only [stepBy]
    cases Γ[i]? with
    | none => exact .inr (.inl ⟨_, fun _ => rfl⟩)
    | some entry => exact .inl ⟨_, fun _ => rfl⟩
  | letE | const | fvar | sort | bind | pair => exact .inl ⟨_, fun _ => rfl⟩

/-- **Induction along a reduction**: on what is left to spend, and where nothing is spent on the
size of the term. -/
theorem reduction_induction {σ : Type} (left : σ → Nat) {motive : σ → Term → Prop}
    (step : ∀ s e, (∀ s' e', left s' < left s → motive s' e') →
      (∀ e' : Term, e'.size < e.size → motive s e') → motive s e) (s : σ) (e : Term) :
    motive s e := by
  induction hk : left s using Nat.strongRecOn generalizing s e with
  | _ k ihk =>
    induction hn : e.size using Nat.strongRecOn generalizing e with
    | _ n ihn =>
      subst hk
      subst hn
      exact step s e (fun s' e' hlt => ihk _ hlt s' e' rfl) fun e' hlt => ihn _ hlt e' rfl

/-- The rule of inference for a form is its body, with the kernel's own functions for the calls. -/
theorem inferNode_eq (e : Term) (Γ : Context) : c.inferNode e Γ = c.inferBody c.run e Γ := by
  cases e with
  | bind k n t b =>
    cases k with
    | lam =>
      rw [inferNode]
      rfl
    | pi | sigma =>
      rw [inferNode]
      · rfl
      · intro h
        cases h
  | _ =>
    rw [inferNode]
    rfl

/-- So is the rule of checking: functions, local definitions and pairs have theirs, and the rest is
inferred. -/
theorem check_eq (e expected : Term) (Γ : Context) :
    c.check e expected Γ = checkBody c.run e expected Γ := by
  cases e with
  | bind k n t b =>
    cases k with
    | lam =>
      rw [check]
      rfl
    | pi | sigma => exact check_eq_checkInferred (by trivial) expected Γ
  | letE | pair =>
    rw [check]
    rfl
  | _ => exact check_eq_checkInferred (by trivial) expected Γ

/-- **Every function is its body**, with the functions themselves for the calls. -/
theorem run_eq_body {α : Type} (q : Invocation α) : c.run α q = c.body c.run α q := by
  cases q with
  | reduce δ e Γ =>
    have hreduce := reduce_eq (c := c) δ Γ e
    rw [headStep_reduce] at hreduce
    exact hreduce
  | solve stack =>
    cases stack with
    | nil => exact solveAll_nil
    | cons q rest => exact solveAll_cons q rest
  | unfoldHeads x y Γ => exact unfoldAll_eq x y Γ
  | ensurePi type e Γ => exact ensurePi_eq type e Γ
  | ensureSigma type e Γ => exact ensureSigma_eq type e Γ
  | infer e Γ =>
    change c.infer e Γ = _
    rw [infer, inferNode_eq]
    rfl
  | sortOf e Γ =>
    change c.sortOf e Γ = _
    rw [sortOf]
    rfl
  | check e expected Γ => exact check_eq e expected Γ
  | checkInferred e expected Γ =>
    change c.checkInferred e expected Γ = _
    rw [checkInferred]
    rfl
  | _ => rfl

end Checker

end TypeTheory
