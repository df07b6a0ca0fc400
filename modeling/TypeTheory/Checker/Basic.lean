import Std.Data.HashMap
import TypeTheory.Context
import TypeTheory.Environment.Basic

/-!
# The checker and its budget

A `Checker` fixes what a run of the kernel looks at: an environment, how much of
it is visible, how many reduction steps may be spent, and whether results are
remembered. `Progress` is what moves while it runs: the steps spent, the number
of calls, and three tables of remembered results. A computation in `CheckM`
keeps its progress also when it fails.

Every reduction step is paid for by `Checker.tick`. Since the counter never goes
down, the steps that remain bound every loop of the kernel; a loop that takes
this bound as its argument ends by `Checker.exhaust` when the bound is zero,
where `tick` fails as well.
-/

namespace TypeTheory

/-! ## Remembered results -/

/-- Results remembered by term. -/
structure Memo where
  results : Std.HashMap Term Term := {}

namespace Memo

/-- The remembered result for `e`. An empty table is not searched. -/
def find? (m : Memo) (e : Term) : Option Term :=
  if m.results.isEmpty then none else m.results[e]?

def insert (m : Memo) (e result : Term) : Memo :=
  { results := m.results.insert e result }

def size (m : Memo) : Nat :=
  m.results.size

end Memo

/-- What a remembered result is: a weak-head normal form, one without unfolding
definitions, or a type. -/
inductive Query where
  | whnf
  | core
  | type
  deriving DecidableEq, Inhabited, Repr

/-! ## Checkers -/

/-- What a run of the kernel looks at. -/
structure Checker where
  env : Environment
  /-- Declarations from this position on are not seen. -/
  visible : Nat
  /-- The number of reduction steps that may be spent. -/
  limit : Nat
  /-- Whether results for closed terms are remembered. -/
  memoize : Bool := true

/-- What moves while a checker runs. -/
structure Progress where
  steps : Nat := 0
  inferCalls : Nat := 0
  whnfCalls : Nat := 0
  convCalls : Nat := 0
  whnf : Memo := {}
  core : Memo := {}
  type : Memo := {}

/-- A computation of the kernel. -/
abbrev CheckM := EStateM KernelError Progress

namespace Progress

/-- The table of results of one kind. -/
def memo (p : Progress) : Query → Memo
  | .whnf => p.whnf
  | .core => p.core
  | .type => p.type

/-- Remembers one result. -/
def remember (p : Progress) (q : Query) (e result : Term) : Progress :=
  match q with
  | .whnf => { p with whnf := p.whnf.insert e result }
  | .core => { p with core := p.core.insert e result }
  | .type => { p with type := p.type.insert e result }

end Progress

namespace Checker

/-- The number of steps that a checker may spend unless told otherwise. -/
def defaultLimit : Nat :=
  1000000

/-- A checker that sees a whole environment and remembers results. -/
def ofEnvironment (env : Environment) (limit : Nat) : Checker :=
  { env, visible := env.size, limit }

variable (c : Checker)

/-! ## Constants -/

/-- The position of a visible constant. -/
def constPosition? (name : Name) : Option Nat :=
  c.env.position? name c.visible

/-- The declaration of a visible constant. -/
def const? (name : Name) : Option Declaration :=
  c.env.find? name c.visible

/-! ## The budget -/

/-- Pays for one step. -/
def tick : CheckM Unit := fun p =>
  let p := { p with steps := p.steps + 1 }
  if c.limit < p.steps then .error (.exhausted c.limit) p else .ok () p

/-- Fails for want of steps. -/
def exhaust {α : Type} : CheckM α := do
  c.tick
  throw (.exhausted c.limit)

/-- The number of steps that can still be paid for. -/
def remaining : CheckM Nat := do
  return c.limit - (← get).steps

/-! ## Remembering -/

/-- Whether a result for `e` may be remembered: a closed term does not look at
the context it is met in. -/
def remembers (e : Term) : Bool :=
  c.memoize && !e.hasLoose

/-- The remembered result for `e`, or else the computed one, which is then
remembered if it may be. -/
def remembered (q : Query) (e : Term) (compute : CheckM Term) : CheckM Term := do
  match ((← get).memo q).find? e with
  | some result => pure result
  | none => do
    let result ← compute
    if c.remembers e then
      modify (·.remember q e result)
    pure result

end Checker

end TypeTheory
