import TypeTheory.Computation
import TypeTheory.Error

/-!
# Environments

An environment is a list of declarations with distinct names, in the order in
which they were added. Declarations are only ever added at the end, so the
position of a declaration never changes, and a checker may be shown the first
few declarations only by giving it a position (`Environment.position?`).

As for scopes, the name of an operation that changes an environment and may be refused
ends in `M`, and the function without it shows what comes of the operation if it
succeeds.
-/

namespace TypeTheory

/-- A constant of the theory: a definition if it has a value, otherwise an
assumption. -/
structure Declaration where
  name : Name
  params : List Name
  type : Term
  value : Option Term
  deriving DecidableEq, Inhabited, Repr

/-- The declarations made so far, oldest first. -/
structure Environment where
  decls : Array Declaration := #[]
  deriving DecidableEq, Inhabited, Repr

/-- An operation on an environment. -/
abbrev EnvironmentM := EStateM KernelError Environment

namespace Environment

open EStateM

/-- The environment without declarations. -/
def empty : Environment := {}

def size (env : Environment) : Nat :=
  env.decls.size

def isEmpty (env : Environment) : Bool :=
  env.decls.isEmpty

/-! ## Looking up -/

/-- The position of the newest declaration of `name` among the first `k`. -/
def search (env : Environment) (name : Name) : (k : Nat) → Option Nat
  | 0 => none
  | k + 1 =>
    match env.decls[k]? with
    | some d => if d.name = name then some k else env.search name k
    | none => env.search name k

/-- The position of the declaration of `name`, if it lies before `below`. -/
def position? (env : Environment) (name : Name) (below : Nat) : Option Nat :=
  env.search name (Nat.min below env.size)

/-- The declaration at a position. -/
def at? (env : Environment) (i : Nat) : Option Declaration :=
  env.decls[i]?

/-- The declaration of `name`, if it lies before position `below`. -/
def find? (env : Environment) (name : Name) (below : Nat) : Option Declaration :=
  (env.position? name below).bind env.at?

/-- The declaration of `name`. -/
def get? (env : Environment) (name : Name) : Option Declaration :=
  env.find? name env.size

/-- Whether `name` is declared. -/
def contains (env : Environment) (name : Name) : Bool :=
  (env.position? name env.size).isSome

/-- The declarations, oldest first. -/
def toList (env : Environment) : List Declaration :=
  env.decls.toList

/-- Whether some declaration lies strictly below the namespace `ns`. -/
def hasNamespace (env : Environment) (ns : Name) : Bool :=
  env.decls.any (·.name.isWithin ns)

/-! ## Adding -/

/-- Adds a declaration at the end. A name that is declared already is refused. -/
def insertM (d : Declaration) : EnvironmentM Unit := do
  require (¬ (← get).contains d.name) (.duplicateName d.name)
  modify fun env => { decls := env.decls.push d }

/-- The environment with a declaration added. -/
def insert (env : Environment) (d : Declaration) : Except KernelError Environment :=
  (insertM d).final env

theorem insert_eq (env : Environment) (d : Declaration) : env.insert d =
    if env.contains d.name then .error (.duplicateName d.name)
    else .ok { decls := env.decls.push d } := by
  unfold insert final insertM
  rw [outcome_get_bind, outcome_require_bind, ite_not]
  split <;> rfl

/-- Adds declarations one after the other. -/
def insertAll (env : Environment) (ds : List Declaration) : Except KernelError Environment :=
  ds.foldlM insert env

/-- The constant `name` at the given levels, if it takes that many. -/
def instantiate (env : Environment) (name : Name) (levels : List Level) :
    Except KernelError Term :=
  match env.get? name with
  | none => .error (.unknownConstant name)
  | some d =>
    if d.params.length = levels.length then .ok (.const name levels)
    else .error (.universeArity name d.params.length levels.length)

/-- The declarations of a list that the environment does not have yet. One that
has the same name as a different declaration of the environment is refused. -/
def missing (env : Environment) : List Declaration → Except KernelError (List Declaration)
  | [] => .ok []
  | d :: rest =>
    match env.get? d.name with
    | some known =>
      if known = d then env.missing rest else .error (.duplicateName d.name)
    | none => (env.missing rest).map (d :: ·)

/-- Adds all declarations of another environment that are not there yet, or
none of them if one disagrees. Gives the number of declarations added. -/
def mergeM (other : Environment) : EnvironmentM Nat := do
  let fresh ← ofExcept ((← get).missing other.toList)
  modify fun env => { decls := env.decls ++ fresh.toArray }
  return fresh.length

/-- The environment with another one merged into it, and the number of declarations
added. -/
def merge (env other : Environment) : Except KernelError (Environment × Nat) :=
  (mergeM other).outcome env

theorem merge_eq (env other : Environment) : env.merge other =
    (env.missing other.toList).map fun fresh =>
      ({ decls := env.decls ++ fresh.toArray }, fresh.length) := by
  unfold merge mergeM
  rw [outcome_get_bind, outcome_ofExcept_bind]
  rfl

end Environment

end TypeTheory
