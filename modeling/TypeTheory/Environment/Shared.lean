import Std.Data.HashMap
import TypeTheory.Environment.Basic

/-!
# Shared environments

A shared environment is filled by many writers, one insertion at a time. It is a
table from names to numbered declarations; the numbers are given out in the order
of the insertions, and a refused insertion takes none. `SharedEnvironment.snapshot`
lists the table by number, so it does not depend on the order in which the table
is walked.
-/

namespace TypeTheory

/-- A declaration with the number of its insertion. -/
structure Numbered where
  number : Nat
  decl : Declaration

/-- An environment as a table from names to numbered declarations. -/
structure SharedEnvironment where
  table : Std.HashMap Name Numbered := {}
  /-- The number that the next insertion takes. -/
  next : Nat := 0

namespace SharedEnvironment

open EStateM

/-- The shared environment without declarations. -/
def empty : SharedEnvironment := {}

def size (s : SharedEnvironment) : Nat :=
  s.table.size

def isEmpty (s : SharedEnvironment) : Bool :=
  s.table.isEmpty

/-- The declaration of `name`. -/
def get? (s : SharedEnvironment) (name : Name) : Option Declaration :=
  s.table[name]?.map (·.decl)

/-- Puts a declaration into the table under the next number. -/
def put (s : SharedEnvironment) (d : Declaration) : SharedEnvironment :=
  { table := s.table.insert d.name ⟨s.next, d⟩, next := s.next + 1 }

/-- Adds a declaration. A name that is declared already is refused. -/
def insertM (d : Declaration) : EStateM KernelError SharedEnvironment Unit := do
  require (¬ (← get).table.contains d.name) (.duplicateName d.name)
  modify (·.put d)

/-- The shared environment with a declaration added. -/
def insert (s : SharedEnvironment) (d : Declaration) : Except KernelError SharedEnvironment :=
  (insertM d).final s

theorem insert_eq (s : SharedEnvironment) (d : Declaration) : s.insert d =
    if s.table.contains d.name then .error (.duplicateName d.name) else .ok (s.put d) := by
  unfold insert final insertM
  rw [outcome_get_bind, outcome_require_bind, ite_not]
  split <;> rfl

/-- The shared environment with the declarations of a plain one, numbered in their
order. -/
def ofEnvironment (env : Environment) : SharedEnvironment :=
  env.toList.foldl put empty

/-- The numbered declarations by increasing number. -/
def entries (s : SharedEnvironment) : List Numbered :=
  (s.table.toList.map (·.2)).mergeSort fun a b => a.number ≤ b.number

/-- The plain environment of what was inserted so far, in that order. -/
def snapshot (s : SharedEnvironment) : Environment :=
  { decls := (s.entries.map (·.decl)).toArray }

end SharedEnvironment

end TypeTheory
