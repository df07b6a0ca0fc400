import TypeTheory.Term.Word
import TypeTheory.Typing

/-!
# Checking declarations

A declaration is accepted if its universe parameters are distinct, its type and
value are closed terms without free variables that use no other parameter, its
type is a type, and its value has that type. `Environment.verify` checks
declarations of an environment again, each against those before it.
-/

namespace TypeTheory

namespace Declaration

/-- The first name of a list that occurs before in it, given the names before
the list. -/
def repeated? (before : List Name) : List Name → Option Name
  | [] => none
  | n :: rest => if before.contains n then some n else repeated? (n :: before) rest

/-- Requires a part of the declaration to be closed, without free variables, and
to use only the declaration's universe parameters. -/
def requireClosed (d : Declaration) (e : Term) : CheckM Unit := do
  if e.hasLoose then throw (.looseIndex (e.wordRange - 1))
  match e.fvars with
  | n :: _ => throw (.freeVariable n)
  | [] => if e.paramsWithin d.params then pure () else throw (.undeclaredUniverse d.name)

end Declaration

/-- Checks a declaration against the visible environment. -/
def Checker.checkDeclaration (c : Checker) (d : Declaration) : CheckM Unit := do
  match Declaration.repeated? [] d.params with
  | some n => throw (.duplicateUniverse n)
  | none => do
    d.requireClosed d.type
    let _ ← c.sortOf d.type []
    match d.value with
    | none => pure ()
    | some v => do
      d.requireClosed v
      c.check v d.type []

/-- The error with which a fresh checker refuses a declaration, if it does. -/
def Checker.failure? (c : Checker) (d : Declaration) : Option KernelError :=
  match c.checkDeclaration d {} with
  | .ok .. => none
  | .error e _ => some e

namespace Environment

/-- Checks the declaration at a position against those before it. -/
def failureAt? (env : Environment) (limit i : Nat) : Option (Name × KernelError) := do
  let d ← env.at? i
  let e ← Checker.failure? { env, visible := i, limit } d
  pure (d.name, e)

/-- The declarations from position `start` up to `stop` that fail when they are
checked against those before them, with their errors. -/
def verifyRange (env : Environment) (start stop limit : Nat) : List (Name × KernelError) :=
  (List.range' start (Nat.min stop env.size - start)).filterMap (env.failureAt? limit)

/-- The declarations that fail when they are checked against those before them. -/
def verify (env : Environment) (limit : Nat) : List (Name × KernelError) :=
  env.verifyRange 0 env.size limit

end Environment

end TypeTheory
