import TypeTheory.Session.Basic

/-!
# Queries

Questions about a term in a session: its type, its normal form, and its value if
it is closed. A query changes nothing. Section variables that the term mentions
are bound while the kernel runs and free again in the answer.
-/

namespace TypeTheory.Session

variable (s : Session)

/-- The type of a term. -/
def typeOf (e : Term) : Except SessionError Term := do
  let e ← s.resolve e
  let t := s.scope.telescope [e]
  let type ← (run (s.checker.infer (t.close e) t.context)).mapError .check
  return t.reopen type

/-- The normal form of a term. -/
def reduce (e : Term) : Except SessionError Term := do
  let e ← s.resolve e
  let t := s.scope.telescope [e]
  match ← (run (s.checker.normalize (t.close e) t.context)).mapError .check with
  | some normal => return t.reopen normal
  | none => throw .tooDeep

/-- The value of a term without section variables: its normal form after its type
was checked. The normal form may take as many steps as given. -/
def evaluate (e : Term) (limit : Nat) : Except SessionError Term := do
  let e ← s.resolve e
  let t := s.scope.telescope [e]
  if !t.isEmpty then throw (.openTerm t.names)
  let _ ← (run (s.checker.infer e [])).mapError .check
  match ← (run ((Checker.ofEnvironment s.env limit).normalize e [])).mapError .evaluation with
  | some normal => return normal
  | none => throw .tooDeep

end TypeTheory.Session
