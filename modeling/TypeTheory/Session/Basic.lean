import TypeTheory.CompiledUnit.Load
import TypeTheory.Scope.Resolution
import TypeTheory.Scope.Telescope

/-!
# Sessions

A session is an environment, a scope and a configuration. A declaration passes
name resolution, the abstraction of section variables and the kernel before it
reaches the environment.

An operation of a session runs operations on its scope and its environment, each of
which leaves its part behind also when it fails (`Session.onScope`,
`Session.onEnvironment`).
-/

namespace TypeTheory

/-- Why a session refuses an operation. -/
inductive SessionError where
  | scope (cause : ScopeError)
  | check (cause : KernelError)
  | unit (cause : UnitError)
  /-- The term mentions section variables. -/
  | openTerm (vars : List Name)
  | evaluation (cause : KernelError)
  /-- The normal form is nested too deeply to be computed. -/
  | tooDeep
  deriving DecidableEq, Inhabited, Repr

namespace SessionError

/-- The text of a session error. -/
def message : SessionError → String
  | .scope cause => cause.message
  | .check cause => cause.message
  | .unit cause => cause.message
  | .openTerm vars =>
    "term depends on section variables: " ++ ", ".intercalate (vars.map Name.text)
  | .evaluation cause => "evaluation failed: " ++ cause.message
  | .tooDeep => "normal form nested too deeply"

/-- The texts of the causes of a session error. -/
def causes : SessionError → List String
  | .scope cause => [cause.message]
  | .check cause => [cause.message]
  | .unit cause => cause.message :: cause.causes
  | .openTerm _ => []
  | .evaluation cause => [cause.message]
  | .tooDeep => []

end SessionError

/-- An environment under construction. -/
structure Session where
  env : Environment := {}
  scope : Scope := {}
  config : Config := {}

/-- An operation of a session. -/
abbrev SessionM := EStateM SessionError Session

namespace Session

open EStateM

/-- A session that continues from an environment, outside all blocks. -/
def ofEnvironment (env : Environment) (config : Config) : Session :=
  { env, config }

/-- A session without declarations. -/
def new (config : Config) : Session :=
  ofEnvironment .empty config

variable (s : Session)

/-! ## Scope and kernel -/

/-- The checker of the session. -/
def checker : Checker :=
  { Checker.ofEnvironment s.env s.config.maxSteps with memoize := s.config.memoize }

/-- Runs the kernel from the start. -/
def run {α : Type} (action : CheckM α) : Except KernelError α :=
  match action {} with
  | .ok a _ => .ok a
  | .error e _ => .error e

/-- Puts what its constants stand for into a term. -/
def resolve (e : Term) : Except SessionError Term :=
  (s.scope.resolveTerm s.env e).mapError .scope

/-- Puts what its constants stand for into a term that may be missing. -/
def resolve? : Option Term → Except SessionError (Option Term)
  | none => .ok none
  | some e => (s.resolve e).map some

/-- Runs an operation on the scope. -/
def onScope {α : Type} (m : ScopeM α) : SessionM α :=
  m.onPart (·.scope) (fun scope s => { s with scope }) .scope

/-- Runs an operation on the environment. -/
def onEnvironment {ε α : Type} (fail : ε → SessionError) (m : EStateM ε Environment α) :
    SessionM α :=
  m.onPart (·.env) (fun env s => { s with env }) fail

/-- Opens a block. -/
def enter (heading : Heading) : Session :=
  { s with scope := s.scope.enter heading }

/-- Closes the innermost block. -/
def leaveM (kind : BlockKind) (name : Option Name) : SessionM Unit :=
  onScope (Scope.leaveM kind name)

/-- The session with the innermost block closed. -/
def leave (kind : BlockKind) (name : Option Name) : Except SessionError Session :=
  (leaveM kind name).final s

theorem leave_eq (kind : BlockKind) (name : Option Name) : s.leave kind name = do
    let scope ← (s.scope.leave kind name).mapError .scope
    return { s with scope } := by
  unfold leave leaveM onScope
  rw [final_onPart, Scope.leave]
  cases (Scope.leaveM kind name).final s.scope <;> rfl

/-- Opens a namespace in the innermost block. Gives the namespace found. -/
def openNamespaceM (short : Name) : SessionM Name := do
  onScope (Scope.openNamespaceM (← get).env short)

/-- The session with a namespace opened, and the namespace found. -/
def openNamespace (short : Name) : Except SessionError (Session × Name) :=
  (openNamespaceM short).outcome s

theorem openNamespace_eq (short : Name) : s.openNamespace short = do
    let (scope, target) ← (s.scope.openNamespace s.env short).mapError .scope
    return ({ s with scope }, target) := by
  unfold openNamespace openNamespaceM onScope
  rw [outcome_get_bind, outcome_onPart, Scope.openNamespace]
  cases (Scope.openNamespaceM s.env short).outcome s.scope <;> rfl

/-! ## Declarations -/

/-- Checks a declaration and adds it under the current namespace. The section
variables it depends on become its first parameters. Gives its full name. -/
def declareM (short : Name) (params : List Name) (type : Term) (value : Option Term) :
    SessionM Name := do
  let s ← get
  let name := s.scope.qualify short
  require (¬ s.env.contains name) (.check (.duplicateName name))
  let type ← ofExcept (s.resolve type)
  let value ← ofExcept (s.resolve? value)
  let (_, type, value) := s.scope.abstracted type value
  let d : Declaration := { name, params, type, value }
  ofExcept ((run (s.checker.checkDeclaration d)).mapError .check)
  onEnvironment .check (Environment.insertM d)
  return name

/-- The session with a declaration made, and the full name of the declaration. -/
def declare (short : Name) (params : List Name) (type : Term) (value : Option Term) :
    Except SessionError (Session × Name) :=
  (declareM short params type value).outcome s

theorem declare_eq (short : Name) (params : List Name) (type : Term) (value : Option Term) :
    s.declare short params type value =
      let name := s.scope.qualify short
      if s.env.contains name then .error (.check (.duplicateName name))
      else do
        let type ← s.resolve type
        let value ← s.resolve? value
        let (_, type, value) := s.scope.abstracted type value
        let d : Declaration := { name, params, type, value }
        (run (s.checker.checkDeclaration d)).mapError .check
        let env ← (s.env.insert d).mapError .check
        return ({ s with env }, name) := by
  unfold declare declareM
  rw [outcome_get_bind, outcome_require_bind, ite_not]
  dsimp only
  split
  · rfl
  · rw [outcome_ofExcept_bind]
    refine congrArg _ (funext fun type => ?_)
    rw [outcome_ofExcept_bind]
    refine congrArg _ (funext fun value => ?_)
    rw [outcome_ofExcept_bind]
    refine congrArg _ (funext fun _ => ?_)
    rw [outcome_bind_pure, onEnvironment, outcome_onPart, Environment.insert, final]
    cases (Environment.insertM _).outcome s.env <;> rfl

/-- Declares a list of declarations one after the other. -/
def declareAll (decls : List Declaration) : Except SessionError Session :=
  decls.foldlM (fun s d => (s.declare d.name d.params d.type d.value).map (·.1)) s

/-- Declares a section variable. Its type has to be a type over the variables it
depends on. -/
def declareVariableM (name : Name) (type : Term) : SessionM Unit := do
  let s ← get
  let type ← ofExcept (s.resolve type)
  let t := s.scope.telescope [type]
  let _ ← ofExcept ((run (s.checker.sortOf (t.close type) t.context)).mapError .check)
  onScope (Scope.declareVariableM s.env name type)

/-- The session with a section variable declared. -/
def declareVariable (name : Name) (type : Term) : Except SessionError Session :=
  (declareVariableM name type).final s

theorem declareVariable_eq (name : Name) (type : Term) : s.declareVariable name type = do
    let type ← s.resolve type
    let t := s.scope.telescope [type]
    let _ ← (run (s.checker.sortOf (t.close type) t.context)).mapError .check
    let scope ← (s.scope.declareVariable s.env name type).mapError .scope
    return { s with scope } := by
  unfold declareVariable declareVariableM
  refine (final_ofExcept_bind _ _ s).trans (congrArg _ (funext fun type => ?_))
  rw [final_ofExcept_bind]
  refine congrArg _ (funext fun _ => ?_)
  rw [onScope, final_onPart, Scope.declareVariable]
  cases (Scope.declareVariableM s.env name type).final s.scope <;> rfl

end Session

end TypeTheory
