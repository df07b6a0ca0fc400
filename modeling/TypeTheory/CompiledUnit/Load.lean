import TypeTheory.CompiledUnit.Basic
import TypeTheory.Config
import TypeTheory.Declaration.Check

/-!
# Loading units

A unit is added to an environment whole or not at all. A declaration that is
there already is passed over, one that differs from a declaration of its name is
a conflict. The declarations that are new are checked against those before them
unless the configuration trusts them.

The declarations are added one by one, so `Environment.extendM` has added some of them
when it meets a conflict. Loading therefore works on a copy of the environment, which
takes its place only when nothing can fail any more.
-/

namespace TypeTheory

/-- Why a unit is not loaded. -/
inductive UnitError where
  | undecodable (cause : DecodeError)
  /-- There is nothing to read the unit from. -/
  | absent
  | conflict (cause : KernelError)
  | unverified (failures : List (Name × KernelError))
  deriving DecidableEq, Inhabited, Repr

namespace UnitError

/-- What is said of a place where nothing was saved. -/
def absentText : String :=
  "No such file or directory (os error 2)"

/-- The text of a loading error. -/
def message : UnitError → String
  | .undecodable cause => "unit decoding failed: " ++ cause.message
  | .absent => "unit i/o failed: " ++ absentText
  | .conflict cause => "unit conflicts with environment: " ++ cause.message
  | .unverified failures =>
    let first := match failures with
      | [] => ""
      | (name, cause) :: _ => ", first " ++ name.text ++ ": " ++ cause.message
    toString failures.length ++ " declaration(s) failed verification" ++ first

/-- The texts of the causes of a loading error. -/
def causes : UnitError → List String
  | .undecodable cause => [cause.message]
  | .absent => [absentText]
  | .conflict cause => [cause.message]
  | .unverified _ => []

end UnitError

open EStateM

namespace Environment

/-- Adds those declarations of a list that are not there yet, one after the other. -/
def extendM : List Declaration → EnvironmentM Unit
  | [] => pure ()
  | d :: rest => do
    match (← get).get? d.name with
    | some known => do
      require (known = d) (.duplicateName d.name)
      extendM rest
    | none => do
      insertM d
      extendM rest

/-- The environment with those declarations of a list added that it does not have. -/
def extend (env : Environment) (ds : List Declaration) : Except KernelError Environment :=
  (extendM ds).final env

theorem extend_cons (env : Environment) (d : Declaration) (rest : List Declaration) :
    env.extend (d :: rest) =
      match env.get? d.name with
      | some known => if known = d then env.extend rest else .error (.duplicateName d.name)
      | none => env.insert d >>= fun env => env.extend rest := by
  unfold extend final
  rw [extendM, outcome_get_bind]
  cases env.get? d.name with
  | some known =>
    dsimp only
    rw [outcome_require_bind]
    split <;> rfl
  | none => exact final_bind _ _ _

end Environment

namespace CompiledUnit

/-- Loads a unit. Gives the number of declarations added. -/
def loadM (u : CompiledUnit) (config : Config) : EStateM UnitError Environment Nat := do
  let env ← get
  let staged ← ofExcept ((env.extend u.decls).mapError .conflict)
  let failures :=
    if config.verifyUnits then staged.verifyRange env.size staged.size config.maxSteps else []
  require failures.isEmpty (.unverified failures)
  set staged
  return staged.size - env.size

/-- The environment with a unit loaded, and the number of declarations added. -/
def load (u : CompiledUnit) (env : Environment) (config : Config) :
    Except UnitError (Environment × Nat) :=
  (u.loadM config).outcome env

theorem load_eq (u : CompiledUnit) (env : Environment) (config : Config) :
    u.load env config =
      match env.extend u.decls with
      | .error e => .error (.conflict e)
      | .ok extended =>
        let failures := if config.verifyUnits then
          extended.verifyRange env.size extended.size config.maxSteps else []
        if failures.isEmpty then .ok (extended, extended.size - env.size)
        else .error (.unverified failures) := by
  unfold load loadM
  rw [outcome_get_bind, outcome_ofExcept_bind]
  cases env.extend u.decls with
  | error e => rfl
  | ok extended => exact outcome_require_bind _ _ _ _

end CompiledUnit

end TypeTheory
