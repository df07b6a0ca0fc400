import TypeTheory.Session.Basic

/-!
# Saving and loading

A store keeps bytes under slots. A session saves its environment as a unit into a
slot and loads a unit from one.
-/

namespace TypeTheory

/-- Bytes kept under slots. -/
structure Store where
  /-- What was written, latest first. -/
  written : List (String × Bytes) := []
  deriving DecidableEq, Inhabited, Repr

namespace Store

/-- What was last written to a slot. -/
def read? (store : Store) (slot : String) : Option Bytes :=
  store.written.lookup slot

/-- Writes to a slot. -/
def write (store : Store) (slot : String) (bytes : Bytes) : Store :=
  { written := (slot, bytes) :: store.written }

end Store

namespace Session

open EStateM

variable (digest : Bytes → Digest) (s : Session)

/-- Writes the unit of all declarations to a slot. Also gives its digest. -/
def save (store : Store) (slot : String) : Store × Digest :=
  let u := CompiledUnit.ofEnvironment s.env
  (store.write slot (u.toBytes digest), digest u.body)

/-- Reads a unit from a slot. -/
def readUnit (store : Store) (slot : String) : Except UnitError CompiledUnit :=
  match store.read? slot with
  | none => .error .absent
  | some bytes => (CompiledUnit.ofBytes digest bytes).mapError .undecodable

/-- Loads the unit in a slot. Gives the number of declarations added. -/
def loadM (store : Store) (slot : String) : SessionM Nat := do
  let u ← ofExcept ((readUnit digest store slot).mapError .unit)
  onEnvironment .unit (u.loadM (← get).config)

/-- The session with the unit in a slot loaded, and the number of declarations added. -/
def load (store : Store) (slot : String) : Except SessionError (Session × Nat) :=
  (loadM digest store slot).outcome s

theorem load_eq (store : Store) (slot : String) : s.load digest store slot = do
    let u ← (readUnit digest store slot).mapError .unit
    let (env, added) ← (u.load s.env s.config).mapError .unit
    return ({ s with env }, added) := by
  unfold load loadM
  rw [outcome_ofExcept_bind]
  refine congrArg _ (funext fun u => ?_)
  rw [outcome_get_bind, onEnvironment, outcome_onPart, CompiledUnit.load]
  cases (u.loadM s.config).outcome s.env <;> rfl

end Session

end TypeTheory
