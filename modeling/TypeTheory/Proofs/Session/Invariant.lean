import TypeTheory.Proofs.Environment.Verification
import TypeTheory.Proofs.Scope.Excursion
import TypeTheory.Session.Query
import TypeTheory.Session.Storage

/-!
# What every session keeps

A session starts without declarations and takes one operation after the other,
some of which fail. If units are verified when they are loaded, then after any
operations the environment is verified: each declaration is accepted against
those before it within the configured budget. It makes no difference whether the
session remembers results, and nothing is asked of the bytes that are loaded.

Only `Session.declare` and `Session.load` change the environment. What each of
them keeps is `Environment.Verified.insert` and `Environment.Verified.extend`. An
operation that fails leaves the session as it was (`Session.atomic_performM`): what it
does before the last thing that can fail is only to look.
-/

namespace TypeTheory

/-- An operation of a session. -/
inductive Action where
  | declare (short : Name) (params : List Name) (type : Term) (value : Option Term)
  | declareVariable (name : Name) (type : Term)
  | enter (heading : Heading)
  | leave (kind : BlockKind) (name : Option Name)
  | openNamespace (short : Name)
  | typeOf (e : Term)
  | reduce (e : Term)
  | evaluate (e : Term) (limit : Nat)
  /-- Loads what a store keeps under a slot. -/
  | load (store : Store) (slot : String)
  deriving DecidableEq, Inhabited, Repr

namespace Session

open EStateM

/-- Does what an operation says. The answer of a query is dropped. -/
def performM (digest : Bytes → Digest) : Action → SessionM Unit
  | .declare short params type value => do
    let _ ← declareM short params type value
  | .declareVariable name type => declareVariableM name type
  | .enter heading => modify (·.enter heading)
  | .leave kind name => leaveM kind name
  | .openNamespace short => do
    let _ ← openNamespaceM short
  | .typeOf e => do
    let _ ← ofExcept ((← get).typeOf e)
  | .reduce e => do
    let _ ← ofExcept ((← get).reduce e)
  | .evaluate e limit => do
    let _ ← ofExcept ((← get).evaluate e limit)
  | .load store slot => do
    let _ ← loadM digest store slot

/-- The session after an operation, if it succeeds. -/
def perform (digest : Bytes → Digest) (s : Session) (action : Action) :
    Except SessionError Session :=
  (performM digest action).final s

/-- The session that an operation leaves behind, whether it succeeds or fails. -/
def after (digest : Bytes → Digest) (s : Session) (action : Action) : Session :=
  (performM digest action).leaves s

/-- The session after some operations. -/
def afterAll (digest : Bytes → Digest) (s : Session) (actions : List Action) : Session :=
  actions.foldl (after digest) s

/-! ## What an operation does to the environment -/

section

variable {ε ε' α β : Type}

theorem bind_eq_ok {x : Except ε α} {f : α → Except ε β} {b : β} (h : x >>= f = .ok b) :
    ∃ a, x = .ok a ∧ f a = .ok b := by
  cases x with
  | error e => cases h
  | ok a => exact ⟨a, rfl, h⟩

theorem mapError_eq_ok {x : Except ε α} {f : ε → ε'} {a : α} (h : x.mapError f = .ok a) :
    x = .ok a := by
  cases x with
  | error e => cases h
  | ok b => exact congrArg _ (Except.ok.inj h)

end

/-- A request that succeeds has an answer of the kernel from a state in which nothing is remembered
yet. -/
theorem run_eq_ok {α : Type} {action : CheckM α} {a : α} (h : run action = .ok a) :
    ∃ p, action {} = .ok a p := by
  unfold run at h
  split at h
  · rename_i b p hrun
    cases h
    exact ⟨p, hrun⟩
  · cases h

variable {digest : Bytes → Digest} {s s' : Session}

/-- A declaration as an operation leaves the session that it gives, without the declaration
itself. -/
theorem perform_declare (short : Name) (params : List Name) (type : Term) (value : Option Term) :
    s.perform digest (.declare short params type value) =
      s.declare short params type value >>= fun r => pure r.1 :=
  final_bind_pure _ _ s

theorem perform_declareVariable (name : Name) (type : Term) :
    s.perform digest (.declareVariable name type) = s.declareVariable name type :=
  rfl

theorem perform_leave (kind : BlockKind) (name : Option Name) :
    s.perform digest (.leave kind name) = s.leave kind name :=
  rfl

theorem perform_openNamespace (short : Name) :
    s.perform digest (.openNamespace short) = s.openNamespace short >>= fun r => pure r.1 :=
  final_bind_pure _ _ s

/-- Loading as an operation leaves the session that it gives, without the report of what was
loaded. -/
theorem perform_load (store : Store) (slot : String) :
    s.perform digest (.load store slot) = s.load digest store slot >>= fun r => pure r.1 :=
  final_bind_pure _ _ s

theorem perform_typeOf (e : Term) :
    s.perform digest (.typeOf e) = s.typeOf e >>= fun _ => pure s :=
  final_query (fun s : Session => s.typeOf e) () s

theorem perform_reduce (e : Term) :
    s.perform digest (.reduce e) = s.reduce e >>= fun _ => pure s :=
  final_query (fun s : Session => s.reduce e) () s

theorem perform_evaluate (e : Term) (limit : Nat) :
    s.perform digest (.evaluate e limit) = s.evaluate e limit >>= fun _ => pure s :=
  final_query (fun s : Session => s.evaluate e limit) () s

theorem after_of_ok {action : Action} (h : s.perform digest action = .ok s') :
    s.after digest action = s' :=
  leaves_of_final h

/-! ## Operations that fail -/

/-- An operation on the scope alone is as atomic in the session as it is on the scope. -/
theorem atomic_onScope {α : Type} {m : ScopeM α} (h : m.Atomic) : (onScope m).Atomic :=
  h.onPart fun _ => rfl

/-- An operation on the environment alone is as atomic in the session, under whatever name its
errors get. -/
theorem atomic_onEnvironment {ε α : Type} {fail : ε → SessionError}
    {m : EStateM ε Environment α} (h : m.Atomic) : (onEnvironment fail m).Atomic :=
  h.onPart fun _ => rfl

/-- A declaration is checked before it is inserted, and an insertion that fails changes nothing. -/
theorem atomic_declareM (short : Name) (params : List Name) (type : Term) (value : Option Term) :
    (declareM short params type value).Atomic := by
  refine readOnly_get.bind fun s => (readOnly_require _ _).bind fun _ => ?_
  refine (readOnly_ofExcept _).bind fun type => (readOnly_ofExcept _).bind fun value => ?_
  refine (readOnly_ofExcept _).bind fun _ => ?_
  exact (atomic_onEnvironment (Environment.atomic_insertM _)).bind_of_succeeds
    fun _ t => ⟨_, t, rfl⟩

theorem atomic_declareVariableM (name : Name) (type : Term) :
    (declareVariableM name type).Atomic := by
  refine readOnly_get.bind fun s => (readOnly_ofExcept _).bind fun type => ?_
  exact (readOnly_ofExcept _).bind fun _ => atomic_onScope (Scope.atomic_declareVariableM _ _ _)

/-- A unit is read and checked on a copy of the environment, which takes its place at the end. -/
theorem atomic_loadM (digest : Bytes → Digest) (store : Store) (slot : String) :
    (loadM digest store slot).Atomic :=
  (readOnly_ofExcept _).bind fun u =>
    readOnly_get.bind fun _ => atomic_onEnvironment (u.atomic_loadM _)

/-- **An operation that fails changes nothing.** -/
theorem atomic_performM (digest : Bytes → Digest) (action : Action) :
    (performM digest action).Atomic := by
  cases action with
  | declare short params type value =>
    exact (atomic_declareM short params type value).bind_of_succeeds fun _ t => ⟨(), t, rfl⟩
  | declareVariable name type => exact atomic_declareVariableM name type
  | enter heading => exact atomic_modify _
  | leave kind name => exact atomic_onScope (Scope.atomic_leaveM kind name)
  | openNamespace short =>
    have hopen : (openNamespaceM short).Atomic :=
      readOnly_get.bind fun s => atomic_onScope (Scope.atomic_openNamespaceM s.env short)
    exact hopen.bind_of_succeeds fun _ t => ⟨(), t, rfl⟩
  | typeOf | reduce | evaluate =>
    refine readOnly_get.bind fun s => (readOnly_ofExcept _).bind fun _ => ?_
    exact atomic_of_succeeds fun t => ⟨(), t, rfl⟩
  | load store slot =>
    exact (atomic_loadM digest store slot).bind_of_succeeds fun _ t => ⟨(), t, rfl⟩

/-- An operation that fails leaves the session as it was, so the next one starts from where it
did. -/
theorem after_of_error {action : Action} {err : SessionError}
    (h : s.perform digest action = .error err) : s.after digest action = s :=
  (atomic_performM digest action).leaves_eq h

/-! ## Operations that succeed -/

/-- The kernel accepts what `Session.declare` adds. -/
theorem insert_of_declare {short name : Name} {params : List Name} {type : Term}
    {value : Option Term} (h : s.declare short params type value = .ok (s', name)) :
    s'.config = s.config ∧
      ∃ d, s.checker.failure? d = none ∧ s.env.insert d = .ok s'.env := by
  rw [declare_eq] at h
  dsimp only at h
  split at h
  · cases h
  · obtain ⟨type', htype, h⟩ := bind_eq_ok h
    obtain ⟨value', hvalue, h⟩ := bind_eq_ok h
    obtain ⟨_, hcheck, h⟩ := bind_eq_ok h
    obtain ⟨env, hinsert, h⟩ := bind_eq_ok h
    cases h
    refine ⟨rfl, _, ?_, mapError_eq_ok hinsert⟩
    exact Checker.failure?_eq_none_iff.mpr (run_eq_ok (mapError_eq_ok hcheck))

/-- What `Session.load` adds comes from a unit that was loaded. -/
theorem load_of_load {store : Store} {slot : String} {added : Nat}
    (h : s.load digest store slot = .ok (s', added)) :
    s'.config = s.config ∧ ∃ u : CompiledUnit, u.load s.env s.config = .ok (s'.env, added) := by
  rw [load_eq] at h
  obtain ⟨u, _, h⟩ := bind_eq_ok h
  obtain ⟨⟨env, n⟩, hload, h⟩ := bind_eq_ok h
  cases h
  exact ⟨rfl, u, mapError_eq_ok hload⟩

/-- **What an operation does to the environment**: nothing, or it adds an accepted
declaration, or it loads a unit. -/
theorem env_of_perform {action : Action} (h : s.perform digest action = .ok s') :
    s'.config = s.config ∧
      (s'.env = s.env ∨
        (∃ d, s.checker.failure? d = none ∧ s.env.insert d = .ok s'.env) ∨
        ∃ (u : CompiledUnit) (added : Nat), u.load s.env s.config = .ok (s'.env, added)) := by
  cases action with
  | declare short params type value =>
    rw [perform_declare] at h
    obtain ⟨⟨t, name⟩, hdeclare, ht⟩ := bind_eq_ok h
    cases ht
    obtain ⟨hconfig, hinsert⟩ := insert_of_declare hdeclare
    exact ⟨hconfig, .inr (.inl hinsert)⟩
  | declareVariable name type =>
    rw [perform_declareVariable, declareVariable_eq] at h
    obtain ⟨_, _, h⟩ := bind_eq_ok h
    obtain ⟨_, _, h⟩ := bind_eq_ok h
    obtain ⟨_, _, h⟩ := bind_eq_ok h
    cases h
    exact ⟨rfl, .inl rfl⟩
  | enter heading =>
    cases h
    exact ⟨rfl, .inl rfl⟩
  | leave kind name =>
    rw [perform_leave, leave_eq] at h
    obtain ⟨_, _, h⟩ := bind_eq_ok h
    cases h
    exact ⟨rfl, .inl rfl⟩
  | openNamespace short =>
    rw [perform_openNamespace] at h
    obtain ⟨⟨t, target⟩, hopen, ht⟩ := bind_eq_ok h
    cases ht
    rw [openNamespace_eq] at hopen
    obtain ⟨_, _, hopen⟩ := bind_eq_ok hopen
    cases hopen
    exact ⟨rfl, .inl rfl⟩
  | typeOf e | reduce e | evaluate e limit =>
    simp only [perform_typeOf, perform_reduce, perform_evaluate] at h
    obtain ⟨_, _, h⟩ := bind_eq_ok h
    cases h
    exact ⟨rfl, .inl rfl⟩
  | load store slot =>
    rw [perform_load] at h
    obtain ⟨⟨t, added⟩, hload, ht⟩ := bind_eq_ok h
    cases ht
    obtain ⟨hconfig, u, hu⟩ := load_of_load hload
    exact ⟨hconfig, .inr (.inr ⟨u, added, hu⟩)⟩

/-- A unit that is loaded with verification adds declarations that pass in place. -/
theorem verified_of_load {u : CompiledUnit} {env env' : Environment} {config : Config}
    {added : Nat} (hverify : config.verifyUnits = true) (henv : env.Verified config.maxSteps)
    (h : u.load env config = .ok (env', added)) : env'.Verified config.maxSteps := by
  rw [CompiledUnit.load_eq] at h
  split at h
  · cases h
  · rename_i extended hextended
    rw [if_pos hverify] at h
    dsimp only at h
    split at h
    · rename_i hempty
      cases h
      exact henv.extend (Environment.extends_of_extend hextended) (List.isEmpty_iff.mp hempty)
    · cases h

/-! ## The invariant -/

/-- The configuration is the given one, and the environment is verified within
its budget. -/
def Keeps (config : Config) (s : Session) : Prop :=
  s.config = config ∧ s.env.Verified config.maxSteps

theorem keeps_new (config : Config) : (new config).Keeps config := by
  refine ⟨rfl, fun i d hd => ?_⟩
  cases hd

/-- **No operation breaks the invariant**, whether it succeeds or fails. -/
theorem Keeps.after {config : Config} (hverify : config.verifyUnits = true) (h : s.Keeps config)
    (action : Action) : (s.after digest action).Keeps config := by
  cases hperform : s.perform digest action with
  | ok s' =>
    rw [after_of_ok hperform]
    obtain ⟨hconfig, henv⟩ := env_of_perform hperform
    obtain ⟨rfl, hverified⟩ := h
    refine ⟨hconfig, ?_⟩
    rcases henv with hsame | ⟨d, haccepted, hinsert⟩ | ⟨u, added, hload⟩
    · rw [hsame]
      exact hverified
    · exact hverified.insert haccepted hinsert
    · exact verified_of_load hverify hverified hload
  | error err =>
    rw [after_of_error hperform]
    exact h

/-- The invariant holds after any sequence of operations, also where some of them fail. -/
theorem Keeps.afterAll {config : Config} (hverify : config.verifyUnits = true)
    (h : s.Keeps config) (actions : List Action) : (s.afterAll digest actions).Keeps config := by
  induction actions generalizing s with
  | nil => exact h
  | cons action rest ih => exact ih (h.after hverify action)

/-- **Every declaration of a session stays checked.** If units are verified when
they are loaded, then after any operations, whether they succeed or fail and
whatever bytes are loaded, checking all declarations again, each against those
before it and within the configured budget, finds nothing wrong. -/
theorem verify_afterAll_new (digest : Bytes → Digest) {config : Config}
    (hverify : config.verifyUnits = true) (actions : List Action) :
    ((new config).afterAll digest actions).env.verify config.maxSteps = [] :=
  Environment.verify_eq_nil_iff.mpr ((keeps_new config).afterAll hverify actions).2

/-- A session that remembers nothing declares a type, fails to declare it again,
declares a constant of it over a section variable, and is given bytes that are no
unit and a unit whose second declaration is not closed. -/
theorem verify_afterAll_new_two :
    let config : Config := { maxSteps := 100, memoize := false }
    let digest : Bytes → Digest := fun _ => default
    let t := Term.const (.atom "T") []
    let unit : CompiledUnit :=
      ⟨[⟨.atom "U", [], .sort .zero, none⟩, ⟨.atom "u", [], .bvar 0, none⟩]⟩
    let store : Store := ⟨[("junk", [1, 2, 3]), ("unit", unit.toBytes digest)]⟩
    let actions : List Action :=
      [.declare (.atom "T") [] (.sort .zero) none, .declare (.atom "T") [] (.sort .zero) none,
        .enter (.varSection none), .declareVariable (.atom "x") t,
        .declare (.atom "k") [] t (some (.fvar (.atom "x"))), .leave .varSection none,
        .load store "junk", .load store "unit"]
    let s := (new config).afterAll digest actions
    config.verifyUnits = true ∧ s.env.size = 2 ∧ s.env.verify config.maxSteps = [] := by
  intro config digest t unit store actions s
  exact ⟨rfl, by decide +kernel, verify_afterAll_new digest rfl actions⟩

end Session

end TypeTheory
