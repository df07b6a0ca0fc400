import TypeTheory.Proofs.Environment.Distinct
import TypeTheory.Proofs.Session.Invariant

/-!
# Environments only grow

Several environments are kept side by side, each under a handle: the ones a program
has made and the snapshots it has taken of them. A call changes the environment under
one handle or takes a snapshot of it under a new one. Changes are insertion, merging
another environment, loading a unit and declaring through a session, and each may be
refused. A refused call puts back what it has left of the environment, so that this is
what was there before is proved of the operations (`Pool.atomic_performM`).

What one call can do is said once, in `Pool.cases_of_after`. From it follows what
every sequence of calls keeps: names are declared once, no declaration is lost or
moved, and an environment that is not named by a call stays what it was. A snapshot
is such an environment for all calls on the one it was taken of.
-/

namespace TypeTheory

/-- The environments of a program, each under its position as handle. -/
abbrev Pool := List Environment

/-- A change of an environment. -/
inductive Edit where
  | insert (d : Declaration)
  /-- Merges the environment under a handle. -/
  | merge (source : Nat)
  | load (u : CompiledUnit) (config : Config)
  /-- Declares through a session over the environment. -/
  | declare (scope : Scope) (config : Config) (short : Name) (params : List Name) (type : Term)
      (value : Option Term)

/-- A call on the environment under a handle. -/
inductive Call where
  | snapshot (target : Nat)
  | edit (target : Nat) (e : Edit)

/-- Whether the call is a change of the environment under the handle `i`. -/
def Call.Edits (i : Nat) : Call → Prop
  | .snapshot _ => False
  | .edit target _ => target = i

open EStateM

/-- Changes an environment. A handle that is not in use stands for the empty
environment. -/
def Edit.applyM (pool : Pool) : Edit → EStateM SessionError Environment Unit
  | .insert d => (Environment.insertM d).onPart id (fun env _ => env) .check
  | .merge source =>
    (do let _ ← Environment.mergeM (pool.getD source .empty)).onPart id (fun env _ => env) .check
  | .load u config => (do let _ ← u.loadM config).onPart id (fun env _ => env) .unit
  | .declare scope config short params type value =>
    let session (env : Environment) : Session := ⟨env, scope, config⟩
    (do let _ ← Session.declareM short params type value).onPart session (fun s _ => s.env) id

/-- What a change makes of an environment, if it succeeds. -/
def Edit.apply (pool : Pool) (env : Environment) (e : Edit) : Except SessionError Environment :=
  (e.applyM pool).final env

namespace Pool

/-- Makes a call. A snapshot takes the next handle, and a change puts back what it leaves
of the environment, also when it fails. -/
def performM : Call → EStateM SessionError Pool Unit
  | .snapshot target => modify fun pool => pool ++ (pool[target]?).toList
  | .edit target e => do
    (e.applyM (← get)).onPart (·.getD target .empty) (fun env pool => pool.set target env) id

/-- The environments after a call, if it succeeds. -/
def perform (pool : Pool) (call : Call) : Except SessionError Pool :=
  (performM call).final pool

/-- The environments that a call leaves behind, whether it succeeds or fails. -/
def after (pool : Pool) (call : Call) : Pool :=
  (performM call).leaves pool

/-- The environments after some calls. -/
def afterAll (pool : Pool) (calls : List Call) : Pool :=
  calls.foldl after pool

/-- In no environment is a name declared twice. -/
def Distinct (pool : Pool) : Prop :=
  ∀ env ∈ pool, env.Distinct

end Pool

/-! ## One change -/

namespace Edit

variable {pool : Pool} {env env' : Environment} {e : Edit}

/-- A change that fails leaves the environment as it was. -/
theorem atomic_applyM (pool : Pool) (e : Edit) : (e.applyM pool).Atomic := by
  cases e with
  | insert d => exact (Environment.atomic_insertM d).onPart fun _ => rfl
  | merge source =>
    refine Atomic.onPart ?_ fun _ => rfl
    exact (Environment.atomic_mergeM _).bind_of_succeeds fun _ env => ⟨(), env, rfl⟩
  | load u config =>
    refine Atomic.onPart ?_ fun _ => rfl
    exact (u.atomic_loadM config).bind_of_succeeds fun _ env => ⟨(), env, rfl⟩
  | declare scope config short params type value =>
    refine Atomic.onPart ?_ fun _ => rfl
    exact (Session.atomic_declareM short params type value).bind_of_succeeds
      fun _ s => ⟨(), s, rfl⟩

/-- **What a change does**: it adds one declaration, merges an environment of the pool,
or adds the missing declarations of a unit. -/
theorem cases_of_apply (h : e.apply pool env = .ok env') :
    (∃ d, env.insert d = .ok env') ∨
    (∃ source added, env.merge (pool.getD source .empty) = .ok (env', added)) ∨
    ∃ ds, env.extend ds = .ok env' := by
  unfold apply at h
  cases e with
  | insert d =>
    obtain ⟨inserted, hinsert, rfl⟩ := final_onPart_eq_ok h
    exact .inl ⟨d, hinsert⟩
  | merge source =>
    obtain ⟨merged, hrun, rfl⟩ := final_onPart_eq_ok h
    obtain ⟨added, hmerge⟩ := final_bind_pure_eq_ok hrun
    exact .inr (.inl ⟨source, added, hmerge⟩)
  | load u config =>
    obtain ⟨loaded, hrun, rfl⟩ := final_onPart_eq_ok h
    obtain ⟨added, hload⟩ := final_bind_pure_eq_ok hrun
    exact .inr (.inr ⟨u.decls, CompiledUnit.extend_of_load hload⟩)
  | declare scope config short params type value =>
    obtain ⟨s, hrun, rfl⟩ := final_onPart_eq_ok h
    obtain ⟨name, hdeclare⟩ := final_bind_pure_eq_ok hrun
    obtain ⟨-, d, -, hinsert⟩ := Session.insert_of_declare hdeclare
    exact .inl ⟨d, hinsert⟩

/-- Whatever the change, the environment that comes of it extends the one before. -/
theorem extends_of_apply (h : e.apply pool env = .ok env') : env.Extends env' := by
  rcases cases_of_apply h with ⟨d, hinsert⟩ | ⟨source, added, hmerge⟩ | ⟨ds, hextend⟩
  · exact Environment.extends_of_insert hinsert
  · exact Environment.extends_of_merge hmerge
  · exact Environment.extends_of_extend hextend

/-- Whatever the change, names are still declared once, if they were in all environments that take
part. -/
theorem distinct_of_apply (hpool : pool.Distinct) (henv : env.Distinct)
    (h : e.apply pool env = .ok env') : env'.Distinct := by
  rcases cases_of_apply h with ⟨d, hinsert⟩ | ⟨source, added, hmerge⟩ | ⟨ds, hextend⟩
  · exact henv.insert hinsert
  · have hsource : (pool.getD source .empty).Distinct := by
      rw [List.getD_eq_getElem?_getD]
      cases hget : pool[source]? with
      | none => exact Environment.distinct_empty
      | some other => exact hpool other (List.mem_of_getElem? hget)
    exact henv.merge hsource hmerge
  · exact henv.extend hextend

end Edit

/-! ## One call -/

namespace Pool

variable {pool : Pool} {call : Call} {env env' : Environment} {i : Nat}

theorem set_getD (pool : Pool) (target : Nat) :
    pool.set target (pool.getD target .empty) = pool := by
  by_cases htarget : target < pool.length
  · rw [List.getD_eq_getElem?_getD, List.getElem?_eq_getElem htarget, Option.getD_some,
      List.set_getElem_self]
  · exact List.set_eq_of_length_le (Nat.le_of_not_lt htarget)

/-- **A call that fails leaves all environments as they were.** -/
theorem atomic_performM (call : Call) : (performM call).Atomic := by
  cases call with
  | snapshot target => exact atomic_modify _
  | edit target e =>
    exact readOnly_get.bind fun pool =>
      (e.atomic_applyM pool).onPart fun pool' => set_getD pool' target

/-- A refused call leaves the whole pool as it was, since every call is atomic. -/
theorem after_of_error {e : SessionError} (h : pool.perform call = .error e) :
    pool.after call = pool :=
  (atomic_performM call).leaves_eq h

/-- A change that succeeds puts what it makes of an environment in its place. -/
theorem apply_of_perform {target : Nat} {e : Edit} {pool' : Pool}
    (h : pool.perform (.edit target e) = .ok pool') :
    ∃ env', e.apply pool (pool.getD target .empty) = .ok env' ∧ pool.set target env' = pool' :=
  final_onPart_eq_ok (show ((e.applyM pool).onPart (·.getD target .empty)
    (fun env pool => pool.set target env) id).final pool = .ok pool' from h)

/-- **What a call does**: nothing, or it takes a snapshot, or it changes the
environment it names. -/
theorem cases_of_after (pool : Pool) (call : Call) :
    pool.after call = pool ∨
    (∃ target env, call = .snapshot target ∧ pool[target]? = some env ∧
      pool.after call = pool ++ [env]) ∨
    ∃ target e env env', call = .edit target e ∧ pool[target]? = some env ∧
      e.apply pool env = .ok env' ∧ pool.after call = pool.set target env' := by
  cases call with
  | snapshot target =>
    have hafter : pool.after (.snapshot target) = pool ++ (pool[target]?).toList := rfl
    cases hget : pool[target]? with
    | none =>
      left
      rw [hafter, hget, Option.toList_none, List.append_nil]
    | some env =>
      right
      left
      exact ⟨target, env, rfl, hget, by rw [hafter, hget, Option.toList_some]⟩
  | edit target e =>
    cases hperform : pool.perform (.edit target e) with
    | error cause => exact .inl (after_of_error hperform)
    | ok pool' =>
      have hafter : pool.after (.edit target e) = pool' := leaves_of_final hperform
      obtain ⟨env', happly, rfl⟩ := apply_of_perform hperform
      by_cases htarget : target < pool.length
      · right
        right
        have hget : pool[target]? = some pool[target] := List.getElem?_eq_getElem htarget
        rw [List.getD_eq_getElem?_getD, hget] at happly
        exact ⟨target, e, pool[target], env', rfl, hget, happly, hafter⟩
      · left
        rw [hafter, List.set_eq_of_length_le (Nat.le_of_not_lt htarget)]

/-- No environment is lost, and none loses or moves a declaration. -/
theorem extends_after (henv : pool[i]? = some env) (call : Call) :
    ∃ env', (pool.after call)[i]? = some env' ∧ env.Extends env' := by
  have hi := (List.getElem?_eq_some_iff.mp henv).1
  rcases cases_of_after pool call with
    hsame | ⟨target, other, -, -, hafter⟩ | ⟨target, e, old, new, -, hold, happly, hafter⟩
  · exact ⟨env, by rw [hsame, henv], .refl env⟩
  · exact ⟨env, by rw [hafter, List.getElem?_append_left hi, henv], .refl env⟩
  · by_cases htarget : target = i
    · subst htarget
      rw [henv] at hold
      cases hold
      exact ⟨new, by rw [hafter, List.getElem?_set_self hi], Edit.extends_of_apply happly⟩
    · exact ⟨env, by rw [hafter, List.getElem?_set_ne htarget, henv], .refl env⟩

/-- A call changes no environment but the one it names. -/
theorem getElem?_after_of_not_edits (hi : i < pool.length) (hcall : ¬ call.Edits i) :
    (pool.after call)[i]? = pool[i]? := by
  rcases cases_of_after pool call with
    hsame | ⟨target, other, -, -, hafter⟩ | ⟨target, e, old, new, rfl, -, -, hafter⟩
  · rw [hsame]
  · rw [hafter, List.getElem?_append_left hi]
  · rw [hafter, List.getElem?_set_ne hcall]

theorem length_le_after (pool : Pool) (call : Call) : pool.length ≤ (pool.after call).length := by
  rcases cases_of_after pool call with
    hsame | ⟨target, env, -, -, hafter⟩ | ⟨target, e, old, new, -, -, -, hafter⟩
  · exact Nat.le_of_eq (by rw [hsame])
  · rw [hafter, List.length_append]
    omega
  · exact Nat.le_of_eq (by rw [hafter, List.length_set])

theorem Distinct.after (h : pool.Distinct) (call : Call) : (pool.after call).Distinct := by
  intro env henv
  rcases cases_of_after pool call with
    hsame | ⟨target, other, -, hother, hafter⟩ | ⟨target, e, old, new, -, hold, happly, hafter⟩
  · rw [hsame] at henv
    exact h env henv
  · rw [hafter] at henv
    rcases List.mem_append.mp henv with hmem | hmem
    · exact h env hmem
    · rw [List.mem_singleton.mp hmem]
      exact h other (List.mem_of_getElem? hother)
  · rw [hafter] at henv
    rcases List.mem_or_eq_of_mem_set henv with hmem | rfl
    · exact h env hmem
    · exact Edit.distinct_of_apply h (h old (List.mem_of_getElem? hold)) happly

/-! ## Sequences of calls -/

theorem Distinct.afterAll (h : pool.Distinct) (calls : List Call) :
    (pool.afterAll calls).Distinct := by
  induction calls generalizing pool with
  | nil => exact h
  | cons call rest ih => exact ih (h.after call)

/-- What no call changes stays what it was. -/
theorem getElem?_afterAll_of_not_edits {calls : List Call} (hi : i < pool.length)
    (hcalls : ∀ call ∈ calls, ¬ call.Edits i) : (pool.afterAll calls)[i]? = pool[i]? := by
  induction calls generalizing pool with
  | nil => rfl
  | cons call rest ih =>
    obtain ⟨hcall, hrest⟩ := List.forall_mem_cons.mp hcalls
    have hi' : i < (pool.after call).length := Nat.lt_of_lt_of_le hi (length_le_after pool call)
    calc (pool.afterAll (call :: rest))[i]?
        = (pool.after call)[i]? := ih hi' hrest
      _ = pool[i]? := getElem?_after_of_not_edits hi hcall

/-- A snapshot keeps what it was taken of through all calls on other handles. -/
theorem getElem?_snapshot {target : Nat} {calls : List Call} (henv : pool[target]? = some env)
    (hcalls : ∀ call ∈ calls, ¬ call.Edits pool.length) :
    ((pool.after (.snapshot target)).afterAll calls)[pool.length]? = some env := by
  have hafter : pool.after (.snapshot target) = pool ++ [env] := by
    change pool ++ (pool[target]?).toList = _
    rw [henv, Option.toList_some]
  have hlength : pool.length < (pool ++ [env]).length := by simp
  rw [hafter, getElem?_afterAll_of_not_edits hlength hcalls, List.getElem?_concat_length]

/-- **Environments are maps that only grow.** Whatever calls have been made on some
environments, each of them declares a name once and finds a name at a position exactly
if the declaration there has this name; the next call, on whichever environment, leaves
its list of declarations as a beginning of the new one, and unchanged if the call fails
or names another environment; and a snapshot stays what it was taken of through all
calls that do not name it. -/
theorem appendOnly {pool : Pool} (hpool : pool.Distinct) (calls : List Call) :
    let now := pool.afterAll calls
    ∀ (i : Nat) (env : Environment), now[i]? = some env →
      (env.toList.map (·.name)).Nodup ∧
      (∀ x j d, env.getFull? x = some (j, d) ↔ env.at? j = some d ∧ d.name = x) ∧
      (∀ call : Call, ∃ env', (now.after call)[i]? = some env' ∧ env.toList <+: env'.toList ∧
        ((∃ e, now.perform call = .error e) ∨ ¬ call.Edits i → env' = env)) ∧
      ∀ later : List Call, (∀ call ∈ later, ¬ call.Edits now.length) →
        ((now.after (.snapshot i)).afterAll later)[now.length]? = some env := by
  intro now i env henv
  have hdistinct := hpool.afterAll calls env (List.mem_of_getElem? henv)
  have hi := (List.getElem?_eq_some_iff.mp henv).1
  refine ⟨hdistinct, fun x j d => Environment.getFull?_eq_some_iff hdistinct, fun call => ?_,
    fun later hlater => getElem?_snapshot henv hlater⟩
  obtain ⟨env', henv', hext⟩ := extends_after henv call
  refine ⟨env', henv', hext, ?_⟩
  rintro (⟨e, hfails⟩ | hother)
  · rw [after_of_error hfails, henv] at henv'
    exact (Option.some.inj henv').symm
  · rw [getElem?_after_of_not_edits hi hother, henv] at henv'
    exact (Option.some.inj henv').symm

/-- An environment gets a declaration, a snapshot is taken of it, the declaration is
refused a second time, and the environment merges another, declares through a session
and loads a unit. It has four declarations then and the snapshot one, and a second
insertion of a name fails. -/
theorem appendOnly_mixed :
    let constant (x t : String) : Declaration := ⟨.atom x, [], .const (.atom t) [], none⟩
    let a : Declaration := ⟨.atom "a", [], .sort .zero, none⟩
    let config : Config := { maxSteps := 10, memoize := false }
    let pool : Pool := [.empty, ⟨#[a, constant "b" "a"]⟩]
    let calls : List Call :=
      [.edit 0 (.insert a), .snapshot 0, .edit 0 (.insert a), .edit 0 (.merge 1),
        .edit 0 (.declare {} config (.atom "c") [] (.const (.atom "a") []) none),
        .edit 0 (.load ⟨[a, constant "d" "a"]⟩ config)]
    let final : Environment := ⟨#[a, constant "b" "a", constant "c" "a", constant "d" "a"]⟩
    pool.Distinct ∧ pool.afterAll calls = [final, ⟨#[a, constant "b" "a"]⟩, ⟨#[a]⟩] ∧
      (∃ e, (pool.afterAll calls).perform (.edit 0 (.insert a)) = .error e) ∧
      final.getFull? (.atom "c") = some (2, constant "c" "a") ∧
      ((pool.afterAll calls).after (.edit 0 (.insert a)))[0]? = some final := by
  intro constant a config pool calls final
  have hpool : pool.Distinct := by
    unfold Distinct
    decide
  have hfinal : pool.afterAll calls = [final, ⟨#[a, constant "b" "a"]⟩, ⟨#[a]⟩] := by decide +kernel
  have henv : (pool.afterAll calls)[0]? = some final := by rw [hfinal]; rfl
  have hfails : (pool.afterAll calls).perform (.edit 0 (.insert a)) =
      .error (.check (.duplicateName (.atom "a"))) := by rw [hfinal]; rfl
  obtain ⟨-, hfull, hnext, -⟩ := appendOnly hpool calls 0 final henv
  obtain ⟨env', henv', -, hsame⟩ := hnext (.edit 0 (.insert a))
  refine ⟨hpool, hfinal, ⟨_, hfails⟩, (hfull _ 2 _).mpr ⟨rfl, rfl⟩, ?_⟩
  rw [henv', hsame (.inl ⟨_, hfails⟩)]

end Pool

end TypeTheory
