import TypeTheory.CompiledUnit.Load
import TypeTheory.Proofs.Computation
import TypeTheory.Proofs.Simulation.View

/-!
# Extended environments

Declarations are only ever added at the end. What a checker sees of an
environment it therefore still sees, at the same positions, of every extension,
as long as it is shown no more than the environment had (`Checker.sameView`).

An insertion, a merge and a load that fail leave the environment as it was. Of the walk
that adds the declarations of a unit one after the other this is not true, and loading
does not need it: the walk is done on a copy.
-/

namespace TypeTheory

open EStateM

/-- **A unit is loaded whole or not at all**: the copy takes the environment's place when
nothing can fail any more. -/
theorem CompiledUnit.atomic_loadM (u : CompiledUnit) (config : Config) :
    (u.loadM config).Atomic := by
  refine readOnly_get.bind fun _ => (readOnly_ofExcept _).bind fun staged => ?_
  refine (readOnly_require _ _).bind fun _ => ?_
  exact atomic_of_succeeds fun _ => ⟨_, staged, rfl⟩

namespace Environment

variable {env env' env'' : Environment}

/-- The first environment is a beginning of the second. -/
def Extends (env env' : Environment) : Prop :=
  env.toList <+: env'.toList

theorem Extends.refl (env : Environment) : env.Extends env :=
  List.prefix_refl _

theorem Extends.trans (h : env.Extends env') (h' : env'.Extends env'') : env.Extends env'' :=
  List.IsPrefix.trans h h'

/-- The declaration at a position is the one at that place of the list. -/
theorem at?_eq (env : Environment) (i : Nat) : env.at? i = env.toList[i]? := by
  simp [at?, toList]

theorem length_toList (env : Environment) : env.toList.length = env.size := by
  simp [toList, size]

theorem lt_size_of_at? {i : Nat} {d : Declaration} (h : env.at? i = some d) : i < env.size := by
  rw [at?_eq] at h
  rw [← length_toList]
  exact (List.getElem?_eq_some_iff.mp h).1

theorem Extends.size_le (h : env.Extends env') : env.size ≤ env'.size := by
  rw [← length_toList, ← length_toList]
  exact h.length_le

/-- Positions are kept. -/
theorem Extends.at? (h : env.Extends env') {i : Nat} (hi : i < env.size) :
    env'.at? i = env.at? i := by
  obtain ⟨tail, htail⟩ := h
  rw [at?_eq, at?_eq, ← htail, List.getElem?_append_left (by rwa [length_toList])]

/-! ## Adding -/

/-- An insertion that is refused leaves the environment as it was, since the name is looked up
before anything is added. -/
theorem atomic_insertM (d : Declaration) : (insertM d).Atomic :=
  readOnly_get.bind fun _ => (readOnly_require _ _).bind fun _ => atomic_modify _

/-- All declarations are compared before the first one is added. -/
theorem atomic_mergeM (other : Environment) : (mergeM other).Atomic := by
  refine readOnly_get.bind fun _ => (readOnly_ofExcept _).bind fun fresh => ?_
  exact (atomic_modify _).bind_of_succeeds fun _ t => ⟨fresh.length, t, rfl⟩

theorem toList_of_insert {d : Declaration} (h : env.insert d = .ok env') :
    env'.toList = env.toList ++ [d] := by
  rw [insert_eq] at h
  split at h
  · cases h
  · cases h
    simp [toList]

theorem extends_of_insert {d : Declaration} (h : env.insert d = .ok env') : env.Extends env' := by
  rw [Extends, toList_of_insert h]
  exact List.prefix_append _ _

/-- Past the old ones there is the declaration that was added. -/
theorem eq_of_at?_insert {d d' : Declaration} {i : Nat} (h : env.insert d = .ok env')
    (hi : env.size ≤ i) (hd : env'.at? i = some d') : i = env.size ∧ d' = d := by
  rw [at?_eq, toList_of_insert h, List.getElem?_append_right (by rwa [length_toList]),
    length_toList, List.getElem?_singleton] at hd
  split at hd
  · cases hd
    exact ⟨by omega, rfl⟩
  · cases hd

/-- Adding the missing declarations of a list keeps the old ones in front. -/
theorem extends_of_extend {ds : List Declaration} (h : env.extend ds = .ok env') :
    env.Extends env' := by
  induction ds generalizing env with
  | nil =>
    cases h
    exact .refl _
  | cons d rest ih =>
    rw [extend_cons] at h
    split at h
    · split at h
      · exact ih h
      · cases h
    · cases hinsert : env.insert d with
      | error e =>
        rw [hinsert] at h
        cases h
      | ok env₁ =>
        rw [hinsert] at h
        exact (extends_of_insert hinsert).trans (ih h)

/-! ## Looking up -/

/-- A search reads the positions below its bound alone. -/
theorem search_congr {x : Name} {k : Nat} (h : ∀ i < k, env'.at? i = env.at? i) :
    env'.search x k = env.search x k := by
  induction k with
  | zero => rfl
  | succ k ih =>
    have hk : env'.decls[k]? = env.decls[k]? := h k (Nat.lt_succ_self k)
    have hrest := ih fun i hi => h i (Nat.lt_succ_of_lt hi)
    simp only [search, hk, hrest]

/-- What is found among the first `k` declarations stands before `k`. -/
theorem search_lt {x : Name} {k i : Nat} (h : env.search x k = some i) : i < k := by
  induction k with
  | zero => cases h
  | succ k ih =>
    unfold search at h
    split at h
    · split at h
      · cases h
        exact Nat.lt_succ_self _
      · exact Nat.lt_succ_of_lt (ih h)
    · exact Nat.lt_succ_of_lt (ih h)

variable {x : Name} {k : Nat}

/-- Positions in the part that was there are the same in every extension. -/
theorem Extends.position? (h : env.Extends env') (hk : k ≤ env.size) :
    env'.position? x k = env.position? x k := by
  have hle := h.size_le
  have hmin : Nat.min k env'.size = k := Nat.min_eq_left (by omega)
  have hmin' : Nat.min k env.size = k := Nat.min_eq_left hk
  unfold Environment.position?
  rw [hmin, hmin']
  exact search_congr fun i hi => h.at? (by omega)

/-- So are the declarations that are found in the part that was there. -/
theorem Extends.find? (h : env.Extends env') (hk : k ≤ env.size) :
    env'.find? x k = env.find? x k := by
  unfold Environment.find?
  rw [h.position? hk]
  cases hpos : env.position? x k with
  | none => rfl
  | some i =>
    have hi : i < env.size := by
      have := search_lt hpos
      have : Nat.min k env.size ≤ env.size := Nat.min_le_right k env.size
      omega
    exact h.at? hi

end Environment

/-- **An extension looks the same** to a checker that is shown the old part. -/
theorem Checker.sameView {env env' : Environment} (h : env.Extends env') {k : Nat}
    (hk : k ≤ env.size) (limit limit' : Nat) (memoize memoize' : Bool) :
    SameView ⟨env, k, limit, memoize⟩ ⟨env', k, limit', memoize'⟩ where
  const? _ := (h.find? hk).symm
  constPosition? _ := (h.position? hk).symm

end TypeTheory
