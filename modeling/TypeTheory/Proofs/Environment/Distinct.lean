import TypeTheory.Proofs.WellFormed.Basic

/-!
# Names are declared once

An environment is a map from names to declarations that remembers the order of its
entries. The array behind it says nothing of the names being distinct; that they are
(`Environment.Distinct`) follows from how environments are built. A name that is
declared already is refused by `Environment.insert`, and neither merging another
environment nor adding the missing declarations of a list brings a name twice.

In such an environment looking up a name and reading a position are two sides of one
relation (`Environment.getFull?_eq_some_iff`), and what is found under a name is the
declaration that has it (`Environment.get?_eq_some_iff`).
-/

namespace TypeTheory

namespace Environment

variable {env env' other : Environment} {d : Declaration} {x : Name} {i k : Nat}

/-- No name is declared twice. -/
def Distinct (env : Environment) : Prop :=
  (env.toList.map (·.name)).Nodup

instance : Decidable env.Distinct :=
  inferInstanceAs (Decidable (List.Nodup _))

theorem distinct_empty : empty.Distinct :=
  List.nodup_nil

/-- An environment that is extended to one with distinct names has distinct names itself. -/
theorem Distinct.of_extends (h : env'.Distinct) (hext : env.Extends env') : env.Distinct :=
  List.Nodup.sublist (hext.sublist.map _) h

/-! ## Looking up -/

/-- The position and the declaration of a name. -/
def getFull? (env : Environment) (x : Name) : Option (Nat × Declaration) :=
  (env.position? x env.size).bind fun i => (env.at? i).map fun d => (i, d)

/-- A name that is looked up everywhere is searched for among all positions. -/
theorem position?_size (env : Environment) (x : Name) :
    env.position? x env.size = env.search x env.size := by
  unfold position?
  rw [show Nat.min env.size env.size = env.size from Nat.min_self _]

/-- **Looking up a name is reading its position.** -/
theorem getFull?_eq_some_iff (h : env.Distinct) :
    env.getFull? x = some (i, d) ↔ env.at? i = some d ∧ d.name = x := by
  unfold getFull?
  rw [position?_size, Option.bind_eq_some_iff]
  constructor
  · rintro ⟨j, hsearch, hj⟩
    obtain ⟨d', hd', heq⟩ := Option.map_eq_some_iff.mp hj
    cases heq
    obtain ⟨-, d', hi, hname⟩ := at?_of_search hsearch
    rw [hd'] at hi
    cases hi
    exact ⟨hd', hname⟩
  · rintro ⟨hd, hname⟩
    obtain ⟨j, hsearch⟩ := exists_search (lt_size_of_at? hd) hd hname
    obtain ⟨-, d', hj, hname'⟩ := at?_of_search hsearch
    have hij := eq_of_name_eq h hd hj (hname.trans hname'.symm)
    subst hij
    exact ⟨i, hsearch, by rw [hd]; rfl⟩

theorem at?_of_mem (h : d ∈ env.toList) : ∃ i, env.at? i = some d := by
  obtain ⟨i, hi⟩ := List.mem_iff_getElem?.mp h
  exact ⟨i, by rw [at?_eq, hi]⟩

theorem mem_of_at? (h : env.at? i = some d) : d ∈ env.toList := by
  rw [at?_eq] at h
  exact List.mem_of_getElem? h

/-- A name that is contained is the name of a declaration. -/
theorem contains_iff : env.contains x = true ↔ x ∈ env.toList.map (·.name) := by
  unfold contains
  rw [position?_size, Option.isSome_iff_exists, List.mem_map]
  constructor
  · rintro ⟨i, hi⟩
    obtain ⟨-, d, hd, hname⟩ := at?_of_search hi
    exact ⟨d, mem_of_at? hd, hname⟩
  · rintro ⟨d, hd, hname⟩
    obtain ⟨i, hi⟩ := at?_of_mem hd
    exact exists_search (lt_size_of_at? hi) hi hname

theorem get?_eq_none_iff : env.get? x = none ↔ x ∉ env.toList.map (·.name) := by
  rw [← contains_iff, get?, find?, contains]
  cases hpos : env.position? x env.size with
  | none => simp
  | some i =>
    rw [position?_size] at hpos
    obtain ⟨-, d, hd, -⟩ := at?_of_search hpos
    simp [hd]

/-- What is found under a name is what is found there together with its position. -/
theorem get?_eq_map_getFull? (env : Environment) (x : Name) :
    env.get? x = (env.getFull? x).map (·.2) := by
  unfold get? find? getFull?
  cases env.position? x env.size with
  | none => rfl
  | some i =>
    rw [Option.bind_some, Option.bind_some, Option.map_map]
    exact Option.map_id'.symm

/-- **Looking up a name is asking for the declaration that has it.** -/
theorem get?_eq_some_iff (h : env.Distinct) :
    env.get? x = some d ↔ d ∈ env.toList ∧ d.name = x := by
  rw [get?_eq_map_getFull?, Option.map_eq_some_iff]
  constructor
  · rintro ⟨⟨i, d'⟩, hfull, rfl⟩
    obtain ⟨hi, hname⟩ := (getFull?_eq_some_iff h).mp hfull
    exact ⟨mem_of_at? hi, hname⟩
  · rintro ⟨hmem, hname⟩
    obtain ⟨i, hi⟩ := at?_of_mem hmem
    exact ⟨(i, d), (getFull?_eq_some_iff h).mpr ⟨hi, hname⟩, rfl⟩

/-- Declarations of one name are the same. -/
theorem Distinct.eq_of_name {d' : Declaration} (h : env.Distinct) (hd : d ∈ env.toList)
    (hd' : d' ∈ env.toList) (hname : d.name = d'.name) : d = d' :=
  List.inj_on_of_nodup_map h hd hd' hname

/-! ## Adding -/

/-- A declaration that was inserted had a name that was not declared before. -/
theorem not_contains_of_insert (h : env.insert d = .ok env') :
    d.name ∉ env.toList.map (·.name) := by
  rw [insert_eq] at h
  split at h
  · cases h
  · rename_i hcontains
    exact fun hmem => hcontains (contains_iff.mpr hmem)

/-- Insertion keeps the names distinct, as it refuses a name that is there. -/
theorem Distinct.insert (h : env.Distinct) (hinsert : env.insert d = .ok env') :
    env'.Distinct := by
  have hfresh := not_contains_of_insert hinsert
  rw [Distinct, toList_of_insert hinsert, List.map_append]
  exact List.Nodup.append h (List.nodup_singleton _) (List.disjoint_singleton.mpr hfresh)

/-- So does going through a list of declarations, each of which is there, is new or is refused. -/
theorem Distinct.extend {ds : List Declaration} (h : env.Distinct)
    (hextend : env.extend ds = .ok env') : env'.Distinct := by
  induction ds generalizing env with
  | nil =>
    cases hextend
    exact h
  | cons d rest ih =>
    rw [extend_cons] at hextend
    split at hextend
    · split at hextend
      · exact ih h hextend
      · cases hextend
    · cases hinsert : env.insert d with
      | error e =>
        rw [hinsert] at hextend
        cases hextend
      | ok env₁ =>
        rw [hinsert] at hextend
        exact ih (h.insert hinsert) hextend

/-- What is missing is some of the declarations asked for, and none that is there. -/
theorem missing_spec {ds fresh : List Declaration} (h : env.missing ds = .ok fresh) :
    fresh.Sublist ds ∧ ∀ d ∈ fresh, d.name ∉ env.toList.map (·.name) := by
  induction ds generalizing fresh with
  | nil =>
    cases h
    exact ⟨.slnil, by simp⟩
  | cons d rest ih =>
    unfold missing at h
    split at h
    · split at h
      · obtain ⟨hsub, hnew⟩ := ih h
        exact ⟨hsub.cons d, hnew⟩
      · cases h
    · rename_i hnone
      cases hrest : env.missing rest with
      | error e =>
        rw [hrest] at h
        cases h
      | ok fresh' =>
        rw [hrest] at h
        cases h
        obtain ⟨hsub, hnew⟩ := ih hrest
        exact ⟨hsub.cons_cons d, List.forall_mem_cons.mpr ⟨get?_eq_none_iff.mp hnone, hnew⟩⟩

/-- Merging adds what is missing at the end. -/
theorem toList_of_merge {added : Nat} (h : env.merge other = .ok (env', added)) :
    ∃ fresh, env.missing other.toList = .ok fresh ∧ env'.toList = env.toList ++ fresh := by
  rw [merge_eq] at h
  cases hmissing : env.missing other.toList with
  | error e =>
    rw [hmissing] at h
    cases h
  | ok fresh =>
    rw [hmissing] at h
    cases h
    exact ⟨fresh, rfl, by simp [toList]⟩

/-- A merged environment extends the one that it was merged into: the missing declarations come at
the end. -/
theorem extends_of_merge {added : Nat} (h : env.merge other = .ok (env', added)) :
    env.Extends env' := by
  obtain ⟨fresh, -, hlist⟩ := toList_of_merge h
  rw [Extends, hlist]
  exact List.prefix_append _ _

/-- Merging keeps the names distinct: what is missing has names that are not there, each once. -/
theorem Distinct.merge {added : Nat} (h : env.Distinct) (hother : other.Distinct)
    (hmerge : env.merge other = .ok (env', added)) : env'.Distinct := by
  obtain ⟨fresh, hmissing, hlist⟩ := toList_of_merge hmerge
  obtain ⟨hsub, hnew⟩ := missing_spec hmissing
  rw [Distinct, hlist, List.map_append]
  refine List.Nodup.append h (hother.sublist (hsub.map _)) fun x hx hfresh => ?_
  obtain ⟨d, hd, rfl⟩ := List.mem_map.mp hfresh
  exact hnew d hd hx

end Environment

/-- A unit is loaded by adding its missing declarations. -/
theorem CompiledUnit.extend_of_load {u : CompiledUnit} {env env' : Environment} {config : Config}
    {added : Nat} (h : u.load env config = .ok (env', added)) : env.extend u.decls = .ok env' := by
  rw [CompiledUnit.load_eq] at h
  cases hextend : env.extend u.decls with
  | error e =>
    rw [hextend] at h
    cases h
  | ok extended =>
    rw [hextend] at h
    dsimp only at h
    generalize (if config.verifyUnits then
      extended.verifyRange env.size extended.size config.maxSteps else []) = failures at h
    cases failures with
    | nil =>
      cases h
      rfl
    | cons failure rest => cases h

end TypeTheory
