import TypeTheory.Proofs.Environment.AppendOnly

/-!
# What loading a unit does

A unit is loaded into an environment by going through its declarations: one that is
there is passed over, one that is new is added, and one that differs from a declaration
of its name is a conflict. The environment that is looked at grows on the way, so a
declaration may also be in conflict with an earlier one of the unit.

What comes of it is said without that walk. The first clash is the first declaration
that differs from one of its name among those of the environment and those before it in
the unit (`FirstClash`); if there is none, the environment gets the declarations of the
unit that it does not have, each once, in their order (`Environment.fresh`).

Merging another environment looks only at the environment as it was, and adds at the end.
For declarations with distinct names that makes no difference
(`Environment.extend_eq_missing`).
-/

namespace TypeTheory

/-! ## Clashes -/

/-- The declaration differs from a known declaration of its name. -/
def Declaration.Clashes (known : List Declaration) (d : Declaration) : Prop :=
  ∃ d' ∈ known, d'.name = d.name ∧ d' ≠ d

/-- The declaration at position `i` of a list clashes with a known declaration or with one
before it in the list. -/
def ClashesAt (known ds : List Declaration) (i : Nat) : Prop :=
  ∃ d, ds[i]? = some d ∧ d.Clashes (known ++ ds.take i)

/-- The first declaration of a list that clashes has the name `x`. -/
def FirstClash (known ds : List Declaration) (x : Name) : Prop :=
  ∃ i d, ds[i]? = some d ∧ d.name = x ∧ ClashesAt known ds i ∧ ∀ j < i, ¬ ClashesAt known ds j

section

variable {known known' ds rest : List Declaration} {d : Declaration} {x y : Name} {i : Nat}

theorem clashesAt_cons_zero : ClashesAt known (d :: rest) 0 ↔ d.Clashes known := by
  simp [ClashesAt]

/-- Behind the first declaration, a clash is one with that declaration among the known ones. -/
theorem clashesAt_cons_succ :
    ClashesAt known (d :: rest) (i + 1) ↔ ClashesAt (known ++ [d]) rest i := by
  simp [ClashesAt]

/-- It matters what is known, not in which order or how often. -/
theorem ClashesAt.congr (h : ∀ d, d ∈ known ↔ d ∈ known') :
    ClashesAt known ds i ↔ ClashesAt known' ds i := by
  simp only [ClashesAt, Declaration.Clashes, List.mem_append, h]

/-- The first clash depends on which declarations are known, and not on their order. -/
theorem FirstClash.congr (h : ∀ d, d ∈ known ↔ d ∈ known') :
    FirstClash known ds x ↔ FirstClash known' ds x := by
  simp only [FirstClash, ClashesAt.congr h]

/-- There is one first clash. -/
theorem FirstClash.unique (h : FirstClash known ds x) (h' : FirstClash known ds y) : x = y := by
  obtain ⟨i, d, hd, rfl, hi, hbefore⟩ := h
  obtain ⟨j, d', hd', rfl, hj, hbefore'⟩ := h'
  have hij : i = j := by
    rcases Nat.lt_trichotomy i j with hlt | heq | hgt
    · exact absurd hi (hbefore' i hlt)
    · exact heq
    · exact absurd hj (hbefore j hgt)
  subst hij
  rw [hd] at hd'
  cases hd'
  rfl

theorem not_firstClash_nil : ¬ FirstClash known [] x := by
  simp [FirstClash]

theorem firstClash_cons_of_clashes (h : d.Clashes known) : FirstClash known (d :: rest) d.name :=
  ⟨0, d, rfl, rfl, clashesAt_cons_zero.mpr h, fun j hj => absurd hj (Nat.not_lt_zero j)⟩

/-- A declaration that does not clash is known to those after it. -/
theorem firstClash_cons_of_not_clashes (h : ¬ d.Clashes known) :
    FirstClash known (d :: rest) x ↔ FirstClash (known ++ [d]) rest x := by
  constructor
  · rintro ⟨i, d', hd', hname, hi, hbefore⟩
    cases i with
    | zero => exact absurd (clashesAt_cons_zero.mp hi) h
    | succ i =>
      refine ⟨i, d', hd', hname, clashesAt_cons_succ.mp hi, fun j hj hclash => ?_⟩
      exact hbefore (j + 1) (Nat.succ_lt_succ hj) (clashesAt_cons_succ.mpr hclash)
  · rintro ⟨i, d', hd', hname, hi, hbefore⟩
    refine ⟨i + 1, d', hd', hname, clashesAt_cons_succ.mpr hi, fun j hj hclash => ?_⟩
    cases j with
    | zero => exact h (clashesAt_cons_zero.mp hclash)
    | succ j => exact hbefore j (Nat.lt_of_succ_lt_succ hj) (clashesAt_cons_succ.mp hclash)

end

namespace Environment

variable {env env' : Environment} {d : Declaration} {ds rest : List Declaration} {x : Name}

/-! ## Adding at the end -/

/-- The environment with some declarations added at the end. -/
def adding (env : Environment) (ds : List Declaration) : Environment :=
  { decls := env.decls ++ ds.toArray }

/-- The declarations of a list that the environment does not have, each once, by their
first occurrence. -/
def fresh (env : Environment) (ds : List Declaration) : List Declaration :=
  (ds.filter (· ∉ env.toList)).eraseDups

@[simp] theorem toList_adding (env : Environment) (ds : List Declaration) :
    (env.adding ds).toList = env.toList ++ ds := by
  simp [adding, toList]

@[simp] theorem size_adding (env : Environment) (ds : List Declaration) :
    (env.adding ds).size = env.size + ds.length := by
  simp [adding, size]

@[simp] theorem adding_nil (env : Environment) : env.adding [] = env := by
  simp [adding]

theorem adding_adding (env : Environment) (ds ds' : List Declaration) :
    (env.adding ds).adding ds' = env.adding (ds ++ ds') := by
  simp [adding, Array.append_assoc]

theorem insert_of_not_mem (h : d.name ∉ env.toList.map (·.name)) :
    env.insert d = .ok (env.adding [d]) := by
  have hcontains : ¬ env.contains d.name = true := fun hmem => h (contains_iff.mp hmem)
  rw [insert_eq, if_neg hcontains]
  simp [adding]

/-! ## Fresh declarations -/

theorem fresh_eq_nil (h : ∀ d ∈ ds, d ∈ env.toList) : env.fresh ds = [] := by
  have hfilter : ds.filter (· ∉ env.toList) = [] := by
    rw [List.filter_eq_nil_iff]
    intro d hd
    simpa using h d hd
  rw [fresh, hfilter]
  rfl

theorem fresh_singleton (h : d ∉ env.toList) : env.fresh [d] = [d] := by
  simp [fresh, h, List.eraseDups_cons]

/-- With the fresh declarations added, the environment holds its own and those of the list. -/
theorem mem_adding_fresh : d ∈ (env.adding (env.fresh ds)).toList ↔ d ∈ env.toList ∨ d ∈ ds := by
  rw [toList_adding, List.mem_append, fresh, List.mem_eraseDups, List.mem_filter, decide_eq_true_eq]
  tauto

/-- The first declaration is fresh or not, and the others are fresh beside it. -/
theorem fresh_cons (env : Environment) (d : Declaration) (rest : List Declaration) :
    env.fresh (d :: rest) = env.fresh [d] ++ (env.adding (env.fresh [d])).fresh rest := by
  by_cases hd : d ∈ env.toList
  · have hnone : env.fresh [d] = [] := fresh_eq_nil (by simpa using hd)
    rw [hnone, adding_nil, List.nil_append, fresh, List.filter_cons_of_neg (by simpa using hd),
      fresh]
  · -- the copies of the first declaration go, here by `eraseDups` and there by the filter
    rw [fresh_singleton hd, fresh, List.filter_cons_of_pos (by simpa using hd), List.eraseDups_cons,
      List.filter_filter, fresh, toList_adding, List.singleton_append]
    congr 2
    refine List.filter_congr fun d' _ => ?_
    simp only [List.mem_append, List.mem_singleton]
    by_cases hd' : d' = d <;> simp [hd']

/-! ## One declaration -/

/-- A declaration that clashes with the environment ends the walk. -/
theorem extend_cons_of_clashes (h : env.Distinct) (hclash : d.Clashes env.toList) :
    env.extend (d :: rest) = .error (.duplicateName d.name) := by
  obtain ⟨d', hd', hname, hne⟩ := hclash
  rw [extend_cons, (get?_eq_some_iff h).mpr ⟨hd', hname⟩]
  exact if_neg hne

/-- A declaration that does not clash is added if it is fresh. -/
theorem extend_cons_of_not_clashes (h : env.Distinct) (hclash : ¬ d.Clashes env.toList) :
    env.extend (d :: rest) = (env.adding (env.fresh [d])).extend rest := by
  by_cases hd : d ∈ env.toList
  · rw [fresh_eq_nil (by simpa using hd), adding_nil, extend_cons,
      (get?_eq_some_iff h).mpr ⟨hd, rfl⟩]
    exact if_pos rfl
  · have hnew : d.name ∉ env.toList.map (·.name) := by
      intro hmem
      obtain ⟨d', hd', hname⟩ := List.mem_map.mp hmem
      exact hclash ⟨d', hd', hname, fun heq => hd (heq ▸ hd')⟩
    rw [fresh_singleton hd, extend_cons, get?_eq_none_iff.mpr hnew, insert_of_not_mem hnew]
    rfl

/-- A declaration that does not clash leaves the names distinct: it is there already, or has a new
name. -/
theorem Distinct.adding_fresh_singleton (h : env.Distinct) (hclash : ¬ d.Clashes env.toList) :
    (env.adding (env.fresh [d])).Distinct := by
  have hextend : env.extend [d] = .ok (env.adding (env.fresh [d])) :=
    extend_cons_of_not_clashes h hclash
  exact h.extend hextend

/-! ## All declarations -/

/-- **What extending does.** It fails on the first clash; if there is none, it adds what
is fresh. -/
theorem extend_cases (h : env.Distinct) (ds : List Declaration) :
    (∃ x, FirstClash env.toList ds x ∧ env.extend ds = .error (.duplicateName x)) ∨
      (∀ x, ¬ FirstClash env.toList ds x) ∧ env.extend ds = .ok (env.adding (env.fresh ds)) := by
  induction ds generalizing env with
  | nil =>
    refine .inr ⟨fun x => not_firstClash_nil, ?_⟩
    rw [fresh_eq_nil (by simp), adding_nil]
    rfl
  | cons d rest ih =>
    by_cases hclash : d.Clashes env.toList
    · exact .inl ⟨d.name, firstClash_cons_of_clashes hclash, extend_cons_of_clashes h hclash⟩
    · -- the rest is looked at in an environment that knows the first declaration
      have hknown : ∀ x, FirstClash env.toList (d :: rest) x ↔
          FirstClash (env.adding (env.fresh [d])).toList rest x := by
        intro x
        rw [firstClash_cons_of_not_clashes hclash]
        exact FirstClash.congr fun d' => by rw [mem_adding_fresh, List.mem_append]
      simp only [hknown, extend_cons_of_not_clashes h hclash]
      rw [fresh_cons env d rest, ← adding_adding]
      exact ih (h.adding_fresh_singleton hclash)

/-- Declarations that are all there do not clash. -/
theorem not_firstClash_of_subset (h : env.Distinct) (hds : ∀ d ∈ ds, d ∈ env.toList) :
    ¬ FirstClash env.toList ds x := by
  rintro ⟨i, -, -, -, ⟨d, hd, d', hd', hname, hne⟩, -⟩
  have hmem : d' ∈ env.toList := by
    rcases List.mem_append.mp hd' with hd' | hd'
    · exact hd'
    · exact hds d' (List.mem_of_mem_take hd')
  exact hne (h.eq_of_name hmem (hds d (List.mem_of_getElem? hd)) hname)

/-- **Extending a second time changes nothing.** -/
theorem extend_again (h : env.Distinct) (hextend : env.extend ds = .ok env') :
    env'.extend ds = .ok env' := by
  have henv' := h.extend hextend
  have hds : ∀ d ∈ ds, d ∈ env'.toList := by
    intro d hd
    rcases extend_cases h ds with ⟨x, -, hfails⟩ | ⟨-, hok⟩
    · rw [hfails] at hextend
      cases hextend
    · rw [hok] at hextend
      cases hextend
      exact mem_adding_fresh.mpr (.inr hd)
  rcases extend_cases henv' ds with ⟨x, hclash, -⟩ | ⟨-, hok⟩
  · exact absurd hclash (not_firstClash_of_subset henv' hds)
  · rw [hok, fresh_eq_nil hds, adding_nil]

/-! ## Merging -/

/-- What is missing depends only on what is found under the names in question. -/
theorem missing_congr (h : ∀ d ∈ ds, env.get? d.name = env'.get? d.name) :
    env.missing ds = env'.missing ds := by
  induction ds with
  | nil => rfl
  | cons d rest ih =>
    obtain ⟨hd, hrest⟩ := List.forall_mem_cons.mp h
    rw [missing, missing, hd, ih hrest]

/-- A declaration is not found under another name. -/
theorem get?_adding_of_ne (h : env.Distinct) (h' : (env.adding [d]).Distinct) (hne : x ≠ d.name) :
    (env.adding [d]).get? x = env.get? x := by
  refine Option.ext fun d' => ?_
  rw [get?_eq_some_iff h', get?_eq_some_iff h, toList_adding, List.mem_append, List.mem_singleton]
  constructor
  · rintro ⟨hmem | rfl, hname⟩
    · exact ⟨hmem, hname⟩
    · exact absurd hname.symm hne
  · rintro ⟨hmem, hname⟩
    exact ⟨.inl hmem, hname⟩

/-- **The two ways to add declarations agree** on declarations with distinct names: to look
each up in what has been staged so far, or all in the environment as it was. -/
theorem extend_eq_missing (h : env.Distinct) (hds : (ds.map (·.name)).Nodup) :
    env.extend ds = (env.missing ds).map env.adding := by
  induction ds generalizing env with
  | nil => exact congrArg Except.ok (adding_nil env).symm
  | cons d rest ih =>
    obtain ⟨hname, hrest⟩ := List.nodup_cons.mp hds
    rw [extend_cons, missing]
    cases hget : env.get? d.name with
    | some known =>
      by_cases heq : known = d
      · simp only [if_pos heq]
        exact ih h hrest
      · simp only [if_neg heq]
        rfl
    | none =>
      have hinsert := insert_of_not_mem (get?_eq_none_iff.mp hget)
      have hstaged := h.insert hinsert
      -- the declaration that was staged is not looked up again
      have hmissing : (env.adding [d]).missing rest = env.missing rest := by
        refine missing_congr fun d' hd' => get?_adding_of_ne h hstaged fun heq => ?_
        exact hname (List.mem_map.mpr ⟨d', hd', heq⟩)
      have hrest := ih hstaged hrest
      rw [hmissing] at hrest
      simp only [hinsert]
      refine hrest.trans ?_
      cases env.missing rest with
      | error e => rfl
      | ok fresh => exact congrArg Except.ok (adding_adding env [d] fresh)

end Environment

namespace CompiledUnit

open Environment

variable {u : CompiledUnit} {env env' extended : Environment} {config : Config}

/-! ## Loading -/

/-- A conflict met while the declarations are added is the conflict that loading reports. -/
theorem load_of_extend_error {e : KernelError} (h : env.extend u.decls = .error e) :
    u.load env config = .error (.conflict e) := by
  rw [load_eq, h]

/-- A unit without conflicts is loaded if what it adds need not be verified or is. -/
theorem load_of_extend_ok (h : env.extend u.decls = .ok extended) :
    let failures := extended.verifyRange env.size extended.size config.maxSteps
    u.load env config =
      if config.verifyUnits = false ∨ failures = [] then .ok (extended, extended.size - env.size)
      else .error (.unverified failures) := by
  intro failures
  rw [load_eq, h]
  cases hverify : config.verifyUnits with
  | false => simp
  | true =>
    cases hfailures : failures with
    | nil => simp [failures, hfailures]
    | cons failure rest => simp [failures, hfailures]

/-- **A conflict is the first clash.** -/
theorem load_eq_conflict_iff {x : Name} (h : env.Distinct) :
    u.load env config = .error (.conflict (.duplicateName x)) ↔
      FirstClash env.toList u.decls x := by
  rcases extend_cases h u.decls with ⟨y, hclash, hextend⟩ | ⟨hnone, hextend⟩
  · rw [load_of_extend_error hextend]
    constructor
    · intro hload
      cases hload
      exact hclash
    · intro hclash'
      rw [hclash'.unique hclash]
  · refine iff_of_false ?_ (hnone x)
    rw [load_of_extend_ok hextend]
    split <;> simp

/-- **Without a clash what is fresh is added.** -/
theorem load_of_not_firstClash (h : env.Distinct) (hnone : ∀ x, ¬ FirstClash env.toList u.decls x) :
    let extended := env.adding (env.fresh u.decls)
    let failures := extended.verifyRange env.size extended.size config.maxSteps
    u.load env config =
      if config.verifyUnits = false ∨ failures = [] then .ok (extended, (env.fresh u.decls).length)
      else .error (.unverified failures) := by
  intro extended failures
  rcases extend_cases h u.decls with ⟨y, hclash, -⟩ | ⟨-, hextend⟩
  · exact absurd hclash (hnone y)
  · have hcount : extended.size - env.size = (env.fresh u.decls).length := by
      rw [size_adding, Nat.add_sub_cancel_left]
    rw [load_of_extend_ok hextend, hcount]

/-- A unit that is refused leaves the environment as it was, whatever had been staged. -/
theorem loadM_of_error {e : UnitError} (h : u.load env config = .error e) :
    u.loadM config env = .error e env := by
  obtain ⟨env', hrun⟩ := EStateM.outcome_eq_error.mp h
  rw [hrun, u.atomic_loadM config hrun]

/-- A unit that has been loaded adds nothing, whatever the configuration. -/
theorem load_again {added : Nat} (h : env.Distinct) (hload : u.load env config = .ok (env', added))
    (config' : Config) : u.load env' config' = .ok (env', 0) := by
  have hnothing : env'.verifyRange env'.size env'.size config'.maxSteps = [] := by
    simp [verifyRange]
  rw [load_of_extend_ok (extend_again h (extend_of_load hload)), hnothing]
  simp

/-- **Merging an environment is loading its unit without verification.** -/
theorem load_ofEnvironment {other : Environment} (h : env.Distinct) (hother : other.Distinct)
    (hverify : config.verifyUnits = false) :
    (ofEnvironment other).load env config = (env.merge other).mapError .conflict := by
  have hextend : env.extend (ofEnvironment other).decls =
      (env.missing other.toList).map env.adding := extend_eq_missing h hother
  rw [merge_eq]
  cases hmissing : env.missing other.toList with
  | error e =>
    rw [hmissing] at hextend
    exact load_of_extend_error hextend
  | ok fresh =>
    rw [hmissing] at hextend
    rw [load_of_extend_ok hextend, if_pos (.inl hverify), size_adding, Nat.add_sub_cancel_left]
    rfl

/-- **Loading a unit is exact, and all or nothing.** It fails with a conflict exactly on the
first declaration of the unit that differs from one of its name in the environment or
before it in the unit. Without such a declaration the environment is extended by the
declarations of the unit that it does not have, each once and in their order, unless
verification is asked for and fails. A unit that is refused leaves the environment as it
was, also when the walk through its declarations had added some before it met the conflict;
one that was loaded adds nothing when it is loaded again; and merging an environment is
loading the unit of its declarations without verification. -/
theorem load_exact (henv : env.Distinct) (u : CompiledUnit) (config : Config) :
    let fresh := (u.decls.filter (· ∉ env.toList)).eraseDups
    let extended : Environment := { decls := env.decls ++ fresh.toArray }
    let failures := extended.verifyRange env.size extended.size config.maxSteps
    (∀ x, u.load env config = .error (.conflict (.duplicateName x)) ↔
      FirstClash env.toList u.decls x) ∧
    ((∀ x, ¬ FirstClash env.toList u.decls x) → u.load env config =
      if config.verifyUnits = false ∨ failures = [] then .ok (extended, fresh.length)
      else .error (.unverified failures)) ∧
    (∀ e, u.load env config = .error e → u.loadM config env = .error e env) ∧
    (∀ env' added, u.load env config = .ok (env', added) →
      ∀ config', u.load env' config' = .ok (env', 0)) ∧
    ∀ other : Environment, other.Distinct →
      (ofEnvironment other).load env { config with verifyUnits := false } =
        (env.merge other).mapError .conflict := by
  intro fresh extended failures
  refine ⟨fun x => load_eq_conflict_iff henv, load_of_not_firstClash henv,
    fun _ => loadM_of_error, ?_, ?_⟩
  · intro env' added hload config'
    exact load_again henv hload config'
  · intro other hother
    exact load_ofEnvironment henv hother rfl

/-- A unit that has a declaration of the environment and a new one twice adds the new one
once, and nothing the second time. A unit that has the new one in two versions is refused
on its name, though the environment has no such name; the walk through it had added the
first version by then, and the environment is what it was. Merging an environment with
both declarations adds the new one as well. -/
theorem load_exact_repeated :
    let a : Declaration := ⟨.atom "a", [], .sort (.ofNat 1), none⟩
    let b : Declaration := ⟨.atom "b", [], .const (.atom "a") [], none⟩
    let b' : Declaration := ⟨.atom "b", [], .sort .zero, none⟩
    let config : Config := { maxSteps := 10, memoize := false }
    let env : Environment := ⟨#[a]⟩
    let extended : Environment := ⟨#[a, b]⟩
    let repeated : CompiledUnit := ⟨[b, a, b]⟩
    let torn : CompiledUnit := ⟨[b, a, b', a]⟩
    env.Distinct ∧ extended.Distinct ∧
      FirstClash env.toList torn.decls (.atom "b") ∧
      (extendM torn.decls).leaves env = extended ∧
      torn.loadM config env = .error (.conflict (.duplicateName (.atom "b"))) env ∧
      (∀ x, ¬ FirstClash env.toList repeated.decls x) ∧
      repeated.load env config = .ok (extended, 1) ∧
      repeated.load extended config = .ok (extended, 0) ∧
      (env.merge extended).mapError UnitError.conflict = .ok (extended, 1) := by
  intro a b b' config env extended repeated torn
  have henv : env.Distinct := by decide
  have hextended : extended.Distinct := by decide
  have htorn : torn.load env config = .error (.conflict (.duplicateName (.atom "b"))) := by
    decide +kernel
  have hrepeated : repeated.load env config = .ok (extended, 1) := by decide +kernel
  obtain ⟨htornClash, -, hunchanged, -, -⟩ := load_exact henv torn config
  obtain ⟨hclash, -, -, hagain, hmerge⟩ := load_exact henv repeated config
  refine ⟨henv, hextended, (htornClash _).mp htorn, by decide +kernel, hunchanged _ htorn,
    fun x hx => ?_, hrepeated, hagain extended 1 hrepeated config, ?_⟩
  · have hfails := (hclash x).mpr hx
    rw [hrepeated] at hfails
    cases hfails
  · rw [← hmerge extended hextended]
    decide +kernel

end CompiledUnit

end TypeTheory
