import TypeTheory.Proofs.Environment.Widening
import TypeTheory.Proofs.Scope.Abstraction
import TypeTheory.Proofs.Session.Telescope

/-!
# Queries and declarations agree

A query asks for the type of a term in the context of the section variables that it
depends on. A declaration binds these variables and asks for the type of the function
that results. Both get the same answer (`Session.infer_wrap_afterAll_new`).

The types of the variables have to be types for this, and they are: the type of a
variable was checked when the variable was declared (`Scope.Typed`). At that time the
environment may have been smaller, and the type was checked over the variables that it
depends on, not over those that some other term depends on. Neither matters: new
declarations are out of sight of old types (`Checker.Widens`), and a type may be moved
to the context of all variables before it and from there to the context of any of them
that it mentions (`Telescope.Thins`).
-/

namespace TypeTheory

open CheckM

/-! ## The constants of a telescope -/

/-- A binder of a telescope has no value, and its type is that of a variable, closed over the names
before it. -/
theorem Telescope.type_of_mem_bindersWithin {before : List Name} {vars : List SectionVar}
    {entry : Entry} (h : entry ∈ bindersWithin before vars) :
    entry.value = none ∧ ∃ v ∈ vars, ∃ names, entry.type = v.type.abstractFvars names := by
  induction vars generalizing before with
  | nil => cases h
  | cons v rest ih =>
    rcases List.mem_cons.mp h with rfl | h
    · exact ⟨rfl, v, List.mem_cons_self, before, rfl⟩
    · obtain ⟨hvalue, w, hw, hnames⟩ := ih h
      exact ⟨hvalue, w, List.mem_cons_of_mem v hw, hnames⟩

/-- A checker that sees the constants in the types of variables sees those in their
context. -/
theorem Checker.seesContext_telescope {c : Checker} {t : Telescope}
    (h : ∀ v ∈ t.vars, v.type.constantsIn (c.vocabulary []) = true) :
    c.SeesContext t.context := by
  intro entry hentry
  obtain ⟨hvalue, v, hv, names, htype⟩ :=
    Telescope.type_of_mem_bindersWithin (List.mem_reverse.mp hentry)
  refine ⟨?_, fun u hu => ?_⟩
  · rw [htype, Term.constantsIn_abstractFvars]
    exact h v hv
  · rw [hvalue] at hu
    cases hu

/-! ## Variables with types -/

namespace Scope

variable {s s' : Scope} {c c' : Checker} {v : SectionVar}

/-- The variables in scope that were declared before a variable. -/
def before (s : Scope) (v : SectionVar) : Telescope :=
  ⟨s.vars.filter (·.order < v.order)⟩

/-- The type of each variable is found to be a type, over the variables before it. -/
def Typed (s : Scope) (c : Checker) : Prop :=
  ∀ v ∈ s.vars, ∃ l, c.Pays
    (fun c _ => c.sortOf ((s.before v).close v.type) (s.before v).context) l

theorem nodup_before (h : s.Telescoped) (v : SectionVar) : (s.before v).names.Nodup :=
  h.distinct.sublist (List.filter_sublist.map _)

/-- What is declared later does not come before. -/
theorem before_eq_of_append {inner : List SectionVar} (h : s.Telescoped)
    (hvars : s.vars = s'.vars ++ inner) (hv : v ∈ s'.vars) : s.before v = s'.before v := by
  have hordered := h.ordered
  rw [hvars] at hordered
  have hinner : inner.filter (·.order < v.order) = [] := by
    refine List.filter_eq_nil_iff.mpr fun w hw => ?_
    have := (List.pairwise_append.mp hordered).2.2 v hv w hw
    rw [decide_eq_true_eq]
    omega
  unfold before
  rw [hvars, List.filter_append, hinner, List.append_nil]

/-- Variables that go away leave the others with their types. -/
theorem Typed.of_append {inner : List SectionVar} (htyped : s.Typed c) (h : s.Telescoped)
    (hvars : s.vars = s'.vars ++ inner) : s'.Typed c := by
  intro v hv
  have hmem : v ∈ s.vars := by
    rw [hvars]
    exact List.mem_append_left _ hv
  obtain ⟨l, hl⟩ := htyped v hmem
  rw [before_eq_of_append h hvars hv] at hl
  exact ⟨l, hl⟩

/-- Types stay types when more is declared. -/
theorem Typed.widen (htyped : s.Typed c) (hclosed : c.SeesClosed) (hwidens : c.Widens c') :
    s.Typed c' := by
  have hconstants : ∀ v ∈ s.vars, v.type.constantsIn (c.vocabulary []) = true := fun v hv => by
    obtain ⟨l, hl⟩ := htyped v hv
    have hclose := Checker.constantsIn_of_pays_sortOf hclosed hl
    rwa [Telescope.close, Term.constantsIn_abstractFvars] at hclose
  intro v hv
  obtain ⟨l, hl⟩ := htyped v hv
  refine ⟨l, hwidens.pays_sortOf (Checker.seesContext_telescope fun w hw => ?_) ?_ hl⟩
  · exact hconstants w (List.mem_filter.mp hw).1
  · rw [Telescope.close, Term.constantsIn_abstractFvars]
    exact hconstants v hv

variable (hc : c.memoize = false) (hclosed : c.SeesClosed) (h : s.Telescoped)

include hc hclosed h

/-- **A variable that is declared has a type**, if it has one over the variables that it
depends on. -/
theorem Typed.declareVariable (htyped : s.Typed c) {env : Environment} {x : Name} {type : Term}
    {l : Level} (hrange : type.looseRange ≤ 0)
    (hscope : type.FvarsIn fun y => ∃ w ∈ s.vars, w.name = y)
    (htype : c.Pays (fun c _ => c.sortOf ((s.telescope [type]).close type)
      (s.telescope [type]).context) l)
    (hdeclare : s.declareVariable env x type = .ok s') : s'.Typed c := by
  have hvars := vars_declareVariable hdeclare
  have h' := h.declareVariable (Nat.le_zero.mp hrange) hscope hdeclare
  intro v hv
  rw [hvars] at hv
  rcases List.mem_append.mp hv with hv | hv
  · rw [before_eq_of_append h' hvars hv]
    exact htyped v hv
  · -- all variables come before the new one, those that its type mentions among them
    have hnew := List.mem_singleton.mp hv
    have hbefore : s'.before v = ⟨s.vars⟩ := by
      have hall : ∀ w ∈ s.vars, decide (w.order < s.nextOrder) = true := fun w hw =>
        decide_eq_true (h.below w hw)
      rw [before, hvars, hnew, List.filter_append, List.filter_eq_self.mpr hall]
      simp
    have hsub := h.telescope_sublist [type]
    rw [hbefore, hnew]
    exact ⟨l, (Checker.pays_sortOf_iff_of_sublist hc hclosed hsub h.distinct
      (fun w hw => Nat.le_of_eq (h.closed w (hsub.subset hw)))
      (fun early w late hsplit => h.earlier_in_telescope hsplit) hrange
      (h.fvarsIn_telescope List.mem_cons_self hscope)).mp htype⟩

/-- **The variables of a telescope have types**, each over those before it in the
telescope. -/
theorem Typed.telescope (htyped : s.Typed c) {terms : List Term}
    {early late : List SectionVar} (hsplit : (s.telescope terms).vars = early ++ v :: late) :
    ∃ l, c.Pays (fun c _ => c.sortOf ((Telescope.mk early).close v.type)
      (Telescope.mk early).context) l := by
  have hmem : ∀ w ∈ (s.telescope terms).vars, w ∈ s.vars := fun w hw =>
    (h.telescope_sublist terms).subset hw
  rw [hsplit] at hmem
  have hv : v ∈ s.vars := hmem v (List.mem_append_right _ List.mem_cons_self)
  have hearlier : ∀ first w last, early = first ++ w :: last →
      w.type.FvarsIn (· ∈ first.map (·.name)) := fun first w last hfirst => by
    have hwhole : (s.telescope terms).vars = first ++ w :: (last ++ v :: late) := by
      rw [hsplit, hfirst, List.append_assoc, List.cons_append]
    exact h.earlier_in_telescope hwhole
  obtain ⟨l, hl⟩ := htyped v hv
  exact ⟨l, (Checker.pays_sortOf_iff_of_sublist hc hclosed (h.sublist_before hsplit)
    (nodup_before h v) (fun w hw => Nat.le_of_eq (h.closed w (hmem w (List.mem_append_left _ hw))))
    hearlier (Nat.le_of_eq (h.closed v hv)) (h.earlier_in_telescope hsplit)).mpr hl⟩

end Scope

/-! ## Sessions -/

namespace Session

variable {digest : Bytes → Digest} {config : Config} {s s' : Session} {action : Action}

theorem extends_of_perform (h : s.perform digest action = .ok s') : s.env.Extends s'.env := by
  rcases (env_of_perform h).2 with hsame | ⟨d, -, hinsert⟩ | ⟨u, added, hload⟩
  · rw [hsame]
    exact .refl _
  · exact Environment.extends_of_insert hinsert
  · exact Environment.extends_of_extend (CompiledUnit.extend_of_load hload)

theorem distinct_of_perform (hdistinct : s.env.Distinct) (h : s.perform digest action = .ok s') :
    s'.env.Distinct := by
  rcases (env_of_perform h).2 with hsame | ⟨d, -, hinsert⟩ | ⟨u, added, hload⟩
  · rw [hsame]
    exact hdistinct
  · exact hdistinct.insert hinsert
  · exact hdistinct.extend (CompiledUnit.extend_of_load hload)

/-- A variable is declared once its type was resolved and found to be a type. -/
theorem declareVariable_eq_ok {name : Name} {type : Term}
    (h : s.declareVariable name type = .ok s') :
    ∃ type' l p scope, s.scope.resolveTerm s.env type = .ok type' ∧
      s.checker.sortOf ((s.scope.telescope [type']).close type')
        (s.scope.telescope [type']).context {} = .ok l p ∧
      s.scope.declareVariable s.env name type' = .ok scope ∧ s' = { s with scope := scope } := by
  rw [declareVariable_eq] at h
  obtain ⟨type', hresolve, h⟩ := bind_eq_ok h
  obtain ⟨l, hsort, h⟩ := bind_eq_ok h
  obtain ⟨scope, hscope, h⟩ := bind_eq_ok h
  obtain ⟨p, hrun⟩ := run_eq_ok (mapError_eq_ok hsort)
  cases h
  exact ⟨type', l, p, scope, mapError_eq_ok hresolve, hrun, mapError_eq_ok hscope, rfl⟩

/-- **All that the session holds was checked**: the environment is verified and declares
no name twice, and the variables in scope form a telescope of types. -/
structure Checked (config : Config) (s : Session) : Prop where
  keeps : s.Keeps config
  distinct : s.env.Distinct
  telescoped : s.scope.Telescoped
  typed : s.scope.Typed s.checker.forgetful

theorem checked_new (config : Config) : (new config).Checked config where
  keeps := keeps_new config
  distinct := Environment.distinct_empty
  telescoped := telescoped_new config
  typed _ hv := absurd hv List.not_mem_nil

theorem Checked.seesClosed (h : s.Checked config) : s.checker.forgetful.SeesClosed :=
  h.keeps.2.seesClosed s.env.size s.config.maxSteps false

/-- An operation that succeeds leaves each variable with a type that is one, over the declarations
there are then. -/
theorem Checked.typed_of_perform (h : s.Checked config) (hraw : action.Raw)
    (hperform : s.perform digest action = .ok s') : s'.scope.Typed s'.checker.forgetful := by
  -- the old variables keep their types whatever is declared
  have hwidens : s.checker.forgetful.Widens s'.checker.forgetful :=
    (extends_of_perform hperform).widens h.keeps.2 (distinct_of_perform h.distinct hperform) _ _
  have hold := h.typed.widen h.seesClosed hwidens
  have hsame {t : Scope} (hvars : t.vars = s.scope.vars) : t.Typed s'.checker.forgetful := by
    have hnone : s.scope.vars = t.vars ++ [] := by rw [hvars, List.append_nil]
    exact hold.of_append h.telescoped hnone
  rcases scope_of_perform hperform with heq | ⟨heading, henter⟩ | ⟨kind, name, hleave⟩ |
    ⟨short, target, hopen⟩ | ⟨name, type, -, rfl, -, -⟩
  · exact hsame (by rw [heq])
  · exact hsame (by rw [henter, Scope.vars_enter])
  · obtain ⟨-, inner, hvars⟩ := Scope.vars_leave hleave
    exact hold.of_append h.telescoped hvars
  · exact hsame (Scope.vars_openNamespace hopen)
  · obtain ⟨type', l, p, scope, hresolve, hrun, hdeclare, rfl⟩ := declareVariable_eq_ok hperform
    obtain ⟨hrange, hscope⟩ := Scope.resolveTerm_raw hraw hresolve
    have htype := Checker.pays_sortOf_of_ok (c := s.checker) h.seesClosed Progress.blank_empty hrun
    exact Scope.Typed.declareVariable rfl h.seesClosed h.telescoped h.typed hrange hscope htype
      hdeclare

/-- **No operation breaks the invariant**, whether it succeeds or fails. -/
theorem Checked.after (hverify : config.verifyUnits = true) (h : s.Checked config)
    (hraw : action.Raw) : (s.after digest action).Checked config := by
  have hkeeps : (s.after digest action).Keeps config := h.keeps.after hverify action
  have htelescoped : (s.after digest action).scope.Telescoped := telescoped_after h.telescoped hraw
  cases hperform : s.perform digest action with
  | error e =>
    rw [after_of_error hperform]
    exact h
  | ok s' =>
    rw [after_of_ok hperform] at hkeeps htelescoped ⊢
    exact ⟨hkeeps, distinct_of_perform h.distinct hperform, htelescoped,
      h.typed_of_perform hraw hperform⟩

/-- The invariant holds after any sequence of operations on raw terms, also where some of them
fail. -/
theorem Checked.afterAll (hverify : config.verifyUnits = true) (h : s.Checked config)
    {actions : List Action} (hraw : ∀ action ∈ actions, action.Raw) :
    (s.afterAll digest actions).Checked config := by
  induction actions generalizing s with
  | nil => exact h
  | cons action rest ih =>
    rw [List.forall_mem_cons] at hraw
    exact ih (h.after hverify hraw.1) hraw.2

/-- **Queries and declarations agree on types.** Let units be verified when they are
loaded. After any operations that are given closed terms without free variables, whether
they succeed or fail, take a term and the section variables that it depends on. With every
budget that is large enough, with or without tables, a type is found for the function of
these variables exactly if one is found for the term in their context; and it is the type
of the term, inside the same binders. -/
theorem infer_wrap_afterAll_new (digest : Bytes → Digest) {config : Config}
    (hverify : config.verifyUnits = true) {actions : List Action}
    (hraw : ∀ action ∈ actions, action.Raw) (e : Term) :
    let s := (new config).afterAll digest actions
    let t := s.scope.telescope [e]
    ∃ N, ∀ limit memoize, N ≤ limit →
      let c := { s.checker with limit := limit, memoize := memoize }
      ∀ u, (c.infer (t.wrap .lam e) []).value? {} = some u ↔
        ∃ r, (c.infer (t.close e) t.context).value? {} = some r ∧ u = t.around .pi r := by
  intro s t
  have hchecked : s.Checked config := (checked_new config).afterAll hverify hraw
  have hclosed : s.checker.SeesClosed := hchecked.seesClosed
  rw [t.wrap_eq_around .lam e]
  exact Checker.infer_around_iff hclosed (fun early v late hsplit =>
    Scope.Typed.telescope rfl hchecked.seesClosed hchecked.telescoped hchecked.typed hsplit)
    (t.close e)

/-- A type `A`; a section with a type `B` and variables `z` of `A` and `y` of `B`; then a
constant `a` of `A`. The pair of `y` and `a` depends on `B` and `y`, and both runs find
its type. -/
theorem infer_wrap_afterAll_new_pair :
    let name := fun x : String => Name.atom x
    let const := fun x : String => Term.const (name x) []
    let actions : List Action :=
      [.declare (name "A") [] (.sort (.ofNat 1)) none, .enter (.varSection none),
        .declareVariable (name "B") (.sort (.ofNat 1)), .declareVariable (name "z") (const "A"),
        .declareVariable (name "y") (const "B"), .declare (name "a") [] (const "A") none]
    let config : Config := { maxSteps := 100, memoize := false }
    let s := (new config).afterAll (fun _ => default) actions
    let e := Term.pair (.fvar (name "y")) (const "a")
    let t : Telescope :=
      ⟨[⟨name "B", .sort (.ofNat 1), 0⟩, ⟨name "y", .fvar (name "B"), 2⟩]⟩
    let type := Term.prod (.bvar 1) (const "A")
    (config.verifyUnits = true ∧ s.env.size = 2 ∧ s.scope.telescope [e] = t ∧
      (s.checker.infer (t.close e) t.context).value? {} = some type ∧
      (s.checker.infer (t.wrap .lam e) []).value? {} = some (t.around .pi type)) ∧
    ∃ N, ∀ limit memoize, N ≤ limit →
      let c := { s.checker with limit := limit, memoize := memoize }
      ∀ u, (c.infer (t.wrap .lam e) []).value? {} = some u ↔
        ∃ r, (c.infer (t.close e) t.context).value? {} = some r ∧ u = t.around .pi r := by
  intro name const actions config s e t type
  have hraw : ∀ action ∈ actions, action.Raw := by
    simp only [actions, List.forall_mem_cons, Action.Raw, Option.mem_def, reduceCtorEq,
      false_imp_iff, implies_true, and_true, true_and, List.not_mem_nil]
    decide +kernel
  -- the kernel does not reduce the sorting, so the telescope is found in two steps
  have hdeps : Scope.dependencies ([e].flatMap Term.fvars) s.scope.vars = t.vars.reverse := by
    decide +kernel
  have ht : s.scope.telescope [e] = t := by
    unfold Scope.telescope
    rw [hdeps]
    simp [t, List.mergeSort, List.MergeSort.Internal.splitInTwo]
  have hverify : config.verifyUnits = true := rfl
  have hagree := infer_wrap_afterAll_new (fun _ => default) hverify hraw e
  refine ⟨⟨hverify, by decide +kernel, ht, by decide +kernel, by decide +kernel⟩, ?_⟩
  rw [← ht]
  exact hagree

end Session

end TypeTheory
