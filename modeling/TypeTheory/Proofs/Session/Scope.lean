import TypeTheory.Proofs.Checker.Scope
import TypeTheory.Proofs.Scope.Telescope
import TypeTheory.Proofs.Session.Invariant

/-!
# What a session does with loose indices

Every operation of a session that is given a term resolves its names, closes it
over the section variables it depends on and asks the kernel. Closing turns
variables into indices and leaves the indices that are there as they are. A loose
index is therefore refused if it points beyond the variables that are bound
(`Session.captured`), but one that points at them is *captured*: the term is taken
for one that mentions the variable.

So `Session.evaluate`, which takes no section variables, refuses every loose index,
and the other operations refuse those that no variable captures.
-/

namespace TypeTheory

open CheckM

/-! ## Operations on leaves -/

namespace Term

/-- A term has no smaller range once its leaves are replaced, if no leaf has. -/
theorem looseRange_le_mapLeaves {f : Nat → Term → Term}
    (hf : ∀ d leaf, leaf.isLeaf = true → leaf.looseRange ≤ (f d leaf).looseRange)
    (d : Nat) (e : Term) : e.looseRange ≤ (mapLeaves f d e).looseRange := by
  -- stated for every bound, because the bound goes up by one under a binder
  suffices h : ∀ n, (mapLeaves f d e).looseRange ≤ n → e.looseRange ≤ n from
    h _ (Nat.le_refl _)
  induction e generalizing d with
  | bvar i => exact fun n h => Nat.le_trans (hf d (.bvar i) rfl) h
  | fvar x | sort l | const x ls => exact fun n _ => Nat.zero_le n
  | app g a ihg iha =>
    intro n h
    obtain ⟨hg, ha⟩ := looseRange_app_le.mp h
    exact looseRange_app_le.mpr ⟨ihg d n hg, iha d n ha⟩
  | bind k x t b iht ihb =>
    intro n h
    obtain ⟨ht, hb⟩ := looseRange_bind_le.mp h
    exact looseRange_bind_le.mpr ⟨iht d n ht, ihb (d + 1) (n + 1) hb⟩
  | letE x t v b iht ihv ihb =>
    intro n h
    obtain ⟨ht, hv, hb⟩ := looseRange_letE_le.mp h
    exact looseRange_letE_le.mpr ⟨iht d n ht, ihv d n hv, ihb (d + 1) (n + 1) hb⟩
  | pair a b iha ihb =>
    intro n h
    obtain ⟨ha, hb⟩ := looseRange_pair_le.mp h
    exact looseRange_pair_le.mpr ⟨iha d n ha, ihb d n hb⟩
  | proj k p ih =>
    intro n h
    exact looseRange_proj_le.mpr (ih d n (looseRange_proj_le.mp h))

theorem looseRange_le_replaceConsts (e : Term) (f : Name → List Level → Option Term) :
    e.looseRange ≤ (e.replaceConsts f).looseRange := by
  refine looseRange_le_mapLeaves (fun d leaf _ => ?_) 0 e
  split
  · exact looseRange_const_le
  · exact Nat.le_refl _

theorem looseRange_le_abstractFvars (e : Term) (names : List Name) :
    e.looseRange ≤ (e.abstractFvars names).looseRange := by
  refine looseRange_le_mapLeaves (fun d leaf _ => ?_) 0 e
  split
  · exact looseRange_fvar_le
  · exact Nat.le_refl _

end Term

/-! ## Telescopes -/

namespace Telescope

/-- Closing over a telescope leaves the loose indices that are there, and may add some. -/
theorem looseRange_le_close (t : Telescope) (e : Term) :
    e.looseRange ≤ (t.close e).looseRange :=
  e.looseRange_le_abstractFvars t.names

/-- Under some binders an index may point at them. -/
theorem looseRange_of_foldr {k : Binder} {body : Term} (binders : List Entry) {n : Nat}
    (h : (binders.foldr (fun b body => .bind k b.name b.type body) body).looseRange ≤ n) :
    body.looseRange ≤ n + binders.length := by
  induction binders generalizing n with
  | nil => exact h
  | cons b rest ih =>
    have hrest := ih (Term.looseRange_bind_le.mp h).2
    rw [List.length_cons]
    omega

/-- A term that is closed by the binders of a telescope has indices for them only. -/
theorem looseRange_le_size {t : Telescope} {k : Binder} {e : Term}
    (h : (t.wrap k e).looseRange ≤ 0) : e.looseRange ≤ t.size := by
  have hclose := looseRange_of_foldr t.binders h
  rw [length_binders] at hclose
  have hle := t.looseRange_le_close e
  omega

end Telescope

/-! ## Operations of a session -/

namespace Session

variable {s : Session} {e : Term}

/-- The number of section variables that some terms depend on. -/
def captured (s : Session) (terms : List Term) : Nat :=
  match terms.mapM s.resolve with
  | .ok resolved => (s.scope.telescope resolved).size
  | .error _ => 0

/-- The indices that are captured are those of the telescope of the resolved terms. -/
theorem captured_eq {terms resolved : List Term} (h : terms.mapM s.resolve = .ok resolved) :
    s.captured terms = (s.scope.telescope resolved).size := by
  rw [captured, h]

theorem looseRange_le_resolve {e' : Term} (h : s.resolve e = .ok e') :
    e.looseRange ≤ e'.looseRange := by
  obtain ⟨table, -, h⟩ := bind_eq_ok (mapError_eq_ok h)
  cases h
  exact e.looseRange_le_replaceConsts _

theorem captured_singleton {e' : Term} (h : s.resolve e = .ok e') :
    s.captured [e] = (s.scope.telescope [e']).size := by
  refine captured_eq ?_
  rw [List.mapM_cons, h]
  rfl

/-- What the kernel finds a type for, over the variables a term depends on, has no
other index. -/
theorem looseRange_le_captured {e' : Term} (hresolve : s.resolve e = .ok e')
    (h : ((s.scope.telescope [e']).close e').looseRange ≤
      (s.scope.telescope [e']).context.length) : e.looseRange ≤ s.captured [e] := by
  rw [Telescope.length_context] at h
  rw [captured_singleton hresolve]
  have hle := looseRange_le_resolve hresolve
  have hle' := (s.scope.telescope [e']).looseRange_le_close e'
  omega

/-- A run of the kernel from the start that succeeds. -/
theorem of_run {α : Type} {m : CheckM α} {post : Prop} {a : α} (hm : Checker.Scopes post m)
    (h : run m = .ok a) : post := by
  obtain ⟨p, hrun⟩ := run_eq_ok h
  exact (hm.of_ok (.of_blank Progress.blank_empty) hrun).1

/-- A type is found only for a term whose loose indices point at the variables that it depends
on. -/
theorem captured_of_typeOf {t : Term} (h : s.typeOf e = .ok t) :
    e.looseRange ≤ s.captured [e] := by
  unfold typeOf at h
  obtain ⟨e', hresolve, h⟩ := bind_eq_ok h
  obtain ⟨type, hinfer, -⟩ := bind_eq_ok h
  exact looseRange_le_captured hresolve
    (of_run (Checker.guards _ _).1 (mapError_eq_ok hinfer))

/-- A variable is declared only with a type whose loose indices point at the variables that it
depends on. -/
theorem captured_of_declareVariable {name : Name} {s' : Session}
    (h : s.declareVariable name e = .ok s') : e.looseRange ≤ s.captured [e] := by
  rw [declareVariable_eq] at h
  obtain ⟨e', hresolve, h⟩ := bind_eq_ok h
  obtain ⟨l, hsort, -⟩ := bind_eq_ok h
  exact looseRange_le_captured hresolve
    (of_run (Checker.scopes_sortOf (Checker.guards _) _) (mapError_eq_ok hsort))

/-- An evaluated term depends on no section variable, so it is closed. -/
theorem looseRange_of_evaluate {limit : Nat} {r : Term} (h : s.evaluate e limit = .ok r) :
    e.looseRange ≤ 0 := by
  unfold evaluate at h
  obtain ⟨e', hresolve, h⟩ := bind_eq_ok h
  dsimp only at h
  split at h
  · cases h
  · obtain ⟨type, hinfer, -⟩ := bind_eq_ok h
    have hclosed := of_run (Checker.guards _ _).1 (mapError_eq_ok hinfer)
    exact Nat.le_trans (looseRange_le_resolve hresolve) hclosed

/-- Resolving an optional term is resolving the list of at most one term. -/
theorem mapM_resolve? {value value' : Option Term} (h : s.resolve? value = .ok value') :
    value.toList.mapM s.resolve = .ok value'.toList := by
  cases value with
  | none =>
    cases h
    rfl
  | some v =>
    cases hv : s.resolve v with
    | error err =>
      rw [resolve?, hv] at h
      cases h
    | ok v' =>
      rw [resolve?, hv] at h
      cases h
      rw [Option.toList_some, List.mapM_cons, hv]
      rfl

theorem looseRange_le_resolve? {value value' : Option Term} (h : s.resolve? value = .ok value')
    (he : value = some e) : ∃ e', value' = some e' ∧ e.looseRange ≤ e'.looseRange := by
  rw [he] at h
  cases hresolve : s.resolve e with
  | error err =>
    rw [resolve?, hresolve] at h
    cases h
  | ok e' =>
    rw [resolve?, hresolve] at h
    cases h
    exact ⟨e', rfl, looseRange_le_resolve hresolve⟩

/-- What is declared is closed by the variables that type and value depend on. -/
theorem captured_of_declare {short : Name} {params : List Name} {type : Term}
    {value : Option Term} {r : Session × Name} (h : s.declare short params type value = .ok r) :
    type.looseRange ≤ s.captured (type :: value.toList) ∧
      ∀ e, value = some e → e.looseRange ≤ s.captured (type :: value.toList) := by
  rw [declare_eq] at h
  dsimp only at h
  split at h
  · cases h
  · obtain ⟨type', htype, h⟩ := bind_eq_ok h
    obtain ⟨value', hvalue, h⟩ := bind_eq_ok h
    obtain ⟨_, hcheck, -⟩ := bind_eq_ok h
    -- the kernel accepts closed declarations only, and is given the wrapped ones
    have haccepted := Checker.failure?_eq_none_iff.mpr (run_eq_ok (mapError_eq_ok hcheck))
    obtain ⟨hclosed, hclosed'⟩ := Checker.looseRange_of_failure? haccepted
    have hcaptured : s.captured (type :: value.toList) =
        (s.scope.telescope (type' :: value'.toList)).size := by
      refine captured_eq ?_
      rw [List.mapM_cons, htype, mapM_resolve? hvalue]
      rfl
    rw [hcaptured]
    constructor
    · exact Nat.le_trans (looseRange_le_resolve htype) (Telescope.looseRange_le_size hclosed)
    · intro e he
      obtain ⟨e', rfl, hle⟩ := looseRange_le_resolve? hvalue he
      exact Nat.le_trans hle (Telescope.looseRange_le_size (hclosed' _ rfl))

/-! ## Variables in scope -/

theorem length_dependencies_le (pending : List Name) (vars : List SectionVar) :
    (Scope.dependencies pending vars).length ≤ vars.length := by
  fun_induction Scope.dependencies pending vars with
  | case1 => exact Nat.zero_le _
  | case2 pending vars v hfind hlt ih =>
    rw [List.length_cons]
    omega

/-- No more variables capture an index than are in scope. -/
theorem captured_le (s : Session) (terms : List Term) : s.captured terms ≤ s.scope.vars.length := by
  unfold captured
  split
  · rw [Telescope.size, Scope.telescope, List.length_mergeSort]
    exact length_dependencies_le _ _
  · exact Nat.zero_le _

theorem error_of_ne_ok {ε α : Type} {x : Except ε α} (h : ∀ a, x ≠ .ok a) :
    ∃ err, x = .error err := by
  cases x with
  | error err => exact ⟨err, rfl⟩
  | ok a => exact absurd rfl (h a)

/-- **Loose indices are refused unless a section variable captures them.** An
evaluation refuses every term with a loose index. The other operations refuse a
term whose indices reach beyond the section variables that it depends on, and
those are no more than the variables in scope. -/
theorem refuses_uncaptured (s : Session) (e : Term) :
    (∀ limit, e.hasLoose = true → ∃ err, s.evaluate e limit = .error err) ∧
    (s.captured [e] < e.looseRange →
      (∃ err, s.typeOf e = .error err) ∧ ∀ name, ∃ err, s.declareVariable name e = .error err) ∧
    (∀ short params value, s.captured (e :: value.toList) < e.looseRange →
      ∃ err, s.declare short params e value = .error err) ∧
    (∀ short params type, s.captured [type, e] < e.looseRange →
      ∃ err, s.declare short params type (some e) = .error err) ∧
    ∀ terms, s.captured terms ≤ s.scope.vars.length := by
  refine ⟨?_, ?_, ?_, ?_, s.captured_le⟩
  · intro limit hloose
    refine error_of_ne_ok fun r hr => ?_
    have hclosed := Term.hasLoose_eq_false_iff.mpr (looseRange_of_evaluate hr)
    rw [hloose] at hclosed
    cases hclosed
  · intro hlt
    constructor
    · refine error_of_ne_ok fun t ht => ?_
      have hle := captured_of_typeOf ht
      omega
    · intro name
      refine error_of_ne_ok fun s' hs' => ?_
      have hle := captured_of_declareVariable hs'
      omega
  · intro short params value hlt
    refine error_of_ne_ok fun r hr => ?_
    have hle := (captured_of_declare hr).1
    omega
  · intro short params type hlt
    refine error_of_ne_ok fun r hr => ?_
    have hle := (captured_of_declare hr).2 e rfl
    rw [Option.toList_some] at hle
    omega

/-- A session with the type `A` and a section variable `x` of it. -/
def oneVariable : Session :=
  let actions : List Action :=
    [.declare (.atom "A") [] (.sort (.ofNat 1)) none, .enter (.varSection none),
      .declareVariable (.atom "x") (.const (.atom "A") [])]
  (new { maxSteps := 100, memoize := false }).afterAll (fun _ => default) actions

/-- A pair of the variable with a loose index is refused everywhere if the index is
`1`, because the pair depends on one variable. -/
theorem refuses_uncaptured_pair :
    let a := Term.const (.atom "A") []
    let e := Term.pair (.const (.atom "x") []) (.bvar 1)
    oneVariable.scope.vars.length = 1 ∧ e.hasLoose = true ∧
      oneVariable.captured [e] < e.looseRange ∧ oneVariable.captured [a, e] < e.looseRange ∧
      (∃ err, oneVariable.evaluate e 100 = .error err) ∧
      (∃ err, oneVariable.typeOf e = .error err) ∧
      (∃ err, oneVariable.declare (.atom "f") [] e none = .error err) ∧
      ∃ err, oneVariable.declare (.atom "f") [] a (some e) = .error err := by
  intro a e
  have hlt : oneVariable.captured [e] < e.looseRange := by decide +kernel
  have hlt' : oneVariable.captured [a, e] < e.looseRange := by decide +kernel
  obtain ⟨hevaluate, htypeOf, htype, hvalue, -⟩ := refuses_uncaptured oneVariable e
  exact ⟨by decide +kernel, rfl, hlt, hlt', hevaluate 100 rfl, (htypeOf hlt).1,
    htype (.atom "f") [] none hlt, hvalue (.atom "f") [] a hlt'⟩

/-- The same pair with the index `0` is given a type and declared, as the pair of
the variable with itself. -/
theorem accepts_captured_pair :
    let a := Term.const (.atom "A") []
    let e := Term.pair (.const (.atom "x") []) (.bvar 0)
    e.hasLoose = true ∧ oneVariable.typeOf e = .ok (.prod a a) ∧
      (oneVariable.after (fun _ => default)
        (.declare (.atom "f") [] (.prod a a) (some e))).env.at? 1 =
        some ⟨.atom "f", [], .pi (.atom "x") a (.prod a a),
          some (.lam (.atom "x") a (.pair (.bvar 0) (.bvar 0)))⟩ := by
  decide +kernel

end Session

end TypeTheory
