import TypeTheory.Proofs.Scope.Telescope
import TypeTheory.Proofs.Session.Invariant

/-!
# The section variables of a session

Section variables live in the blocks of a scope, and their types refer to one
another by name. Whatever a session is asked to do, as long as the terms it is given
are closed and without free variables, the variables in scope form a telescope
(`Scope.Telescoped`): an operation leaves them as they are, adds one at the end, or
takes away the last ones with their block. The variables that are left do not miss
those, because a type mentions variables declared before it only.

What is declared in such a session is then closed: abstracting the variables that its
type and value depend on leaves no index and no free variable behind.
-/

namespace TypeTheory

/-- A closed term without free variables, as it is given to a session. -/
def Term.Raw (e : Term) : Prop :=
  e.looseRange = 0 ∧ e.hasFvars = false

instance (e : Term) : Decidable e.Raw :=
  inferInstanceAs (Decidable (_ ∧ _))

namespace Scope

variable {s s' : Scope}

/-! ## Operations on scopes -/

theorem vars_enter (s : Scope) (heading : Heading) : (s.enter heading).vars = s.vars := by
  simp [vars, frames, enter]

theorem Telescoped.enter (h : s.Telescoped) (heading : Heading) :
    (s.enter heading).Telescoped := by
  have hvars := s.vars_enter heading
  exact ⟨by rw [hvars]; exact h.distinct, by rw [hvars]; exact h.ordered,
    by rw [hvars]; exact h.below, by rw [hvars]; exact h.closed, by rw [hvars]; exact h.earlier⟩

/-- A block that is closed takes the last variables with it. -/
theorem vars_leave {kind : BlockKind} {name : Option Name} (h : s.leave kind name = .ok s') :
    s'.nextOrder = s.nextOrder ∧ ∃ inner, s.vars = s'.vars ++ inner := by
  rw [leave_eq] at h
  cases hblocks : s.blocks with
  | nil =>
    rw [hblocks] at h
    cases h
  | cons b outer =>
    rw [hblocks] at h
    dsimp only at h
    split at h
    · cases h
      exact ⟨rfl, b.frame.vars, by simp [vars, frames, hblocks]⟩
    · cases h

/-- **Closing a block keeps the telescope**: a variable that stays mentions variables
before it, and those stay too. -/
theorem Telescoped.leave (h : s.Telescoped) {kind : BlockKind} {name : Option Name}
    (hleave : s.leave kind name = .ok s') : s'.Telescoped := by
  obtain ⟨horder, inner, hvars⟩ := vars_leave hleave
  have hmem : ∀ v ∈ s'.vars, v ∈ s.vars := fun v hv => by
    rw [hvars]
    exact List.mem_append_left _ hv
  have hdistinct := h.distinct
  have hordered := h.ordered
  rw [hvars, List.map_append] at hdistinct
  rw [hvars, List.pairwise_append] at hordered
  refine ⟨hdistinct.of_append_left, hordered.1, fun v hv => ?_, fun v hv => h.closed v (hmem v hv),
    fun v hv x hx => ?_⟩
  · rw [horder]
    exact h.below v (hmem v hv)
  · obtain ⟨w, hw, hname, hlt⟩ := h.earlier v (hmem v hv) x hx
    rw [hvars] at hw
    rcases List.mem_append.mp hw with hw | hw
    · exact ⟨w, hw, hname, hlt⟩
    · -- the variables that are gone were declared after `v`
      have := hordered.2.2 v hv w hw
      omega

/-- Changing the innermost block so that it gets more variables adds these at the end. -/
theorem vars_modifyInnermost (s : Scope) (f : Frame → Frame) (added : List SectionVar)
    (hf : ∀ frame, (f frame).vars = frame.vars ++ added) :
    (s.modifyInnermost f).vars = s.vars ++ added := by
  unfold modifyInnermost
  cases hblocks : s.blocks with
  | nil => simp [vars, frames, hblocks, hf]
  | cons b outer => simp [vars, frames, hblocks, hf]

theorem nextOrder_modifyInnermost (s : Scope) (f : Frame → Frame) :
    (s.modifyInnermost f).nextOrder = s.nextOrder := by
  unfold modifyInnermost
  cases s.blocks <;> rfl

theorem vars_openNamespace {env : Environment} {short target : Name}
    (h : s.openNamespace env short = .ok (s', target)) : s'.vars = s.vars := by
  rw [Scope.openNamespace_eq] at h
  split at h
  · cases h
  · cases h
    have hvars := s.vars_modifyInnermost (fun f => { f with opened := f.opened ++ [target] }) []
      fun frame => (List.append_nil _).symm
    rwa [List.append_nil] at hvars

theorem Telescoped.openNamespace (h : s.Telescoped) {env : Environment} {short target : Name}
    (hopen : s.openNamespace env short = .ok (s', target)) : s'.Telescoped := by
  have hvars := vars_openNamespace hopen
  rw [Scope.openNamespace_eq] at hopen
  split at hopen
  · cases hopen
  · cases hopen
    have horder := s.nextOrder_modifyInnermost fun f => { f with opened := f.opened ++ [target] }
    exact ⟨by rw [hvars]; exact h.distinct, by rw [hvars]; exact h.ordered,
      by rw [hvars, horder]; exact h.below, by rw [hvars]; exact h.closed,
      by rw [hvars]; exact h.earlier⟩

/-- A variable is declared at the end, with the next number in the order of declarations. -/
theorem vars_declareVariable {env : Environment} {x : Name} {type : Term}
    (h : s.declareVariable env x type = .ok s') :
    s'.vars = s.vars ++ [{ name := x, type, order := s.nextOrder }] := by
  rw [Scope.declareVariable_eq] at h
  split at h
  · cases h
  · cases h
    exact s.vars_modifyInnermost (fun f => { f with vars := f.vars ++ _ }) _ fun _ => rfl

/-- **A variable that is declared comes last**, if its type is closed and mentions
variables in scope. -/
theorem Telescoped.declareVariable (h : s.Telescoped) {env : Environment} {x : Name} {type : Term}
    (hclosed : type.looseRange = 0) (hscope : type.FvarsIn fun y => ∃ v ∈ s.vars, v.name = y)
    (hdeclare : s.declareVariable env x type = .ok s') : s'.Telescoped := by
  have hvars := vars_declareVariable hdeclare
  rw [Scope.declareVariable_eq] at hdeclare
  split at hdeclare
  · cases hdeclare
  · rename_i hfree
    simp only [Bool.or_eq_true, not_or, Bool.not_eq_true, Option.isSome_eq_false_iff,
      Option.isNone_iff_eq_none] at hfree
    have hnew := findVariable?_eq_none hfree.1
    cases hdeclare
    refine ⟨?_, ?_, ?_, ?_, ?_⟩
    · rw [hvars, List.map_append, List.nodup_append]
      refine ⟨h.distinct, List.nodup_singleton _, fun y hy z hz => ?_⟩
      obtain ⟨v, hv, rfl⟩ := List.mem_map.mp hy
      rw [List.mem_singleton.mp hz]
      exact hnew v hv
    · rw [hvars, List.pairwise_append]
      refine ⟨h.ordered, List.pairwise_singleton _ _, fun v hv w hw => ?_⟩
      rw [List.mem_singleton.mp hw]
      exact h.below v hv
    · intro v hv
      rw [hvars] at hv
      change v.order < s.nextOrder + 1
      rcases List.mem_append.mp hv with hv | hv
      · have := h.below v hv
        omega
      · rw [List.mem_singleton.mp hv]
        exact Nat.lt_succ_self _
    · intro v hv
      rw [hvars] at hv
      rcases List.mem_append.mp hv with hv | hv
      · exact h.closed v hv
      · rw [List.mem_singleton.mp hv]
        exact hclosed
    · intro v hv
      rw [hvars] at hv ⊢
      intro y hy
      rcases List.mem_append.mp hv with hv | hv
      · obtain ⟨w, hw, hname, hlt⟩ := h.earlier v hv y hy
        exact ⟨w, List.mem_append_left _ hw, hname, hlt⟩
      · rw [List.mem_singleton.mp hv] at hy ⊢
        obtain ⟨w, hw, hname⟩ := hscope y hy
        exact ⟨w, List.mem_append_left _ hw, hname, h.below w hw⟩

/-! ## Resolution -/

variable {env : Environment}

/-- A name that is resolved to a section variable is the name of one in scope. -/
theorem mem_vars_of_resolve {short x : Name} (h : s.resolve env short = .ok (.sectionVar x)) :
    ∃ v ∈ s.vars, v.name = x := by
  unfold resolve at h
  split at h
  · rename_i v hv
    cases h
    exact ⟨v, (findVariable?_eq_some hv).1, rfl⟩
  · split at h
    · cases h
    · split at h <;> cases h

/-- The table of a list of names holds what the names stand for. -/
theorem resolve_of_lookup {names : List Name} {table : List (Name × Referent)} {x : Name}
    {r : Referent} (h : s.resolveAll env names = .ok table) (hx : table.lookup x = some r) :
    s.resolve env x = .ok r := by
  induction names generalizing table with
  | nil =>
    cases h
    cases hx
  | cons y rest ih =>
    obtain ⟨r', hr', h⟩ := Session.bind_eq_ok h
    obtain ⟨table', htable', h⟩ := Session.bind_eq_ok h
    cases h
    rw [List.lookup_cons] at hx
    split at hx
    · rename_i heq
      cases hx
      rw [eq_of_beq heq]
      exact hr'
    · exact ih htable' hx

/-- **A resolved term is closed and mentions variables in scope**, if the given term
was closed and without free variables. -/
theorem resolveTerm_raw {e e' : Term} (he : e.Raw) (h : s.resolveTerm env e = .ok e') :
    e'.looseRange ≤ 0 ∧ e'.FvarsIn fun x => ∃ v ∈ s.vars, v.name = x := by
  obtain ⟨table, htable, h⟩ := Session.bind_eq_ok h
  cases h
  constructor
  · refine Term.looseRange_replaceConsts_le (Nat.le_of_eq he.1) fun x ls t ht => ?_
    obtain ⟨r, -, rfl⟩ := Option.map_eq_some_iff.mp ht
    cases r <;> exact Nat.le_refl 0
  · have hfree : e.FvarsIn fun x => ∃ v ∈ s.vars, v.name = x := fun x hx =>
      (Term.hasFvars_eq_false_iff.mp he.2 x hx).elim
    refine hfree.replaceConsts fun x ls t ht => ?_
    obtain ⟨r, hr, rfl⟩ := Option.map_eq_some_iff.mp ht
    cases r with
    | sectionVar y =>
      exact Term.fvarsIn_fvar.mpr (mem_vars_of_resolve (resolve_of_lookup htable hr))
    | constant y => exact Term.fvarsIn_const

end Scope

/-! ## Sessions -/

/-- The terms that the operation is given are closed and without free variables. -/
def Action.Raw : Action → Prop
  | .declare _ _ type value => type.Raw ∧ ∀ v ∈ value, v.Raw
  | .declareVariable _ type => type.Raw
  | .typeOf e | .reduce e | .evaluate e _ => e.Raw
  | .enter _ | .leave .. | .openNamespace _ | .load .. => True

namespace Session

variable {digest : Bytes → Digest} {s s' : Session}

/-- **What an operation does to the scope**: nothing, or it opens or closes a block,
opens a namespace, or declares a variable whose type was resolved. -/
theorem scope_of_perform {action : Action} (h : s.perform digest action = .ok s') :
    s'.scope = s.scope ∨ (∃ heading, s'.scope = s.scope.enter heading) ∨
      (∃ kind name, s.scope.leave kind name = .ok s'.scope) ∨
      (∃ short target, s.scope.openNamespace s.env short = .ok (s'.scope, target)) ∨
      ∃ name type type', action = .declareVariable name type ∧
        s.scope.resolveTerm s.env type = .ok type' ∧
        s.scope.declareVariable s.env name type' = .ok s'.scope := by
  cases action with
  | declare short params type value =>
    rw [perform_declare] at h
    obtain ⟨⟨t, name⟩, hdeclare, ht⟩ := bind_eq_ok h
    cases ht
    rw [declare_eq] at hdeclare
    dsimp only at hdeclare
    split at hdeclare
    · cases hdeclare
    · obtain ⟨_, _, hdeclare⟩ := bind_eq_ok hdeclare
      obtain ⟨_, _, hdeclare⟩ := bind_eq_ok hdeclare
      obtain ⟨_, _, hdeclare⟩ := bind_eq_ok hdeclare
      obtain ⟨_, _, hdeclare⟩ := bind_eq_ok hdeclare
      cases hdeclare
      exact .inl rfl
  | declareVariable name type =>
    rw [perform_declareVariable, declareVariable_eq] at h
    obtain ⟨type', hresolve, h⟩ := bind_eq_ok h
    obtain ⟨_, _, h⟩ := bind_eq_ok h
    obtain ⟨scope, hscope, h⟩ := bind_eq_ok h
    cases h
    exact .inr (.inr (.inr (.inr ⟨name, type, type', rfl, mapError_eq_ok hresolve,
      mapError_eq_ok hscope⟩)))
  | enter heading =>
    cases h
    exact .inr (.inl ⟨heading, rfl⟩)
  | leave kind name =>
    rw [perform_leave, leave_eq] at h
    obtain ⟨scope, hscope, h⟩ := bind_eq_ok h
    cases h
    exact .inr (.inr (.inl ⟨kind, name, mapError_eq_ok hscope⟩))
  | openNamespace short =>
    rw [perform_openNamespace] at h
    obtain ⟨⟨t, target⟩, hopen, ht⟩ := bind_eq_ok h
    cases ht
    rw [openNamespace_eq] at hopen
    obtain ⟨⟨scope, target⟩, hscope, hopen⟩ := bind_eq_ok hopen
    cases hopen
    exact .inr (.inr (.inr (.inl ⟨short, _, mapError_eq_ok hscope⟩)))
  | typeOf e | reduce e | evaluate e limit =>
    simp only [perform_typeOf, perform_reduce, perform_evaluate] at h
    obtain ⟨_, _, h⟩ := bind_eq_ok h
    cases h
    exact .inl rfl
  | load store slot =>
    rw [perform_load] at h
    obtain ⟨⟨t, added⟩, hload, ht⟩ := bind_eq_ok h
    cases ht
    rw [load_eq] at hload
    obtain ⟨_, _, hload⟩ := bind_eq_ok hload
    obtain ⟨_, _, hload⟩ := bind_eq_ok hload
    cases hload
    exact .inl rfl

/-- **No operation breaks the telescope**, whether it succeeds or fails. -/
theorem telescoped_after (h : s.scope.Telescoped) {action : Action} (hraw : action.Raw) :
    (s.after digest action).scope.Telescoped := by
  cases hperform : s.perform digest action with
  | error err =>
    rw [after_of_error hperform]
    exact h
  | ok s' =>
    rw [after_of_ok hperform]
    rcases scope_of_perform hperform with hsame | ⟨heading, henter⟩ | ⟨kind, name, hleave⟩ |
      ⟨short, target, hopen⟩ | ⟨name, type, type', rfl, hresolve, hdeclare⟩
    · rw [hsame]
      exact h
    · rw [henter]
      exact h.enter heading
    · exact h.leave hleave
    · exact h.openNamespace hopen
    · obtain ⟨hclosed, hscope⟩ := Scope.resolveTerm_raw hraw hresolve
      exact h.declareVariable (Nat.le_zero.mp hclosed) hscope hdeclare

/-- The variables form a telescope after any sequence of operations on raw terms, also where some of
them fail. -/
theorem telescoped_afterAll (h : s.scope.Telescoped) {actions : List Action}
    (hraw : ∀ action ∈ actions, action.Raw) : (s.afterAll digest actions).scope.Telescoped := by
  induction actions generalizing s with
  | nil => exact h
  | cons action rest ih =>
    rw [List.forall_mem_cons] at hraw
    exact ih (telescoped_after h hraw.1) hraw.2

theorem telescoped_new (config : Config) : (new config).scope.Telescoped := by
  have hempty : ∀ v, v ∉ (new config).scope.vars := fun _ => List.not_mem_nil
  exact ⟨List.nodup_nil, .nil, fun v hv => absurd hv (hempty v), fun v hv => absurd hv (hempty v),
    fun v hv => absurd hv (hempty v)⟩

/-- **Section variables form a telescope, and what is declared over them is closed.**
After any operations that are given closed terms without free variables, whether they
succeed or fail, the variables in scope form a telescope. And whenever such a type and
such a value are resolved, abstracting the variables that they depend on gives a type
and a value without loose index and without free variable. -/
theorem telescoped_afterAll_new (digest : Bytes → Digest) (config : Config)
    {actions : List Action} (hraw : ∀ action ∈ actions, action.Raw) :
    let s := (new config).afterAll digest actions
    s.scope.Telescoped ∧
    ∀ type value type' value', type.Raw → (∀ v ∈ value, v.Raw) →
      s.resolve type = .ok type' → s.resolve? value = .ok value' →
      (s.scope.abstracted type' value').2.1.Raw ∧
        ∀ v ∈ (s.scope.abstracted type' value').2.2, v.Raw := by
  intro s
  have htelescoped : s.scope.Telescoped := telescoped_afterAll (telescoped_new config) hraw
  refine ⟨htelescoped, fun type value type' value' htype hvalue hresolve hresolve? => ?_⟩
  obtain ⟨hclosed, hscope⟩ := Scope.resolveTerm_raw htype (mapError_eq_ok hresolve)
  refine ⟨htelescoped.closed_wrap List.mem_cons_self hclosed hscope .pi, fun v hv => ?_⟩
  obtain ⟨u, rfl, rfl⟩ := Option.map_eq_some_iff.mp hv
  cases value with
  | none => cases hresolve?
  | some raw =>
    cases hraw' : s.resolve raw with
    | error err =>
      rw [resolve?, hraw'] at hresolve?
      cases hresolve?
    | ok resolved =>
      rw [resolve?, hraw'] at hresolve?
      cases hresolve?
      obtain ⟨hclosed', hscope'⟩ := Scope.resolveTerm_raw (hvalue raw rfl) (mapError_eq_ok hraw')
      exact htelescoped.closed_wrap (List.mem_cons_of_mem _ List.mem_cons_self) hclosed' hscope'
        .lam

/-- A type `A`; a section with a type `B` and, in a section inside it that is closed
again, a variable of `B`; a second variable `y` of `B`, which cannot be declared twice.
A declaration of `B × A` by `y` and a constant is abstracted over `B` and `y`. -/
theorem telescoped_afterAll_new_nested :
    let name := fun x : String => Name.atom x
    let const := fun x : String => Term.const (name x) []
    let actions : List Action :=
      [.declare (name "A") [] (.sort (.ofNat 1)) none, .declare (name "a") [] (const "A") none,
        .enter (.varSection none), .declareVariable (name "B") (.sort (.ofNat 1)),
        .enter (.varSection none), .declareVariable (name "x") (const "B"),
        .leave .varSection none, .declareVariable (name "y") (const "B"),
        .declareVariable (name "y") (const "A")]
    let config : Config := { maxSteps := 100, memoize := false }
    let s := (new config).afterAll (fun _ => default) actions
    let type := Term.prod (.fvar (name "B")) (const "A")
    let value := Term.pair (.fvar (name "y")) (const "a")
    (s.scope.vars = [⟨name "B", .sort (.ofNat 1), 0⟩, ⟨name "y", .fvar (name "B"), 2⟩] ∧
      s.resolve (.prod (const "B") (const "A")) = .ok type ∧
      s.resolve? (some (.pair (const "y") (const "a"))) = .ok (some value)) ∧
    s.scope.Telescoped ∧ (s.scope.abstracted type (some value)).2.1.Raw ∧
      ∀ v ∈ (s.scope.abstracted type (some value)).2.2, v.Raw := by
  intro name const actions config s type value
  have hraw : ∀ action ∈ actions, action.Raw := by
    simp only [actions, List.forall_mem_cons, Action.Raw, Option.mem_def, reduceCtorEq,
      false_imp_iff, implies_true, and_true, true_and, List.not_mem_nil]
    decide +kernel
  have hresolved : s.resolve (.prod (const "B") (const "A")) = .ok type ∧
      s.resolve? (some (.pair (const "y") (const "a"))) = .ok (some value) := by
    decide +kernel
  obtain ⟨htelescoped, hwrapped⟩ := telescoped_afterAll_new (fun _ => default) config hraw
  refine ⟨⟨by decide +kernel, hresolved⟩, htelescoped, ?_⟩
  exact hwrapped (.prod (const "B") (const "A")) (some (.pair (const "y") (const "a"))) type
    (some value) (by decide) (by decide) hresolved.1 hresolved.2

end Session

end TypeTheory
