import TypeTheory.Proofs.Checker.Lookup
import TypeTheory.Proofs.Session.Abstraction

/-!
# Names are resolved before the kernel runs

A session puts what its constants stand for into a term before it asks the kernel
anything. A short name stands for a variable, for a constant of an enclosing namespace,
or for the one constant that the opened namespaces have under it (`Scope.Denotes`). If
some name of a term stands for nothing, resolution says so (`Scope.reports_of_resolveTerm`);
if all stand for something, the resolved term mentions declared constants only
(`Scope.constsIn_of_resolveTerm`).

The types of section variables were resolved too, when the variables were declared, and
what was declared then is declared still (`Session.Known`). So the kernel meets declared
constants only in what a session asks it, also where the environment itself mentions
others, and no operation fails for an unknown constant
(`Session.Known.finds_perform`).
-/

namespace TypeTheory

/-! ## Constants of a term -/

namespace Term

variable {P Q : Name → Prop} {e : Term}

/-- Collecting constants in front of a list adds those of the term to the list. -/
theorem forall_mem_constsOnto {rest : List Name} :
    (∀ x ∈ e.constsOnto rest, P x) ↔ e.ConstsIn P ∧ ∀ x ∈ rest, P x := by
  induction e generalizing rest <;> simp_all [constsOnto, ConstsIn, and_assoc]

/-- The constants of a term are those that are collected from it. -/
theorem constsIn_iff : e.ConstsIn P ↔ ∀ x ∈ e.consts, P x := by
  have hall : (∀ x ∈ e.constsOnto [], P x) ↔ e.ConstsIn P := by
    simp [forall_mem_constsOnto]
  rw [← hall]
  exact forall_congr' fun _ => imp_congr_left List.mem_eraseDups.symm

theorem ConstsIn.mono (h : e.ConstsIn P) (hPQ : ∀ x, P x → Q x) : e.ConstsIn Q :=
  constsIn_iff.mpr fun x hx => hPQ x (constsIn_iff.mp h x hx)

/-- Replacing leaves keeps the constants in bounds if each replacement does. -/
theorem ConstsIn.mapLeaves {f : Nat → Term → Term}
    (hf : ∀ d leaf, leaf.isLeaf = true → leaf.ConstsIn Q → (f d leaf).ConstsIn P) (d : Nat)
    (he : e.ConstsIn Q) : (mapLeaves f d e).ConstsIn P := by
  induction e generalizing d with
  | bvar | fvar | sort | const => exact hf d _ rfl he
  | _ => simp_all [Term.mapLeaves, ConstsIn]

theorem ConstsIn.abstractFvars (h : e.ConstsIn P) (names : List Name) :
    (e.abstractFvars names).ConstsIn P := by
  refine h.mapLeaves (fun d leaf hform hleaf => ?_) 0
  cases leaf with
  | fvar x =>
    dsimp only
    cases names.idxOf? x with
    | some i => trivial
    | none => trivial
  | bvar | sort | const => exact hleaf
  | app | bind | letE | pair | proj => cases hform

end Term

/-! ## What a name stands for -/

namespace Scope

variable {s : Scope} {env : Environment} {short : Name}

/-- **A short name stands for something**: it is the name of a variable, an enclosing
namespace has a constant of that name, or the opened namespaces have exactly one. -/
inductive Denotes (s : Scope) (env : Environment) (short : Name) : Prop
  | sectionVar {v : SectionVar} : v ∈ s.vars → v.name = short → Denotes s env short
  | enclosing {ns : Name} : ns ∈ s.enclosing → env.contains (ns.join short) = true →
      Denotes s env short
  | opened (full : Name) :
      (∀ x, x = full ↔ env.contains x = true ∧ ∃ ns ∈ s.opened, ns.join short = x) →
      Denotes s env short

/-- The error says of a name that it stands for nothing, or for too much. -/
def Reports (short : Name) (err : ScopeError) : Prop :=
  err = .unresolved short ∨ ∃ candidates, err = .ambiguous short candidates

/-- The opened namespaces have the constants that are declared under one of them with the short
name. -/
theorem mem_openedConstants {x : Name} : x ∈ s.openedConstants env short ↔
    env.contains x = true ∧ ∃ ns ∈ s.opened, ns.join short = x := by
  rw [openedConstants, List.mem_eraseDups, List.mem_filter, List.mem_map, and_comm]

/-- Two constants in a row are different, as the list is made without repetition. -/
theorem ne_of_openedConstants {x y : Name} {rest : List Name}
    (h : s.openedConstants env short = x :: y :: rest) : x ≠ y := by
  unfold openedConstants at h
  cases hfound : (s.opened.map (·.join short)).filter env.contains with
  | nil =>
    rw [hfound] at h
    cases h
  | cons z found =>
    rw [hfound, List.eraseDups_cons] at h
    obtain ⟨rfl, hrest⟩ := List.cons.inj h
    have hy : y ∈ (found.filter fun b => !b == z).eraseDups := by
      rw [hrest]
      exact List.mem_cons_self
    have hne := (List.mem_filter.mp (List.mem_eraseDups.mp hy)).2
    rintro rfl
    simp at hne

/-- What a name is resolved to is one of the things that it may stand for. -/
theorem denotes_of_resolve {r : Referent} (h : s.resolve env short = .ok r) :
    s.Denotes env short := by
  unfold resolve at h
  split at h
  · rename_i v hv
    obtain ⟨hmem, hname⟩ := findVariable?_eq_some hv
    exact .sectionVar hmem hname
  · split at h
    · rename_i full hfull
      obtain ⟨ns, hns, rfl⟩ := List.mem_map.mp (List.mem_of_find?_eq_some hfull)
      exact .enclosing hns (List.find?_some hfull)
    · split at h
      · cases h
      · rename_i full hopened
        refine .opened full fun x => ?_
        rw [← mem_openedConstants, hopened, List.mem_singleton]
      · cases h

/-- **A name that is refused stands for nothing**, or for several constants. -/
theorem not_denotes_of_resolve {err : ScopeError} (h : s.resolve env short = .error err) :
    ¬ s.Denotes env short ∧ Reports short err := by
  unfold resolve at h
  split at h
  · cases h
  · rename_i hvar
    split at h
    · cases h
    · rename_i henclosing
      have hnone : ∀ ns ∈ s.enclosing, ¬ env.contains (ns.join short) = true := fun ns hns =>
        List.find?_eq_none.mp henclosing _ (List.mem_map_of_mem hns)
      split at h
      · rename_i hopened
        cases h
        refine ⟨?_, .inl rfl⟩
        rintro (⟨hv, hname⟩ | ⟨hns, hcontains⟩ | ⟨full, hfull⟩)
        · exact findVariable?_eq_none hvar _ hv hname
        · exact hnone _ hns hcontains
        · have hmem := mem_openedConstants.mpr ((hfull full).mp rfl)
          rw [hopened] at hmem
          cases hmem
      · cases h
      · rename_i candidates hnil hsingle
        cases h
        refine ⟨?_, .inr ⟨_, rfl⟩⟩
        rintro (⟨hv, hname⟩ | ⟨hns, hcontains⟩ | ⟨full, hfull⟩)
        · exact findVariable?_eq_none hvar _ hv hname
        · exact hnone _ hns hcontains
        · -- two different candidates cannot both be the one constant
          have heq (x : Name) (hx : x ∈ s.openedConstants env short) : x = full :=
            (hfull x).mpr (mem_openedConstants.mp hx)
          cases hcandidates : s.openedConstants env short with
          | nil => exact hnil hcandidates
          | cons x rest =>
            cases rest with
            | nil => exact hsingle x hcandidates
            | cons y rest =>
              rw [hcandidates] at heq
              refine ne_of_openedConstants hcandidates ?_
              rw [heq x (by simp), heq y (by simp)]

theorem contains_of_resolve {full : Name} (h : s.resolve env short = .ok (.constant full)) :
    env.contains full = true := by
  unfold resolve at h
  split at h
  · cases h
  · split at h
    · rename_i hfull
      cases h
      exact List.find?_some hfull
    · split at h
      · cases h
      · rename_i hopened
        cases h
        exact (mem_openedConstants.mp (hopened ▸ List.mem_singleton_self _)).1
      · cases h

/-! ## Terms -/

/-- Every name of a list is in its table. -/
theorem exists_lookup {names : List Name} {table : List (Name × Referent)}
    (h : s.resolveAll env names = .ok table) {x : Name} (hx : x ∈ names) :
    ∃ r, table.lookup x = some r := by
  induction names generalizing table with
  | nil => cases hx
  | cons y rest ih =>
    obtain ⟨r, -, h⟩ := Session.bind_eq_ok h
    obtain ⟨table', htable', h⟩ := Session.bind_eq_ok h
    cases h
    rw [List.lookup_cons]
    split
    · exact ⟨r, rfl⟩
    · rename_i hne
      rcases List.mem_cons.mp hx with rfl | hx
      · simp at hne
      · exact ih htable' hx

/-- If some name of a list is not resolved, the error is that of one of them. -/
theorem resolve_of_resolveAll_error {names : List Name} {err : ScopeError}
    (h : s.resolveAll env names = .error err) : ∃ x ∈ names, s.resolve env x = .error err := by
  induction names with
  | nil => cases h
  | cons y rest ih =>
    cases hy : s.resolve env y with
    | error err' =>
      rw [resolveAll, hy] at h
      cases h
      exact ⟨y, List.mem_cons_self, hy⟩
    | ok r =>
      cases hrest : s.resolveAll env rest with
      | error err' =>
        rw [resolveAll, hy, hrest] at h
        cases h
        obtain ⟨x, hx, hresolve⟩ := ih hrest
        exact ⟨x, List.mem_cons_of_mem y hx, hresolve⟩
      | ok table =>
        rw [resolveAll, hy, hrest] at h
        cases h

/-- **A resolved term mentions declared constants only**, and each constant of the given
term stands for something. -/
theorem constsIn_of_resolveTerm {e e' : Term} (h : s.resolveTerm env e = .ok e') :
    e.ConstsIn (s.Denotes env) ∧ e'.ConstsIn (env.contains · = true) := by
  obtain ⟨table, htable, h⟩ := Session.bind_eq_ok h
  cases h
  have hfound : e.ConstsIn fun x => ∃ r, table.lookup x = some r :=
    Term.constsIn_iff.mpr fun x hx => exists_lookup htable hx
  constructor
  · refine hfound.mono fun x ⟨r, hr⟩ => ?_
    exact denotes_of_resolve (resolve_of_lookup htable hr)
  · refine hfound.mapLeaves (fun d leaf hform hleaf => ?_) 0
    cases leaf with
    | const x ls =>
      obtain ⟨r, hr⟩ := hleaf
      have hresolve := resolve_of_lookup htable hr
      simp only [hr, Option.map_some, Option.getD_some]
      cases r with
      | sectionVar y => trivial
      | constant full => exact contains_of_resolve hresolve
    | bvar | fvar | sort => trivial
    | app | bind | letE | pair | proj => cases hform

/-- **A term that is refused has a name that stands for nothing**, or for too much. -/
theorem reports_of_resolveTerm {e : Term} {err : ScopeError}
    (h : s.resolveTerm env e = .error err) :
    ∃ x ∈ e.consts, ¬ s.Denotes env x ∧ Reports x err := by
  cases htable : s.resolveAll env e.consts with
  | ok table =>
    rw [resolveTerm, htable] at h
    cases h
  | error err' =>
    rw [resolveTerm, htable] at h
    cases h
    obtain ⟨x, hx, herr⟩ := resolve_of_resolveAll_error htable
    exact ⟨x, hx, not_denotes_of_resolve herr⟩

end Scope

/-! ## Telescopes -/

namespace Telescope

variable {P : Name → Prop} {t : Telescope}

/-- Wrapping adds the constants in the types of the variables only. -/
theorem constsIn_wrap (ht : ∀ v ∈ t.vars, v.type.ConstsIn P) {e : Term} (he : e.ConstsIn P)
    (k : Binder) : (t.wrap k e).ConstsIn P := by
  have hbinders : ∀ entry ∈ t.binders, entry.type.ConstsIn P := fun entry hentry => by
    obtain ⟨-, v, hv, names, htype⟩ := type_of_mem_bindersWithin hentry
    rw [htype]
    exact (ht v hv).abstractFvars names
  unfold wrap
  generalize t.binders = binders at hbinders ⊢
  induction binders with
  | nil => exact he.abstractFvars t.names
  | cons entry rest ih =>
    obtain ⟨hentry, hrest⟩ := List.forall_mem_cons.mp hbinders
    exact ⟨hentry, ih hrest⟩

end Telescope

/-! ## Sessions -/

/-- The terms that the operation is given. -/
def Action.terms : Action → List Term
  | .declare _ _ type value => type :: value.toList
  | .declareVariable _ type => [type]
  | .typeOf e | .reduce e | .evaluate e _ => [e]
  | .enter _ | .leave .. | .openNamespace _ | .load .. => []

/-- The error is not about a constant that is missing. -/
def SessionError.OfKnown : SessionError → Prop
  | .check cause | .evaluation cause => cause.OfKnown
  | .scope _ | .unit _ | .openTerm _ | .tooDeep => True

namespace Session

variable {α β : Type} {digest : Bytes → Digest} {s s' : Session} {action : Action}

/-- If the operation fails, it is not for a constant that is missing. -/
def Finds (x : Except SessionError α) : Prop :=
  ∀ err, x = .error err → err.OfKnown

theorem Finds.ok (a : α) : Finds (.ok a) :=
  fun _ h => by cases h

theorem Finds.error {err : SessionError} (h : err.OfKnown) : Finds (.error err : Except _ α) := by
  rintro _ ⟨⟩
  exact h

/-- A sequence never fails for an unknown constant if its parts do not. -/
theorem Finds.bind {x : Except SessionError α} {f : α → Except SessionError β} (hx : Finds x)
    (hf : ∀ a, x = .ok a → Finds (f a)) : Finds (x >>= f) := by
  cases x with
  | error err => exact .error (hx err rfl)
  | ok a => exact hf a rfl

/-- An error that is reported under another name is no unknown constant if no error of that name
is. -/
theorem finds_mapError {ε : Type} (x : Except ε α) {mark : ε → SessionError}
    (hmark : ∀ err, (mark err).OfKnown) : Finds (x.mapError mark) := by
  cases x with
  | error err => exact .error (hmark err)
  | ok a => exact .ok a

theorem finds_scope (x : Except ScopeError α) : Finds (x.mapError .scope) :=
  finds_mapError x fun _ => trivial

/-- The kernel, with its errors marked in some way. -/
theorem finds_run {m : CheckM α} (h : CheckM.FailsBy KernelError.OfKnown m)
    (mark : KernelError → SessionError) (hmark : ∀ err, err.OfKnown → (mark err).OfKnown) :
    Finds ((run m).mapError mark) := by
  have hends := h {} trivial
  unfold run
  cases hrun : m {} with
  | ok a p => exact .ok a
  | error err p =>
    rw [hrun] at hends
    exact .error (hmark err hends.1)

/-- Every constant in the type of a variable is declared. -/
def Known (s : Session) : Prop :=
  ∀ v ∈ s.scope.vars, v.type.ConstsIn (s.env.contains · = true)

theorem const?_checker {x : Name} (h : s.env.contains x = true) : s.checker.const? x ≠ none :=
  fun hnone => Environment.get?_eq_none_iff.mp hnone (Environment.contains_iff.mp h)

theorem finds_resolve? (value : Option Term) : Finds (s.resolve? value) := by
  cases value with
  | none => exact .ok none
  | some e =>
    have hresolve : Finds (s.resolve e) := finds_scope _
    exact hresolve.bind fun e' _ => .ok (some e')

theorem constsIn_of_resolve {e e' : Term} (h : s.resolve e = .ok e') :
    e'.ConstsIn (s.env.contains · = true) :=
  (Scope.constsIn_of_resolveTerm (mapError_eq_ok h)).2

theorem constsIn_of_resolve? {value value' : Option Term} (h : s.resolve? value = .ok value') :
    ∀ v ∈ value', v.ConstsIn (s.env.contains · = true) := by
  cases value with
  | none =>
    cases h
    intro v hv
    cases hv
  | some e =>
    obtain ⟨e', he', h⟩ := bind_eq_ok (x := s.resolve e) (f := fun e => .ok (some e)) h
    cases h
    intro v hv
    cases hv
    exact constsIn_of_resolve he'

theorem Known.telescope (h : s.Known) (terms : List Term) :
    ∀ v ∈ (s.scope.telescope terms).vars, v.type.ConstsIn (s.env.contains · = true) :=
  fun v hv => h v (Scope.mem_of_mem_dependencies (Scope.mem_telescope.mp hv))

/-- The checker knows what mentions declared constants. -/
theorem knows_checker {e : Term} (he : e.ConstsIn (s.env.contains · = true)) : s.checker.Knows e :=
  Checker.knows (he.mono fun _ => const?_checker)

theorem finds_insert (d : Declaration) : Finds ((s.env.insert d).mapError .check) := by
  rw [Environment.insert_eq]
  split
  · exact .error trivial
  · exact .ok _

/-- A declaration never fails for an unknown constant: its type and its value are resolved, and so
are the variables. -/
theorem Known.finds_declare (h : s.Known) (short : Name) (params : List Name) (type : Term)
    (value : Option Term) : Finds (s.declare short params type value) := by
  rw [declare_eq]
  dsimp only
  split
  · exact .error trivial
  · refine (finds_scope _).bind fun type' htype =>
      (finds_resolve? value).bind fun value' hvalue => ?_
    have hvars := h.telescope (type' :: value'.toList)
    refine (finds_run (Checker.knows_checkDeclaration ?_ ?_) .check fun _ herr => herr).bind
      fun _ _ => (finds_insert _).bind fun _ _ => .ok _
    · exact (Telescope.constsIn_wrap hvars (constsIn_of_resolve htype) .pi).mono fun _ =>
        const?_checker
    · intro v hv
      obtain ⟨u, hu, rfl⟩ := Option.map_eq_some_iff.mp hv
      exact (Telescope.constsIn_wrap hvars (constsIn_of_resolve? hvalue u hu) .lam).mono fun _ =>
        const?_checker

/-- A term over the variables that it depends on. -/
theorem knows_close {e e' : Term} (h : s.resolve e = .ok e') (t : Telescope) :
    s.checker.Knows (t.close e') :=
  knows_checker ((constsIn_of_resolve h).abstractFvars t.names)

theorem finds_normalize (c : Checker) (e : Term) (Γ : Context) (mark : KernelError → SessionError)
    (hmark : ∀ err, err.OfKnown → (mark err).OfKnown) :
    Finds ((run (c.normalize e Γ)).mapError mark) :=
  finds_run (Checker.ofKnown_of_ofReduction (Checker.failsBy_normalize e Γ)) mark hmark

/-- **No operation fails for an unknown constant.** -/
theorem Known.finds_perform (h : s.Known) (action : Action) : Finds (s.perform digest action) := by
  cases action with
  | declare short params type value =>
    rw [perform_declare]
    exact (h.finds_declare short params type value).bind fun _ _ => .ok _
  | declareVariable name type =>
    rw [perform_declareVariable, declareVariable_eq]
    refine (finds_scope _).bind fun type' htype => ?_
    refine (finds_run (Checker.knows_sortOf (knows_close htype _) _) .check fun _ herr => herr).bind
      fun _ _ => (finds_scope _).bind fun _ _ => .ok _
  | enter heading => exact .ok _
  | leave kind name =>
    rw [perform_leave, leave_eq]
    exact (finds_scope _).bind fun _ _ => .ok _
  | openNamespace short =>
    rw [perform_openNamespace, openNamespace_eq]
    exact ((finds_scope _).bind fun _ _ => .ok _).bind fun _ _ => .ok _
  | typeOf e =>
    rw [perform_typeOf]
    refine Finds.bind ((finds_scope _).bind fun e' he => ?_) fun _ _ => .ok _
    exact (finds_run ((knows_close he _) _).1 .check fun _ herr => herr).bind fun _ _ => .ok _
  | reduce e =>
    rw [perform_reduce]
    refine Finds.bind ((finds_scope _).bind fun e' he => ?_) fun _ _ => .ok _
    refine (finds_normalize _ _ _ .check fun _ herr => herr).bind fun o _ => ?_
    cases o with
    | none => exact .error trivial
    | some normal => exact .ok _
  | evaluate e limit =>
    rw [perform_evaluate]
    refine Finds.bind ((finds_scope _).bind fun e' he => ?_) fun _ _ => .ok _
    dsimp only
    split
    · exact .error trivial
    · -- the term has no variables, so the kernel is given it as it is
      refine (finds_run ((knows_checker (constsIn_of_resolve he)) []).1 .check
        fun _ herr => herr).bind
        fun _ _ => (finds_normalize _ _ _ .evaluation fun _ herr => herr).bind fun o _ => ?_
      cases o with
      | none => exact .error trivial
      | some normal => exact .ok _
  | load store slot =>
    have hunit {γ : Type} (x : Except UnitError γ) : Finds (x.mapError .unit) :=
      finds_mapError x fun _ => trivial
    rw [perform_load, load_eq]
    exact ((hunit _).bind fun _ _ => (hunit _).bind fun _ _ => .ok _).bind fun _ _ => .ok _

/-! ## What a session keeps -/

theorem contains_of_perform (h : s.perform digest action = .ok s') {x : Name}
    (hx : s.env.contains x = true) : s'.env.contains x = true := by
  rw [Environment.contains_iff] at hx ⊢
  exact ((extends_of_perform h).sublist.map _).subset hx

/-- **What was declared stays declared**, and a new variable has a type that was
resolved. -/
theorem Known.of_perform (h : s.Known) (hperform : s.perform digest action = .ok s') :
    s'.Known := by
  have hold {v : SectionVar} (hv : v ∈ s.scope.vars) :
      v.type.ConstsIn (s'.env.contains · = true) :=
    (h v hv).mono fun _ => contains_of_perform hperform
  intro v hv
  rcases scope_of_perform hperform with heq | ⟨heading, henter⟩ | ⟨kind, name, hleave⟩ |
    ⟨short, target, hopen⟩ | ⟨name, type, type', -, hresolve, hdeclare⟩
  · rw [heq] at hv
    exact hold hv
  · rw [henter, Scope.vars_enter] at hv
    exact hold hv
  · -- the frame that is left takes its variables with it
    obtain ⟨-, inner, hvars⟩ := Scope.vars_leave hleave
    exact hold (hvars ▸ List.mem_append_left inner hv)
  · rw [Scope.vars_openNamespace hopen] at hv
    exact hold hv
  · rw [Scope.vars_declareVariable hdeclare] at hv
    rcases List.mem_append.mp hv with hv | hv
    · exact hold hv
    · rw [List.mem_singleton.mp hv]
      exact (Scope.constsIn_of_resolveTerm hresolve).2.mono fun _ => contains_of_perform hperform

/-- An operation keeps the constants of the variables declared, whether it succeeds or fails. -/
theorem Known.after (h : s.Known) (action : Action) : (s.after digest action).Known := by
  cases hperform : s.perform digest action with
  | error err =>
    rw [after_of_error hperform]
    exact h
  | ok s' =>
    rw [after_of_ok hperform]
    exact h.of_perform hperform

theorem Known.afterAll (h : s.Known) (actions : List Action) :
    (s.afterAll digest actions).Known := by
  induction actions generalizing s with
  | nil => exact h
  | cons action rest ih => exact ih (h.after action)

theorem known_ofEnvironment (env : Environment) (config : Config) :
    (ofEnvironment env config).Known :=
  fun _ hv => absurd hv List.not_mem_nil

/-! ## What is reported -/

/-- The operation declares a name that is declared already. -/
def Taken (s : Session) : Action → Prop
  | .declare short .. => s.env.contains (s.scope.qualify short) = true
  | _ => False

/-- A declaration under a name that is taken fails for that, before its terms are looked at. -/
theorem perform_of_taken {short : Name} {params : List Name} {type : Term} {value : Option Term}
    (h : s.Taken (.declare short params type value)) :
    s.perform digest (.declare short params type value) =
      .error (.check (.duplicateName (s.scope.qualify short))) := by
  have hcontains : s.env.contains (s.scope.qualify short) = true := h
  rw [perform_declare, declare_eq, if_pos hcontains]
  rfl

/-- A sequence that fails does so in its first part, or in its second after the first has
succeeded. -/
theorem bind_eq_error {ε : Type} {x : Except ε α} {f : α → Except ε β} {err : ε}
    (h : x >>= f = .error err) : x = .error err ∨ ∃ a, x = .ok a ∧ f a = .error err := by
  cases x with
  | error e => exact .inl (congrArg _ (Except.error.inj h))
  | ok a => exact .inr ⟨a, rfl, h⟩

/-- **The terms of an operation are resolved first**, one after the other, unless it
declares a name that is taken. -/
theorem perform_of_mapM (htaken : ¬ s.Taken action) {err : SessionError}
    (h : action.terms.mapM s.resolve = .error err) : s.perform digest action = .error err := by
  cases action with
  | declare short params type value =>
    have hfree : ¬ s.env.contains (s.scope.qualify short) = true := htaken
    rw [Action.terms, List.mapM_cons] at h
    rw [perform_declare, declare_eq, if_neg hfree]
    rcases bind_eq_error h with htype | ⟨type', htype, h⟩
    · rw [htype]
      rfl
    · cases value with
      | none => cases h
      | some v =>
        rw [Option.toList_some, List.mapM_cons] at h
        rcases bind_eq_error h with hvalues | ⟨values, -, h⟩
        · rcases bind_eq_error hvalues with hv | ⟨v', -, h⟩
          · rw [htype, resolve?, hv]
            rfl
          · cases h
        · cases h
  | declareVariable name e | typeOf e | reduce e | evaluate e limit =>
    rw [Action.terms, List.mapM_cons] at h
    rcases bind_eq_error h with he | ⟨e', -, h⟩
    · simp only [perform_declareVariable, declareVariable_eq, perform_typeOf, typeOf,
        perform_reduce, reduce, perform_evaluate, evaluate, he]
      rfl
    · cases h
  | enter | leave | openNamespace | load => cases h

/-- Terms with a name that stands for nothing are refused, for such a name. -/
theorem mapM_resolve_error {terms : List Term} {e : Term} (he : e ∈ terms)
    (hnot : ¬ e.ConstsIn (s.scope.Denotes s.env)) :
    ∃ e' ∈ terms, ∃ x ∈ e'.consts, ¬ s.scope.Denotes s.env x ∧
      ∃ err, Scope.Reports x err ∧ terms.mapM s.resolve = .error (.scope err) := by
  induction terms with
  | nil => cases he
  | cons first rest ih =>
    cases hfirst : s.scope.resolveTerm s.env first with
    | error err =>
      obtain ⟨x, hx, hdenotes, hreports⟩ := Scope.reports_of_resolveTerm hfirst
      refine ⟨first, List.mem_cons_self, x, hx, hdenotes, err, hreports, ?_⟩
      rw [List.mapM_cons, resolve, hfirst]
      rfl
    | ok first' =>
      -- the first term has no such name, so another one has
      have hrest : e ∈ rest := by
        refine (List.mem_cons.mp he).resolve_left ?_
        rintro rfl
        exact hnot (Scope.constsIn_of_resolveTerm hfirst).1
      obtain ⟨e', he', x, hx, hdenotes, err, hreports, herr⟩ := ih hrest
      refine ⟨e', List.mem_cons_of_mem first he', x, hx, hdenotes, err, hreports, ?_⟩
      rw [List.mapM_cons, resolve, hfirst, herr]
      rfl

/-- **Names are resolved before the kernel runs.** Start from any environment and perform
any operations, whether they succeed or fail and whatever units are loaded, verified or
not. Then no operation fails for an unknown constant. One that declares a name which is
taken fails for that name. And any other that is given a term with a name that stands
for nothing, or for several constants, is refused by the scope, for such a name. -/
theorem reports_names_afterAll (digest : Bytes → Digest) (env : Environment) (config : Config)
    (actions : List Action) (action : Action) :
    let s := (ofEnvironment env config).afterAll digest actions
    (∀ x, s.perform digest action ≠ .error (.check (.unknownConstant x)) ∧
      s.perform digest action ≠ .error (.evaluation (.unknownConstant x))) ∧
    (∀ short params type value, action = .declare short params type value → s.Taken action →
      s.perform digest action = .error (.check (.duplicateName (s.scope.qualify short)))) ∧
    (¬ s.Taken action → ∀ e ∈ action.terms, ∀ x ∈ e.consts, ¬ s.scope.Denotes s.env x →
      ∃ e' ∈ action.terms, ∃ y ∈ e'.consts, ¬ s.scope.Denotes s.env y ∧
        (s.perform digest action = .error (.scope (.unresolved y)) ∨
          ∃ candidates, s.perform digest action = .error (.scope (.ambiguous y candidates)))) := by
  intro s
  have hfinds : Finds (s.perform digest action) :=
    ((known_ofEnvironment env config).afterAll actions).finds_perform action
  refine ⟨fun x => ⟨fun h => hfinds _ h, fun h => hfinds _ h⟩, ?_, ?_⟩
  · rintro short params type value rfl htaken
    exact perform_of_taken htaken
  · intro htaken e he x hx hnot
    have hconsts : ¬ e.ConstsIn (s.scope.Denotes s.env) := fun h =>
      hnot (Term.constsIn_iff.mp h x hx)
    obtain ⟨e', he', y, hy, hdenotes, err, hreports, herr⟩ := mapM_resolve_error he hconsts
    refine ⟨e', he', y, hy, hdenotes, ?_⟩
    rw [perform_of_mapM htaken herr]
    rcases hreports with rfl | ⟨candidates, rfl⟩
    · exact .inl rfl
    · exact .inr ⟨candidates, rfl⟩

/-- A unit that is not verified brings a constant `u` whose type mentions `gone`, which is
not declared. A declaration of type `u` by `gone` is refused by the scope, for `gone`. -/
theorem reports_names_afterAll_unverified :
    let name := fun x : String => Name.atom x
    let const := fun x : String => Term.const (name x) []
    let digest : Bytes → Digest := fun _ => default
    let unit : CompiledUnit := ⟨[⟨name "u", [], const "gone", none⟩]⟩
    let store : Store := ⟨[("unit", unit.toBytes digest)]⟩
    let config : Config := { maxSteps := 100, memoize := false, verifyUnits := false }
    let s := (ofEnvironment .empty config).afterAll digest [.load store "unit"]
    let action := Action.declare (name "d") [] (const "u") (some (const "gone"))
    s.env.size = 1 ∧ ¬ s.Taken action ∧ ¬ s.scope.Denotes s.env (name "gone") ∧
    (∀ x, s.perform digest action ≠ .error (.check (.unknownConstant x)) ∧
      s.perform digest action ≠ .error (.evaluation (.unknownConstant x))) ∧
    ∃ e' ∈ action.terms, ∃ y ∈ e'.consts, ¬ s.scope.Denotes s.env y ∧
      (s.perform digest action = .error (.scope (.unresolved y)) ∨
        ∃ candidates, s.perform digest action = .error (.scope (.ambiguous y candidates))) := by
  intro name const digest unit store config s action
  have htaken : ¬ s.Taken action := by
    have hfree : s.env.contains (s.scope.qualify (name "d")) = false := by decide +kernel
    exact Bool.not_eq_true _ ▸ hfree
  have hresolve : s.scope.resolve s.env (name "gone") = .error (.unresolved (name "gone")) := by
    decide +kernel
  have hnot := (Scope.not_denotes_of_resolve hresolve).1
  obtain ⟨hfinds, -, hreports⟩ :=
    reports_names_afterAll digest .empty config [.load store "unit"] action
  exact ⟨by decide +kernel, htaken, hnot, hfinds,
    hreports htaken (const "gone") (by simp [action, Action.terms]) (name "gone") (by decide) hnot⟩

/-- A constant `A` is declared again, with a type that mentions a name which stands for
nothing. What is reported is that `A` is taken. -/
theorem perform_taken_unresolved :
    let name := fun x : String => Name.atom x
    let digest : Bytes → Digest := fun _ => default
    let config : Config := { maxSteps := 100, memoize := false }
    let s := (new config).afterAll digest [.declare (name "A") [] (.sort (.ofNat 1)) none]
    let type := Term.const (name "missing") []
    name "missing" ∈ type.consts ∧ ¬ s.scope.Denotes s.env (name "missing") ∧
      s.perform digest (.declare (name "A") [] type none) =
        .error (.check (.duplicateName (name "A"))) := by
  intro name digest config s type
  have hresolve : s.scope.resolve s.env (name "missing") =
      .error (.unresolved (name "missing")) := by
    decide +kernel
  have htaken : s.env.contains (s.scope.qualify (name "A")) = true := by decide +kernel
  have hqualify : s.scope.qualify (name "A") = name "A" := by decide +kernel
  refine ⟨by decide, (Scope.not_denotes_of_resolve hresolve).1, ?_⟩
  rw [perform_of_taken htaken, hqualify]

end Session

end TypeTheory
