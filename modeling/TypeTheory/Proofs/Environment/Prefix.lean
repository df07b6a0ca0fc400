import TypeTheory.Proofs.Checker.Budget
import TypeTheory.Proofs.Environment.Distinct
import TypeTheory.Proofs.Environment.Verification

/-!
# Checking is local to what is visible

A checker that is shown the first `k` declarations of an environment does what a
checker over these alone does: it gives the same answers and errors, spends the same
steps and fills the same tables, on every question and on every sequence of questions.
So a declaration stands or falls with the declarations before it. `Environment.verify`
therefore lists the declarations that a fresh checker over those before them refuses,
and what it lists of an environment it lists of every extension.

Unlike `Checker.sameRuns`, the correspondence used here excuses nothing, so it also
speaks of runs that are out of steps.
-/

namespace TypeTheory

/-! ## Questions -/

/-- What can be asked of a checker. -/
inductive Inquiry where
  | task (t : Task)
  | sortOf (e : Term) (Γ : Context)
  | ensureSort (type e : Term) (Γ : Context)
  | ensurePi (type e : Term) (Γ : Context)
  | ensureSigma (type e : Term) (Γ : Context)
  | requireConv (found expected e : Term) (Γ : Context)
  | constant (x : Name)
  | unfolding (e : Term)
  | tick
  deriving DecidableEq, Inhabited, Repr

/-- What a checker answers. -/
inductive Answer where
  | reply (r : Reply)
  | level (l : Level)
  | binding (b : Binding)
  /-- The position and the declaration of a constant. -/
  | constant (position : Option Nat) (d : Option Declaration)
  /-- The definition at the head of a term, and the term with it unfolded. -/
  | unfolding (d : Option Declaration) (e : Option Term)
  | done
  deriving DecidableEq, Inhabited, Repr

namespace Checker

/-- Answers one question. -/
def ask (c : Checker) : Inquiry → CheckM Answer
  | .task t => return .reply (← c.execute t)
  | .sortOf e Γ => return .level (← c.sortOf e Γ)
  | .ensureSort type e Γ => return .level (← c.ensureSort type e Γ)
  | .ensurePi type e Γ => return .binding (← c.ensurePi type e Γ)
  | .ensureSigma type e Γ => return .binding (← c.ensureSigma type e Γ)
  | .requireConv found expected e Γ => do
    c.requireConv found expected e Γ
    return .done
  | .constant x => return .constant (c.constPosition? x) (c.const? x)
  | .unfolding e => return .unfolding (c.definition? e) (c.unfolded? e)
  | .tick => do
    c.tick
    return .done

/-- Answers questions one after the other, from the state that the questions before
have left. Each result comes with the state it leaves. -/
def askAll (c : Checker) : List Inquiry → Progress →
    List (EStateM.Result KernelError Progress Answer)
  | [], _ => []
  | inquiry :: rest, p =>
    let result := c.ask inquiry p
    result :: c.askAll rest (CheckM.state result)

variable {c c' : Checker}

/-! ## Runs in lockstep -/

/-- Runs on the same terms from one state, of which neither is excused. -/
def lockstep (c c' : Checker) : Correspondence c c' :=
  sameTerms c c' Eq False

/-- **Checkers with one view, one budget and one habit of remembering run in
lockstep.** -/
theorem lawful_lockstep (hview : c.SameView c') (hlimit : c.limit = c'.limit)
    (hmemoize : c.memoize = c'.memoize) : (lockstep c c').Lawful := by
  refine lawful_sameTerms hview (fun k k' => ?_) (fun p p' i j k hp => ?_) fun q e Γ hanswer => ?_
  · rintro p _ rfl - -
    unfold tick
    dsimp only
    rw [hlimit]
    split
    · exact .inr ⟨rfl, rfl, Nat.le_succ _, Nat.le_succ _⟩
    · exact ⟨trivial, rfl, Nat.le_succ _, Nat.le_succ _⟩
  · cases hp
    rfl
  · exact sim_remembered_same hmemoize hanswer

/-- Computations in lockstep are one computation. -/
theorem eq_of_lockstep {α : Type} {m m' : CheckM α}
    (h : ∀ n n', (lockstep c c').Sim n n' Eq m m') : m = m' := by
  funext p
  exact (eq_of_sameTerms h fun _ _ _ hspent => hspent.1).symm

theorem eq_of_binding {b b' : Binding} (h : (lockstep c c').binding () b b') : b = b' := by
  obtain ⟨hname, hdomain, hbody⟩ := h
  cases b
  cases b'
  cases hname
  cases hdomain
  cases hbody
  rfl

/-- Whatever is asked, checkers with one view that correspond are in lockstep while they answer. -/
theorem sim_ask (h : (lockstep c c').Lawful) (hview : c.SameView c') (inquiry : Inquiry)
    (n n' : Nat) : (lockstep c c').Sim n n' Eq (c.ask inquiry) (c'.ask inquiry) := by
  have hΓ : ∀ Γ : Context, (lockstep c c').context () Γ Γ := fun _ => rfl
  have hterm : ∀ e : Term, (lockstep c c').term () e e := fun _ => rfl
  cases inquiry with
  | task t => exact (sim_execute h t n n').bind fun _ _ hr => .pure (congrArg _ hr)
  | sortOf e Γ =>
    exact (h.sim_sortOf (h.simTyping e) (hΓ Γ) (hterm e)).bind fun _ _ hl =>
      .pure (congrArg _ hl.1)
  | ensureSort type e Γ =>
    exact (h.sim_ensureSort (hΓ Γ) (hterm type) (hterm e)).bind fun _ _ hl =>
      .pure (congrArg _ hl.1)
  | ensurePi type e Γ =>
    simp only [ask]
    rw [ensurePi_eq, ensurePi_eq]
    exact (h.sim_ensureBinding (h.notAFunction (hterm e) (hterm type)) (hΓ Γ) (hterm type)).bind
      fun _ _ hb => .pure (congrArg _ (eq_of_binding hb))
  | ensureSigma type e Γ =>
    simp only [ask]
    rw [ensureSigma_eq, ensureSigma_eq]
    exact (h.sim_ensureBinding (h.notAPair (hterm e) (hterm type)) (hΓ Γ) (hterm type)).bind
      fun _ _ hb => .pure (congrArg _ (eq_of_binding hb))
  | requireConv found expected e Γ =>
    exact (h.sim_requireConv (hΓ Γ) (hterm found) (hterm expected) (hterm e)).bind
      fun _ _ _ => .pure rfl
  | constant x =>
    simp only [ask]
    rw [hview.const? x, hview.constPosition? x]
    exact .pure rfl
  | unfolding e =>
    simp only [ask, definition?, unfolded?, hview.const?]
    exact .pure rfl
  | tick => exact (h.tick n n').bind fun _ _ _ => .pure rfl

/-- **One view, one result**, for every question from every state. -/
theorem ask_eq_of_sameView (hview : c.SameView c') (hlimit : c.limit = c'.limit)
    (hmemoize : c.memoize = c'.memoize) (inquiry : Inquiry) : c.ask inquiry = c'.ask inquiry :=
  eq_of_lockstep (sim_ask (lawful_lockstep hview hlimit hmemoize) hview inquiry)

/-- A sequence of questions has one sequence of results, as each question leaves both checkers in
one state. -/
theorem askAll_eq_of_sameView (hview : c.SameView c') (hlimit : c.limit = c'.limit)
    (hmemoize : c.memoize = c'.memoize) (inquiries : List Inquiry) (p : Progress) :
    c.askAll inquiries p = c'.askAll inquiries p := by
  induction inquiries generalizing p with
  | nil => rfl
  | cons inquiry rest ih =>
    unfold askAll
    rw [ask_eq_of_sameView hview hlimit hmemoize inquiry]
    exact congrArg _ (ih _)

/-- A declaration fails for both checkers, with the same error, or for neither. -/
theorem failure?_eq_of_sameView (hview : c.SameView c') (hlimit : c.limit = c'.limit)
    (hmemoize : c.memoize = c'.memoize) (d : Declaration) : c.failure? d = c'.failure? d := by
  have h := lawful_lockstep hview hlimit hmemoize
  have hsame : c.checkDeclaration d = c'.checkDeclaration d :=
    eq_of_lockstep fun _ _ =>
      h.sim_checkDeclaration (w := ()) (fun _ => rfl) rfl rfl fun _ _ => rfl
  unfold failure?
  rw [hsame]

end Checker

/-! ## Beginnings of an environment -/

namespace Environment

variable {env env' : Environment} {limit i k : Nat}

/-- The environment of the first `k` declarations. -/
def take (env : Environment) (k : Nat) : Environment :=
  ⟨env.decls.take k⟩

theorem toList_take (env : Environment) (k : Nat) :
    (env.take k).toList = env.toList.take k := by
  simp [take, toList]

theorem extends_take (env : Environment) (k : Nat) : (env.take k).Extends env := by
  rw [Extends, toList_take]
  exact List.take_prefix k env.toList

/-- A beginning of `k` declarations has `k` of them, if there are as many. -/
theorem size_take (hk : k ≤ env.size) : (env.take k).size = k := by
  rw [← length_toList, toList_take, List.length_take, length_toList]
  exact Nat.min_eq_left hk

/-- A checker over the first declarations sees what one sees that is shown no more. -/
theorem sameView_take (hk : k ≤ env.size) (limit : Nat) (memoize : Bool) :
    Checker.SameView ⟨env.take k, (env.take k).size, limit, memoize⟩ ⟨env, k, limit, memoize⟩ := by
  have hsize := size_take hk
  rw [hsize]
  exact Checker.sameView (env.extends_take k) (Nat.le_of_eq hsize.symm) limit limit memoize memoize

/-! ## Verification -/

/-- The name of the declaration at a position, with the error for which a fresh
checker over the declarations before it refuses it. -/
def rejectedAt? (env : Environment) (limit i : Nat) : Option (Name × KernelError) := do
  let d ← env.at? i
  let e ← (Checker.ofEnvironment (env.take i) limit).failure? d
  pure (d.name, e)

/-- A declaration is rejected where it stands as it is by a fresh checker over the declarations
before it. -/
theorem failureAt?_eq_rejectedAt? (hi : i ≤ env.size) :
    env.failureAt? limit i = env.rejectedAt? limit i := by
  have hview := sameView_take hi limit true
  unfold failureAt? rejectedAt? Checker.ofEnvironment
  simp only [Checker.failure?_eq_of_sameView hview rfl rfl]

/-- A position that was there fails in an extension as it did. -/
theorem Extends.failureAt? (h : env.Extends env') (hi : i < env.size) :
    env'.failureAt? limit i = env.failureAt? limit i := by
  have hview := Checker.sameView h (Nat.le_of_lt hi) limit limit true true
  unfold Environment.failureAt?
  simp only [h.at? hi, Checker.failure?_eq_of_sameView hview rfl rfl]

/-- The positions of an environment in order. -/
theorem verify_eq (env : Environment) (limit : Nat) :
    env.verify limit = (List.range env.size).filterMap (env.failureAt? limit) := by
  unfold verify verifyRange
  rw [show Nat.min env.size env.size - 0 = env.size from Nat.min_self _, List.range_eq_range']

/-- What fails in an extension: what failed before, then what fails of the rest. -/
theorem Extends.verify (h : env.Extends env') :
    env'.verify limit = env.verify limit ++ env'.verifyRange env.size env'.size limit := by
  have hle := h.size_le
  have hmin : Nat.min env'.size env'.size = env'.size := Nat.min_self _
  have hrange : List.range env'.size =
      List.range env.size ++ List.range' env.size (env'.size - env.size) := by
    have happend := List.range'_append_1 (s := 0) (m := env.size) (n := env'.size - env.size)
    rw [Nat.zero_add, Nat.add_sub_of_le hle] at happend
    rw [List.range_eq_range', List.range_eq_range', happend]
  rw [verify_eq, verify_eq, verifyRange, hmin, hrange, List.filterMap_append]
  congr 1
  refine List.filterMap_congr fun i hi => ?_
  exact h.failureAt? (List.mem_range.mp hi)

/-- A failure names the declaration at its position. -/
theorem name_of_mem_verifyRange {start stop : Nat} {failure : Name × KernelError}
    (h : failure ∈ env.verifyRange start stop limit) :
    ∃ i d, start ≤ i ∧ i < stop ∧ env.at? i = some d ∧ d.name = failure.1 := by
  obtain ⟨i, hi, hfailure⟩ := List.mem_filterMap.mp h
  obtain ⟨hstart, hstop⟩ := List.mem_range'_1.mp hi
  have hmin : Nat.min stop env.size ≤ stop := Nat.min_le_left _ _
  unfold Environment.failureAt? at hfailure
  obtain ⟨d, hd, hfailure⟩ := Option.bind_eq_some_iff.mp hfailure
  obtain ⟨e, -, hfailure⟩ := Option.bind_eq_some_iff.mp hfailure
  cases hfailure
  exact ⟨i, d, hstart, by omega, hd, rfl⟩

/-- The failures of the old declarations are the failures there were. -/
theorem Extends.filter_verify (h : env.Extends env') (hdistinct : env'.Distinct) :
    (env'.verify limit).filter (fun failure => env.contains failure.1) = env.verify limit := by
  have hold : ∀ failure ∈ env.verify limit, env.contains failure.1 = true := by
    intro failure hfailure
    obtain ⟨i, d, -, -, hd, hname⟩ := name_of_mem_verifyRange hfailure
    exact contains_iff.mpr (List.mem_map.mpr ⟨d, mem_of_at? hd, hname⟩)
  have hnew : ∀ failure ∈ env'.verifyRange env.size env'.size limit,
      ¬ env.contains failure.1 = true := by
    intro failure hfailure hcontains
    obtain ⟨i, d, hi, -, hd, hname⟩ := name_of_mem_verifyRange hfailure
    obtain ⟨d', hd', hname'⟩ := List.mem_map.mp (contains_iff.mp hcontains)
    obtain ⟨j, hj⟩ := at?_of_mem hd'
    have hlt := lt_size_of_at? hj
    rw [← h.at? hlt] at hj
    have hij := eq_of_name_eq hdistinct hd hj (hname.trans hname'.symm)
    omega
  rw [h.verify, List.filter_append, List.filter_eq_self.mpr hold, List.filter_eq_nil_iff.mpr hnew,
    List.append_nil]

/-- **Checking is local to what is visible.** A checker that is shown the first `k`
declarations answers every sequence of questions as a checker over these alone, with
the same errors, counters and tables. So verification lists, in their order, the
declarations that a fresh checker over those before them refuses, with its errors; and
of an extension it lists first what it lists of the environment, which is also what it
lists of the names declared there. -/
theorem verify_local (env : Environment) {k : Nat} (hk : k ≤ env.size) (limit : Nat)
    (memoize : Bool) :
    (∀ inquiries p,
      Checker.askAll ⟨env, k, limit, memoize⟩ inquiries p =
        Checker.askAll { Checker.ofEnvironment (env.take k) limit with memoize } inquiries p) ∧
    env.verify limit = (List.range env.size).filterMap (env.rejectedAt? limit) ∧
    ∀ env' : Environment, env.Extends env' →
      env'.verify limit = env.verify limit ++ env'.verifyRange env.size env'.size limit ∧
      (env'.Distinct →
        (env'.verify limit).filter (fun failure => env.contains failure.1) = env.verify limit) := by
  refine ⟨fun inquiries p => ?_, ?_, fun env' h => ⟨h.verify, h.filter_verify⟩⟩
  · exact (Checker.askAll_eq_of_sameView (sameView_take hk limit memoize) rfl rfl inquiries p).symm
  · rw [verify_eq]
    refine List.filterMap_congr fun i hi => ?_
    exact failureAt?_eq_rejectedAt? (Nat.le_of_lt (List.mem_range.mp hi))

/-- The second of two declarations is about a constant that only an extension
declares, so it is refused in both. A checker that is shown the first declaration
does not know the second. -/
theorem verify_local_forward :
    let a : Declaration := ⟨.atom "a", [], .sort .zero, none⟩
    let b : Declaration := ⟨.atom "b", [], .const (.atom "c") [], none⟩
    let c : Declaration := ⟨.atom "c", [], .const (.atom "a") [], none⟩
    let env : Environment := ⟨#[a, b]⟩
    let env' : Environment := ⟨#[a, b, c]⟩
    let inquiries : List Inquiry :=
      [.constant (.atom "b"), .sortOf (.const (.atom "a") []) [],
        .sortOf (.const (.atom "b") []) []]
    let failures : List (Name × KernelError) := [(.atom "b", .unknownConstant (.atom "c"))]
    1 ≤ env.size ∧ env.Extends env' ∧ env'.Distinct ∧
      Checker.askAll ⟨env, 1, 10, false⟩ inquiries {} =
        Checker.askAll ⟨⟨#[a]⟩, 1, 10, false⟩ inquiries {} ∧
      Checker.const? ⟨env, 1, 10, false⟩ (.atom "b") = none ∧
      Checker.const? ⟨env, 2, 10, false⟩ (.atom "b") = some b ∧
      env.verify 10 = failures ∧
      (env'.verify 10).filter (fun failure => env.contains failure.1) = failures := by
  intro a b c env env' inquiries failures
  have hext : env.Extends env' := ⟨[c], rfl⟩
  have hdistinct : env'.Distinct := by decide
  have hverify : env.verify 10 = failures := by decide +kernel
  obtain ⟨hasked, -, hextension⟩ := verify_local env (k := 1) (by decide) 10 false
  refine ⟨by decide, hext, hdistinct, hasked inquiries {}, by decide, by decide, hverify, ?_⟩
  rw [(hextension env' hext).2 hdistinct, hverify]

end Environment

end TypeTheory
