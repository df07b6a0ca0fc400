import TypeTheory.Proofs.Reduction.Values
import TypeTheory.Proofs.Simulation.Conversion

/-!
# What a run costs

`Pays c m a` says that the computation `m` has the result `a` at a cost: with that many
steps left it comes to `a`, in every state and within every budget, and spends no more.
The computations are those of checkers that remember nothing. They may take a bound on
their loops, which is at least the number of steps that remain.

A term that has a weak-head normal form is reduced to it at a cost
(`Checker.pays_reduce`). By induction on the evaluation, for a term in front of any
arguments: what a spine costs is what its head costs and what comes of the head
(`Comes`).
-/

namespace TypeTheory

open CheckM

namespace Checker

/-- **The computation comes to the result** if it may spend enough steps. -/
def Pays {α : Type} (c : Checker) (m : Checker → Nat → CheckM α) (a : α) : Prop :=
  ∃ cost, ∀ limit n p, p.Blank → p.steps + cost ≤ limit → limit ≤ p.steps + n →
    ∃ q, m { c with limit := limit } n p = .ok a q ∧ q.Blank ∧ p.steps ≤ q.steps ∧
      q.steps ≤ p.steps + cost

variable {c : Checker} {α β : Type} {a : α} {b : β}

theorem Pays.pure (a : α) : c.Pays (fun _ _ => pure a) a :=
  ⟨0, fun _ _ p hp _ _ => ⟨p, rfl, hp, Nat.le_refl _, Nat.le_refl _⟩⟩

/-- Costs add up: a sequence pays for its first part and then, from whatever state that leaves, for
its second. -/
theorem Pays.bind {m : Checker → Nat → CheckM α} {f : Checker → Nat → α → CheckM β}
    (hm : c.Pays m a) (hf : c.Pays (fun c n => f c n a) b) :
    c.Pays (fun c n => m c n >>= f c n) b := by
  obtain ⟨k, hm⟩ := hm
  obtain ⟨k', hf⟩ := hf
  refine ⟨k + k', fun limit n p hp hle hn => ?_⟩
  obtain ⟨q, hrun, hq, hpq, hqp⟩ := hm limit n p hp (by omega) hn
  obtain ⟨r, hrun', hr, hqr, hrq⟩ := hf limit n q hq (by omega) (by omega)
  exact ⟨r, EStateM.bind_eq_ok.mpr ⟨a, q, hrun, hrun'⟩, hr, by omega, by omega⟩

/-- A computation that does the same in every state without memory. -/
theorem Pays.congr {m m' : Checker → Nat → CheckM α} (h : c.Pays m a)
    (heq : ∀ limit n p, p.Blank → m' { c with limit := limit } n p =
      m { c with limit := limit } n p) : c.Pays m' a := by
  obtain ⟨k, h⟩ := h
  refine ⟨k, fun limit n p hp hle hn => ?_⟩
  rw [heq limit n p hp]
  exact h limit n p hp hle hn

/-- A step is paid for, and the loop goes on with a smaller bound. -/
theorem Pays.tick {m m' : Checker → Nat → CheckM α} (h : c.Pays m a)
    (hm : ∀ c n, m' c (n + 1) = m c n) : c.Pays (fun c n => c.tick >>= fun _ => m' c n) a := by
  obtain ⟨k, h⟩ := h
  refine ⟨k + 1, fun limit n p hp hle hn => ?_⟩
  obtain ⟨n, rfl⟩ : ∃ j, n = j + 1 := ⟨n - 1, by omega⟩
  have htick : Checker.tick { c with limit := limit } p =
      .ok () { p with steps := p.steps + 1 } := by
    unfold Checker.tick
    exact if_neg (by dsimp only; omega)
  obtain ⟨q, hrun, hq, hpq, hqp⟩ := h limit n { p with steps := p.steps + 1 }
    (hp.of_tables rfl rfl rfl) (by dsimp only; omega) (by dsimp only; omega)
  dsimp only at hpq hqp
  rw [← hm] at hrun
  exact ⟨q, EStateM.bind_eq_ok.mpr ⟨(), _, htick, hrun⟩, hq, by omega, by omega⟩

/-- A round pays for its body, since the bound is at least the number of steps that are left. -/
theorem Pays.round {m : Checker → Nat → CheckM α} (h : c.Pays m a) :
    c.Pays (fun c n => c.round n (m c)) a :=
  h.tick fun _ _ => rfl

/-- The bound of a loop that starts is the number of steps that remain. -/
theorem Pays.remaining {m : Checker → Nat → CheckM α} (h : c.Pays m a) :
    c.Pays (fun c _ => c.remaining >>= m c) a := by
  obtain ⟨k, h⟩ := h
  refine ⟨k, fun limit n p hp hle _ => ?_⟩
  obtain ⟨q, hrun, hq⟩ := h limit (limit - p.steps) p hp hle (by omega)
  exact ⟨q, EStateM.bind_eq_ok.mpr ⟨_, p, rfl, hrun⟩, hq⟩

/-- Counting a call costs nothing. -/
theorem Pays.addCalls {m : Checker → Nat → CheckM α} (i j k : Nat) (h : c.Pays m a) :
    c.Pays (fun c n => (modify fun p => p.addCalls i j k : CheckM PUnit) >>= fun _ => m c n) a := by
  obtain ⟨cost, h⟩ := h
  refine ⟨cost, fun limit n p hp hle hn => ?_⟩
  obtain ⟨q, hrun, hq⟩ := h limit n (p.addCalls i j k) (hp.of_tables rfl rfl rfl) hle hn
  exact ⟨q, EStateM.bind_eq_ok.mpr ⟨PUnit.unit, p.addCalls i j k, rfl, hrun⟩, hq⟩

/-- A checker that remembers nothing computes its results. -/
theorem Pays.remembered (hc : c.memoize = false) {q : Query} {e r : Term}
    {m : Checker → Nat → CheckM Term} (h : c.Pays m r) :
    c.Pays (fun c n => c.remembered q e (m c n)) r :=
  h.congr fun _ _ _ hp => remembered_of_blank hc hp

/-! ## Runs that correspond -/

/-- Runs that correspond from one state, with one value and no excuse, are the same
where they succeed. -/
theorem ok_iff_of_sim {c' : Checker} {R : Correspondence c c'}
    (hstate : ∀ p p', R.state p p' ↔ p = p' ∧ p.Blank) (hstrict : ¬ R.lenient)
    {m m' : CheckM α} (h : ∀ n n', R.Sim n n' Eq m m') {p q : Progress} (hp : p.Blank) :
    m p = .ok a q ↔ m' p = .ok a q := by
  have hout := Correspondence.Sim.outcome h ((hstate p p).mpr ⟨rfl, hp⟩)
  cases hrun : m p with
  | ok b s =>
    cases hrun' : m' p with
    | ok b' s' =>
      rw [hrun, hrun'] at hout
      obtain ⟨rfl, hs, -⟩ := hout
      obtain ⟨rfl, -⟩ := (hstate s s').mp hs
      exact Iff.rfl
    | error e s' =>
      rw [hrun, hrun'] at hout
      exact hout.elim
  | error e s =>
    cases hrun' : m' p with
    | ok b' s' =>
      rw [hrun, hrun'] at hout
      exact absurd hout.1 hstrict
    | error e' s' =>
      constructor
      · intro hok
        cases hok
      · intro hok
        cases hok

/-- **Computations that correspond come to the same results at the same cost.** -/
theorem pays_iff_of_sim {c' : Checker}
    {R : (limit : Nat) → Correspondence { c with limit := limit } { c' with limit := limit }}
    (hstate : ∀ limit p p', (R limit).state p p' ↔ p = p' ∧ p.Blank)
    (hstrict : ∀ limit, ¬ (R limit).lenient) {m m' : Checker → Nat → CheckM α}
    (h : ∀ limit k n n', (R limit).Sim n n' Eq (m { c with limit := limit } k)
      (m' { c' with limit := limit } k)) : c.Pays m a ↔ c'.Pays m' a := by
  have hok (limit k : Nat) {p q : Progress} (hp : p.Blank) :
      m { c with limit := limit } k p = .ok a q ↔ m' { c' with limit := limit } k p = .ok a q :=
    ok_iff_of_sim (hstate limit) (hstrict limit) (h limit k) hp
  constructor
  · rintro ⟨cost, hpays⟩
    refine ⟨cost, fun limit n p hp hle hn => ?_⟩
    obtain ⟨q, hrun, hq⟩ := hpays limit n p hp hle hn
    exact ⟨q, (hok limit n hp).mp hrun, hq⟩
  · rintro ⟨cost, hpays⟩
    refine ⟨cost, fun limit n p hp hle hn => ?_⟩
    obtain ⟨q, hrun, hq⟩ := hpays limit n p hp hle hn
    exact ⟨q, (hok limit n hp).mpr hrun, hq⟩

/-! ## Reductions -/

variable {δ : Bool} {Γ : Context} {e h p q r w : Term}

/-- The reduction of a term comes to the result. -/
abbrev PaysReduction (c : Checker) (δ : Bool) (Γ : Context) (e r : Term) : Prop :=
  c.Pays (fun c n => c.reduceHead δ Γ n e) r

/-- The step of a term in front of arguments comes to the result. -/
abbrev PaysStep (c : Checker) (δ : Bool) (Γ : Context) (e : Term) (args : List Term)
    (o : Option Term) : Prop :=
  c.Pays (fun c n => c.headStep δ Γ (c.reducer δ Γ n) e args) o

/-- Settling pays for the step and, where the step leads on, for the reduction of what it leads
to. -/
theorem pays_settle {step : Checker → Nat → CheckM (Option Term)} {o : Option Term}
    (hstep : c.Pays step o) (hnone : o = none → r = e)
    (hsome : ∀ next, o = some next → c.PaysReduction δ Γ next r) :
    c.Pays (fun c n => c.settle (c.reducer δ Γ n) e (step c n)) r := by
  cases o with
  | none =>
    rw [hnone rfl]
    exact hstep.bind (.pure e)
  | some next => exact hstep.bind ((hsome next rfl).tick fun _ _ => rfl)

/-- A reduction is a step, after which it goes on. -/
theorem pays_reduction {o : Option Term} (hstep : c.PaysStep δ Γ e [] o)
    (hnone : o = none → r = e) (hsome : ∀ next, o = some next → c.PaysReduction δ Γ next r) :
    c.PaysReduction δ Γ e r := by
  refine (pays_settle hstep hnone hsome).congr fun limit n p _ => ?_
  rw [reduceHead_eq]

/-- A spine takes the head step of its head in front of all its arguments, however it is put
together. -/
theorem headStep_apps (reduce : Term → CheckM Term) (e : Term) (args : List Term) :
    c.headStep δ Γ reduce (e.apps args) [] = c.headStep δ Γ reduce e args := by
  induction args generalizing e with
  | nil => rfl
  | cons a args ih =>
    rw [Term.apps_cons, ih]
    rfl

/-- What comes of a weak-head normal form `r` in front of arguments: a function takes
its argument, and anything else stays. -/
inductive Comes (c : Checker) (δ : Bool) (Γ : Context) (r : Term) : List Term → Term → Prop
  | nil : Comes c δ Γ r [] r
  | beta {x : Name} {t b a w : Term} {args : List Term} : r = .lam x t b →
      c.PaysReduction δ Γ ((b.instantiate a).apps args) w → Comes c δ Γ r (a :: args) w
  | stuck (a : Term) (args : List Term) : r.isLam = false →
      Comes c δ Γ r (a :: args) (r.apps (a :: args))

/-- The step of a spine once its head is reduced. -/
def spineStep (h a : Term) (args : List Term) (reduced : Term) : Option Term :=
  match reduced with
  | .lam _ _ body => some ((body.instantiate a).apps args)
  | _ => if reduced = h then none else some (reduced.apps (a :: args))

/-- Where the reduced head is no function, a spine has moved just if its head has. -/
theorem spineStep_of_not_isLam {a : Term} {args : List Term} (hr : r.isLam = false) :
    spineStep h a args r = if r = h then none else some (r.apps (a :: args)) := by
  unfold spineStep
  split
  · cases hr
  · rfl

theorem stepSpine_cons (reduce : Term → CheckM Term) (h a : Term) (args : List Term)
    (step : CheckM (Option Term)) : c.stepSpine reduce h (a :: args) step =
      c.settle reduce h step >>= fun reduced => pure (spineStep h a args reduced) := by
  have hbody (reduced : Term) : (match reduced with
      | .lam _ _ body => pure (some ((body.instantiate a).apps args))
      | _ => pure (if reduced = h then none else some (reduced.apps (a :: args))) :
        CheckM (Option Term)) = pure (spineStep h a args reduced) := by
    unfold spineStep
    split <;> rfl
  exact congrArg (c.settle reduce h step >>= ·) (funext hbody)

/-- A term whose step in front of arguments is that of a spine with this head. -/
def IsHead (c : Checker) (δ : Bool) (Γ : Context) (h : Term) : Prop :=
  ∀ limit reduce args, headStep { c with limit := limit } δ Γ reduce h args =
    stepSpine { c with limit := limit } reduce h args
      (headStep { c with limit := limit } δ Γ reduce h [])

/-- Everything but an application is the head of its own spine, and takes its head steps in front of
any arguments. -/
theorem isHead_of_ne_app (happ : ∀ f a, h ≠ .app f a) : c.IsHead δ Γ h := by
  intro limit reduce args
  cases h with
  | app f a => exact absurd rfl (happ f a)
  | _ => rfl

/-- The step of a spine whose head comes to `r`. -/
theorem IsHead.paysStep (hh : c.IsHead δ Γ h) (hr : c.PaysReduction δ Γ h r) (a : Term)
    (args : List Term) : c.PaysStep δ Γ h (a :: args) (spineStep h a args r) := by
  have hbind : c.Pays (fun c n => c.reduceHead δ Γ n h >>= fun reduced =>
      pure (spineStep h a args reduced)) (spineStep h a args r) := hr.bind (.pure _)
  refine hbind.congr fun limit n p _ => ?_
  rw [hh limit, stepSpine_cons, reduceHead_eq]

/-- **A spine comes to what its head comes to in front of the arguments.** -/
theorem IsHead.pays_apps (hh : c.IsHead δ Γ h) (hr : c.PaysReduction δ Γ h r)
    (hstuck : r.isLam = false → r ≠ h →
      ∀ args, c.PaysReduction δ Γ (r.apps args) (r.apps args))
    {args : List Term} (hcomes : c.Comes δ Γ r args w) :
    c.PaysReduction δ Γ (h.apps args) w := by
  have happs {a : Term} {args : List Term} (hw : spineStep h a args r = none →
      w = h.apps (a :: args))
      (hnext : ∀ next, spineStep h a args r = some next → c.PaysReduction δ Γ next w) :
      c.PaysReduction δ Γ (h.apps (a :: args)) w := by
    refine pays_reduction ((hh.paysStep hr a args).congr fun limit n p _ => ?_) hw hnext
    rw [headStep_apps]
  cases hcomes with
  | nil => exact hr
  | beta hlam hnext =>
    subst hlam
    refine happs (fun hnone => by cases hnone) fun next hsome => ?_
    cases hsome
    exact hnext
  | stuck a args hlam =>
    by_cases heq : r = h
    · refine happs (fun _ => by rw [heq]) fun next hsome => ?_
      rw [spineStep_of_not_isLam hlam, if_pos heq] at hsome
      cases hsome
    · refine happs (fun hnone => ?_) fun next hsome => ?_
      · rw [spineStep_of_not_isLam hlam, if_neg heq] at hnone
        cases hnone
      · rw [spineStep_of_not_isLam hlam, if_neg heq] at hsome
        cases hsome
        exact hstuck hlam heq (a :: args)

/-- A weak-head normal form that is no function stays in front of arguments. -/
theorem IsHead.pays_stuck (hh : c.IsHead δ Γ h) (hr : c.PaysReduction δ Γ h h)
    (hlam : h.isLam = false) (args : List Term) :
    c.PaysReduction δ Γ (h.apps args) (h.apps args) := by
  cases args with
  | nil => exact hr
  | cons a args => exact hh.pays_apps hr (fun _ hne => absurd rfl hne) (.stuck a args hlam)

/-- What a term with a value costs: in front of arguments it comes to what comes of the
value, and the value itself stays. -/
structure Evaluated (c : Checker) (δ : Bool) (Γ : Context) (e r : Term) : Prop where
  comes : ∀ args w, c.Comes δ Γ r args w → c.PaysReduction δ Γ (e.apps args) w
  stays : r.isLam = false → ∀ args, c.PaysReduction δ Γ (r.apps args) (r.apps args)

/-- A term that is evaluated in front of all arguments is evaluated in front of none. -/
theorem Evaluated.reduction (he : c.Evaluated δ Γ e r) : c.PaysReduction δ Γ e r :=
  he.comes [] r .nil

/-- A normal form at the head of a spine. -/
theorem IsHead.evaluated (hh : c.IsHead δ Γ h) (hstep : c.PaysStep δ Γ h [] none) :
    c.Evaluated δ Γ h h := by
  have hr : c.PaysReduction δ Γ h h :=
    pays_reduction hstep (fun _ => rfl) fun next hnext => by cases hnext
  exact ⟨fun args w => hh.pays_apps hr fun _ hne => absurd rfl hne, hh.pays_stuck hr⟩

/-- The head of a spine that takes a step. -/
theorem IsHead.evaluated_next {next : Term} (hh : c.IsHead δ Γ h)
    (hstep : c.PaysStep δ Γ h [] (some next)) (hnext : c.Evaluated δ Γ next r) :
    c.Evaluated δ Γ h r := by
  refine ⟨fun args w => hh.pays_apps ?_ fun hlam _ => hnext.stays hlam, hnext.stays⟩
  refine pays_reduction hstep (fun hnone => by cases hnone) fun other hother => ?_
  cases hother
  exact hnext.reduction

/-- **A term with a value is reduced to it at a cost.** By induction on the evaluation,
in front of any arguments. -/
theorem evaluated (he : Evaluates c.const? δ Γ e r) : c.Evaluated δ Γ e r := by
  have hhead {h : Term} (happ : ∀ f a, h ≠ .app f a) : c.IsHead δ Γ h := isHead_of_ne_app happ
  have htarget (k : Side) {p p' : Term} (hp : c.Evaluated δ Γ p p') :
      c.PaysStep δ Γ (.proj k p) [] (p'.component? k) := by
    have hbind : c.Pays (fun c n => c.reduceHead δ Γ n p >>= fun target =>
        pure (target.component? k)) (p'.component? k) := hp.reduction.bind (.pure _)
    refine hbind.congr fun limit n p _ => ?_
    rw [reduceHead_eq]
    rfl
  induction he with
  | fvar | sort | bind | pair =>
    exact (hhead fun _ _ h => by cases h).evaluated (.pure none)
  | @bvar i entry hentry hvalue =>
    refine (hhead fun _ _ h => by cases h).evaluated ((Pays.pure none).congr fun limit n p _ => ?_)
    simp [headStep, stepSpine, hentry, hvalue]
  | @lookup i entry v r hentry hvalue _ ih =>
    refine (hhead fun _ _ h => by cases h).evaluated_next
      ((Pays.pure (some (v.shift 0 (i + 1)))).congr fun limit n p _ => ?_) ih
    simp [headStep, stepSpine, hentry, hvalue]
  | @const n ls hnone =>
    refine (hhead fun _ _ h => by cases h).evaluated ((Pays.pure none).congr fun limit n p _ => ?_)
    rw [← hnone]
    simp [headStep, stepSpine, unfolded?_eq, Signature.delta?]
    rfl
  | @delta n ls v r hsome _ ih =>
    refine (hhead fun _ _ h => by cases h).evaluated_next
      ((Pays.pure (some v)).congr fun limit n p _ => ?_) ih
    rw [← hsome]
    simp [headStep, stepSpine, unfolded?_eq, Signature.delta?]
    rfl
  | zeta _ ih => exact (hhead fun _ _ h => by cases h).evaluated_next (.pure _) ih
  | beta _ _ ihf ih =>
    exact ⟨fun args w hw => ihf.comes (_ :: args) w (.beta rfl (ih.comes args w hw)), ih.stays⟩
  | @app f f' a _ hlam ihf =>
    refine ⟨fun args w hw => ihf.comes (a :: args) w ?_, fun _ args => ihf.stays hlam (a :: args)⟩
    cases hw with
    | nil => exact .stuck a [] hlam
    | beta heq => cases heq
    | stuck b args => exact .stuck a (b :: args) hlam
  | @iota k p p' q r _ hq _ ihp ih =>
    have hstep := htarget k ihp
    rw [hq] at hstep
    exact (hhead fun _ _ h => by cases h).evaluated_next hstep ih
  | @proj k p p' _ hnone ihp =>
    have hstep := htarget k ihp
    rw [hnone] at hstep
    exact (hhead fun _ _ h => by cases h).evaluated hstep

/-- Reduction finds the weak-head normal form that the rules give, at a cost. -/
theorem pays_reduce (he : Evaluates c.const? δ Γ e r) :
    c.Pays (fun c _ => c.reduce δ Γ e) r :=
  (evaluated he).reduction.remaining

/-- So does weak head reduction of a checker that keeps no results, with definitions unfolded. -/
theorem pays_whnf (hc : c.memoize = false) (he : Evaluates c.const? true Γ e r) :
    c.Pays (fun c _ => c.whnf e Γ) r :=
  ((pays_reduce he).addCalls 0 1 0).remembered hc

theorem pays_whnfCore (hc : c.memoize = false) (he : Evaluates c.const? false Γ e r) :
    c.Pays (fun c _ => c.whnfCore e Γ) r :=
  (pays_reduce he).remembered hc

end Checker

end TypeTheory
