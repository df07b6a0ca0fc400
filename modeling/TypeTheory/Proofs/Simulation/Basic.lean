import TypeTheory.Proofs.Checker.Run
import TypeTheory.Proofs.Term.Spine
import TypeTheory.Typing

/-!
# Two runs of the kernel side by side

Many facts about the kernel compare two runs: with and without remembered
results, over an environment and over one that extends it, in one context and in
another that agrees with it where it matters. All of them have one proof. A
`Correspondence` says which terms, contexts, states and errors of the two runs
belong together, `Correspondence.Sim` says that two computations keep it so, and
`Correspondence.Lawful` lists what has to be shown of a correspondence. The
modules beside this one show that every function of the kernel keeps every
lawful correspondence.

Terms are related in a *world*, which counts the binders crossed. A
correspondence may be *lenient*: then nothing is asked of the right run once the
left one is out of steps.
-/

namespace TypeTheory

/-- The two terms have one form, and their parts are related: display names by
`name`, the body of a binder by `body`, and all other parts by `part`. -/
inductive Term.Alike (name : Name → Name → Prop) (part body : Term → Term → Prop) :
    Term → Term → Prop
  | bvar (i i' : Nat) : Alike name part body (.bvar i) (.bvar i')
  | fvar (n : Name) : Alike name part body (.fvar n) (.fvar n)
  | sort (l : Level) : Alike name part body (.sort l) (.sort l)
  | const (n : Name) (levels : List Level) :
      Alike name part body (.const n levels) (.const n levels)
  | app {f f' a a' : Term} :
      part f f' → part a a' → Alike name part body (.app f a) (.app f' a')
  | bind (k : Binder) {n n' : Name} {t t' b b' : Term} :
      name n n' → part t t' → body b b' → Alike name part body (.bind k n t b) (.bind k n' t' b')
  | letE {n n' : Name} {t t' v v' b b' : Term} : name n n' → part t t' → part v v' → body b b' →
      Alike name part body (.letE n t v b) (.letE n' t' v' b')
  | pair {a a' b b' : Term} :
      part a a' → part b b' → Alike name part body (.pair a b) (.pair a' b')
  | proj (k : Side) {p p' : Term} : part p p' → Alike name part body (.proj k p) (.proj k p')

/-- Whether the term has no parts. What a leaf stands for lies outside the term: in
the context, in the environment or in its levels. -/
def Term.isLeaf : Term → Bool
  | .bvar _ | .fvar _ | .sort _ | .const .. => true
  | .app .. | .bind .. | .letE .. | .pair .. | .proj .. => false

/-- Whether the error names no term. -/
def KernelError.Termless : KernelError → Prop
  | .unknownConstant _ | .duplicateName _ | .universeArity .. | .duplicateUniverse _
  | .undeclaredUniverse _ | .looseIndex _ | .freeVariable _ => True
  | .notAFunction .. | .notAPair .. | .notASort .. | .typeMismatch .. | .exhausted _ => False

/-- Counts calls of inference, reduction and conversion. -/
def Progress.addCalls (p : Progress) (infer whnf conv : Nat) : Progress :=
  { p with
    inferCalls := p.inferCalls + infer
    whnfCalls := p.whnfCalls + whnf
    convCalls := p.convCalls + conv }

namespace Checker

variable {c : Checker}

/-- What a query computes where no result is remembered. -/
def answer (c : Checker) (q : Query) (e : Term) (Γ : Context) : CheckM Term :=
  match q with
  | .whnf => do
    modify fun p => { p with whnfCalls := p.whnfCalls + 1 }
    c.reduce true Γ e
  | .core => c.reduce false Γ e
  | .type => do
    modify fun p => { p with inferCalls := p.inferCalls + 1 }
    c.inferNode e Γ

/-- The weak-head normal form or the type of a term. -/
def query (c : Checker) (q : Query) (e : Term) (Γ : Context) : CheckM Term :=
  match q with
  | .whnf => c.whnf e Γ
  | .core => c.whnfCore e Γ
  | .type => c.infer e Γ

/-- A query is answered from the tables, or by the computation that the query stands for. -/
theorem query_eq (q : Query) (e : Term) (Γ : Context) :
    c.query q e Γ = c.remembered q e (c.answer q e Γ) := by
  cases q with
  | whnf => rfl
  | core => rfl
  | type =>
    rw [query, infer]
    rfl

/-- A step that was paid for was within the budget. -/
theorem tick_eq_ok {p q : Progress} {a : Unit} (h : c.tick p = .ok a q) :
    p.steps < c.limit ∧ q.steps = p.steps + 1 := by
  simp only [tick] at h
  split at h
  · cases h
  · cases h
    exact ⟨by omega, rfl⟩

end Checker

/-! ## Correspondences -/

/-- What belongs together in a run of the checker `c` and one of `c'`. -/
structure Correspondence (c c' : Checker) where
  World : Type
  /-- The world inside one more binder. -/
  under : World → World
  name : Name → Name → Prop
  term : World → Term → Term → Prop
  context : World → Context → Context → Prop
  state : Progress → Progress → Prop
  error : KernelError → KernelError → Prop
  /-- Whether the left run is excused once it is out of steps. -/
  lenient : Prop

namespace Correspondence

variable {c c' : Checker} (R : Correspondence c c') {α α' β β' : Type}

/-- The left run is out of steps, and is excused. -/
def Spent (e : KernelError) : Prop :=
  R.lenient ∧ e = .exhausted c.limit

/-- From `p` and `p'` the runs have come to states that belong together, and no
counter has gone down. -/
def Advance (p p' q q' : Progress) : Prop :=
  R.state q q' ∧ p.steps ≤ q.steps ∧ p'.steps ≤ q'.steps

/-- What two runs from `p` and `p'` may come to. -/
def Outcome (value : α → α' → Prop) (p p' : Progress) :
    EStateM.Result KernelError Progress α → EStateM.Result KernelError Progress α' → Prop
  | .ok a q, .ok a' q' => value a a' ∧ R.Advance p p' q q'
  | .error e q, .error e' q' => R.Spent e ∨ R.error e e' ∧ R.Advance p p' q q'
  | .error e _, .ok .. => R.Spent e
  | .ok .., .error .. => False

/-- **The computations keep the correspondence**, from states in which at most
`n` and `n'` steps remain. -/
def Sim (n n' : Nat) (value : α → α' → Prop) (m : CheckM α) (m' : CheckM α') : Prop :=
  ∀ p p', R.state p p' → c.limit - p.steps ≤ n → c'.limit - p'.steps ≤ n' →
    R.Outcome value p p' (m p) (m' p')

variable {R} {n n' : Nat} {value : α → α' → Prop} {m : CheckM α} {m' : CheckM α'}

namespace Outcome

variable {p p' : Progress} {r : EStateM.Result KernelError Progress α}
  {r' : EStateM.Result KernelError Progress α'}

/-- What is known of the values of an outcome may be weakened, also in view of how they came
about. -/
theorem imp {value' : α → α' → Prop} (h : R.Outcome value p p' r r')
    (hvalue : ∀ a a' q q', r = .ok a q → r' = .ok a' q' → value a a' → value' a a') :
    R.Outcome value' p p' r r' := by
  cases r with
  | ok a q =>
    cases r' with
    | ok a' q' => exact ⟨hvalue a a' q q' rfl rfl h.1, h.2⟩
    | error => exact h
  | error =>
    cases r' with
    | ok => exact h
    | error => exact h

/-- What two runs come to from later states, they come to from earlier ones. -/
theorem of_advance {s s' : Progress} (hs : R.Advance s s' p p') (h : R.Outcome value p p' r r') :
    R.Outcome value s s' r r' := by
  have hadvance : ∀ {q q'}, R.Advance p p' q q' → R.Advance s s' q q' := fun hq =>
    ⟨hq.1, Nat.le_trans hs.2.1 hq.2.1, Nat.le_trans hs.2.2 hq.2.2⟩
  cases r with
  | ok =>
    cases r' with
    | ok => exact ⟨h.1, hadvance h.2⟩
    | error => exact h
  | error =>
    cases r' with
    | ok => exact h
    | error => exact h.imp_right fun he => ⟨he.1, hadvance he.2⟩

/-- An excused run is related to every other. -/
theorem of_spent {e : KernelError} {q : Progress} (h : R.Spent e) :
    R.Outcome value p p' (.error e q) r' := by
  cases r' with
  | ok => exact h
  | error => exact .inl h

/-- Values may change the states they come with, if no step is given back. -/
theorem adjust {f : α → Progress → Progress} {f' : α' → Progress → Progress}
    (h : R.Outcome value p p' r r') (hf : ∀ a s, (f a s).steps = s.steps)
    (hf' : ∀ a' s', (f' a' s').steps = s'.steps)
    (hstate : ∀ a a' s s', r = .ok a s → r' = .ok a' s' → value a a' → R.Advance p p' s s' →
      R.state (f a s) (f' a' s')) :
    R.Outcome value p p' (CheckM.adjust f r) (CheckM.adjust f' r') := by
  cases r with
  | ok a s =>
    cases r' with
    | ok a' s' =>
      obtain ⟨hvalue, hs, hle, hle'⟩ := h
      refine ⟨hvalue, hstate a a' s s' rfl rfl hvalue ⟨hs, hle, hle'⟩, ?_, ?_⟩
      · exact Nat.le_trans hle (Nat.le_of_eq (hf a s).symm)
      · exact Nat.le_trans hle' (Nat.le_of_eq (hf' a' s').symm)
    | error => exact h
  | error =>
    cases r' with
    | ok => exact h
    | error => exact h

/-- Two sequences, given what their first parts come to. -/
theorem bind {value' : β → β' → Prop} {f : α → CheckM β} {f' : α' → CheckM β'}
    (h : R.Outcome value p p' (m p) (m' p'))
    (hf : ∀ a a' q q', m p = .ok a q → m' p' = .ok a' q' → value a a' → R.Advance p p' q q' →
      R.Outcome value' q q' (f a q) (f' a' q')) :
    R.Outcome value' p p' ((m >>= f) p) ((m' >>= f') p') := by
  change R.Outcome value' p p' (EStateM.bind m f p) (EStateM.bind m' f' p')
  unfold EStateM.bind
  cases hm : m p with
  | error e q =>
    cases hm' : m' p' with
    | error e' q' =>
      rw [hm, hm'] at h
      exact h
    | ok a' q' =>
      -- the left run is out of steps, whatever the right one goes on to
      rw [hm, hm'] at h
      exact .of_spent h
  | ok a q =>
    cases hm' : m' p' with
    | error e' q' =>
      rw [hm, hm'] at h
      exact h.elim
    | ok a' q' =>
      rw [hm, hm'] at h
      exact (hf a a' q q' hm hm' h.1 h.2).of_advance h.2

end Outcome

namespace Sim

/-- Computations that go side by side whatever bounds they are given have outcomes that belong
together. -/
theorem outcome {p p' : Progress} (h : ∀ n n', R.Sim n n' value m m') (hstate : R.state p p') :
    R.Outcome value p p' (m p) (m' p') :=
  h _ _ p p' hstate (Nat.le_refl _) (Nat.le_refl _)

/-- The right run has the value of the left one. -/
theorem value?_eq_some {m' : CheckM α} {a : α} {p p' : Progress}
    (h : ∀ n n', R.Sim n n' Eq m m') (hstate : R.state p p') (ha : m.value? p = some a) :
    m'.value? p' = some a := by
  obtain ⟨q, hrun⟩ := CheckM.value?_eq_some.mp ha
  have hout := outcome h hstate
  rw [hrun] at hout
  cases hrun' : m' p' with
  | ok a' q' =>
    rw [hrun'] at hout
    obtain ⟨rfl, -⟩ := hout
    exact CheckM.value?_eq_some.mpr ⟨q', hrun'⟩
  | error e q' =>
    rw [hrun'] at hout
    exact hout.elim

theorem pure {a : α} {a' : α'} (h : value a a') : R.Sim n n' value (pure a) (pure a') :=
  fun _ _ hstate _ _ => ⟨h, hstate, Nat.le_refl _, Nat.le_refl _⟩

theorem throw {e e' : KernelError} (h : R.error e e') :
    R.Sim n n' value (throw e) (throw e') :=
  fun _ _ hstate _ _ => .inr ⟨h, hstate, Nat.le_refl _, Nat.le_refl _⟩

theorem mono {value' : α → α' → Prop} (h : R.Sim n n' value m m')
    (hvalue : ∀ a a', value a a' → value' a a') : R.Sim n n' value' m m' :=
  fun p p' hstate hn hn' =>
    (h p p' hstate hn hn').imp fun a a' _ _ _ _ ha => hvalue a a' ha

/-- Facts about the values of each run alone may be added. -/
theorem and_gives (h : R.Sim n n' value m m') (P : α → Prop) (P' : α' → Prop)
    (hP : ∀ a, m.Gives a → P a) (hP' : ∀ a', m'.Gives a' → P' a') :
    R.Sim n n' (fun a a' => value a a' ∧ P a ∧ P' a') m m' :=
  fun p p' hstate hn hn' =>
    (h p p' hstate hn hn').imp fun a a' q q' hm hm' ha =>
      ⟨ha, hP a ⟨p, q, hm⟩, hP' a' ⟨p', q', hm'⟩⟩

/-- **Sequences keep the correspondence** if their parts do. The second parts may
use that their inputs are values of the first ones. -/
theorem bind_gives {value' : β → β' → Prop} {f : α → CheckM β} {f' : α' → CheckM β'}
    (h : R.Sim n n' value m m')
    (hf : ∀ a a', value a a' → m.Gives a → m'.Gives a' → R.Sim n n' value' (f a) (f' a')) :
    R.Sim n n' value' (m >>= f) (m' >>= f') := by
  intro p p' hstate hn hn'
  refine (h p p' hstate hn hn').bind fun a a' q q' hm hm' ha hadvance => ?_
  obtain ⟨hstate', hle, hle'⟩ := hadvance
  exact hf a a' ha ⟨p, q, hm⟩ ⟨p', q', hm'⟩ q q' hstate' (by omega) (by omega)

/-- Computations are put together: what follows related values goes side by side again. -/
theorem bind {value' : β → β' → Prop} {f : α → CheckM β} {f' : α' → CheckM β'}
    (h : R.Sim n n' value m m') (hf : ∀ a a', value a a' → R.Sim n n' value' (f a) (f' a')) :
    R.Sim n n' value' (m >>= f) (m' >>= f') :=
  h.bind_gives fun a a' ha _ _ => hf a a' ha

/-- A loop that takes the steps that remain as its bound. -/
theorem remaining_bind {f f' : Nat → CheckM α} {value : α → α → Prop}
    (hf : ∀ k k', R.Sim k k' value (f k) (f' k')) :
    R.Sim n n' value (c.remaining >>= f) (c'.remaining >>= f') :=
  fun p p' hstate _ _ =>
    hf (c.limit - p.steps) (c'.limit - p'.steps) p p' hstate (Nat.le_refl _) (Nat.le_refl _)

end Sim

/-! ## What has to be shown -/

variable (R)

/-- A correspondence that the kernel cannot leave: related terms have one form,
the operations on terms and contexts keep them related, and so do the budget and
the tables of remembered results. -/
structure Lawful : Prop where
  name_refl (x : Name) : R.name x x
  /-- Related terms have one form. -/
  form {w e e'} : R.term w e e' → Term.Alike R.name (R.term w) (R.term (R.under w)) e e'
  /-- Related parts make related terms. -/
  build {w e e'} : e.isLeaf = false →
    Term.Alike R.name (R.term w) (R.term (R.under w)) e e' → R.term w e e'
  sortSucc {w l} : R.term w (.sort l) (.sort l) → R.term w (.sort l.succ) (.sort l.succ)
  sortMax {w l r} : R.term w (.sort l) (.sort l) → R.term (R.under w) (.sort r) (.sort r) →
    R.term w (.sort (Level.max l r).normalize) (.sort (Level.max l r).normalize)
  instantiate {w b b' a a'} : R.term (R.under w) b b' → R.term w a a' →
    R.term w (b.instantiate a) (b'.instantiate a')
  weaken {w e e'} : R.term w e e' → R.term (R.under w) (e.shift 0 1) (e'.shift 0 1)
  alphaEq {w x x' y y'} : R.term w x x' → R.term w y y' → (x.AlphaEq y ↔ x'.AlphaEq y')
  push {w Γ Γ' t t'} {x x' : Name} : R.context w Γ Γ' → R.name x x' → R.term w t t' →
    R.context (R.under w) (Γ.push x t) (Γ'.push x' t')
  pushLet {w Γ Γ' t t' v v'} {x x' : Name} : R.context w Γ Γ' → R.name x x' → R.term w t t' →
    R.term w v v' → R.context (R.under w) (Γ.pushLet x t v) (Γ'.pushLet x' t' v')
  /-- Related indices are both outside their contexts, or stand for related
  types and values. -/
  lookup {w Γ Γ' i i'} : R.context w Γ Γ' → R.term w (.bvar i) (.bvar i') →
    (Γ[i]? = none ∧ Γ'[i']? = none ∧ R.error (.looseIndex i) (.looseIndex i')) ∨
    ∃ entry entry', Γ[i]? = some entry ∧ Γ'[i']? = some entry' ∧
      R.term w (entry.type.shift 0 (i + 1)) (entry'.type.shift 0 (i' + 1)) ∧
      Option.Rel (R.term w) (entry.value.map (·.shift 0 (i + 1)))
        (entry'.value.map (·.shift 0 (i' + 1)))
  /-- Constants that occur in related terms have one declaration. -/
  const? {w x ls} : R.term w (.const x ls) (.const x ls) → c.const? x = c'.const? x
  /-- And it has one position. -/
  constPosition? {w x ls d} : R.term w (.const x ls) (.const x ls) → c.const? x = some d →
    c.constPosition? d.name = c'.constPosition? d.name
  /-- A constant at the right number of levels has a type that is related to
  itself. -/
  declaredType {w x ls d} : R.term w (.const x ls) (.const x ls) → c.const? x = some d →
    d.params.length = ls.length →
    R.term w (d.type.substLevels (d.params.zip ls)) (d.type.substLevels (d.params.zip ls))
  /-- And so has its value, if it has one. -/
  declaredValue {w x ls d v} : R.term w (.const x ls) (.const x ls) → c.const? x = some d →
    d.params.length = ls.length → d.value = some v →
    R.term w (v.substLevels (d.params.zip ls)) (v.substLevels (d.params.zip ls))
  freeVariable {w x} : R.term w (.fvar x) (.fvar x) →
    R.error (.freeVariable x) (.freeVariable x)
  unknownConstant {w x ls} : R.term w (.const x ls) (.const x ls) → c.const? x = none →
    R.error (.unknownConstant x) (.unknownConstant x)
  universeArity {w x ls d} : R.term w (.const x ls) (.const x ls) → c.const? x = some d →
    d.params.length ≠ ls.length →
    R.error (.universeArity x d.params.length ls.length)
      (.universeArity x d.params.length ls.length)
  notAFunction {w e e' t t'} : R.term w e e' → R.term w t t' →
    R.error (.notAFunction e t) (.notAFunction e' t')
  notAPair {w e e' t t'} : R.term w e e' → R.term w t t' →
    R.error (.notAPair e t) (.notAPair e' t')
  notASort {w e e' t t'} : R.term w e e' → R.term w t t' →
    R.error (.notASort e t) (.notASort e' t')
  typeMismatch {w e e' t t' u u'} : R.term w e e' → R.term w t t' → R.term w u u' →
    R.error (.typeMismatch e t u) (.typeMismatch e' t' u')
  tick (k k' : Nat) : R.Sim k k' (fun _ _ => True) c.tick c'.tick
  calls {p p'} (i j k : Nat) : R.state p p' → R.state (p.addCalls i j k) (p'.addCalls i j k)
  /-- Remembering keeps the correspondence if computing does, in every world that
  the context and the term have. -/
  remembered {q Γ Γ' e e'} :
    (∀ w, R.context w Γ Γ' → R.term w e e' → ∀ k k',
      R.Sim k k' (R.term w) (c.answer q e Γ) (c'.answer q e' Γ')) →
    ∀ w, R.context w Γ Γ' → R.term w e e' → ∀ k k',
      R.Sim k k' (R.term w) (c.remembered q e (c.answer q e Γ))
        (c'.remembered q e' (c'.answer q e' Γ'))

variable {R}

/-- Changes of the state that keep the states related, and count no step, go side by side. -/
theorem Sim.modify {f f' : Progress → Progress} (hf : ∀ p p', R.state p p' → R.state (f p) (f' p'))
    (hsteps : ∀ p, (f p).steps = p.steps) (hsteps' : ∀ p, (f' p).steps = p.steps) :
    R.Sim n n' (fun _ _ => True) (modify f : CheckM PUnit) (modify f' : CheckM PUnit) :=
  fun p p' hstate _ _ => ⟨trivial, hf p p' hstate, Nat.le_of_eq (hsteps p).symm,
    Nat.le_of_eq (hsteps' p').symm⟩

/-- **A loop that pays for its rounds.** Behind a step, one step less remains on
either side; where none remained the step has failed. -/
theorem Lawful.tick_bind (h : R.Lawful) {f : Unit → CheckM α} {f' : Unit → CheckM α'}
    (hf : ∀ k k', n = k + 1 → n' = k' + 1 → R.Sim k k' value (f ()) (f' ())) :
    R.Sim n n' value (c.tick >>= f) (c'.tick >>= f') := by
  intro p p' hstate hn hn'
  refine (h.tick n n' p p' hstate hn hn').bind fun _ _ q q' hm hm' _ hadvance => ?_
  obtain ⟨hlt, hsteps⟩ := Checker.tick_eq_ok hm
  obtain ⟨hlt', hsteps'⟩ := Checker.tick_eq_ok hm'
  exact hf (n - 1) (n' - 1) (by omega) (by omega) q q' hadvance.1 (by omega) (by omega)

end Correspondence

end TypeTheory
