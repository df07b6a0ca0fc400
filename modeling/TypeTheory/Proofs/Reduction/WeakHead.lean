import TypeTheory.Proofs.Checker.Indices
import TypeTheory.Proofs.Reduction.Cost

/-!
# Weak-head reduction as a relation

`WeakReduces sig δ Γ` is reduction at the head of a spine, in any number of steps: a
function takes its argument, a local definition, a variable or a constant with a value
gives way to the value, and a projection to a component once its target is reduced to a
pair. What happens in a target that does not come to a pair is not a reduction of the
projection. `WeakNormal` lists the forms at which weak-head reduction ends.

Reducing a term to such a form is the same as evaluating it (`evaluates_iff`). Hence a
checker without memory finds `r` for `e`, within some budget, exactly if `e` reduces to
`r` and `r` is a weak-head normal form (`Checker.exists_whnf_iff`). What it finds stays the
same if the term is first reduced without unfolding (`Checker.exists_whnf_iff_of_whnfCore`).
-/

namespace TypeTheory

open CheckM

/-! ## Rules -/

/-- **Weak-head reduction** in any number of steps, with definitions unfolding if `δ`. -/
inductive WeakReduces (sig : Signature) (δ : Bool) (Γ : Context) : Term → Term → Prop
  | refl (e : Term) : WeakReduces sig δ Γ e e
  | trans {x y z : Term} :
      WeakReduces sig δ Γ x y → WeakReduces sig δ Γ y z → WeakReduces sig δ Γ x z
  | beta (n : Name) (t b a : Term) : WeakReduces sig δ Γ (.app (.lam n t b) a) (b.instantiate a)
  | zeta (n : Name) (t v b : Term) : WeakReduces sig δ Γ (.letE n t v b) (b.instantiate v)
  /-- A variable of the context that carries a value. -/
  | lookup {i : Nat} {entry : Entry} {v : Term} : Γ[i]? = some entry → entry.value = some v →
      WeakReduces sig δ Γ (.bvar i) (v.shift 0 (i + 1))
  /-- A definition at as many levels as it has parameters. -/
  | delta {n : Name} {ls : List Level} {d : Declaration} {v : Term} : δ = true →
      sig n = some d → d.value = some v → d.params.length = ls.length →
      WeakReduces sig δ Γ (.const n ls) (v.substLevels (d.params.zip ls))
  /-- The target comes to a pair. -/
  | fst {p a b : Term} : WeakReduces sig δ Γ p (.pair a b) → WeakReduces sig δ Γ (.proj1 p) a
  | snd {p a b : Term} : WeakReduces sig δ Γ p (.pair a b) → WeakReduces sig δ Γ (.proj2 p) b
  /-- The head of a spine is the head of its function. -/
  | fn {f f' : Term} (a : Term) :
      WeakReduces sig δ Γ f f' → WeakReduces sig δ Γ (.app f a) (.app f' a)

/-- Whether the term is a pair. -/
def Term.isPair : Term → Bool
  | .pair .. => true
  | _ => false

/-- **The weak-head normal forms**, with definitions unfolding if `δ`. -/
inductive WeakNormal (sig : Signature) (δ : Bool) (Γ : Context) : Term → Prop
  | sort (l : Level) : WeakNormal sig δ Γ (.sort l)
  /-- A function, a dependent function type or a dependent pair type. -/
  | bind (k : Binder) (n : Name) (t b : Term) : WeakNormal sig δ Γ (.bind k n t b)
  | pair (a b : Term) : WeakNormal sig δ Γ (.pair a b)
  | fvar (n : Name) : WeakNormal sig δ Γ (.fvar n)
  /-- A variable of the context without a value. -/
  | bvar {i : Nat} {entry : Entry} : Γ[i]? = some entry → entry.value = none →
      WeakNormal sig δ Γ (.bvar i)
  /-- A constant that does not unfold. -/
  | const {n : Name} {ls : List Level} :
      (∀ d v, δ = true → sig n = some d → d.value = some v → d.params.length ≠ ls.length) →
      WeakNormal sig δ Γ (.const n ls)
  /-- A spine whose head is a normal form other than a function. -/
  | spine {f : Term} (a : Term) : WeakNormal sig δ Γ f.head → f.head.isLam = false →
      WeakNormal sig δ Γ (.app f a)
  /-- A projection whose target comes to a normal form other than a pair. -/
  | proj (k : Side) {p q : Term} : WeakReduces sig δ Γ p q → WeakNormal sig δ Γ q →
      q.isPair = false → WeakNormal sig δ Γ (.proj k p)

variable {sig : Signature} {δ : Bool} {Γ : Context} {e f p q r x y : Term}

/-! ## Constants and components -/

/-- The value of a constant as the rules see it. -/
theorem delta?_eq_some_iff {n : Name} {ls : List Level} {w : Term} :
    sig.delta? δ n ls = some w ↔ ∃ d v, δ = true ∧ sig n = some d ∧ d.value = some v ∧
      d.params.length = ls.length ∧ v.substLevels (d.params.zip ls) = w := by
  unfold Signature.delta? Signature.headUnfolded?
  constructor
  · intro h
    split at h
    · rename_i hδ
      obtain ⟨d, hd, h⟩ := Option.bind_eq_some_iff.mp h
      split at h
      · rename_i hlength
        obtain ⟨v, hv, hw⟩ := Option.map_eq_some_iff.mp h
        exact ⟨d, v, hδ, hd, hv, hlength, hw⟩
      · cases h
    · cases h
  · rintro ⟨d, v, hδ, hd, hv, hlength, rfl⟩
    simp [hδ, hd, hv, hlength]

theorem delta?_eq_none_iff {n : Name} {ls : List Level} :
    sig.delta? δ n ls = none ↔
      ∀ d v, δ = true → sig n = some d → d.value = some v → d.params.length ≠ ls.length := by
  rw [Option.eq_none_iff_forall_ne_some]
  constructor
  · intro h d v hδ hd hv hlength
    exact h _ (delta?_eq_some_iff.mpr ⟨d, v, hδ, hd, hv, hlength, rfl⟩)
  · intro h w hw
    obtain ⟨d, v, hδ, hd, hv, hlength, -⟩ := delta?_eq_some_iff.mp hw
    exact h d v hδ hd hv hlength

/-- The terms without components are those that are no pairs. -/
theorem Term.component?_eq_none_iff {k : Side} : p.component? k = none ↔ p.isPair = false := by
  cases p <;> cases k <;> simp [component?, isPair]

/-! ## Reduction keeps the value -/

/-- A term has the value of what it reduces to. -/
theorem WeakReduces.sameValue (h : WeakReduces sig δ Γ x y) : SameValue sig δ Γ x y := by
  induction h with
  | refl e => exact .refl e
  | trans _ _ ih ih' => exact ih.trans ih'
  | beta n t b a => exact .beta (.bind .lam n t b) a
  | zeta n t v b => exact .zeta
  | lookup hentry hvalue => exact .lookup hentry hvalue
  | delta hδ hd hv hlength =>
    exact .delta (delta?_eq_some_iff.mpr ⟨_, _, hδ, hd, hv, hlength, rfl⟩)
  | fst _ ih => exact .iota ((ih _).mpr (.pair _ _)) rfl
  | snd _ ih => exact .iota ((ih _).mpr (.pair _ _)) rfl
  | fn a _ ih => exact ih.app a

/-- A projection reduces to the component of what its target comes to. -/
theorem WeakReduces.component {k : Side} (h : WeakReduces sig δ Γ p q)
    (hr : q.component? k = some r) : WeakReduces sig δ Γ (.proj k p) r := by
  cases q with
  | pair a b =>
    cases k with
    | fst =>
      cases hr
      exact .fst h
    | snd =>
      cases hr
      exact .snd h
  | _ => cases k <;> cases hr

theorem WeakReduces.apps {f g : Term} (h : WeakReduces sig δ Γ f g) (args : List Term) :
    WeakReduces sig δ Γ (f.apps args) (g.apps args) := by
  induction args generalizing f g with
  | nil => exact h
  | cons a args ih => exact ih (h.fn a)

/-- **Evaluation is a reduction.** -/
theorem Evaluates.weakReduces (h : Evaluates sig δ Γ e r) : WeakReduces sig δ Γ e r := by
  induction h with
  | fvar | sort | bind | pair | bvar | const | proj => exact .refl _
  | lookup hentry hvalue _ ih => exact .trans (.lookup hentry hvalue) ih
  | delta hsome _ ih =>
    obtain ⟨d, v, hδ, hd, hv, hlength, rfl⟩ := delta?_eq_some_iff.mp hsome
    exact .trans (.delta hδ hd hv hlength) ih
  | zeta _ ih => exact .trans (.zeta _ _ _ _) ih
  -- the function is reduced to an abstraction first
  | beta _ _ ihf ih => exact .trans (.fn _ ihf) (.trans (.beta _ _ _ _) ih)
  | app _ _ ihf => exact .fn _ ihf
  | iota _ hq _ ihp ih => exact .trans (ihp.component hq) ih

/-- **Weak-head reduction is reduction.** -/
theorem WeakReduces.rewrites (h : WeakReduces sig δ Γ x y) : Rewrites sig Γ.values x y := by
  have hproj {k : Side} {p a b : Term} (hp : Rewrites sig Γ.values p (.pair a b)) :
      Rewrites sig Γ.values (.proj k p) (.proj k (.pair a b)) :=
    hp.lift (Term.proj k) fun _ _ => .target k
  induction h with
  | refl => exact .refl
  | trans _ _ ih ih' => exact ih.trans ih'
  | beta n t b a => exact .single (.beta n t b a)
  | zeta n t v b => exact .single (.zeta n t v b)
  | lookup hentry hvalue =>
    exact .single (.lookup (Context.values_eq_some.mpr ⟨_, hentry, hvalue⟩))
  | delta _ hd hv hlength =>
    exact .single (.delta (Signature.headUnfolded?_const.mpr ⟨_, _, hd, hlength, hv, rfl⟩))
  | fst _ ih => exact (hproj ih).tail (.iota rfl)
  | snd _ ih => exact (hproj ih).tail (.iota rfl)
  | fn a _ ih => exact ih.lift (Term.app · a) fun _ _ => .fn a

/-! ## Normal forms -/

/-- A term that is applied is in normal form if it is one without the argument. -/
theorem WeakNormal.app (h : WeakNormal sig δ Γ f) (hlam : f.isLam = false) (a : Term) :
    WeakNormal sig δ Γ (.app f a) := by
  cases f with
  | app g b =>
    cases h with
    | spine _ hhead hlam' => exact .spine a hhead hlam'
  | _ => exact .spine a h hlam

/-- **Evaluation ends in a normal form.** -/
theorem Evaluates.weakNormal (h : Evaluates sig δ Γ e r) : WeakNormal sig δ Γ r := by
  induction h with
  | fvar n => exact .fvar n
  | sort l => exact .sort l
  | bind k n t b => exact .bind k n t b
  | pair a b => exact .pair a b
  | bvar hentry hvalue => exact .bvar hentry hvalue
  | const hnone => exact .const (delta?_eq_none_iff.mp hnone)
  | app _ hlam ihf => exact ihf.app hlam _
  | proj hp hnone ihp => exact .proj _ hp.weakReduces ihp (Term.component?_eq_none_iff.mp hnone)
  | lookup _ _ _ ih => exact ih
  | delta _ _ ih => exact ih
  | zeta _ ih => exact ih
  | beta _ _ _ ih => exact ih
  | iota _ _ _ _ ih => exact ih

/-- A spine is evaluated by evaluating its head. -/
theorem Evaluates.spine (f : Term) (h : Evaluates sig δ Γ f.head f.head)
    (hlam : f.head.isLam = false) : Evaluates sig δ Γ f f ∧ f.isLam = false := by
  induction f with
  | app f a ihf _ =>
    obtain ⟨hf, hlam⟩ := ihf h hlam
    exact ⟨.app hf hlam, rfl⟩
  | _ => exact ⟨h, hlam⟩

/-- **A normal form is its own value.** -/
theorem WeakNormal.evaluates (h : WeakNormal sig δ Γ e) : Evaluates sig δ Γ e e := by
  induction h with
  | sort l => exact .sort l
  | bind k n t b => exact .bind k n t b
  | pair a b => exact .pair a b
  | fvar n => exact .fvar n
  | bvar hentry hvalue => exact .bvar hentry hvalue
  | const hnone => exact .const (delta?_eq_none_iff.mpr hnone)
  | spine a _ hlam ih =>
    obtain ⟨hf, hlam⟩ := Evaluates.spine _ ih hlam
    exact .app hf hlam
  | proj k hp _ hpair ih =>
    exact .proj ((hp.sameValue _).mpr ih) (Term.component?_eq_none_iff.mpr hpair)

/-- **To evaluate is to reduce to a normal form.** -/
theorem evaluates_iff : Evaluates sig δ Γ e r ↔ WeakReduces sig δ Γ e r ∧ WeakNormal sig δ Γ r :=
  ⟨fun h => ⟨h.weakReduces, h.weakNormal⟩, fun ⟨h, hr⟩ => (h.sameValue r).mpr hr.evaluates⟩

/-! ## Runs -/

namespace Checker

variable {c : Checker}

/-- A run without memory that succeeds has found the value. -/
theorem evaluates_of_whnf (hc : c.memoize = false) {p q : Progress} (hp : p.Blank)
    (h : c.whnf e Γ p = .ok r q) : Evaluates c.const? true Γ e r := by
  rw [whnf, remembered_of_blank hc hp] at h
  exact ((keeps_answer_whnf e).of_ok (.of_blank hp) h).1

theorem evaluates_of_whnfCore (hc : c.memoize = false) {p q : Progress} (hp : p.Blank)
    (h : c.whnfCore e Γ p = .ok r q) : Evaluates c.const? false Γ e r := by
  rw [whnfCore, remembered_of_blank hc hp] at h
  exact ((keeps_answer_core e).of_ok (.of_blank hp) h).1

/-- What costs something can be had within some budget. -/
theorem Pays.exists_limit {α : Type} {m : Checker → Nat → CheckM α} {a : α} (h : c.Pays m a)
    {p : Progress} (hp : p.Blank) : ∃ limit n q, m { c with limit := limit } n p = .ok a q := by
  obtain ⟨cost, h⟩ := h
  obtain ⟨q, hrun, -⟩ := h (p.steps + cost) cost p hp (Nat.le_refl _) (Nat.le_refl _)
  exact ⟨_, _, q, hrun⟩

/-- A checker that remembers nothing finds the value within some budget. -/
theorem exists_whnf_iff_evaluates (hc : c.memoize = false) {p : Progress} (hp : p.Blank) :
    (∃ limit q, whnf { c with limit := limit } e Γ p = .ok r q) ↔
      Evaluates c.const? true Γ e r := by
  constructor
  · rintro ⟨limit, q, hrun⟩
    exact evaluates_of_whnf (c := { c with limit := limit }) hc hp hrun
  · intro h
    obtain ⟨limit, n, q, hrun⟩ := (pays_whnf hc h).exists_limit hp
    exact ⟨limit, q, hrun⟩

/-- And so it does without unfolding definitions. -/
theorem exists_whnfCore_iff_evaluates (hc : c.memoize = false) {p : Progress} (hp : p.Blank) :
    (∃ limit q, whnfCore { c with limit := limit } e Γ p = .ok r q) ↔
      Evaluates c.const? false Γ e r := by
  constructor
  · rintro ⟨limit, q, hrun⟩
    exact evaluates_of_whnfCore (c := { c with limit := limit }) hc hp hrun
  · intro h
    obtain ⟨limit, n, q, hrun⟩ := (pays_whnfCore hc h).exists_limit hp
    exact ⟨limit, q, hrun⟩

/-- **Weak-head reduction computes the weak-head normal forms.** For a term in range, a
checker that remembers nothing finds `r` for `e`, within some budget, exactly if `e` reduces
to `r` at the head of its spine and `r` is a weak-head normal form; and so it does without
unfolding definitions. Whatever the term reduces to on the way has signed words as its loose
indices. -/
theorem exists_whnf_iff (hc : c.memoize = false) {p : Progress} (hp : p.Blank) (Γ : Context)
    (e r : Term) (hrange : c.InRange Γ [e]) :
    ((∃ limit q, whnf { c with limit := limit } e Γ p = .ok r q) ↔
      WeakReduces c.const? true Γ e r ∧ WeakNormal c.const? true Γ r) ∧
    ((∃ limit q, whnfCore { c with limit := limit } e Γ p = .ok r q) ↔
      WeakReduces c.const? false Γ e r ∧ WeakNormal c.const? false Γ r) ∧
    ∀ δ x, WeakReduces c.const? δ Γ e x → x.looseRange < 2 ^ 63 := by
  rw [← evaluates_iff, ← evaluates_iff]
  refine ⟨exists_whnf_iff_evaluates hc hp, exists_whnfCore_iff_evaluates hc hp, fun δ x hx => ?_⟩
  exact hrange.looseRange_of_rewrites (by simp) hx.rewrites

/-- A definition `d` that is a pair, whose first component is applied to a variable with a
value. With definitions unfolding that is the value; without, the projection is stuck
and the variable stays. -/
theorem exists_whnf_iff_projection :
    let name := fun x : String => Name.atom x
    let d : Declaration := ⟨name "d", [], .sort .zero,
      some (.pair (.lam (name "x") (.sort .zero) (.bvar 0)) (.sort .zero))⟩
    let c : Checker := { env := ⟨#[d]⟩, visible := 1, limit := 0, memoize := false }
    let p : Progress := { steps := 5 }
    let Γ : Context := [⟨name "v", .sort .zero, some (.fvar (name "y"))⟩]
    let e := Term.app (.proj1 (.const (name "d") [])) (.bvar 0)
    c.memoize = false ∧ p.Blank ∧ c.InRange Γ [e] ∧
      (∃ limit q, whnf { c with limit := limit } e Γ p = .ok (.fvar (name "y")) q) ∧
      (WeakReduces c.const? true Γ e (.fvar (name "y")) ∧
        WeakNormal c.const? true Γ (.fvar (name "y"))) ∧
      (∃ limit q, whnfCore { c with limit := limit } e Γ p = .ok e q) ∧
      (WeakReduces c.const? false Γ e e ∧ WeakNormal c.const? false Γ e) := by
  intro name d c p Γ e
  have hp : p.Blank := Progress.blank_empty.of_tables rfl rfl rfl
  have hwhnf : ∃ limit q, whnf { c with limit := limit } e Γ p = .ok (.fvar (name "y")) q :=
    ⟨20, value?_eq_some.mp (by decide +kernel)⟩
  have hcore : ∃ limit q, whnfCore { c with limit := limit } e Γ p = .ok e q :=
    ⟨20, value?_eq_some.mp (by decide +kernel)⟩
  have hrange : c.InRange Γ [e] :=
    .of_forall (by decide +kernel) (by decide +kernel) (by decide +kernel) (by decide +kernel)
  exact ⟨rfl, hp, hrange, hwhnf, (exists_whnf_iff rfl hp Γ e _ hrange).1.mp hwhnf, hcore,
    (exists_whnf_iff rfl hp Γ e e hrange).2.1.mp hcore⟩

/-! ## Unfolding late -/

/-- **Unfolding late or early gives the same normal form.** If a checker that remembers nothing
reduces `e` to `x` without unfolding definitions, then with definitions unfolding it finds `r`
for `e`, within some budget, exactly if it finds `r` for `x`. -/
theorem exists_whnf_iff_of_whnfCore (hc : c.memoize = false) {s t : Progress} (hs : s.Blank)
    (hcore : c.whnfCore e Γ s = .ok x t) {p p' : Progress} (hp : p.Blank) (hp' : p'.Blank)
    (r : Term) :
    (∃ limit q, whnf { c with limit := limit } e Γ p = .ok r q) ↔
      ∃ limit q, whnf { c with limit := limit } x Γ p' = .ok r q := by
  have hsame : SameValue c.const? true Γ e x :=
    sameValue_of_core (evaluates_of_whnfCore hc hs hcore)
  rw [exists_whnf_iff_evaluates hc hp, exists_whnf_iff_evaluates hc hp']
  exact hsame r

/-- A function that puts the first component of the definition `d`, a pair, in front of its
argument. Without unfolding, the projection is stuck with its target as it is; with unfolding,
the function and the stuck spine both come to the value of the argument. -/
theorem exists_whnf_iff_of_whnfCore_projection :
    let name := fun x : String => Name.atom x
    let d : Declaration := ⟨name "d", [], .sort .zero,
      some (.pair (.lam (name "x") (.sort .zero) (.bvar 0)) (.sort .zero))⟩
    let c : Checker := { env := ⟨#[d]⟩, visible := 1, limit := 20, memoize := false }
    let Γ : Context := [⟨name "v", .sort .zero, some (.fvar (name "y"))⟩]
    let stuck := Term.app (.proj1 (.const (name "d") [])) (.bvar 0)
    let e := Term.app (.lam (name "x") (.sort .zero) stuck) (.bvar 0)
    c.memoize = false ∧ Progress.Blank {} ∧ (∃ t, c.whnfCore e Γ {} = .ok stuck t) ∧
      (∃ limit q, whnf { c with limit := limit } e Γ {} = .ok (.fvar (name "y")) q) ∧
      ∃ limit q, whnf { c with limit := limit } stuck Γ {} = .ok (.fvar (name "y")) q := by
  intro name d c Γ stuck e
  have hcore : ∃ t, c.whnfCore e Γ {} = .ok stuck t := value?_eq_some.mp (by decide +kernel)
  have hwhnf : ∃ limit q, whnf { c with limit := limit } e Γ {} = .ok (.fvar (name "y")) q :=
    ⟨20, value?_eq_some.mp (by decide +kernel)⟩
  obtain ⟨t, ht⟩ := hcore
  have hblank := Progress.blank_empty
  exact ⟨rfl, hblank, ⟨t, ht⟩, hwhnf,
    (exists_whnf_iff_of_whnfCore rfl hblank ht hblank hblank _).mp hwhnf⟩

end Checker

end TypeTheory
