import TypeTheory.Proofs.Judgement
import TypeTheory.Reduction

/-!
# Weak-head evaluation by rules

`Evaluates sig δ Γ e r` says that `r` is the weak-head normal form of `e`, with or
without unfolding definitions. The target of a projection is evaluated to see
whether it is a pair; if it is none, the projection stays as it was.

A term has at most one weak-head normal form (`Evaluates.unique`). Evaluating
first without unfolding loses nothing (`sameValue_of_core`), and neither does
unfolding a definition at the head of a spine (`sameValue_of_headUnfolded?`). What
the two together cannot reach is a pair that comes out of a definition in the
target of a projection (`HidesPair`): where there is none, a term that neither can
change is in weak-head normal form (`eq_of_not_hidesPair`).
-/

namespace TypeTheory

/-- The term with the definition at the head of its spine unfolded. -/
def Signature.headUnfolded? (sig : Signature) : Term → Option Term
  | .const n ls => (sig n).bind fun d =>
      if d.params.length = ls.length then d.value.map (·.substLevels (d.params.zip ls)) else none
  | .app f a => (headUnfolded? sig f).map (.app · a)
  | .bvar _ | .fvar _ | .sort _ | .bind .. | .letE .. | .pair .. | .proj .. => none

/-- The value of a constant, if definitions unfold. -/
def Signature.delta? (sig : Signature) (δ : Bool) (n : Name) (ls : List Level) : Option Term :=
  if δ then sig.headUnfolded? (.const n ls) else none

/-- Whether the term is a function. -/
def Term.isLam : Term → Bool
  | .lam .. => true
  | _ => false

theorem Term.isLam_eq_false {e : Term} (h : ∀ x t b, e = .lam x t b → False) :
    e.isLam = false := by
  unfold isLam
  split
  · exact (h _ _ _ rfl).elim
  · rfl

/-- **The weak-head normal form of a term**, with definitions unfolding if `δ`. -/
inductive Evaluates (sig : Signature) (δ : Bool) (Γ : Context) : Term → Term → Prop
  | fvar (x : Name) : Evaluates sig δ Γ (.fvar x) (.fvar x)
  | sort (l : Level) : Evaluates sig δ Γ (.sort l) (.sort l)
  | bind (k : Binder) (x : Name) (t b : Term) : Evaluates sig δ Γ (.bind k x t b) (.bind k x t b)
  | pair (a b : Term) : Evaluates sig δ Γ (.pair a b) (.pair a b)
  /-- A variable without a value. An index outside the context has no rule. -/
  | bvar {i : Nat} {entry : Entry} : Γ[i]? = some entry → entry.value = none →
      Evaluates sig δ Γ (.bvar i) (.bvar i)
  | lookup {i : Nat} {entry : Entry} {v r : Term} : Γ[i]? = some entry → entry.value = some v →
      Evaluates sig δ Γ (v.shift 0 (i + 1)) r → Evaluates sig δ Γ (.bvar i) r
  | const {n : Name} {ls : List Level} : sig.delta? δ n ls = none →
      Evaluates sig δ Γ (.const n ls) (.const n ls)
  | delta {n : Name} {ls : List Level} {v r : Term} : sig.delta? δ n ls = some v →
      Evaluates sig δ Γ v r → Evaluates sig δ Γ (.const n ls) r
  | zeta {x : Name} {t v b r : Term} : Evaluates sig δ Γ (b.instantiate v) r →
      Evaluates sig δ Γ (.letE x t v b) r
  | beta {f a t b r : Term} {x : Name} : Evaluates sig δ Γ f (.lam x t b) →
      Evaluates sig δ Γ (b.instantiate a) r → Evaluates sig δ Γ (.app f a) r
  /-- An application whose head is no function. -/
  | app {f f' a : Term} : Evaluates sig δ Γ f f' → f'.isLam = false →
      Evaluates sig δ Γ (.app f a) (.app f' a)
  | iota {k : Side} {p p' q r : Term} : Evaluates sig δ Γ p p' → p'.component? k = some q →
      Evaluates sig δ Γ q r → Evaluates sig δ Γ (.proj k p) r
  /-- A projection whose target is no pair. The target stays as it was. -/
  | proj {k : Side} {p p' : Term} : Evaluates sig δ Γ p p' → p'.component? k = none →
      Evaluates sig δ Γ (.proj k p) (.proj k p)

variable {sig : Signature} {δ : Bool} {Γ : Context} {e f g a r x : Term}

/-! ## One normal form -/

/-- **A term has at most one weak-head normal form.** -/
theorem Evaluates.unique (h : Evaluates sig δ Γ e r) {r' : Term} (h' : Evaluates sig δ Γ e r') :
    r = r' := by
  induction h generalizing r' with
  | fvar | sort | bind | pair =>
    cases h'
    rfl
  | bvar hentry hvalue =>
    cases h' with
    | bvar => rfl
    | lookup hentry' hvalue' =>
      rw [hentry] at hentry'
      cases hentry'
      rw [hvalue] at hvalue'
      cases hvalue'
  | lookup hentry hvalue _ ih =>
    cases h' with
    | bvar hentry' hvalue' =>
      rw [hentry] at hentry'
      cases hentry'
      rw [hvalue] at hvalue'
      cases hvalue'
    | lookup hentry' hvalue' h' =>
      rw [hentry] at hentry'
      cases hentry'
      rw [hvalue] at hvalue'
      cases hvalue'
      exact ih h'
  | const hnone =>
    cases h' with
    | const => rfl
    | delta hsome =>
      rw [hnone] at hsome
      cases hsome
  | delta hsome _ ih =>
    cases h' with
    | const hnone =>
      rw [hnone] at hsome
      cases hsome
    | delta hsome' h' =>
      rw [hsome] at hsome'
      cases hsome'
      exact ih h'
  | zeta _ ih =>
    cases h' with
    | zeta h' => exact ih h'
  | beta _ _ ihf ih =>
    cases h' with
    | beta hf' h' =>
      cases ihf hf'
      exact ih h'
    | app hf' hlam =>
      cases ihf hf'
      cases hlam
  | app _ hlam ihf =>
    cases h' with
    | beta hf' =>
      cases ihf hf'
      cases hlam
    | app hf' => rw [ihf hf']
  | iota _ hsome _ ihp ih =>
    cases h' with
    | iota hp' hsome' h' =>
      cases ihp hp'
      rw [hsome] at hsome'
      cases hsome'
      exact ih h'
    | proj hp' hnone =>
      cases ihp hp'
      rw [hsome] at hnone
      cases hnone
  | proj _ hnone ihp =>
    cases h' with
    | iota hp' hsome =>
      cases ihp hp'
      rw [hsome] at hnone
      cases hnone
    | proj => rfl

/-- What a weak-head normal form looks like. -/
def Term.Normal (sig : Signature) (δ : Bool) (Γ : Context) : Term → Prop
  | .bvar i => ∃ entry, Γ[i]? = some entry ∧ entry.value = none
  | .const n ls => sig.delta? δ n ls = none
  | .app f _ => f.Normal sig δ Γ ∧ f.isLam = false
  | .letE .. => False
  | .proj k p => ∃ p', Evaluates sig δ Γ p p' ∧ p'.component? k = none
  | .fvar _ | .sort _ | .bind .. | .pair .. => True

/-- What a term evaluates to is in weak-head normal form, by the rule that ends the evaluation. -/
theorem Evaluates.normal (h : Evaluates sig δ Γ e r) : r.Normal sig δ Γ := by
  induction h with
  | fvar | sort | bind | pair => trivial
  | bvar hentry hvalue => exact ⟨_, hentry, hvalue⟩
  | const hnone => exact hnone
  | app _ hlam ih => exact ⟨ih, hlam⟩
  | proj hp hnone => exact ⟨_, hp, hnone⟩
  | lookup _ _ _ ih => exact ih
  | delta _ _ ih => exact ih
  | zeta _ ih => exact ih
  | beta _ _ _ ih => exact ih
  | iota _ _ _ _ ih => exact ih

/-- A weak-head normal form is its own. -/
theorem Term.Normal.evaluates (h : e.Normal sig δ Γ) : Evaluates sig δ Γ e e := by
  induction e with
  | bvar i =>
    obtain ⟨entry, hentry, hvalue⟩ := h
    exact .bvar hentry hvalue
  | fvar x => exact .fvar x
  | sort l => exact .sort l
  | const n ls => exact .const h
  | app f a ihf _ => exact .app (ihf h.1) h.2
  | bind k x t b => exact .bind k x t b
  | letE => exact h.elim
  | pair a b => exact .pair a b
  | proj k p =>
    obtain ⟨p', hp, hnone⟩ := h
    exact .proj hp hnone

theorem Term.Normal.eq_of_evaluates (h : e.Normal sig δ Γ) (he : Evaluates sig δ Γ e r) : r = e :=
  he.unique h.evaluates

/-! ## Terms with the same normal forms -/

/-- The two terms have the same weak-head normal form, if they have any. -/
def SameValue (sig : Signature) (δ : Bool) (Γ : Context) (e e' : Term) : Prop :=
  ∀ r, Evaluates sig δ Γ e r ↔ Evaluates sig δ Γ e' r

namespace SameValue

variable {e' e'' : Term}

theorem refl (e : Term) : SameValue sig δ Γ e e := fun _ => Iff.rfl

theorem trans (h : SameValue sig δ Γ e e') (h' : SameValue sig δ Γ e' e'') :
    SameValue sig δ Γ e e'' :=
  fun r => (h r).trans (h' r)

/-- A term has the value of its weak-head normal form. -/
theorem of_evaluates (h : Evaluates sig δ Γ e r) : SameValue sig δ Γ e r := by
  intro s
  refine ⟨fun hs => ?_, fun hs => ?_⟩
  · cases h.unique hs
    exact h.normal.evaluates
  · cases h.normal.eq_of_evaluates hs
    exact h

/-- The value of a spine is decided by the value of its head. -/
theorem app (h : SameValue sig δ Γ f g) (a : Term) : SameValue sig δ Γ (.app f a) (.app g a) := by
  have happ : ∀ {f g : Term}, SameValue sig δ Γ f g → ∀ r,
      Evaluates sig δ Γ (.app f a) r → Evaluates sig δ Γ (.app g a) r := by
    intro f g h r hr
    cases hr with
    | beta hf hbody => exact .beta ((h _).mp hf) hbody
    | app hf hlam => exact .app ((h _).mp hf) hlam
  exact fun r => ⟨happ h r, happ (fun s => (h s).symm) r⟩

/-- Terms with the same value have it in front of any arguments as well. -/
theorem apps (h : SameValue sig δ Γ f g) (args : List Term) :
    SameValue sig δ Γ (f.apps args) (g.apps args) := by
  induction args generalizing f g with
  | nil => exact h
  | cons a args ih => exact ih (h.app a)

theorem lookup {i : Nat} {entry : Entry} {v : Term} (hentry : Γ[i]? = some entry)
    (hvalue : entry.value = some v) : SameValue sig δ Γ (.bvar i) (v.shift 0 (i + 1)) := by
  intro r
  refine ⟨fun hr => ?_, .lookup hentry hvalue⟩
  cases hr with
  | bvar hentry' hvalue' =>
    rw [hentry] at hentry'
    cases hentry'
    rw [hvalue] at hvalue'
    cases hvalue'
  | lookup hentry' hvalue' hr =>
    rw [hentry] at hentry'
    cases hentry'
    rw [hvalue] at hvalue'
    cases hvalue'
    exact hr

theorem delta {n : Name} {ls : List Level} {v : Term} (h : sig.delta? δ n ls = some v) :
    SameValue sig δ Γ (.const n ls) v := by
  intro r
  refine ⟨fun hr => ?_, .delta h⟩
  cases hr with
  | const hnone =>
    rw [h] at hnone
    cases hnone
  | delta hsome hr =>
    rw [h] at hsome
    cases hsome
    exact hr

theorem zeta {y : Name} {t v b : Term} : SameValue sig δ Γ (.letE y t v b) (b.instantiate v) := by
  intro r
  refine ⟨fun hr => ?_, .zeta⟩
  cases hr with
  | zeta hr => exact hr

/-- An application has the value of its contraction, once its function is evaluated. -/
theorem beta {y : Name} {t b : Term} (hf : Evaluates sig δ Γ f (.lam y t b)) (a : Term) :
    SameValue sig δ Γ (.app f a) (b.instantiate a) := by
  intro r
  refine ⟨fun hr => ?_, .beta hf⟩
  cases hr with
  | beta hf' hr =>
    cases hf.unique hf'
    exact hr
  | app hf' hlam =>
    cases hf.unique hf'
    cases hlam

/-- A projection has the value of the component, once its target is evaluated to a pair. -/
theorem iota {k : Side} {p p' q : Term} (hp : Evaluates sig δ Γ p p')
    (hq : p'.component? k = some q) : SameValue sig δ Γ (.proj k p) q := by
  intro r
  refine ⟨fun hr => ?_, .iota hp hq⟩
  cases hr with
  | iota hp' hq' hr =>
    cases hp.unique hp'
    rw [hq] at hq'
    cases hq'
    exact hr
  | proj hp' hnone =>
    cases hp.unique hp'
    rw [hq] at hnone
    cases hnone

end SameValue

/-! ## First without unfolding -/

/-- A term with a component is a pair, which is a weak-head normal form. -/
theorem evaluates_of_component? {k : Side} {p q : Term} (h : p.component? k = some q) :
    Evaluates sig δ Γ p p := by
  cases p with
  | pair a b => exact .pair a b
  | _ => cases k <;> cases h

/-- A function is a weak-head normal form. -/
theorem evaluates_of_isLam (h : f.isLam = true) : Evaluates sig δ Γ f f := by
  cases f with
  | bind k y t b => exact .bind k y t b
  | _ => cases h

/-- **Evaluating without unfolding keeps the value.** -/
theorem sameValue_of_core (h : Evaluates sig false Γ e x) : SameValue sig true Γ e x := by
  induction h with
  | fvar | sort | bind | pair | bvar | const | proj => exact .refl _
  | lookup hentry hvalue _ ih => exact (SameValue.lookup hentry hvalue).trans ih
  | delta hsome => cases hsome
  | zeta _ ih => exact SameValue.zeta.trans ih
  | beta _ _ ihf ih => exact (SameValue.beta ((ihf _).mpr (.bind _ _ _ _)) _).trans ih
  | app _ _ ihf => exact ihf.app _
  | iota _ hq _ ihp ih =>
    exact (SameValue.iota ((ihp _).mpr (evaluates_of_component? hq)) hq).trans ih

/-- A function that is reached without unfolding is the value. -/
theorem eq_of_core_isLam (h : Evaluates sig true Γ f r) (hg : Evaluates sig false Γ f g)
    (hlam : g.isLam = true) : r = g :=
  h.unique ((sameValue_of_core hg g).mpr (evaluates_of_isLam hlam))

/-- And so is a pair. -/
theorem eq_of_core_component? {k : Side} {q : Term} (h : Evaluates sig true Γ f r)
    (hg : Evaluates sig false Γ f g) (hq : g.component? k = some q) : r = g :=
  h.unique ((sameValue_of_core hg g).mpr (evaluates_of_component? hq))

/-- A term that is no pair with unfolding is none without. -/
theorem component?_core_eq_none {k : Side} (h : Evaluates sig true Γ f r)
    (hr : r.component? k = none) (hg : Evaluates sig false Γ f g) : g.component? k = none := by
  cases hq : g.component? k with
  | none => rfl
  | some q =>
    cases eq_of_core_component? h hg hq
    rw [hr] at hq
    cases hq

theorem isLam_core_eq_false (h : Evaluates sig true Γ f r) (hr : r.isLam = false)
    (hg : Evaluates sig false Γ f g) : g.isLam = false := by
  cases hlam : g.isLam with
  | false => rfl
  | true =>
    cases eq_of_core_isLam h hg hlam
    rw [hr] at hlam
    cases hlam

/-- **Where there is a value with unfolding there is one without.** -/
theorem Evaluates.exists_core (h : Evaluates sig true Γ e r) : ∃ y, Evaluates sig false Γ e y := by
  induction h with
  | fvar y => exact ⟨_, .fvar y⟩
  | sort l => exact ⟨_, .sort l⟩
  | bind k y t b => exact ⟨_, .bind k y t b⟩
  | pair a b => exact ⟨_, .pair a b⟩
  | bvar hentry hvalue => exact ⟨_, .bvar hentry hvalue⟩
  | lookup hentry hvalue _ ih =>
    obtain ⟨y, hy⟩ := ih
    exact ⟨y, .lookup hentry hvalue hy⟩
  | const | delta => exact ⟨_, .const rfl⟩
  | zeta _ ih =>
    obtain ⟨y, hy⟩ := ih
    exact ⟨y, .zeta hy⟩
  | beta hf _ ihf ih =>
    obtain ⟨g, hg⟩ := ihf
    obtain ⟨y, hy⟩ := ih
    -- without unfolding, the head may be no function yet
    by_cases hlam : g.isLam = true
    · cases eq_of_core_isLam hf hg hlam
      exact ⟨y, .beta hg hy⟩
    · exact ⟨_, .app hg (by simpa using hlam)⟩
  | app hf hnot ihf =>
    obtain ⟨g, hg⟩ := ihf
    exact ⟨_, .app hg (isLam_core_eq_false hf hnot hg)⟩
  | @iota k p p' q s hp hq _ ihp ih =>
    obtain ⟨g, hg⟩ := ihp
    obtain ⟨y, hy⟩ := ih
    cases hcomponent : g.component? k with
    | none => exact ⟨_, .proj hg hcomponent⟩
    | some q' =>
      cases eq_of_core_component? hp hg hcomponent
      rw [hq] at hcomponent
      cases hcomponent
      exact ⟨y, .iota hg hq hy⟩
  | proj hp hnone ihp =>
    obtain ⟨g, hg⟩ := ihp
    exact ⟨_, .proj hg (component?_core_eq_none hp hnone hg)⟩

/-- A weak-head normal form is one without unfolding too. -/
theorem Term.Normal.core (h : e.Normal sig true Γ) : e.Normal sig false Γ := by
  induction e with
  | const | fvar | sort | bind | pair => trivial
  | bvar i => exact h
  | app f a ihf _ => exact ⟨ihf h.1, h.2⟩
  | letE => exact h
  | proj k p =>
    obtain ⟨p', hp, hnone⟩ := h
    obtain ⟨g, hg⟩ := hp.exists_core
    exact ⟨g, hg, component?_core_eq_none hp hnone hg⟩

/-! ## Spines -/

/-- A weak-head normal form that is no function stays one in front of any arguments. -/
theorem Term.Normal.apps (h : f.Normal sig δ Γ) (hlam : f.isLam = false) (args : List Term) :
    (f.apps args).Normal sig δ Γ := by
  induction args generalizing f with
  | nil => exact h
  | cons a args ih => exact ih ⟨h, hlam⟩ rfl

/-- A spine has a value only if its head has one. -/
theorem Evaluates.head_of_apps {args : List Term} (h : Evaluates sig δ Γ (f.apps args) r) :
    ∃ g, Evaluates sig δ Γ f g := by
  induction args generalizing f with
  | nil => exact ⟨r, h⟩
  | cons a args ih =>
    obtain ⟨g, hg⟩ := ih h
    cases hg with
    | beta hf => exact ⟨_, hf⟩
    | app hf => exact ⟨_, hf⟩

/-! ## Unfolding at the head -/

/-- **Unfolding the definition at the head keeps the value.** -/
theorem sameValue_of_headUnfolded? {next : Term} (h : sig.headUnfolded? e = some next) :
    SameValue sig true Γ e next := by
  induction e generalizing next with
  | const n ls => exact .delta h
  | app f a ihf _ =>
    obtain ⟨g, hg, rfl⟩ := Option.map_eq_some_iff.mp h
    exact (ihf hg).app a
  | bvar | fvar | sort | bind | letE | pair | proj => cases h

/-- A weak-head normal form has no definition at its head. -/
theorem Term.Normal.headUnfolded?_eq_none (h : e.Normal sig true Γ) :
    sig.headUnfolded? e = none := by
  induction e with
  | const n ls => exact h
  | app f a ihf _ => exact Option.map_eq_none_iff.mpr (ihf h.1)
  | bvar | fvar | sort | bind | letE | pair | proj => rfl

/-- Evaluating without unfolding and unfolding at the head come upon a projection
whose target is a pair only once definitions inside it are unfolded. -/
inductive HidesPair (sig : Signature) (Γ : Context) : Term → Prop
  /-- The target is no pair yet, but has a pair as its value. -/
  | target {k : Side} {p p' q a : Term} : Evaluates sig false Γ p p' → p'.component? k = none →
      Evaluates sig true Γ p q → q.component? k = some a → HidesPair sig Γ (.proj k p)
  | head {f : Term} (a : Term) : HidesPair sig Γ f → HidesPair sig Γ (.app f a)
  | core {e x : Term} : Evaluates sig false Γ e x → HidesPair sig Γ x → HidesPair sig Γ e
  | unfold {e next : Term} : sig.headUnfolded? e = some next → HidesPair sig Γ next →
      HidesPair sig Γ e

/-- **Where no pair is hidden, what is left has no value but itself.** By
induction along the spine: only the target of a projection at its end could still
be evaluated. -/
theorem eq_of_not_hidesPair (hx : x.Normal sig false Γ) (hunfold : sig.headUnfolded? x = none)
    (hpair : ¬ HidesPair sig Γ x) (h : Evaluates sig true Γ x r) : r = x := by
  induction x generalizing r with
  | bvar i =>
    have hnormal : (Term.bvar i).Normal sig true Γ := hx
    exact hnormal.eq_of_evaluates h
  | fvar | sort | bind | pair => exact Term.Normal.eq_of_evaluates trivial h
  | letE => exact hx.elim
  | const n ls =>
    have hnormal : (Term.const n ls).Normal sig true Γ := hunfold
    exact hnormal.eq_of_evaluates h
  | app f a ihf _ =>
    have hf : ∀ {g}, Evaluates sig true Γ f g → g = f :=
      ihf hx.1 (Option.map_eq_none_iff.mp hunfold) fun hhead => hpair (.head a hhead)
    cases h with
    | beta hlam =>
      -- the head would be a function, but it is its own value and no function
      have hnot := hx.2
      rw [← hf hlam] at hnot
      cases hnot
    | app hg => rw [hf hg]
  | proj k p =>
    cases h with
    | proj => rfl
    | iota hq hcomponent =>
      obtain ⟨p', hp, hnone⟩ := hx
      exact absurd (.target hp hnone hq hcomponent) hpair

/-- No pair is hidden among terms that the rules of `HidesPair` do not lead out of,
if each projection among them has its pair without unfolding. -/
theorem not_hidesPair_of_invariant {S : Term → Prop} (hhead : ∀ f a, S (.app f a) → S f)
    (hcore : ∀ e x, S e → Evaluates sig false Γ e x → S x)
    (hunfold : ∀ e next, S e → sig.headUnfolded? e = some next → S next)
    (hproj : ∀ k p, S (.proj k p) → ∃ a b, Evaluates sig false Γ p (.pair a b)) (he : S e) :
    ¬ HidesPair sig Γ e := by
  intro h
  induction h with
  | @target k p p' q a hp hnone =>
    obtain ⟨x, y, hpair⟩ := hproj k p he
    cases hp.unique hpair
    cases k <;> cases hnone
  | head a _ ih => exact ih (hhead _ a he)
  | core hx _ ih => exact ih (hcore _ _ he hx)
  | unfold hnext _ ih => exact ih (hunfold _ _ he hnext)

/-! ## Closed terms -/

/-- The values of definitions look at no more than `m` variables. -/
def Signature.ValuesWithin (m : Nat) (sig : Signature) : Prop :=
  ∀ n d, sig n = some d → ∀ v, d.value = some v → v.looseRange ≤ m

/-- The values of definitions are closed. -/
abbrev Signature.ClosedValues (sig : Signature) : Prop :=
  sig.ValuesWithin 0

/-- The value of a constant is within the bound of its signature, at whatever levels. -/
theorem Signature.ValuesWithin.delta? {m : Nat} (hsig : sig.ValuesWithin m) {n : Name}
    {ls : List Level} {v : Term} (h : sig.delta? δ n ls = some v) : v.looseRange ≤ m := by
  unfold Signature.delta? at h
  split at h
  · obtain ⟨d, hd, hvalue⟩ := Option.bind_eq_some_iff.mp h
    split at hvalue
    · obtain ⟨u, hu, rfl⟩ := Option.map_eq_some_iff.mp hvalue
      exact Term.looseRange_substLevels_le _ (hsig n d hd u hu)
    · cases hvalue
  · cases h

theorem looseRange_component?_le {p q : Term} {k : Side} {n : Nat} (hp : p.looseRange ≤ n)
    (h : p.component? k = some q) : q.looseRange ≤ n := by
  cases p with
  | pair a b =>
    obtain ⟨ha, hb⟩ := Term.looseRange_pair_le.mp hp
    cases k with
    | fst =>
      cases h
      exact ha
    | snd =>
      cases h
      exact hb
  | _ => cases h

/-- **A closed term has the same value in every context**, and a closed one. -/
theorem Evaluates.of_closed (hsig : sig.ClosedValues) (h : Evaluates sig δ Γ e r)
    (he : e.looseRange ≤ 0) (Δ : Context) : Evaluates sig δ Δ e r ∧ r.looseRange ≤ 0 := by
  induction h with
  | fvar y => exact ⟨.fvar y, he⟩
  | sort l => exact ⟨.sort l, he⟩
  | bind k y t b => exact ⟨.bind k y t b, he⟩
  | pair a b => exact ⟨.pair a b, he⟩
  | bvar | lookup => exact absurd (Term.looseRange_bvar_le.mp he) (Nat.not_lt_zero _)
  | const hnone => exact ⟨.const hnone, he⟩
  | delta hsome _ ih =>
    obtain ⟨hr, hrange⟩ := ih (hsig.delta? hsome)
    exact ⟨.delta hsome hr, hrange⟩
  | zeta _ ih =>
    obtain ⟨-, hv, hb⟩ := Term.looseRange_letE_le.mp he
    obtain ⟨hr, hrange⟩ := ih (Term.looseRange_instantiate_le hb hv)
    exact ⟨.zeta hr, hrange⟩
  | beta _ _ ihf ih =>
    obtain ⟨hf, ha⟩ := Term.looseRange_app_le.mp he
    obtain ⟨hlam, hlamRange⟩ := ihf hf
    obtain ⟨hr, hrange⟩ :=
      ih (Term.looseRange_instantiate_le (Term.looseRange_bind_le.mp hlamRange).2 ha)
    exact ⟨.beta hlam hr, hrange⟩
  | app _ hlam ihf =>
    obtain ⟨hf, ha⟩ := Term.looseRange_app_le.mp he
    obtain ⟨hg, hgRange⟩ := ihf hf
    exact ⟨.app hg hlam, Term.looseRange_app_le.mpr ⟨hgRange, ha⟩⟩
  | iota _ hq _ ihp ih =>
    obtain ⟨hp, hpRange⟩ := ihp (Term.looseRange_proj_le.mp he)
    obtain ⟨hr, hrange⟩ := ih (looseRange_component?_le hpRange hq)
    exact ⟨.iota hp hq hr, hrange⟩
  | proj _ hnone ihp =>
    obtain ⟨hp, -⟩ := ihp (Term.looseRange_proj_le.mp he)
    exact ⟨.proj hp hnone, he⟩

end TypeTheory
