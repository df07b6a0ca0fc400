import TypeTheory.Proofs.Checker.Forms
import TypeTheory.Proofs.Soundness.Conversion

/-!
# The checker accepts typable terms only

A type that `Checker.infer` finds and a type that `Checker.check` accepts is a
type of the term by the rules of `HasType`. Both directions of the checker are
shown together, one form of term after the other: `Checker.Sound e` is the claim
about both, and it follows for a term from the claim about its parts.
-/

namespace TypeTheory

open CheckM

namespace Checker

variable {c : Checker} {Γ : Context}

/-- What is found for a term, and what it is accepted for, is a type of it. -/
def Sound (c : Checker) (e : Term) : Prop :=
  ∀ Γ, Yields (c.infer e Γ) (HasType c.const? Γ e) ∧
    ∀ t, Yields (c.check e t Γ) fun _ => HasType c.const? Γ e t

variable (hc : c.memoize = false)

include hc

/-! ## Expected shapes -/

/-- A type that reduces to a sort may be exchanged for the sort. -/
theorem yields_ensureSort {e t : Term} (h : HasType c.const? Γ e t) :
    Yields (c.ensureSort t e Γ) fun l => HasType c.const? Γ e (.sort l) := by
  unfold ensureSort
  split
  · exact .pure h
  · refine (yields_whnf hc t).bind fun w hw => ?_
    split
    · exact .pure (h.conv hw)
    · exact .throw

/-- A dependent function or pair type that a type reduces to may be exchanged for
it. -/
theorem yields_ensureBinding {e t : Term} {k : Binder} {error : KernelError}
    (h : HasType c.const? Γ e t) : Yields (c.ensureBinding k error t Γ) fun b =>
      HasType c.const? Γ e (.bind k b.name b.domain b.body) := by
  unfold ensureBinding
  split
  · rename_i b hb
    rw [Term.eq_bind_of_binding? hb] at h
    exact .pure h
  · refine (yields_whnf hc t).bind fun w hw => ?_
    split
    · rename_i b hb
      rw [Term.eq_bind_of_binding? hb] at hw
      exact .pure (h.conv hw)
    · exact .throw

/-- A type that passes the comparison with the expected one may be exchanged for
it. -/
theorem yields_requireConv {e found expected : Term} (h : HasType c.const? Γ e found) :
    Yields (c.requireConv found expected e Γ) fun _ => HasType c.const? Γ e expected := by
  refine (yields_conv hc found expected).bind fun r hr => ?_
  split
  · rename_i htrue
    exact .pure (h.conv (hr htrue))
  · exact .throw

/-! ## From the rule of a form to both directions -/

/-- Inference is sound if its rule is: nothing is remembered, so nothing but the rule finds a
type. -/
theorem yields_infer {e : Term} (h : Yields (c.inferNode e Γ) (HasType c.const? Γ e)) :
    Yields (c.infer e Γ) (HasType c.const? Γ e) := by
  rw [infer]
  exact yields_remembered hc ((yields_modify fun _ q => by cases q <;> rfl).andThen fun _ => h)

theorem yields_sortOf {e : Term} (h : c.Sound e) (Γ : Context) :
    Yields (c.sortOf e Γ) fun l => HasType c.const? Γ e (.sort l) := by
  rw [sortOf]
  exact (h Γ).1.bind fun t ht => yields_ensureSort hc ht

/-- Checking by inference is sound if inference is, by the rule of conversion. -/
theorem yields_checkInferred {e : Term} (h : Yields (c.infer e Γ) (HasType c.const? Γ e))
    (t : Term) : Yields (c.checkInferred e t Γ) fun _ => HasType c.const? Γ e t := by
  rw [checkInferred]
  exact h.bind fun found hfound => yields_requireConv hc hfound

/-- Most forms are checked by comparing the inferred type. -/
theorem sound_of_inferNode {e : Term} (he : e.Inferred)
    (hnode : ∀ Γ, Yields (c.inferNode e Γ) (HasType c.const? Γ e)) : c.Sound e := by
  intro Γ
  have hinfer := yields_infer hc (hnode Γ)
  refine ⟨hinfer, fun t => ?_⟩
  rw [check_eq_checkInferred he]
  exact yields_checkInferred hc hinfer t

/-! ## One form after the other -/

theorem sound_bvar (i : Nat) : c.Sound (.bvar i) := by
  refine sound_of_inferNode hc trivial fun Γ => ?_
  rw [inferNode]
  split
  · rename_i entry hentry
    exact .pure (.bvar hentry)
  · exact .throw

theorem sound_fvar (n : Name) : c.Sound (.fvar n) := by
  refine sound_of_inferNode hc trivial fun Γ => ?_
  rw [inferNode]
  exact .throw

theorem sound_sort (l : Level) : c.Sound (.sort l) := by
  refine sound_of_inferNode hc trivial fun Γ => ?_
  rw [inferNode]
  exact .pure (.sort l)

theorem sound_const (n : Name) (levels : List Level) : c.Sound (.const n levels) := by
  refine sound_of_inferNode hc trivial fun Γ => ?_
  rw [inferNode, constType]
  split
  · exact .throw
  · rename_i d hd
    split
    · rename_i hlen
      exact .pure (.const hd hlen)
    · exact .throw

/-- An application has the type that its function's type gives for the argument. -/
theorem sound_app {f a : Term} (hf : c.Sound f) (ha : c.Sound a) : c.Sound (.app f a) := by
  refine sound_of_inferNode hc trivial fun Γ => ?_
  rw [inferNode]
  refine (hf Γ).1.bind fun fnType hfnType => ?_
  rw [ensurePi_eq]
  refine (yields_ensureBinding hc hfnType).bind fun fn hfn => ?_
  exact ((ha Γ).2 fn.domain).bind fun _ harg => .pure (.app hfn harg)

/-- A function. Against a dependent function type the body is checked in the
context of the function's own domain, which is convertible to the expected one. -/
theorem sound_lam {n : Name} {t b : Term} (ht : c.Sound t) (hb : c.Sound b) :
    c.Sound (.lam n t b) := by
  intro Γ
  have hinfer : Yields (c.infer (.lam n t b) Γ) (HasType c.const? Γ (.lam n t b)) := by
    refine yields_infer hc ?_
    rw [inferNode]
    refine (yields_sortOf hc ht Γ).bind fun l hl => ?_
    exact (hb (Γ.push n t)).1.bind fun u hu => .pure (.lam hl hu)
  refine ⟨hinfer, fun expected => ?_⟩
  have hfallback := yields_checkInferred hc hinfer expected
  rw [check]
  refine (yields_whnf hc expected).bind fun w hw => ?_
  split
  · rename_i m t' b'
    refine (yields_sortOf hc ht Γ).bind fun l hl => ?_
    refine (yields_conv hc t t').bind fun r hr => ?_
    split
    · rename_i htrue
      refine ((hb (Γ.push n t)).2 b').mono fun _ hbody => ?_
      have hpi : Convertible c.const? Γ (.pi n t b') (.pi m t' b') :=
        .bind (hr htrue) (.refl b')
      exact (HasType.lam hl hbody).conv (hpi.trans hw.symm)
    · exact hfallback
  · exact hfallback

/-- A dependent function or pair type. The sort that is found is the canonical
form of the maximum. -/
theorem sound_pi_sigma {k : Binder} (hk : k ≠ .lam) {n : Name} {t b : Term} (ht : c.Sound t)
    (hb : c.Sound b) : c.Sound (.bind k n t b) := by
  have hform : (Term.bind k n t b).Inferred := by
    cases k with
    | lam => exact absurd rfl hk
    | pi | sigma => trivial
  refine sound_of_inferNode hc hform fun Γ => ?_
  rw [inferNode]
  · refine (yields_sortOf hc ht Γ).bind fun l hl => ?_
    refine (yields_sortOf hc hb (Γ.push n t)).bind fun r hr => .pure ?_
    have hsort : Convertible c.const? Γ (.sort (.max l r)) (.sort (Level.max l r).normalize) :=
      .sort (Level.same_normalize _)
    cases k with
    | lam => exact absurd rfl hk
    | pi => exact (HasType.pi hl hr).conv hsort
    | sigma => exact (HasType.sigma hl hr).conv hsort
  · exact hk

/-- A local definition. The expected type does not mention the variable, so
putting the value for it gives the expected type back. -/
theorem sound_letE {n : Name} {t v b : Term} (ht : c.Sound t) (hv : c.Sound v) (hb : c.Sound b) :
    c.Sound (.letE n t v b) := by
  intro Γ
  constructor
  · refine yields_infer hc ?_
    rw [inferNode]
    refine (yields_sortOf hc ht Γ).bind fun l hl => ?_
    refine ((hv Γ).2 t).bind fun _ hvalue => ?_
    exact (hb (Γ.pushLet n t v)).1.bind fun u hu => .pure (.letE hl hvalue hu)
  · intro expected
    rw [check]
    refine (yields_sortOf hc ht Γ).bind fun l hl => ?_
    refine ((hv Γ).2 t).bind fun _ hvalue => ?_
    refine ((hb (Γ.pushLet n t v)).2 (expected.shift 0 1)).mono fun _ hbody => ?_
    have hlet := HasType.letE hl hvalue hbody
    rwa [Term.instantiate_shift_one] at hlet

/-- A pair. Without an expected type the second component's type does not
mention the first. -/
theorem sound_pair {a b : Term} (ha : c.Sound a) (hb : c.Sound b) : c.Sound (.pair a b) := by
  intro Γ
  have hinfer : Yields (c.infer (.pair a b) Γ) (HasType c.const? Γ (.pair a b)) := by
    refine yields_infer hc ?_
    rw [inferNode]
    refine (ha Γ).1.bind fun t ht => ?_
    refine (hb Γ).1.bind fun u hu => .pure (.pair ht ?_)
    rwa [Term.instantiate_shift_one]
  refine ⟨hinfer, fun expected => ?_⟩
  have hfallback := yields_checkInferred hc hinfer expected
  rw [check]
  refine (yields_whnf hc expected).bind fun w hw => ?_
  split
  · rename_i m t u
    refine ((ha Γ).2 t).bind fun _ hfst => ?_
    refine ((hb Γ).2 (u.instantiate a)).mono fun _ hsnd => ?_
    exact (HasType.pair hfst hsnd).conv hw.symm
  · exact hfallback

theorem sound_proj {k : Side} {p : Term} (hp : c.Sound p) : c.Sound (.proj k p) := by
  refine sound_of_inferNode hc trivial fun Γ => ?_
  rw [inferNode]
  refine (hp Γ).1.bind fun t ht => ?_
  rw [ensureSigma_eq]
  refine (yields_ensureBinding hc ht).bind fun s hs => ?_
  cases k with
  | fst => exact .pure (.fst hs)
  | snd => exact .pure (.snd hs)

/-- **Both directions are sound on every term.** -/
theorem sound (e : Term) : c.Sound e := by
  induction e with
  | bvar i => exact sound_bvar hc i
  | fvar n => exact sound_fvar hc n
  | sort l => exact sound_sort hc l
  | const n levels => exact sound_const hc n levels
  | app f a ihf iha => exact sound_app hc ihf iha
  | bind k n t b iht ihb =>
    cases k with
    | lam => exact sound_lam hc iht ihb
    | pi => exact sound_pi_sigma hc (by decide) iht ihb
    | sigma => exact sound_pi_sigma hc (by decide) iht ihb
  | letE n t v b iht ihv ihb => exact sound_letE hc iht ihv ihb
  | pair a b iha ihb => exact sound_pair hc iha ihb
  | proj k p ih => exact sound_proj hc ih

/-- **What the checker accepts has the type it is accepted for**: a type that is
found, and a type that a term is checked against, is derivable by the rules, in
any context, over any environment and within any budget, if their indices are in
range. The loose indices of the type are signed words. -/
theorem hasType_of_infer_or_check {Γ : Context} {e t : Term} (hrange : c.InRange Γ [e])
    {p : Progress} (hp : p.Blank) (h : (∃ q, c.infer e Γ p = .ok t q) ∨
      t.InRange ∧ ∃ q, c.check e t Γ p = .ok () q) :
    HasType c.const? Γ e t ∧ t.looseRange < 2 ^ 63 := by
  rcases h with ⟨q, hq⟩ | ⟨ht, q, hq⟩
  · exact ⟨((sound hc e Γ).1 p t q hp hq).2, hrange.looseRange_of_infer hc (by simp) hp hq⟩
  · exact ⟨((sound hc e Γ).2 t p () q hp hq).2, Nat.lt_of_le_of_lt ht.looseRange_le (by decide)⟩

omit hc

/-- The successor function of arithmetic, checked against its declared type: its
body has a type only after that type is unfolded. -/
theorem hasType_succ :
    let t := Term.arrow Church.nat Church.nat
    ((arithmetic 1000).InRange [] [Church.succ] ∧ t.InRange ∧
      ∃ q, (arithmetic 1000).check Church.succ t [] {} = .ok () q) ∧
      HasType (arithmetic 1000).const? [] Church.succ t := by
  intro t
  have hrange : (arithmetic 1000).InRange [] [Church.succ] :=
    .of_forall (by decide +kernel) (by decide) (by decide) (by decide +kernel)
  have ht : t.InRange := by decide +kernel
  have hrun : ∃ q, (arithmetic 1000).check Church.succ t [] {} = .ok () q :=
    value?_eq_some.mp (by decide +kernel)
  exact ⟨⟨hrange, ht, hrun⟩,
    (hasType_of_infer_or_check rfl hrange Progress.blank_empty (.inr ⟨ht, hrun⟩)).1⟩

end Checker

end TypeTheory
