import Mathlib.Data.List.Forall2
import TypeTheory.Context
import TypeTheory.Environment.Basic
import TypeTheory.Proofs.Level.Value
import TypeTheory.Proofs.Term.Spine
import TypeTheory.Term.Alpha

/-!
# The two judgements

Conversion and typing as rules, over a signature that says which constants there
are. `Convertible` is the least relation between terms in a context that is an
equivalence, goes through every form of term, and contains the rules of
reduction and the equality of universe levels; a display name may change
wherever a binder is crossed. `HasType` has one rule a form of term and one rule
that exchanges a type for a convertible one.

No rule mentions a budget, a memo or an order of evaluation.
-/

namespace TypeTheory

/-- The constants that terms may mention. -/
abbrev Signature := Name → Option Declaration

/-! ## Conversion -/

/-- **Conversion** of two terms in a context. -/
inductive Convertible (sig : Signature) : Context → Term → Term → Prop
  | refl {Γ : Context} (e : Term) : Convertible sig Γ e e
  | symm {Γ : Context} {x y : Term} : Convertible sig Γ x y → Convertible sig Γ y x
  | trans {Γ : Context} {x y z : Term} :
      Convertible sig Γ x y → Convertible sig Γ y z → Convertible sig Γ x z
  /-- A function applied to an argument. -/
  | beta {Γ : Context} (n : Name) (t b a : Term) :
      Convertible sig Γ (.app (.lam n t b) a) (b.instantiate a)
  /-- A local definition with its value put in place. -/
  | zeta {Γ : Context} (n : Name) (t v b : Term) :
      Convertible sig Γ (.letE n t v b) (b.instantiate v)
  /-- A variable of the context that carries a value. -/
  | lookup {Γ : Context} {i : Nat} {entry : Entry} {v : Term} :
      Γ[i]? = some entry → entry.value = some v →
      Convertible sig Γ (.bvar i) (v.shift 0 (i + 1))
  /-- A definition at as many levels as it has parameters. -/
  | delta {Γ : Context} {n : Name} {levels : List Level} {d : Declaration} {v : Term} :
      sig n = some d → d.value = some v → d.params.length = levels.length →
      Convertible sig Γ (.const n levels) (v.substLevels (d.params.zip levels))
  /-- The first component of a pair. -/
  | fst {Γ : Context} (a b : Term) : Convertible sig Γ (.proj1 (.pair a b)) a
  /-- The second component of a pair. -/
  | snd {Γ : Context} (a b : Term) : Convertible sig Γ (.proj2 (.pair a b)) b
  | sort {Γ : Context} {l r : Level} : l.Same r → Convertible sig Γ (.sort l) (.sort r)
  | const {Γ : Context} {n : Name} {ls rs : List Level} :
      List.Forall₂ Level.Same ls rs → Convertible sig Γ (.const n ls) (.const n rs)
  | app {Γ : Context} {f g a b : Term} :
      Convertible sig Γ f g → Convertible sig Γ a b → Convertible sig Γ (.app f a) (.app g b)
  | bind {Γ : Context} {k : Binder} {n m : Name} {t u b c : Term} :
      Convertible sig Γ t u → Convertible sig (Γ.push n t) b c →
      Convertible sig Γ (.bind k n t b) (.bind k m u c)
  | letE {Γ : Context} {n m : Name} {t u v w b c : Term} :
      Convertible sig Γ t u → Convertible sig Γ v w → Convertible sig (Γ.pushLet n t v) b c →
      Convertible sig Γ (.letE n t v b) (.letE m u w c)
  | pair {Γ : Context} {a b c d : Term} :
      Convertible sig Γ a c → Convertible sig Γ b d → Convertible sig Γ (.pair a b) (.pair c d)
  | proj {Γ : Context} {k : Side} {p q : Term} :
      Convertible sig Γ p q → Convertible sig Γ (.proj k p) (.proj k q)

namespace Convertible

variable {sig : Signature} {Γ : Context}

/-- Conversion goes through a spine. -/
theorem apps {f g : Term} {as bs : List Term} (hfg : Convertible sig Γ f g)
    (hargs : List.Forall₂ (Convertible sig Γ) as bs) :
    Convertible sig Γ (f.apps as) (g.apps bs) := by
  induction hargs generalizing f g with
  | nil => exact hfg
  | cons h _ ih => exact ih (hfg.app h)

/-- Conversion of heads in front of the same arguments. -/
theorem apps_head {f g : Term} (args : List Term) (h : Convertible sig Γ f g) :
    Convertible sig Γ (f.apps args) (g.apps args) :=
  h.apps (List.forall₂_same.mpr fun a _ => refl a)

/-- A projection of a pair is the component. -/
theorem component {p a : Term} {k : Side} (h : p.component? k = some a) :
    Convertible sig Γ (.proj k p) a := by
  cases p with
  | pair x y =>
    cases k with
    | fst =>
      cases h
      exact fst _ _
    | snd =>
      cases h
      exact snd _ _
  | _ => cases h

/-- **Terms that differ in display names only are convertible.** -/
theorem of_alphaEq {x y : Term} (h : x.AlphaEq y) : Convertible sig Γ x y := by
  induction x generalizing y Γ with
  | bvar i | fvar i | sort i =>
    cases y <;> simp only [Term.AlphaEq, Term.nameless, reduceCtorEq] at h
    rw [h]
    exact refl _
  | const n ls =>
    cases y <;> simp only [Term.AlphaEq, Term.nameless, reduceCtorEq] at h
    rw [h]
    exact refl _
  | app f a ihf iha =>
    cases y <;> simp only [Term.AlphaEq, Term.nameless, reduceCtorEq, Term.app.injEq] at h
    exact app (ihf h.1) (iha h.2)
  | bind k n t b iht ihb =>
    cases y <;> simp only [Term.AlphaEq, Term.nameless, reduceCtorEq, Term.bind.injEq] at h
    obtain ⟨rfl, -, ht, hb⟩ := h
    exact bind (iht ht) (ihb hb)
  | letE n t v b iht ihv ihb =>
    cases y <;> simp only [Term.AlphaEq, Term.nameless, reduceCtorEq, Term.letE.injEq] at h
    exact letE (iht h.2.1) (ihv h.2.2.1) (ihb h.2.2.2)
  | pair a b iha ihb =>
    cases y <;> simp only [Term.AlphaEq, Term.nameless, reduceCtorEq, Term.pair.injEq] at h
    exact pair (iha h.1) (ihb h.2)
  | proj k p ih =>
    cases y <;> simp only [Term.AlphaEq, Term.nameless, reduceCtorEq, Term.proj.injEq] at h
    obtain ⟨rfl, hp⟩ := h
    exact proj (ih hp)

end Convertible

/-! ## Typing -/

/-- **Typing** of a term in a context. -/
inductive HasType (sig : Signature) : Context → Term → Term → Prop
  | bvar {Γ : Context} {i : Nat} {entry : Entry} :
      Γ[i]? = some entry → HasType sig Γ (.bvar i) (entry.type.shift 0 (i + 1))
  | sort {Γ : Context} (l : Level) : HasType sig Γ (.sort l) (.sort l.succ)
  | const {Γ : Context} {n : Name} {levels : List Level} {d : Declaration} :
      sig n = some d → d.params.length = levels.length →
      HasType sig Γ (.const n levels) (d.type.substLevels (d.params.zip levels))
  | app {Γ : Context} {n : Name} {f a t b : Term} :
      HasType sig Γ f (.pi n t b) → HasType sig Γ a t → HasType sig Γ (.app f a) (b.instantiate a)
  | lam {Γ : Context} {n : Name} {t b u : Term} {l : Level} :
      HasType sig Γ t (.sort l) → HasType sig (Γ.push n t) b u →
      HasType sig Γ (.lam n t b) (.pi n t u)
  | pi {Γ : Context} {n : Name} {t b : Term} {l r : Level} :
      HasType sig Γ t (.sort l) → HasType sig (Γ.push n t) b (.sort r) →
      HasType sig Γ (.pi n t b) (.sort (.max l r))
  | sigma {Γ : Context} {n : Name} {t b : Term} {l r : Level} :
      HasType sig Γ t (.sort l) → HasType sig (Γ.push n t) b (.sort r) →
      HasType sig Γ (.sigma n t b) (.sort (.max l r))
  /-- The body is typed where the variable has its value. -/
  | letE {Γ : Context} {n : Name} {t v b u : Term} {l : Level} :
      HasType sig Γ t (.sort l) → HasType sig Γ v t → HasType sig (Γ.pushLet n t v) b u →
      HasType sig Γ (.letE n t v b) (u.instantiate v)
  /-- The type of the second component may mention the first. -/
  | pair {Γ : Context} {n : Name} {a b t u : Term} :
      HasType sig Γ a t → HasType sig Γ b (u.instantiate a) →
      HasType sig Γ (.pair a b) (.sigma n t u)
  | fst {Γ : Context} {n : Name} {p t u : Term} :
      HasType sig Γ p (.sigma n t u) → HasType sig Γ (.proj1 p) t
  | snd {Γ : Context} {n : Name} {p t u : Term} :
      HasType sig Γ p (.sigma n t u) → HasType sig Γ (.proj2 p) (u.instantiate (.proj1 p))
  | conv {Γ : Context} {e t u : Term} :
      HasType sig Γ e t → Convertible sig Γ t u → HasType sig Γ e u

end TypeTheory
