import TypeTheory.Proofs.Conversion.Rigid
import TypeTheory.Proofs.Normalization.Descent
import Mathlib.Order.GameAdd

/-!
# Equations between terms that terminate

An equation is `Equation.Fit` if its sides are in scope and terminate. The equations that
conversion leaves for it are fit again, and they lie lower in a well-founded order
(`Equation.fit_of_parts?`). If the sides of an equation are rigid and joinable, then there
are such equations, and their sides are joinable (`exists_parts_of_joinable`).

A term that conversion cannot change is rigid unless it hides a pair (`Term.Fit.rigid`).
-/

namespace TypeTheory

open Relation

variable {sig : Signature} {Γ : Context} {x y e : Term}

/-! ## Terms -/

/-- A context that looks at no variable beyond it. -/
abbrev Context.InScope (Γ : Context) : Prop :=
  Context.AgreeTo Γ.length Γ Γ

/-- A term in scope that terminates. -/
structure Term.Fit (sig : Signature) (Γ : Context) (e : Term) : Prop where
  scope : e.looseRange ≤ Γ.length
  terminates : Terminates sig Γ.values e

/-- A term that conversion cannot change: it is evaluated as far as it can be without
unfolding, and it has no definition at its head. -/
structure Term.Stuck (sig : Signature) (Γ : Context) (e : Term) : Prop where
  normal : e.Normal sig false Γ
  folded : sig.headUnfolded? e = none

namespace Term.Fit

section

variable (hsig : sig.ClosedValues) (hΓ : Γ.InScope)

include hsig hΓ

/-- A step of reduction leaves a term fit: its indices stay in scope, and what follows a terminating
term terminates. -/
theorem step (h : e.Fit sig Γ) (hstep : Step sig Γ.values e x) : x.Fit sig Γ where
  scope := ((hstep.parallel Level.congruence_equiv).of_valuesAgree hsig (Nat.zero_le _)
    hΓ.values h.scope).2
  terminates := h.terminates.step hstep

theorem rewrites (h : e.Fit sig Γ) (hsteps : Rewrites sig Γ.values e x) : x.Fit sig Γ := by
  induction hsteps with
  | refl => exact h
  | tail _ hstep ih => exact ih.step hsig hΓ hstep

/-- A term that terminates has a value, with definitions unfolded or not, and the value
terminates too. -/
theorem exists_evaluates (h : e.Fit sig Γ) (δ : Bool) :
    ∃ r, Evaluates sig δ Γ e r ∧ r.Fit sig Γ := by
  obtain ⟨r, hr⟩ := h.terminates.exists_evaluates hsig δ hΓ h.scope
  exact ⟨r, hr, h.rewrites hsig hΓ hr.steps⟩

/-- **A term that conversion cannot change is rigid**, if it hides no pair. -/
theorem rigid (h : x.Fit sig Γ) (hx : x.Stuck sig Γ) (hpair : ¬ HidesPair sig Γ x) :
    Rigid Level.Equiv sig Γ.values x := by
  obtain ⟨r, hr, -⟩ := h.exists_evaluates hsig hΓ true
  have heq := eq_of_not_hidesPair hx.normal hx.folded hpair hr
  subst heq
  exact hr.rigid Level.congruence_equiv hsig

end

/-- The function and the argument of a fit application are fit: steps in them are steps of the
whole. -/
theorem app {f a : Term} (h : (Term.app f a).Fit sig Γ) : f.Fit sig Γ ∧ a.Fit sig Γ := by
  obtain ⟨hf, ha⟩ := looseRange_app_le.mp h.scope
  exact ⟨⟨hf, h.terminates.fn⟩, ⟨ha, h.terminates.arg⟩⟩

theorem pair {a b : Term} (h : (Term.pair a b).Fit sig Γ) : a.Fit sig Γ ∧ b.Fit sig Γ := by
  obtain ⟨ha, hb⟩ := looseRange_pair_le.mp h.scope
  exact ⟨⟨ha, h.terminates.left⟩, ⟨hb, h.terminates.right⟩⟩

theorem proj {k : Side} {p : Term} (h : (Term.proj k p).Fit sig Γ) : p.Fit sig Γ :=
  ⟨looseRange_proj_le.mp h.scope, h.terminates.target⟩

theorem domain {k : Binder} {n : Name} {t b : Term} (h : (Term.bind k n t b).Fit sig Γ) :
    t.Fit sig Γ :=
  ⟨(looseRange_bind_le.mp h.scope).1, h.terminates.domain⟩

/-- A body is fit under its binder, whatever the type of the variable is. -/
theorem body {k : Binder} {n : Name} {t b : Term} (h : (Term.bind k n t b).Fit sig Γ) (m : Name)
    (u : Term) : b.Fit sig (Γ.push m u) :=
  ⟨(looseRange_bind_le.mp h.scope).2, h.terminates.body⟩

end Term.Fit

/-! ## Spines -/

/-- What holds of a term and of the parts of its applications holds of its spine. -/
theorem Term.forall_spineOnto {S : Term → Prop} (hS : ∀ f a, S (.app f a) → S f ∧ S a) (he : S e)
    {args : List Term} (hargs : ∀ a ∈ args, S a) :
    S (e.spineOnto args).1 ∧ ∀ a ∈ (e.spineOnto args).2, S a := by
  induction e generalizing args with
  | app f a ihf _ =>
    obtain ⟨hf, ha⟩ := hS f a he
    exact ihf hf (List.forall_mem_cons.mpr ⟨ha, hargs⟩)
  | _ => exact ⟨he, hargs⟩

/-- The head and the arguments of a spine are fit, and lie lower. -/
theorem Term.Fit.spine {f a : Term} (h : (Term.app f a).Fit sig Γ) :
    ((Term.app f a).spine.1.Fit sig Γ ∧ TransGen (Below sig)
      (Γ.values, (Term.app f a).spine.1) (Γ.values, .app f a)) ∧
    ∀ b ∈ (Term.app f a).spine.2, b.Fit sig Γ ∧
      TransGen (Below sig) (Γ.values, b) (Γ.values, .app f a) := by
  have hfn (g b : Term) : Below sig (Γ.values, g) (Γ.values, .app g b) := .part (.fn g b)
  have harg (g b : Term) : Below sig (Γ.values, b) (Γ.values, .app g b) := .part (.arg g b)
  obtain ⟨hf, ha⟩ := h.app
  refine @Term.forall_spineOnto f (fun e => e.Fit sig Γ ∧
    TransGen (Below sig) (Γ.values, e) (Γ.values, .app f a)) (fun g b hgb => ?_)
    ⟨hf, .single (hfn f a)⟩ [a] fun b hb => ?_
  · obtain ⟨hg, hb⟩ := hgb.1.app
    exact ⟨⟨hg, .head (hfn g b) hgb.2⟩, ⟨hb, .head (harg g b) hgb.2⟩⟩
  · rw [List.mem_singleton.mp hb]
    exact ⟨ha, .single (harg f a)⟩

/-- The arguments of a spine are fit and lie below the whole in the order in which terms are
compared. -/
theorem Term.Fit.spine_args (h : e.Fit sig Γ) :
    ∀ b ∈ e.spine.2, b.Fit sig Γ ∧ TransGen (Below sig) (Γ.values, b) (Γ.values, e) := by
  cases e with
  | app f a => exact (h.spine).2
  | _ => exact fun b hb => by cases hb

/-! ## Equations -/

namespace Equation

/-- The sides of the equation, with the values of their variables. -/
def sides (q : Equation) : Located × Located :=
  ((q.context.values, q.lhs), (q.context.values, q.rhs))

/-- Both sides lie lower, or one does and the other stays. -/
def Lower (sig : Signature) : Located × Located → Located × Located → Prop :=
  TransGen (Prod.GameAdd (TransGen (Below sig)) (TransGen (Below sig)))

/-- An equation gets lower if its left side does and its right side stays or gets lower as well. -/
theorem lower_left {x x' y y' : Located} (hx : TransGen (Below sig) x' x)
    (hy : y' = y ∨ TransGen (Below sig) y' y) : Lower sig (x', y') (x, y) := by
  rcases hy with rfl | hy
  · exact .single (.fst hx)
  · exact .head (.fst hx) (.single (.snd hy))

/-- An equation gets lower if its right side does and its left side stays or gets lower as well. -/
theorem lower_right {x x' y y' : Located} (hx : x' = x ∨ TransGen (Below sig) x' x)
    (hy : TransGen (Below sig) y' y) : Lower sig (x', y') (x, y) := by
  rcases hx with rfl | hx
  · exact .single (.snd hy)
  · exact .head (.fst hx) (.single (.snd hy))

/-- What lies lower than what the sides step to lies lower than the sides. -/
theorem Lower.of_rewrites {q : Located × Located} {x' y' : Term}
    (h : Lower sig q (sides ⟨x', y', Γ⟩)) (hx : Rewrites sig Γ.values x x')
    (hy : Rewrites sig Γ.values y y') : Lower sig q (sides ⟨x, y, Γ⟩) := by
  have hy' := (eq_or_below_of_rewrites hy).imp_left (congrArg (Prod.mk Γ.values))
  rcases eq_or_below_of_rewrites hx with rfl | hx
  · rcases hy' with hy | hy
    · cases hy
      exact h
    · exact h.trans (lower_right (.inl rfl) hy)
  · exact h.trans (lower_left hx hy')

/-- Both sides are in scope and terminate. -/
structure Fit (sig : Signature) (q : Equation) : Prop where
  context : q.context.InScope
  lhs : q.lhs.Fit sig q.context
  rhs : q.rhs.Fit sig q.context

/-- **The order is well-founded below a fit equation.** -/
theorem Fit.acc {q : Equation} (h : q.Fit sig) : Acc (Lower sig) q.sides :=
  (h.lhs.terminates.acc.prod_gameAdd h.rhs.terminates.acc).transGen

theorem mem_zipWith {α : Type} {f : Term → Term → α} {as bs : List Term} {q : α}
    (h : q ∈ List.zipWith f as bs) : ∃ a ∈ as, ∃ b ∈ bs, q = f a b := by
  induction as generalizing bs with
  | nil => cases h
  | cons a as ih =>
    cases bs with
    | nil => cases h
    | cons b bs =>
      rcases List.mem_cons.mp h with rfl | h
      · exact ⟨a, List.mem_cons_self, b, List.mem_cons_self, rfl⟩
      · obtain ⟨a', ha', b', hb', rfl⟩ := ih h
        exact ⟨a', List.mem_cons_of_mem a ha', b', List.mem_cons_of_mem b hb', rfl⟩

/-- **The equations between the parts of fit terms are fit, and lower.** -/
theorem fit_of_parts? (h : Fit sig ⟨x, y, Γ⟩) {parts : List Equation}
    (hparts : x.parts? Γ y = some parts) :
    ∀ q ∈ parts, q.Fit sig ∧ Lower sig q.sides (sides ⟨x, y, Γ⟩) := by
  obtain ⟨hΓ, hx, hy⟩ := h
  dsimp only at hΓ hx hy
  have hboth {a b : Term} (ha : a.Fit sig Γ ∧ TransGen (Below sig) (Γ.values, a) (Γ.values, x))
      (hb : b.Fit sig Γ ∧ TransGen (Below sig) (Γ.values, b) (Γ.values, y)) :
      Fit sig ⟨a, b, Γ⟩ ∧ Lower sig (sides ⟨a, b, Γ⟩) (sides ⟨x, y, Γ⟩) :=
    ⟨⟨hΓ, ha.1, hb.1⟩, lower_left ha.2 (.inr hb.2)⟩
  unfold Term.parts? at hparts
  split at hparts
  · cases hparts
    exact fun q hq => by cases hq
  · split at hparts
    · dsimp only at hparts
      split at hparts
      · cases hparts
        obtain ⟨hf, has⟩ := hx.spine
        obtain ⟨hg, hbs⟩ := hy.spine
        intro q hq
        rcases List.mem_append.mp hq with hq | hq
        · obtain ⟨a, ha, b, hb, rfl⟩ := mem_zipWith (List.mem_reverse.mp hq)
          exact hboth (has a ha) (hbs b hb)
        · cases List.mem_singleton.mp hq
          exact hboth hf hg
      · cases hparts
    · rename_i k n t b k' m u b' _
      split at hparts
      · cases hparts
        have hbody (k : Binder) (n : Name) (t b : Term) :
            TransGen (Below sig) (none :: Γ.values, b) (Γ.values, .bind k n t b) :=
          .single (.part (.body k n t b))
        intro q hq
        rcases List.mem_cons.mp hq with rfl | hq
        · exact ⟨⟨hΓ.push hx.domain.scope n, hx.body n t, hy.body n t⟩,
            lower_left (hbody k n t b) (.inr (hbody k' m u b'))⟩
        · cases List.mem_singleton.mp hq
          exact hboth ⟨hx.domain, .single (.part (.domain k n t b))⟩
            ⟨hy.domain, .single (.part (.domain k' m u b'))⟩
      · cases hparts
    · rename_i a b a' b' _
      cases hparts
      intro q hq
      rcases List.mem_cons.mp hq with rfl | hq
      · exact hboth ⟨(hx.pair).2, .single (.part (.right a b))⟩
          ⟨(hy.pair).2, .single (.part (.right a' b'))⟩
      · cases List.mem_singleton.mp hq
        exact hboth ⟨(hx.pair).1, .single (.part (.left a b))⟩
          ⟨(hy.pair).1, .single (.part (.left a' b'))⟩
    · rename_i k p k' p' _
      split at hparts
      · cases hparts
        intro q hq
        cases List.mem_singleton.mp hq
        exact hboth ⟨hx.proj, .single (.part (.target k p))⟩
          ⟨hy.proj, .single (.part (.target k' p'))⟩
      · cases hparts
    · cases hparts

end Equation

/-! ## Answers -/

/-- Joinable terms are never told apart at once. -/
theorem quickEq?_of_joinable {ν : List (Option Term)} {equal : Bool}
    (hquick : x.quickEq? y = some equal) (h : Joinable Level.Equiv sig ν x y) : equal = true := by
  unfold Term.quickEq? at hquick
  split at hquick
  · cases hquick
    rfl
  · split at hquick
    · cases hquick
      exact h.of_sort Level.congruence_equiv
    · cases hquick

/-- Arguments that are joinable in pairs give equations that hold, one for each position. -/
theorem joins_of_mem_zipWith {as bs : List Term}
    (h : List.Forall₂ (Joinable Level.Equiv sig Γ.values) as bs) {q : Equation}
    (hq : q ∈ List.zipWith (⟨·, ·, Γ⟩) as bs) : q.Joins sig := by
  induction h with
  | nil => cases hq
  | cons hab _ ih =>
    rcases List.mem_cons.mp hq with rfl | hq
    · exact hab
    · exact ih hq

/-- **Joinable rigid terms leave equations with joinable sides.** -/
theorem exists_parts_of_joinable (hx : Rigid Level.Equiv sig Γ.values x)
    (hy : Rigid Level.Equiv sig Γ.values y) (hquick : x.quickEq? y = none)
    (h : Joinable Level.Equiv sig Γ.values x y) :
    ∃ parts, x.parts? Γ y = some parts ∧ ∀ q ∈ parts, q.Joins sig := by
  have hL := Level.congruence_equiv
  have hspine := hx.joinable_spine hL hy h .nil
  unfold Term.parts?
  split
  · exact ⟨[], rfl, fun q hq => by cases hq⟩
  · rename_i hatom
    cases hx.joinable hL hy h with
    | bvar i => exact absurd (decide_eq_true rfl) hatom
    | fvar n => exact absurd (decide_eq_true rfl) hatom
    | sort =>
      unfold Term.quickEq? at hquick
      split at hquick <;> cases hquick
    | const hls =>
      refine absurd ?_ hatom
      exact Bool.and_eq_true_iff.mpr ⟨decide_eq_true rfl, Level.equivAll_iff.mpr hls⟩
    | app hf ha =>
      refine ⟨_, if_pos hspine.2.length_eq, fun q hq => ?_⟩
      rcases List.mem_append.mp hq with hq | hq
      · exact joins_of_mem_zipWith hspine.2 (List.mem_reverse.mp hq)
      · cases List.mem_singleton.mp hq
        exact hspine.1
    | bind ht hb =>
      refine ⟨_, if_pos rfl, fun q hq => ?_⟩
      rcases List.mem_cons.mp hq with rfl | hq
      · exact hb
      · cases List.mem_singleton.mp hq
        exact ht
    | pair ha hb =>
      refine ⟨_, rfl, fun q hq => ?_⟩
      rcases List.mem_cons.mp hq with rfl | hq
      · exact hb
      · cases List.mem_singleton.mp hq
        exact ha
    | proj hp =>
      refine ⟨_, if_pos rfl, fun q hq => ?_⟩
      cases List.mem_singleton.mp hq
      exact hp

end TypeTheory
