import TypeTheory.Proofs.Normalization.Steps
import TypeTheory.Proofs.Typing.Rules

/-!
# Descent from terms that terminate

A term that terminates may be left for what it steps to and for its parts, and this
comes to an end (`Terminates.acc`): a step of a part is a step of the whole, so steps
and parts do not alternate for ever. It is the order by which runs on such terms end.

In particular such a term has a weak-head normal form if its variables are in scope
(`Terminates.exists_evaluates`).
-/

namespace TypeTheory

open Relation

variable {sig : Signature}

/-- A term with the values of its variables. -/
abbrev Located := List (Option Term) × Term

/-- The first term is a part of the second one. -/
inductive Part : Located → Located → Prop
  | fn {ν : List (Option Term)} (f a : Term) : Part (ν, f) (ν, .app f a)
  | arg {ν : List (Option Term)} (f a : Term) : Part (ν, a) (ν, .app f a)
  | domain {ν : List (Option Term)} (k : Binder) (n : Name) (t b : Term) :
      Part (ν, t) (ν, .bind k n t b)
  | body {ν : List (Option Term)} (k : Binder) (n : Name) (t b : Term) :
      Part (none :: ν, b) (ν, .bind k n t b)
  | left {ν : List (Option Term)} (a b : Term) : Part (ν, a) (ν, .pair a b)
  | right {ν : List (Option Term)} (a b : Term) : Part (ν, b) (ν, .pair a b)
  | target {ν : List (Option Term)} (k : Side) (p : Term) : Part (ν, p) (ν, .proj k p)

theorem Part.sizeOf_lt {x y : Located} (h : Part x y) : sizeOf x.2 < sizeOf y.2 := by
  cases h <;> simp <;> omega

theorem wellFounded_part : WellFounded Part :=
  Subrelation.wf Part.sizeOf_lt (InvImage.wf (fun x : Located => sizeOf x.2) Nat.lt_wfRel.wf)

/-- A step of a part is a step of the whole. -/
theorem Part.step {ν ν' : List (Option Term)} {x y z : Term} (h : Part (ν', y) (ν, x))
    (hstep : Step sig ν' y z) : ∃ x', Step sig ν x x' ∧ Part (ν', z) (ν, x') := by
  cases h with
  | fn f a => exact ⟨_, .fn a hstep, .fn z a⟩
  | arg f a => exact ⟨_, .arg f hstep, .arg f z⟩
  | domain k n t b => exact ⟨_, .domain k n b hstep, .domain k n z b⟩
  | body k n t b => exact ⟨_, .body k n t hstep, .body k n t z⟩
  | left a b => exact ⟨_, .left b hstep, .left z b⟩
  | right a b => exact ⟨_, .right a hstep, .right a z⟩
  | target k p => exact ⟨_, .target k hstep, .target k z⟩

/-- A step of a part, however deep it is, is a step of the whole, in which what has come of the part
is a part. -/
theorem Part.step_deep {x y : Located} (h : ReflTransGen Part y x) {z : Term}
    (hstep : Step sig y.1 y.2 z) :
    ∃ x', Step sig x.1 x.2 x' ∧ ReflTransGen Part (y.1, z) (x.1, x') := by
  induction h with
  | refl => exact ⟨z, hstep, .refl⟩
  | tail _ hpart ih =>
    obtain ⟨w, hw, hz⟩ := ih
    obtain ⟨x', hx', hpart'⟩ := hpart.step hw
    exact ⟨x', hx', hz.tail hpart'⟩

/-- The first term is what the second one steps to, or a part of it. -/
inductive Below (sig : Signature) : Located → Located → Prop
  | step {ν : List (Option Term)} {x y : Term} : Step sig ν x y → Below sig (ν, y) (ν, x)
  | part {x y : Located} : Part y x → Below sig y x

/-- **Descent from a term that terminates ends.** By induction on the steps of the term,
for all its parts at once. -/
theorem Terminates.acc_deep {ν : List (Option Term)} {x : Term} (h : Terminates sig ν x)
    {y : Located} (hy : ReflTransGen Part y (ν, x)) : Acc (Below sig) y := by
  induction h generalizing y with
  | intro x _ ih =>
    induction y using wellFounded_part.induction with
    | _ y ihy =>
      refine .intro y fun z hz => ?_
      cases hz with
      | step hstep =>
        obtain ⟨x', hx', hdeep⟩ := Part.step_deep hy hstep
        exact ih x' hx' hdeep
      | part hpart => exact ihy z hpart (.head hpart hy)

/-- From a term that terminates there is no endless descent by steps and to parts. -/
theorem Terminates.acc {ν : List (Option Term)} {x : Term} (h : Terminates sig ν x) :
    Acc (TransGen (Below sig)) (ν, x) :=
  (h.acc_deep .refl).transGen

/-- Steps, of which there is at least one, lead down. -/
theorem below_of_rewrites {ν : List (Option Term)} {x y z : Term} (h : Rewrites sig ν x y)
    (hstep : Step sig ν y z) : TransGen (Below sig) (ν, z) (ν, x) := by
  induction h generalizing z with
  | refl => exact .single (.step hstep)
  | tail _ hxy ih => exact .head (.step hstep) (ih hxy)

theorem below_of_step {ν : List (Option Term)} {x y z : Term} (hstep : Step sig ν x y)
    (h : Rewrites sig ν y z) : TransGen (Below sig) (ν, z) (ν, x) := by
  induction h with
  | refl => exact .single (.step hstep)
  | tail _ hyz ih => exact .head (.step hyz) ih

/-- What is reached by steps is the term itself or lies below it. -/
theorem eq_or_below_of_rewrites {ν : List (Option Term)} {x y : Term} (h : Rewrites sig ν x y) :
    y = x ∨ TransGen (Below sig) (ν, y) (ν, x) := by
  rcases h.cases_head with heq | ⟨z, hstep, hrest⟩
  · exact .inl heq.symm
  · exact .inr (below_of_step hstep hrest)

/-! ## Weak-head normal forms -/

theorem Term.exists_of_isLam {e : Term} (h : e.isLam = true) : ∃ x t b, e = .lam x t b := by
  unfold isLam at h
  split at h
  · exact ⟨_, _, _, rfl⟩
  · cases h

/-- **A term in scope that terminates has a weak-head normal form.** -/
theorem Terminates.exists_evaluates (hsig : sig.ClosedValues) (δ : Bool) {Γ : Context} {n : Nat}
    (hΓ : Context.AgreeTo n Γ Γ) {e : Term} (he : e.looseRange ≤ n)
    (h : Terminates sig Γ.values e) : ∃ r, Evaluates sig δ Γ e r := by
  have hacc := h.acc
  generalize hx : (Γ.values, e) = x at hacc
  induction hacc generalizing e with
  | intro x _ ih =>
    subst hx
    have ih {y : Term} (hy : TransGen (Below sig) (Γ.values, y) (Γ.values, e))
        (hrange : y.looseRange ≤ n) (hterm : Terminates sig Γ.values y) :
        ∃ r, Evaluates sig δ Γ y r := ih _ hy hrange hterm rfl
    cases e with
    | fvar y => exact ⟨_, .fvar y⟩
    | sort l => exact ⟨_, .sort l⟩
    | bind k y t b => exact ⟨_, .bind k y t b⟩
    | pair a b => exact ⟨_, .pair a b⟩
    | bvar i =>
      obtain ⟨entry, hentry, -, -, hvalue⟩ := hΓ i (Term.looseRange_bvar_le.mp he)
      cases hv : entry.value with
      | none => exact ⟨_, .bvar hentry hv⟩
      | some v =>
        have hstep : Step sig Γ.values (.bvar i) (v.shift 0 (i + 1)) :=
          .lookup (Context.values_eq_some.mpr ⟨entry, hentry, hv⟩)
        obtain ⟨r, hr⟩ := ih (.single (.step hstep))
          (Nat.le_trans (Term.looseRange_shift_le (Nat.le_refl _) 0) (hvalue v hv)) (h.step hstep)
        exact ⟨r, .lookup hentry hv hr⟩
    | const m ls =>
      cases hv : sig.delta? δ m ls with
      | none => exact ⟨_, .const hv⟩
      | some v =>
        have hunfold : sig.headUnfolded? (.const m ls) = some v := by
          cases δ with
          | true => exact hv
          | false => cases hv
        have hstep : Step sig Γ.values (.const m ls) v := .delta hunfold
        obtain ⟨r, hr⟩ := ih (.single (.step hstep))
          (Nat.le_trans (hsig.headUnfolded? hunfold) (Nat.zero_le n)) (h.step hstep)
        exact ⟨r, .delta hv hr⟩
    | letE y t v b =>
      obtain ⟨-, hv, hb⟩ := Term.looseRange_letE_le.mp he
      have hstep : Step sig Γ.values (.letE y t v b) (b.instantiate v) := .zeta y t v b
      obtain ⟨r, hr⟩ := ih (.single (.step hstep)) (Term.looseRange_instantiate_le hb hv)
        (h.step hstep)
      exact ⟨r, .zeta hr⟩
    | app f a =>
      obtain ⟨hf, ha⟩ := Term.looseRange_app_le.mp he
      obtain ⟨f', hf'⟩ := ih (.single (.part (.fn f a))) hf h.fn
      have hrewrites : Rewrites sig Γ.values (.app f a) (.app f' a) :=
        hf'.steps.lift (Term.app · a) fun _ _ => .fn a
      cases hlam : f'.isLam with
      | false => exact ⟨_, .app hf' hlam⟩
      | true =>
        -- a function takes the argument
        obtain ⟨y, t, b, rfl⟩ := Term.exists_of_isLam hlam
        have hb := (Term.looseRange_bind_le.mp (hf'.of_agreeTo hsig hΓ hf).2).2
        have hstep : Step sig Γ.values (.app (.lam y t b) a) (b.instantiate a) := .beta y t b a
        obtain ⟨r, hr⟩ := ih (below_of_rewrites hrewrites hstep)
          (Term.looseRange_instantiate_le hb ha) ((h.steps hrewrites).step hstep)
        exact ⟨r, .beta hf' hr⟩
    | proj k p =>
      have hp := Term.looseRange_proj_le.mp he
      obtain ⟨p', hp'⟩ := ih (.single (.part (.target k p))) hp h.target
      have hrewrites : Rewrites sig Γ.values (.proj k p) (.proj k p') :=
        hp'.steps.lift (Term.proj k) fun _ _ => .target k
      cases hq : p'.component? k with
      | none => exact ⟨_, .proj hp' hq⟩
      | some q =>
        have hstep : Step sig Γ.values (.proj k p') q := .iota hq
        obtain ⟨r, hr⟩ := ih (below_of_rewrites hrewrites hstep)
          (looseRange_component?_le (hp'.of_agreeTo hsig hΓ hp).2 hq)
          ((h.steps hrewrites).step hstep)
        exact ⟨r, .iota hp' hq hr⟩

end TypeTheory
