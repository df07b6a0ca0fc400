import Mathlib.Order.GameAdd
import TypeTheory.Proofs.Conversion.Parallel

/-!
# Single steps and termination

`Step sig ν` contracts one redex anywhere in a term. A term terminates if every
sequence of steps from it ends. Filling the variables of a term keeps steps, except
that a variable may already be filled with its value (`Step.fill`); such steps make
the term lighter, so a term terminates if it does once it is filled
(`Terminates.of_fill`).
-/

namespace TypeTheory

open Relation

/-! ## Steps -/

/-- One contraction anywhere in a term. -/
inductive Step (sig : Signature) : List (Option Term) → Term → Term → Prop
  | beta {ν : List (Option Term)} (n : Name) (t b a : Term) :
      Step sig ν (.app (.lam n t b) a) (b.instantiate a)
  | zeta {ν : List (Option Term)} (n : Name) (t v b : Term) :
      Step sig ν (.letE n t v b) (b.instantiate v)
  | lookup {ν : List (Option Term)} {i : Nat} {v : Term} :
      ν[i]? = some (some v) → Step sig ν (.bvar i) (v.shift 0 (i + 1))
  | delta {ν : List (Option Term)} {n : Name} {ls : List Level} {v : Term} :
      sig.headUnfolded? (.const n ls) = some v → Step sig ν (.const n ls) v
  | iota {ν : List (Option Term)} {k : Side} {p q : Term} :
      p.component? k = some q → Step sig ν (.proj k p) q
  | fn {ν : List (Option Term)} {f f' : Term} (a : Term) :
      Step sig ν f f' → Step sig ν (.app f a) (.app f' a)
  | arg {ν : List (Option Term)} (f : Term) {a a' : Term} :
      Step sig ν a a' → Step sig ν (.app f a) (.app f a')
  | domain {ν : List (Option Term)} (k : Binder) (n : Name) {t t' : Term} (b : Term) :
      Step sig ν t t' → Step sig ν (.bind k n t b) (.bind k n t' b)
  | body {ν : List (Option Term)} (k : Binder) (n : Name) (t : Term) {b b' : Term} :
      Step sig (none :: ν) b b' → Step sig ν (.bind k n t b) (.bind k n t b')
  | letType {ν : List (Option Term)} (n : Name) {t t' : Term} (v b : Term) :
      Step sig ν t t' → Step sig ν (.letE n t v b) (.letE n t' v b)
  | letValue {ν : List (Option Term)} (n : Name) (t : Term) {v v' : Term} (b : Term) :
      Step sig ν v v' → Step sig ν (.letE n t v b) (.letE n t v' b)
  | letBody {ν : List (Option Term)} (n : Name) (t v : Term) {b b' : Term} :
      Step sig (none :: ν) b b' → Step sig ν (.letE n t v b) (.letE n t v b')
  | left {ν : List (Option Term)} {a a' : Term} (b : Term) :
      Step sig ν a a' → Step sig ν (.pair a b) (.pair a' b)
  | right {ν : List (Option Term)} (a : Term) {b b' : Term} :
      Step sig ν b b' → Step sig ν (.pair a b) (.pair a b')
  | target {ν : List (Option Term)} (k : Side) {p p' : Term} :
      Step sig ν p p' → Step sig ν (.proj k p) (.proj k p')

/-- Steps in any number. -/
abbrev Rewrites (sig : Signature) (ν : List (Option Term)) : Term → Term → Prop :=
  ReflTransGen (Step sig ν)

variable {sig : Signature} {ν ν' : List (Option Term)} {x y z : Term}

/-- A step is a parallel reduction. -/
theorem Step.parallel {L : Level → Level → Prop} (hL : Level.Congruence L) (h : Step sig ν x y) :
    Parallel L sig ν x y := by
  induction h with
  | beta n t b a => exact .beta (.refl hL b) (.refl hL a)
  | zeta n t v b => exact .zeta (.refl hL v) (.refl hL b)
  | lookup hv => exact .lookup hv
  | delta hv => exact .delta (hL.forall₂_refl _) hv
  | iota hq => exact .iota hq (.refl hL _)
  | fn a _ ih => exact .app ih (.refl hL a)
  | arg f _ ih => exact .app (.refl hL f) ih
  | domain k n b _ ih => exact .bind ih (.refl hL b)
  | body k n t _ ih => exact .bind (.refl hL t) ih
  | letType n v b _ ih => exact .letE ih (.refl hL v) (.refl hL b)
  | letValue n t b _ ih => exact .letE (.refl hL t) ih (.refl hL b)
  | letBody n t v _ ih => exact .letE (.refl hL t) (.refl hL v) ih
  | left b _ ih => exact .pair ih (.refl hL b)
  | right a _ ih => exact .pair (.refl hL a) ih
  | target k _ ih => exact .proj ih

theorem Rewrites.parallels {L : Level → Level → Prop} (hL : Level.Congruence L)
    (h : Rewrites sig ν x y) : Parallels L sig ν x y :=
  h.lift id fun _ _ h => h.parallel hL

theorem Step.rename (hsig : sig.ClosedValues) (h : Step sig ν x y) {ξ : Nat → Nat}
    (hξ : Parallel.Renames ξ ν ν') : Step sig ν' (x.rename ξ) (y.rename ξ) := by
  induction h generalizing ν' ξ with
  | beta n t b a =>
    rw [Parallel.rename_instantiate]
    exact .beta n _ _ _
  | zeta n t v b =>
    rw [Parallel.rename_instantiate]
    exact .zeta n _ _ _
  | lookup hv =>
    obtain ⟨w, hw, heq⟩ := hξ _ _ hv
    rw [Term.shift_succ_eq_rename, Term.rename_rename, ← heq, ← Term.shift_succ_eq_rename]
    exact .lookup hw
  | delta hv =>
    rw [Term.rename_of_closed (hsig.headUnfolded? hv)]
    exact .delta hv
  | iota hq => exact .iota (Parallel.component?_rename hq ξ)
  | fn a _ ih => exact .fn _ (ih hξ)
  | arg f _ ih => exact .arg _ (ih hξ)
  | domain k n b _ ih => exact .domain k n _ (ih hξ)
  | body k n t _ ih => exact .body k n _ (ih hξ.lift)
  | letType n v b _ ih => exact .letType n _ _ (ih hξ)
  | letValue n t b _ ih => exact .letValue n _ _ (ih hξ)
  | letBody n t v _ ih => exact .letBody n _ _ (ih hξ.lift)
  | left b _ ih => exact .left _ (ih hξ)
  | right a _ ih => exact .right _ (ih hξ)
  | target k _ ih => exact .target k (ih hξ)

/-- Steps are kept under one more variable, with or without a value. -/
theorem Step.shift (hsig : sig.ClosedValues) (h : Step sig ν x y) (o : Option Term) :
    Step sig (o :: ν) (x.rename (· + 1)) (y.rename (· + 1)) :=
  h.rename hsig fun _ v hv => ⟨v, hv, by congr 1⟩

/-! ## Weights -/

/-- The weights of the variables under one more binder. -/
def liftWeight (w : Nat → Nat) : Nat → Nat
  | 0 => 1
  | i + 1 => w i

/-- The number of leaves of a term, where each variable has a weight. -/
def Term.weight (w : Nat → Nat) : Term → Nat
  | .bvar i => w i
  | .fvar _ | .sort _ | .const .. => 1
  | .app f a => f.weight w + a.weight w
  | .bind _ _ t b => t.weight w + b.weight (liftWeight w)
  | .letE _ t v b => t.weight w + v.weight w + b.weight (liftWeight w)
  | .pair a b => a.weight w + b.weight w
  | .proj _ p => p.weight w

/-- A variable with a value weighs more than the value. -/
def weights : List (Option Term) → Nat → Nat
  | [] => fun _ => 1
  | none :: ν => liftWeight (weights ν)
  | some v :: ν => fun
    | 0 => v.weight (weights ν) + 1
    | i + 1 => weights ν i

/-- A renamed term weighs what it weighs with the weights of the new variables. -/
theorem Term.weight_rename (e : Term) (ξ : Nat → Nat) (w : Nat → Nat) :
    (e.rename ξ).weight w = e.weight fun i => w (ξ i) := by
  have hlift (ξ : Nat → Nat) (w : Nat → Nat) :
      (fun i => liftWeight w (liftIndex ξ i)) = liftWeight fun i => w (ξ i) := by
    funext i
    cases i <;> rfl
  induction e generalizing ξ w <;> simp_all [rename, weight]

theorem weights_succ (o : Option Term) (ν : List (Option Term)) (i : Nat) :
    weights (o :: ν) (i + 1) = weights ν i := by
  cases o <;> rfl

/-- Looking up a value makes a term lighter: the variable weighs more than its value. -/
theorem weight_lookup {i : Nat} {v : Term} (hv : ν[i]? = some (some v)) :
    (v.shift 0 (i + 1)).weight (weights ν) < weights ν i := by
  rw [Term.shift_succ_eq_rename, Term.weight_rename]
  induction ν generalizing i with
  | nil => cases hv
  | cons o ν ih =>
    cases i with
    | zero =>
      cases hv
      exact Nat.lt_succ_self _
    | succ i =>
      have hweights : (fun j => weights (o :: ν) (j + (i + 1 + 1))) =
          fun j => weights ν (j + (i + 1)) := funext fun j => weights_succ o ν (j + (i + 1))
      rw [weights_succ, hweights]
      exact ih hv

/-! ## Steps and fillings -/

/-- Each variable with a value is filled with it, or with a term that steps to it. -/
def Sustains (sig : Signature) (ν ν' : List (Option Term)) (σ : Nat → Term) : Prop :=
  ∀ i v, ν[i]? = some (some v) →
    Step sig ν' (σ i) ((v.shift 0 (i + 1)).fill σ) ∨ σ i = (v.shift 0 (i + 1)).fill σ

/-- Under a binder a filling still sustains the steps that look up values. -/
theorem Sustains.lift (hsig : sig.ClosedValues) {σ : Nat → Term} (h : Sustains sig ν ν' σ) :
    Sustains sig (none :: ν) (none :: ν') (Term.lift σ) := by
  intro i v hv
  cases i with
  | zero => cases hv
  | succ i =>
    have hfill : (v.shift 0 (((i + 1 : Nat) : Int) + 1)).fill (Term.lift σ) =
        ((v.shift 0 ((i : Int) + 1)).fill σ).rename (· + 1) := by
      rw [Term.fill_shift, Term.fill_shift, Term.rename_fill]
      rfl
    rw [hfill]
    rcases h i v hv with hstep | heq
    · exact .inl (hstep.shift hsig none)
    · exact .inr (congrArg (Term.rename (· + 1)) heq)

/-- A term for the variable of a binder. -/
theorem sustains_extend (a : Term) :
    Sustains sig (none :: ν) ν (Term.extend a Term.bvar) := by
  intro i v hv
  cases i with
  | zero => cases hv
  | succ i =>
    have hshift : (v.shift 0 (((i + 1 : Nat) : Int) + 1)).fill (Term.extend a Term.bvar) =
        v.shift 0 ((i : Int) + 1) := by
      rw [Term.fill_shift, Term.shift_succ_eq_rename, Term.rename_eq_fill]
      rfl
    rw [hshift]
    exact .inl (.lookup hv)

/-- **Filling keeps steps**, except where a variable is filled with its value; then
nothing is left to do, and the step made the term lighter. -/
theorem Step.fill (hsig : sig.ClosedValues) (h : Step sig ν x y) {σ : Nat → Term}
    (hσ : Sustains sig ν ν' σ) :
    Step sig ν' (x.fill σ) (y.fill σ) ∨
      (x.fill σ = y.fill σ ∧ y.weight (weights ν) < x.weight (weights ν)) := by
  induction h generalizing ν' σ with
  | beta n t b a =>
    rw [Term.fill_instantiate]
    exact .inl (.beta n _ _ _)
  | zeta n t v b =>
    rw [Term.fill_instantiate]
    exact .inl (.zeta n _ _ _)
  | lookup hv =>
    rcases hσ _ _ hv with hstep | heq
    · exact .inl hstep
    · exact .inr ⟨heq, weight_lookup hv⟩
  | delta hv =>
    rw [Term.fill_of_closed (hsig.headUnfolded? hv)]
    exact .inl (.delta hv)
  | iota hq => exact .inl (.iota (Parallel.component?_fill hq σ))
  | fn a _ ih =>
    exact (ih hσ).imp (.fn _) fun h =>
      ⟨congrArg (Term.app · (a.fill σ)) h.1, Nat.add_lt_add_right h.2 _⟩
  | arg f _ ih =>
    exact (ih hσ).imp (.arg _) fun h =>
      ⟨congrArg (Term.app (f.fill σ)) h.1, Nat.add_lt_add_left h.2 _⟩
  | domain k n b _ ih =>
    exact (ih hσ).imp (.domain k n _) fun h =>
      ⟨congrArg (Term.bind k n · (b.fill (Term.lift σ))) h.1, Nat.add_lt_add_right h.2 _⟩
  | body k n t _ ih =>
    exact (ih (hσ.lift hsig)).imp (.body k n _) fun h =>
      ⟨congrArg (Term.bind k n (t.fill σ)) h.1, Nat.add_lt_add_left h.2 _⟩
  | letType n v b _ ih =>
    exact (ih hσ).imp (.letType n _ _) fun h =>
      ⟨congrArg (Term.letE n · (v.fill σ) (b.fill (Term.lift σ))) h.1,
        Nat.add_lt_add_right (Nat.add_lt_add_right h.2 _) _⟩
  | letValue n t b _ ih =>
    exact (ih hσ).imp (.letValue n _ _) fun h =>
      ⟨congrArg (Term.letE n (t.fill σ) · (b.fill (Term.lift σ))) h.1,
        Nat.add_lt_add_right (Nat.add_lt_add_left h.2 _) _⟩
  | letBody n t v _ ih =>
    exact (ih (hσ.lift hsig)).imp (.letBody n _ _) fun h =>
      ⟨congrArg (Term.letE n (t.fill σ) (v.fill σ)) h.1, Nat.add_lt_add_left h.2 _⟩
  | left b _ ih =>
    exact (ih hσ).imp (.left _) fun h =>
      ⟨congrArg (Term.pair · (b.fill σ)) h.1, Nat.add_lt_add_right h.2 _⟩
  | right a _ ih =>
    exact (ih hσ).imp (.right _) fun h =>
      ⟨congrArg (Term.pair (a.fill σ)) h.1, Nat.add_lt_add_left h.2 _⟩
  | target k _ ih =>
    exact (ih hσ).imp (.target k) fun h => ⟨congrArg (Term.proj k) h.1, h.2⟩

/-- A step in a body is a step, or none, once the bound variable is instantiated. -/
theorem Step.instantiate (hsig : sig.ClosedValues) {b b' : Term}
    (h : Step sig (none :: ν) b b') (a : Term) :
    Rewrites sig ν (b.instantiate a) (b'.instantiate a) := by
  rw [Term.instantiate_eq_fill, Term.instantiate_eq_fill]
  rcases h.fill hsig (sustains_extend a) with hstep | ⟨heq, -⟩
  · exact .single hstep
  · rw [heq]

/-- Steps in what a term is filled with. -/
theorem Rewrites.fill_congr (hsig : sig.ClosedValues) (e : Term) {σ τ : Nat → Term}
    (h : ∀ i, Rewrites sig ν (σ i) (τ i)) : Rewrites sig ν (e.fill σ) (e.fill τ) := by
  have hlift {ν : List (Option Term)} {σ τ : Nat → Term} (h : ∀ i, Rewrites sig ν (σ i) (τ i)) :
      ∀ i, Rewrites sig (none :: ν) (Term.lift σ i) (Term.lift τ i) := by
    intro i
    cases i with
    | zero => exact .refl
    | succ i => exact (h i).lift _ fun _ _ hstep => hstep.shift hsig none
  induction e generalizing ν σ τ with
  | bvar i => exact h i
  | fvar | sort | const => exact .refl
  | app f a ihf iha =>
    exact ((ihf h).lift (Term.app · (a.fill σ)) fun _ _ => .fn _).trans
      ((iha h).lift (Term.app (f.fill τ)) fun _ _ => .arg _)
  | bind k n t b iht ihb =>
    exact ((iht h).lift (Term.bind k n · (b.fill (Term.lift σ))) fun _ _ => .domain k n _).trans
      ((ihb (hlift h)).lift (Term.bind k n (t.fill τ)) fun _ _ => .body k n _)
  | letE n t v b iht ihv ihb =>
    exact (((iht h).lift (Term.letE n · (v.fill σ) (b.fill (Term.lift σ)))
      fun _ _ => .letType n _ _).trans
        ((ihv h).lift (Term.letE n (t.fill τ) · (b.fill (Term.lift σ)))
          fun _ _ => .letValue n _ _)).trans
      ((ihb (hlift h)).lift (Term.letE n (t.fill τ) (v.fill τ)) fun _ _ => .letBody n _ _)
  | pair a b iha ihb =>
    exact ((iha h).lift (Term.pair · (b.fill σ)) fun _ _ => .left _).trans
      ((ihb h).lift (Term.pair (a.fill τ)) fun _ _ => .right _)
  | proj k p ih => exact (ih h).lift (Term.proj k) fun _ _ => .target k

/-- A step of what is put for a variable is as many steps as the variable occurs. -/
theorem Step.instantiate_arg (hsig : sig.ClosedValues) (b : Term) {a a' : Term}
    (h : Step sig ν a a') : Rewrites sig ν (b.instantiate a) (b.instantiate a') := by
  rw [Term.instantiate_eq_fill, Term.instantiate_eq_fill]
  refine Rewrites.fill_congr hsig b fun i => ?_
  cases i with
  | zero => exact .single h
  | succ i => exact .refl

/-! ## Termination -/

/-- Every sequence of steps from the term ends. -/
def Terminates (sig : Signature) (ν : List (Option Term)) (e : Term) : Prop :=
  Acc (fun y x => Step sig ν x y) e

namespace Terminates

variable {f f' a b p t v : Term} {k : Binder} {n : Name}

theorem step (h : Terminates sig ν x) (hstep : Step sig ν x y) : Terminates sig ν y :=
  h.inv hstep

theorem steps (h : Terminates sig ν x) (hsteps : Rewrites sig ν x y) : Terminates sig ν y := by
  induction hsteps with
  | refl => exact h
  | tail _ hstep ih => exact ih.step hstep

/-- A part of a term that terminates does so. -/
theorem of_map (F : Term → Term)
    (hF : ∀ x y, Step sig ν' x y → Step sig ν (F x) (F y)) (h : Terminates sig ν (F x)) :
    Terminates sig ν' x := by
  have hacc := InvImage.accessible F h
  refine Subrelation.accessible (fun hstep => ?_) hacc
  exact hF _ _ hstep

theorem fn (h : Terminates sig ν (.app f a)) : Terminates sig ν f :=
  h.of_map (Term.app · a) fun _ _ => .fn a

theorem arg (h : Terminates sig ν (.app f a)) : Terminates sig ν a :=
  h.of_map (Term.app f) fun _ _ => .arg f

theorem domain (h : Terminates sig ν (.bind k n t b)) : Terminates sig ν t :=
  h.of_map (Term.bind k n · b) fun _ _ => .domain k n b

/-- The body of a binder that terminates does so under a variable without a value. -/
theorem body (h : Terminates sig ν (.bind k n t b)) : Terminates sig (none :: ν) b :=
  h.of_map (Term.bind k n t) fun _ _ => .body k n t

theorem left (h : Terminates sig ν (.pair a b)) : Terminates sig ν a :=
  h.of_map (Term.pair · b) fun _ _ => .left b

theorem right (h : Terminates sig ν (.pair a b)) : Terminates sig ν b :=
  h.of_map (Term.pair a) fun _ _ => .right a

theorem target {k : Side} (h : Terminates sig ν (.proj k p)) : Terminates sig ν p :=
  h.of_map (Term.proj k) fun _ _ => .target k

/-- **A term terminates if it does once its variables are filled.** The induction is
on the steps of the filled term, then on the weight. -/
theorem of_fill (hsig : sig.ClosedValues) {σ : Nat → Term} (hσ : Sustains sig ν ν' σ)
    (h : Terminates sig ν' (x.fill σ)) : Terminates sig ν x := by
  generalize hz : x.fill σ = z at h
  induction h generalizing x with
  | intro z _ ih =>
    generalize hw : x.weight (weights ν) = w
    induction w using Nat.strong_induction_on generalizing x with
    | _ w ihw =>
      refine .intro x fun y hstep => ?_
      rcases hstep.fill hsig hσ with hfill | ⟨heq, hlt⟩
      · exact ih _ (hz ▸ hfill) rfl
      · exact ihw _ (hw ▸ hlt) (heq.symm.trans hz) rfl

/-- A body terminates if it does with some term put for its variable. -/
theorem of_instantiate (hsig : sig.ClosedValues) (h : Terminates sig ν (b.instantiate a)) :
    Terminates sig (none :: ν) b := by
  rw [Term.instantiate_eq_fill] at h
  exact h.of_fill hsig (sustains_extend a)

/-- A term made of parts terminates if each step of it is a step of the parts, or
leads to a term that terminates. -/
theorem of_parts {α : Type} {r : α → α → Prop} {F : α → Term} {P : α → Prop}
    (h : ∀ s, P s → ∀ y, Step sig ν (F s) y →
      Terminates sig ν y ∨ ∃ s', r s' s ∧ P s' ∧ F s' = y)
    {s : α} (hs : Acc r s) (hP : P s) : Terminates sig ν (F s) := by
  induction hs with
  | intro s _ ih =>
    refine .intro _ fun y hstep => ?_
    rcases h s hP y hstep with hy | ⟨s', hr, hP', rfl⟩
    · exact hy
    · exact ih s' hr hP'

/-- The steps of two parts, one at a time. -/
theorem both (hx : Terminates sig ν x) (hy : Terminates sig ν' y) :
    Acc (Prod.GameAdd (fun y x => Step sig ν x y) fun y x => Step sig ν' x y) (x, y) :=
  hx.prod_gameAdd hy

theorem fvar (x : Name) : Terminates sig ν (.fvar x) :=
  .intro _ fun _ h => by cases h

theorem sort (l : Level) : Terminates sig ν (.sort l) :=
  .intro _ fun _ h => by cases h

/-- A binder has no redex of its own, so it terminates if its domain and its body do. -/
theorem bind (ht : Terminates sig ν t) (hb : Terminates sig (none :: ν) b) :
    Terminates sig ν (.bind k n t b) := by
  refine of_parts (F := fun s => .bind k n s.1 s.2) (P := fun _ => True) (fun s _ y hstep => ?_)
    (ht.both hb) trivial
  cases hstep with
  | domain _ _ _ h => exact .inr ⟨_, .fst h, trivial, rfl⟩
  | body _ _ _ h => exact .inr ⟨_, .snd h, trivial, rfl⟩

/-- A pair has no redex of its own, so it terminates if its parts do. -/
theorem pair (ha : Terminates sig ν a) (hb : Terminates sig ν b) :
    Terminates sig ν (.pair a b) := by
  refine of_parts (F := fun s => .pair s.1 s.2) (P := fun _ => True) (fun s _ y hstep => ?_)
    (ha.both hb) trivial
  cases hstep with
  | left _ h => exact .inr ⟨_, .fst h, trivial, rfl⟩
  | right _ h => exact .inr ⟨_, .snd h, trivial, rfl⟩

end Terminates

end TypeTheory
