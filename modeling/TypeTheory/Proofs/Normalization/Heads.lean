import TypeTheory.Proofs.Normalization.Steps

/-!
# Head steps

`Head sig ν` contracts the redex at the weak head of a term. A head step commutes
with every other step (`Head.commute`). Hence an application or a projection
terminates if it does after a head step, and its parts do (`Terminates.app_head`,
`Terminates.proj_head`). A neutral term has no head step and never gets one
(`Neutral`).
-/

namespace TypeTheory

open Relation

variable {sig : Signature} {ν ν' : List (Option Term)} {x y z : Term}

/-! ## Head steps -/

/-- The contraction at the weak head of a term. -/
inductive Head (sig : Signature) (ν : List (Option Term)) : Term → Term → Prop
  | beta (n : Name) (t b a : Term) : Head sig ν (.app (.lam n t b) a) (b.instantiate a)
  | zeta (n : Name) (t v b : Term) : Head sig ν (.letE n t v b) (b.instantiate v)
  | lookup {i : Nat} {v : Term} :
      ν[i]? = some (some v) → Head sig ν (.bvar i) (v.shift 0 (i + 1))
  | delta {n : Name} {ls : List Level} {v : Term} :
      sig.headUnfolded? (.const n ls) = some v → Head sig ν (.const n ls) v
  | iota {k : Side} {p q : Term} : p.component? k = some q → Head sig ν (.proj k p) q
  | fn {f f' : Term} (a : Term) : Head sig ν f f' → Head sig ν (.app f a) (.app f' a)
  | target (k : Side) {p p' : Term} : Head sig ν p p' → Head sig ν (.proj k p) (.proj k p')

/-- Head steps in any number. -/
abbrev Heads (sig : Signature) (ν : List (Option Term)) : Term → Term → Prop :=
  ReflTransGen (Head sig ν)

theorem Head.step (h : Head sig ν x y) : Step sig ν x y := by
  induction h with
  | beta n t b a => exact .beta n t b a
  | zeta n t v b => exact .zeta n t v b
  | lookup hv => exact .lookup hv
  | delta hv => exact .delta hv
  | iota hq => exact .iota hq
  | fn a _ ih => exact .fn a ih
  | target k _ ih => exact .target k ih

theorem Heads.steps (h : Heads sig ν x y) : Rewrites sig ν x y :=
  h.lift id fun _ _ h => h.step

theorem Heads.fn {f f' : Term} (h : Heads sig ν f f') (a : Term) :
    Heads sig ν (.app f a) (.app f' a) :=
  h.lift (Term.app · a) fun _ _ => .fn a

theorem Heads.target {p p' : Term} (h : Heads sig ν p p') (k : Side) :
    Heads sig ν (.proj k p) (.proj k p') :=
  h.lift (Term.proj k) fun _ _ => .target k

/-- A pair takes no head step. -/
theorem Head.component?_eq_none {p p' : Term} (h : Head sig ν p p') (k : Side) :
    p.component? k = none := by
  cases h <;> cases k <;> rfl

/-- **A term has at most one head step.** -/
theorem Head.unique (h : Head sig ν x y) (h' : Head sig ν x z) : y = z := by
  induction h generalizing z with
  | beta n t b a =>
    cases h' with
    | beta => rfl
    | fn _ h => cases h
  | zeta n t v b =>
    cases h'
    rfl
  | lookup hv =>
    cases h' with
    | lookup hv' =>
      cases hv.symm.trans hv'
      rfl
  | delta hv =>
    cases h' with
    | delta hv' => exact Option.some.inj (hv.symm.trans hv')
  | iota hq =>
    cases h' with
    | iota hq' => exact Option.some.inj (hq.symm.trans hq')
    | target _ h => cases hq.symm.trans (h.component?_eq_none _)
  | fn a hf ih =>
    cases h' with
    | beta => cases hf
    | fn _ h => rw [ih h]
  | target k hp ih =>
    cases h' with
    | iota hq => cases hq.symm.trans (hp.component?_eq_none _)
    | target _ h => rw [ih h]

/-- Head steps to terms without one lead to the same term. -/
theorem Heads.unique (h : Heads sig ν x y) (h' : Heads sig ν x z) (hy : ∀ w, ¬ Head sig ν y w)
    (hz : ∀ w, ¬ Head sig ν z w) : y = z := by
  have hunique : Relator.RightUnique (Head sig ν) := fun _ _ _ hl hr => hl.unique hr
  rcases ReflTransGen.total_of_right_unique hunique h h' with hyz | hzy
  · exact (ReflTransGen.cases_head hyz).resolve_right fun h => hy _ h.choose_spec.1
  · exact ((ReflTransGen.cases_head hzy).resolve_right fun h => hz _ h.choose_spec.1).symm

/-- The components of a pair step to those of a pair that it steps to. -/
theorem Step.component {p p' q : Term} {k : Side} (h : Step sig ν p p')
    (hq : p.component? k = some q) : ∃ q', p'.component? k = some q' ∧ Rewrites sig ν q q' := by
  cases p with
  | pair a b =>
    cases h with
    | left _ h =>
      cases k with
      | fst =>
        cases hq
        exact ⟨_, rfl, .single h⟩
      | snd =>
        cases hq
        exact ⟨_, rfl, .refl⟩
    | right _ h =>
      cases k with
      | fst =>
        cases hq
        exact ⟨_, rfl, .refl⟩
      | snd =>
        cases hq
        exact ⟨_, rfl, .single h⟩
  | _ => cases k <;> cases hq

/-- **A head step commutes with every other step.** -/
theorem Head.commute (hsig : sig.ClosedValues) (h : Head sig ν x y) (h' : Step sig ν x z) :
    z = y ∨ ∃ w, Head sig ν z w ∧ Rewrites sig ν y w := by
  induction h generalizing z with
  | beta n t b a =>
    cases h' with
    | beta => exact .inl rfl
    | fn _ hf =>
      cases hf with
      | domain => exact .inr ⟨_, .beta n _ b a, .refl⟩
      | body _ _ _ hb => exact .inr ⟨_, .beta n t _ a, hb.instantiate hsig a⟩
    | arg _ ha => exact .inr ⟨_, .beta n t b _, ha.instantiate_arg hsig b⟩
  | zeta n t v b =>
    cases h' with
    | zeta => exact .inl rfl
    | letType => exact .inr ⟨_, .zeta n _ v b, .refl⟩
    | letValue _ _ _ hv => exact .inr ⟨_, .zeta n t _ b, hv.instantiate_arg hsig b⟩
    | letBody _ _ _ hb => exact .inr ⟨_, .zeta n t v _, hb.instantiate hsig v⟩
  | lookup hv =>
    cases h' with
    | lookup hv' =>
      cases hv.symm.trans hv'
      exact .inl rfl
  | delta hv =>
    cases h' with
    | delta hv' => exact .inl (Option.some.inj (hv'.symm.trans hv))
  | iota hq =>
    cases h' with
    | iota hq' => exact .inl (Option.some.inj (hq'.symm.trans hq))
    | target _ hp =>
      obtain ⟨q', hq', hsteps⟩ := hp.component hq
      exact .inr ⟨q', .iota hq', hsteps⟩
  | fn a hf ih =>
    cases h' with
    | beta => cases hf
    | fn _ hg =>
      rcases ih hg with rfl | ⟨w, hw, hsteps⟩
      · exact .inl rfl
      · exact .inr ⟨_, .fn a hw, hsteps.lift (Term.app · a) fun _ _ => .fn a⟩
    | arg _ ha => exact .inr ⟨_, .fn _ hf, .single (.arg _ ha)⟩
  | target k hp ih =>
    cases h' with
    | iota hq => cases hq.symm.trans (hp.component?_eq_none _)
    | target _ hg =>
      rcases ih hg with rfl | ⟨w, hw, hsteps⟩
      · exact .inl rfl
      · exact .inr ⟨_, .target k hw, hsteps.lift (Term.proj k) fun _ _ => .target k⟩

namespace Terminates

variable {f f' a b p p' t v : Term} {n : Name}

/-- **An application terminates if it does after a head step** of its head. -/
theorem app_head (hsig : sig.ClosedValues) (hf : Terminates sig ν f) (ha : Terminates sig ν a)
    (h : Head sig ν f f') (h' : Terminates sig ν (.app f' a)) : Terminates sig ν (.app f a) := by
  refine of_parts (F := fun s => .app s.1 s.2)
    (P := fun s => ∃ g, Head sig ν s.1 g ∧ Terminates sig ν (.app g s.2)) ?_ (hf.both ha)
    ⟨f', h, h'⟩
  rintro ⟨f, a⟩ ⟨g, hg, hterm⟩ y hstep
  cases hstep with
  | beta => cases hg
  | fn _ hf =>
    rcases hg.commute hsig hf with rfl | ⟨w, hw, hsteps⟩
    · exact .inl hterm
    · have hw' := hterm.steps (hsteps.lift (Term.app · a) fun _ _ => .fn a)
      exact .inr ⟨_, .fst hf, ⟨w, hw, hw'⟩, rfl⟩
  | arg _ ha => exact .inr ⟨_, .snd ha, ⟨g, hg, hterm.step (.arg g ha)⟩, rfl⟩

/-- A projection terminates if it does after a head step of its target. -/
theorem proj_head (hsig : sig.ClosedValues) {k : Side} (hp : Terminates sig ν p)
    (h : Head sig ν p p') (h' : Terminates sig ν (.proj k p')) : Terminates sig ν (.proj k p) := by
  refine of_parts (F := Term.proj k)
    (P := fun p => ∃ q, Head sig ν p q ∧ Terminates sig ν (.proj k q)) ?_ hp ⟨p', h, h'⟩
  rintro p ⟨q, hq, hterm⟩ y hstep
  cases hstep with
  | iota hcomponent => cases hcomponent.symm.trans (hq.component?_eq_none _)
  | target _ hp =>
    rcases hq.commute hsig hp with rfl | ⟨w, hw, hsteps⟩
    · exact .inl hterm
    · have hw' := hterm.steps (hsteps.lift (Term.proj k) fun _ _ => .target k)
      exact .inr ⟨_, hp, ⟨w, hw, hw'⟩, rfl⟩

/-- A redex terminates if its function, its argument and its contraction do: the case that
saturation needs. -/
theorem beta (hsig : sig.ClosedValues) (hf : Terminates sig ν (.lam n t b))
    (ha : Terminates sig ν a) (h : Terminates sig ν (b.instantiate a)) :
    Terminates sig ν (.app (.lam n t b) a) := by
  refine of_parts (F := fun s => .app s.1 s.2)
    (P := fun s => ∃ t b, s.1 = .lam n t b ∧ Terminates sig ν (b.instantiate s.2)) ?_ (hf.both ha)
    ⟨t, b, rfl, h⟩
  rintro ⟨f, a⟩ ⟨t, b, hlam, hterm⟩ y hstep
  cases hlam
  cases hstep with
  | beta => exact .inl hterm
  | fn _ hf =>
    refine .inr ⟨_, .fst hf, ?_, rfl⟩
    cases hf with
    | domain => exact ⟨_, b, rfl, hterm⟩
    | body _ _ _ hb => exact ⟨t, _, rfl, hterm.steps (hb.instantiate hsig a)⟩
  | arg _ ha => exact .inr ⟨_, .snd ha, ⟨t, b, rfl, hterm.steps (ha.instantiate_arg hsig b)⟩, rfl⟩

/-- A local definition terminates if its type and its value do and its body does with the value put
in. -/
theorem zeta (hsig : sig.ClosedValues) (ht : Terminates sig ν t) (hv : Terminates sig ν v)
    (h : Terminates sig ν (b.instantiate v)) : Terminates sig ν (.letE n t v b) := by
  have hb := h.of_instantiate hsig
  refine of_parts (F := fun s => .letE n s.1 s.2.1 s.2.2)
    (P := fun s => Terminates sig ν (s.2.2.instantiate s.2.1)) ?_
    (ht.prod_gameAdd (hv.both hb)) h
  rintro ⟨t, v, b⟩ hterm y hstep
  cases hstep with
  | zeta => exact .inl hterm
  | letType _ _ _ ht => exact .inr ⟨_, .fst ht, hterm, rfl⟩
  | letValue _ _ _ hv =>
    exact .inr ⟨_, .snd (.fst hv), hterm.steps (hv.instantiate_arg hsig b), rfl⟩
  | letBody _ _ _ hb =>
    exact .inr ⟨_, .snd (.snd hb), hterm.steps (hb.instantiate hsig v), rfl⟩

theorem component {k : Side} {q : Term} (h : Terminates sig ν p) (hq : p.component? k = some q) :
    Terminates sig ν q := by
  cases p with
  | pair a b =>
    cases k with
    | fst =>
      cases hq
      exact h.left
    | snd =>
      cases hq
      exact h.right
  | _ => cases k <;> cases hq

/-- A projection of a pair terminates if the pair does, since steps lead to projections or to the
component. -/
theorem iota {k : Side} {q : Term} (hp : Terminates sig ν p) (hq : p.component? k = some q) :
    Terminates sig ν (.proj k p) := by
  refine of_parts (F := Term.proj k)
    (P := fun p => ∃ q, p.component? k = some q ∧ Terminates sig ν q) ?_ hp
    ⟨q, hq, hp.component hq⟩
  rintro p ⟨q, hq, hterm⟩ y hstep
  cases hstep with
  | iota hq' =>
    cases hq.symm.trans hq'
    exact .inl hterm
  | target _ hp =>
    obtain ⟨q', hq', hsteps⟩ := hp.component hq
    exact .inr ⟨_, hp, ⟨q', hq', hterm.steps hsteps⟩, rfl⟩

theorem delta {ls : List Level} (h : sig.headUnfolded? (.const n ls) = some v)
    (hv : Terminates sig ν v) : Terminates sig ν (.const n ls) := by
  refine .intro _ fun y hstep => ?_
  cases hstep with
  | delta h' =>
    cases h.symm.trans h'
    exact hv

end Terminates

/-! ## Neutral terms -/

/-- A head that nothing unfolds, under arguments and projections. -/
inductive Neutral (sig : Signature) : Term → Prop
  | fvar (x : Name) : Neutral sig (.fvar x)
  | const {n : Name} {ls : List Level} :
      sig.headUnfolded? (.const n ls) = none → Neutral sig (.const n ls)
  | app {f : Term} (a : Term) : Neutral sig f → Neutral sig (.app f a)
  | proj (k : Side) {p : Term} : Neutral sig p → Neutral sig (.proj k p)

namespace Neutral

theorem component?_eq_none (h : Neutral sig x) (k : Side) : x.component? k = none := by
  cases h <;> cases k <;> rfl

/-- A neutral term has no head step: nothing at its head can be contracted. -/
theorem not_head (h : Neutral sig x) : ¬ Head sig ν x y := by
  intro hhead
  induction h generalizing y with
  | fvar => cases hhead
  | const hnone =>
    cases hhead with
    | delta hv => cases hnone.symm.trans hv
  | app a hf ih =>
    cases hhead with
    | beta => cases hf
    | fn _ hg => exact ih hg
  | proj k hp ih =>
    cases hhead with
    | iota hq => cases hq.symm.trans (hp.component?_eq_none k)
    | target _ hq => exact ih hq

/-- Neutral terms stay neutral, whatever is contracted in them. -/
theorem parallel {L : Level → Level → Prop} (hL : Level.Congruence L) (h : Neutral sig x)
    (hstep : Parallel L sig ν x y) : Neutral sig y := by
  induction h generalizing y with
  | fvar x =>
    cases hstep
    exact .fvar x
  | @const n ls hnone =>
    have hno {rs : List Level} {v : Term} (hls : List.Forall₂ L ls rs)
        (hv : sig.headUnfolded? (.const n rs) = some v) : False := by
      obtain ⟨w, hw, -⟩ := Parallel.exists_headUnfolded? (ν := ν) hL (hL.forall₂_symm hls) hv
      cases hnone.symm.trans hw
    cases hstep with
    | const hls => exact .const (Option.eq_none_iff_forall_ne_some.mpr fun v hv => hno hls hv)
    | delta hls hv => exact (hno hls hv).elim
  | app a hf ih =>
    cases hstep with
    | app hg _ => exact .app _ (ih hg)
    | beta => cases hf
  | proj k hp ih =>
    cases hstep with
    | proj hq => exact .proj k (ih hq)
    | iota hq => cases hq.symm.trans (hp.component?_eq_none k)

/-- What a neutral term comes to in any number of parallel steps is neutral. -/
theorem parallels {L : Level → Level → Prop} (hL : Level.Congruence L) (h : Neutral sig x)
    (hsteps : Parallels L sig ν x y) : Neutral sig y := by
  induction hsteps with
  | refl => exact h
  | tail _ hstep ih => exact ih.parallel hL hstep

theorem step (h : Neutral sig x) (hstep : Step sig ν x y) : Neutral sig y :=
  h.parallel Level.congruence_same (hstep.parallel Level.congruence_same)

/-- An application of a neutral function terminates if its parts do, as it never becomes a redex. -/
theorem terminates_app {f a : Term} (h : Neutral sig f) (hf : Terminates sig ν f)
    (ha : Terminates sig ν a) : Terminates sig ν (.app f a) := by
  refine .of_parts (F := fun s => .app s.1 s.2) (P := fun s => Neutral sig s.1) ?_ (hf.both ha) h
  rintro ⟨f, a⟩ h y hstep
  cases hstep with
  | beta => cases h
  | fn _ hf => exact .inr ⟨_, .fst hf, h.step hf, rfl⟩
  | arg _ ha => exact .inr ⟨_, .snd ha, h, rfl⟩

theorem terminates_proj {k : Side} {p : Term} (h : Neutral sig p) (hp : Terminates sig ν p) :
    Terminates sig ν (.proj k p) := by
  refine .of_parts (F := Term.proj k) (P := Neutral sig) ?_ hp h
  intro p h y hstep
  cases hstep with
  | iota hq => cases hq.symm.trans (h.component?_eq_none k)
  | target _ hp => exact .inr ⟨_, hp, h.step hp, rfl⟩

theorem terminates_const {n : Name} {ls : List Level}
    (h : sig.headUnfolded? (.const n ls) = none) : Terminates sig ν (.const n ls) := by
  refine .intro _ fun y hstep => ?_
  cases hstep with
  | delta hv => cases h.symm.trans hv

end Neutral

end TypeTheory
