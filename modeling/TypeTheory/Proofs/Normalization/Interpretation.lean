import TypeTheory.Proofs.Normalization.Heads

/-!
# The interpretation of types

A type is interpreted by a set of closed terms that terminate. `Interprets` says by
which one, according to what the type comes to by head steps: a neutral term is
interpreted by all such terms, a sort by the types of that universe, a dependent
function type by the functions that take members of the domain to members of the
body, and a dependent pair type by the pairs of such members.

Which terms are types of a universe is defined by recursion on the universe
(`Universe`), which the rules for lower universes allow. Joinable types have the same
interpretation (`Interprets.unique`), and each interpretation contains the neutral
terms and what comes to a member by a head step (`Interprets.saturated`).
-/

namespace TypeTheory

open Relation

variable {sig : Signature} {ρ : Name → Nat}

/-- A closed term that terminates. -/
def Tame (sig : Signature) (e : Term) : Prop :=
  e.looseRange ≤ 0 ∧ Terminates sig [] e

/-- **The interpretation of a type**, given the universes that may be met, and the
types of each. -/
inductive Interprets (sig : Signature) (ρ : Name → Nat) (S : Nat → Prop)
    (U : Nat → Term → Prop) : Term → (Term → Prop) → Prop
  | neutral {A N : Term} : Tame sig A → Heads sig [] A N → Neutral sig N →
      Interprets sig ρ S U A (Tame sig)
  | sort {A : Term} {l : Level} : Tame sig A → Heads sig [] A (.sort l) → S (l.value ρ) →
      Interprets sig ρ S U A fun t => Tame sig t ∧ U (l.value ρ) t
  | pi {A t b : Term} {n : Name} {R : Term → Prop} {Q : Term → Term → Prop} : Tame sig A →
      Heads sig [] A (.pi n t b) → Interprets sig ρ S U t R →
      (∀ a, R a → Interprets sig ρ S U (b.instantiate a) (Q a)) →
      Interprets sig ρ S U A fun f => Tame sig f ∧ ∀ a, R a → Q a (.app f a)
  | sigma {A t b : Term} {n : Name} {R : Term → Prop} {Q : Term → Term → Prop} : Tame sig A →
      Heads sig [] A (.sigma n t b) → Interprets sig ρ S U t R →
      (∀ a, R a → Interprets sig ρ S U (b.instantiate a) (Q a)) →
      Interprets sig ρ S U A fun p => Tame sig p ∧ R (.proj1 p) ∧ Q (.proj1 p) (.proj2 p)

/-- The types of a universe: those that have an interpretation that mentions lower
universes only. -/
def Universe (sig : Signature) (ρ : Name → Nat) (k : Nat) (t : Term) : Prop :=
  ∃ R, Interprets sig ρ (· < k) (fun j t => ∃ _ : j < k, Universe sig ρ j t) t R
termination_by k

namespace Interprets

variable {S S' : Nat → Prop} {U U' : Nat → Term → Prop} {A B : Term} {R Q : Term → Prop}

/-- What has an interpretation is closed and terminates, by the rule that interprets it. -/
theorem tame (h : Interprets sig ρ S U A R) : Tame sig A := by
  cases h <;> assumption

/-- Only the universes that may be met matter. -/
theorem mono (h : Interprets sig ρ S U A R) (hS : ∀ k, S k → S' k)
    (hU : ∀ k, S k → U k = U' k) : Interprets sig ρ S' U' A R := by
  induction h with
  | neutral hA hN hneutral => exact .neutral hA hN hneutral
  | sort hA hl hS' =>
    rw [hU _ hS']
    exact .sort hA hl (hS _ hS')
  | pi hA hpi _ _ iht ihb => exact .pi hA hpi iht ihb
  | sigma hA hsigma _ _ iht ihb => exact .sigma hA hsigma iht ihb

/-- A type has the interpretation of what it comes to by a head step. -/
theorem of_head (hA : Tame sig A) (h : Head sig [] A B) (hB : Interprets sig ρ S U B R) :
    Interprets sig ρ S U A R := by
  cases hB with
  | neutral _ hN hneutral => exact .neutral hA (.head h hN) hneutral
  | sort _ hl hS => exact .sort hA (.head h hl) hS
  | pi _ hpi ht hb => exact .pi hA (.head h hpi) ht hb
  | sigma _ hsigma ht hb => exact .sigma hA (.head h hsigma) ht hb

end Interprets

/-- A universe consists of the types that are interpreted with the universes below it. -/
theorem universe_iff {k : Nat} {t : Term} :
    Universe sig ρ k t ↔ ∃ R, Interprets sig ρ (· < k) (Universe sig ρ) t R := by
  have hU (j : Nat) (hj : j < k) :
      (fun t => ∃ _ : j < k, Universe sig ρ j t) = Universe sig ρ j := by
    funext t
    exact propext ⟨fun h => h.2, fun h => ⟨hj, h⟩⟩
  rw [Universe]
  constructor
  · rintro ⟨R, h⟩
    exact ⟨R, h.mono (fun _ hj => hj) hU⟩
  · rintro ⟨R, h⟩
    exact ⟨R, h.mono (fun _ hj => hj) fun j hj => (hU j hj).symm⟩

/-! ## Joinable types -/

theorem Heads.joinable {L : Level → Level → Prop} (hL : Level.Congruence L)
    {ν : List (Option Term)} {x y : Term} (h : Heads sig ν x y) : Joinable L sig ν x y :=
  .of_parallels (h.steps.parallels hL)

/-- A neutral term never becomes a sort, so it is joinable with none. -/
theorem Neutral.not_joinable_sort {L : Level → Level → Prop} (hL : Level.Congruence L)
    {ν : List (Option Term)} {N : Term} {l : Level} (h : Neutral sig N) :
    ¬ Joinable L sig ν N (.sort l) := by
  rintro ⟨z, hN, hl⟩
  obtain ⟨r, rfl, -⟩ := hl.of_sort hL
  cases h.parallels hL hN

/-- A neutral term never becomes a binder, so it is joinable with none. -/
theorem Neutral.not_joinable_bind {L : Level → Level → Prop} (hL : Level.Congruence L)
    {ν : List (Option Term)} {N t b : Term} {k : Binder} {n : Name} (h : Neutral sig N) :
    ¬ Joinable L sig ν N (.bind k n t b) := by
  rintro ⟨z, hN, hbind⟩
  obtain ⟨m, u, c, rfl, -⟩ := hbind.of_bind
  cases h.parallels hL hN

/-- A sort and a binder keep their forms, so they are never joinable. -/
theorem Joinable.not_sort_bind {L : Level → Level → Prop} (hL : Level.Congruence L)
    {ν : List (Option Term)} {t b : Term} {l : Level} {k : Binder} {n : Name} :
    ¬ Joinable L sig ν (.sort l) (.bind k n t b) := by
  rintro ⟨z, hl, hbind⟩
  obtain ⟨r, rfl, -⟩ := hl.of_sort hL
  obtain ⟨m, u, c, h, -⟩ := hbind.of_bind
  cases h

namespace Interprets

variable {S S' : Nat → Prop} {U : Nat → Term → Prop} {A A' : Term} {R R' : Term → Prop}

/-- **Joinable types have the same interpretation.** What they come to is joinable,
so it has the same form, with joinable parts. -/
theorem unique (hsig : sig.ClosedValues) (h : Interprets sig ρ S U A R)
    (h' : Interprets sig ρ S' U A' R') (hjoin : Joinable Level.Same sig [] A A') : R = R' := by
  have hL := Level.congruence_same
  -- what the types come to is joinable too
  have hforms {A A' w w' : Term} (hw : Heads sig [] A w) (hw' : Heads sig [] A' w')
      (hjoin : Joinable Level.Same sig [] A A') : Joinable Level.Same sig [] w w' :=
    ((hw.joinable hL).symm.trans hL hsig hjoin).trans hL hsig (hw'.joinable hL)
  induction h generalizing A' R' with
  | neutral _ hN hneutral =>
    cases h' with
    | neutral => rfl
    | sort _ hl => exact absurd (hforms hN hl hjoin) (hneutral.not_joinable_sort hL)
    | pi _ hpi => exact absurd (hforms hN hpi hjoin) (hneutral.not_joinable_bind hL)
    | sigma _ hsigma => exact absurd (hforms hN hsigma hjoin) (hneutral.not_joinable_bind hL)
  | sort _ hl _ =>
    cases h' with
    | neutral _ hN hneutral =>
      exact absurd (hforms hl hN hjoin).symm (hneutral.not_joinable_sort hL)
    | sort _ hr => rw [(hforms hl hr hjoin).of_sort hL ρ]
    | pi _ hpi => exact absurd (hforms hl hpi hjoin) (Joinable.not_sort_bind hL)
    | sigma _ hsigma => exact absurd (hforms hl hsigma hjoin) (Joinable.not_sort_bind hL)
  | pi _ hpi _ _ iht ihb =>
    cases h' with
    | neutral _ hN hneutral =>
      exact absurd (hforms hpi hN hjoin).symm (hneutral.not_joinable_bind hL)
    | sort _ hl => exact absurd (hforms hpi hl hjoin).symm (Joinable.not_sort_bind hL)
    | pi _ hpi' ht' hb' =>
      obtain ⟨-, ht, hb⟩ := (hforms hpi hpi' hjoin).of_bind
      cases iht ht' ht
      funext f
      refine propext (and_congr_right fun _ => forall₂_congr fun a ha => ?_)
      rw [ihb a ha (hb' a ha) (hb.instantiate hL hsig (.refl a))]
    | sigma _ hsigma => cases (hforms hpi hsigma hjoin).of_bind.1
  | sigma _ hsigma _ _ iht ihb =>
    cases h' with
    | neutral _ hN hneutral =>
      exact absurd (hforms hsigma hN hjoin).symm (hneutral.not_joinable_bind hL)
    | sort _ hl => exact absurd (hforms hsigma hl hjoin).symm (Joinable.not_sort_bind hL)
    | pi _ hpi => cases (hforms hsigma hpi hjoin).of_bind.1
    | sigma _ hsigma' ht' hb' =>
      obtain ⟨-, ht, hb⟩ := (hforms hsigma hsigma' hjoin).of_bind
      cases iht ht' ht
      funext p
      refine propext (and_congr_right fun _ => and_congr_right fun ha => ?_)
      rw [ihb _ ha (hb' _ ha) (hb.instantiate hL hsig (.refl _))]

end Interprets

/-! ## Saturated sets -/

/-- A set of tame terms that contains the neutral ones, and what comes to a member
by a head step. -/
structure Saturated (sig : Signature) (R : Term → Prop) : Prop where
  tame : ∀ {t}, R t → Tame sig t
  neutral : ∀ {t}, Neutral sig t → Tame sig t → R t
  head : ∀ {t u}, Tame sig t → Head sig [] t u → R u → R t

theorem tame_fvar (x : Name) : Tame sig (.fvar x) :=
  ⟨Term.looseRange_fvar_le, .fvar x⟩

/-- A saturated set contains every free variable, which stands for an unknown member. -/
theorem Saturated.fvar {R : Term → Prop} (h : Saturated sig R) (x : Name) : R (.fvar x) :=
  h.neutral (.fvar x) (tame_fvar x)

theorem saturated_tame : Saturated sig (Tame sig) where
  tame h := h
  neutral _ h := h
  head h _ _ := h

/-- The types of a universe that are closed and terminate form a saturated set. -/
theorem saturated_universe (k : Nat) : Saturated sig fun t => Tame sig t ∧ Universe sig ρ k t where
  tame h := h.1
  neutral hneutral ht := ⟨ht, universe_iff.mpr ⟨_, .neutral ht .refl hneutral⟩⟩
  head ht hhead hu := by
    obtain ⟨R, hR⟩ := universe_iff.mp hu.2
    exact ⟨ht, universe_iff.mpr ⟨R, hR.of_head ht hhead⟩⟩

/-- Functions between saturated sets form a saturated set: a head step of a function is one of its
applications. -/
theorem saturated_pi (hsig : sig.ClosedValues) {R : Term → Prop} {Q : Term → Term → Prop}
    (hR : Saturated sig R) (hQ : ∀ a, R a → Saturated sig (Q a)) :
    Saturated sig fun f => Tame sig f ∧ ∀ a, R a → Q a (.app f a) where
  tame h := h.1
  neutral {f} hneutral hf := by
    refine ⟨hf, fun a ha => (hQ a ha).neutral (.app a hneutral) ⟨?_, ?_⟩⟩
    · exact Term.looseRange_app_le.mpr ⟨hf.1, (hR.tame ha).1⟩
    · exact hneutral.terminates_app hf.2 (hR.tame ha).2
  head {f g} hf hhead hg := by
    refine ⟨hf, fun a ha => (hQ a ha).head ⟨?_, ?_⟩ (.fn a hhead) (hg.2 a ha)⟩
    · exact Term.looseRange_app_le.mpr ⟨hf.1, (hR.tame ha).1⟩
    · exact .app_head hsig hf.2 (hR.tame ha).2 hhead ((hQ a ha).tame (hg.2 a ha)).2

/-- The second component of a pair is a member for its first component, however that
is written. -/
theorem saturated_sigma (hsig : sig.ClosedValues) {R : Term → Prop} {Q : Term → Term → Prop}
    (hR : Saturated sig R) (hQ : ∀ a, R a → Saturated sig (Q a))
    (hhead : ∀ p q, R (.proj1 p) → R (.proj1 q) → Head sig [] p q → Q (.proj1 p) = Q (.proj1 q)) :
    Saturated sig fun p => Tame sig p ∧ R (.proj1 p) ∧ Q (.proj1 p) (.proj2 p) where
  tame h := h.1
  neutral {p} hneutral hp := by
    have htame (k : Side) : Tame sig (.proj k p) :=
      ⟨Term.looseRange_proj_le.mpr hp.1, hneutral.terminates_proj hp.2⟩
    have hfst := hR.neutral (.proj .fst hneutral) (htame .fst)
    exact ⟨hp, hfst, (hQ _ hfst).neutral (.proj .snd hneutral) (htame .snd)⟩
  head {p q} hp hstep hq := by
    have htame (k : Side) (h : Terminates sig [] (.proj k q)) : Tame sig (.proj k p) :=
      ⟨Term.looseRange_proj_le.mpr hp.1, .proj_head hsig hp.2 hstep h⟩
    have hfst := hR.head (htame .fst (hR.tame hq.2.1).2) (.target .fst hstep) hq.2.1
    refine ⟨hp, hfst, ?_⟩
    have hsnd := hq.2.2
    rw [← hhead p q hfst hq.2.1 hstep] at hsnd
    have hsat := hQ _ hfst
    exact hsat.head (htame .snd (hsat.tame hsnd).2) (.target .snd hstep) hsnd

/-- **Every interpretation is saturated.** -/
theorem Interprets.saturated (hsig : sig.ClosedValues) {S : Nat → Prop} {A : Term}
    {R : Term → Prop} (h : Interprets sig ρ S (Universe sig ρ) A R) : Saturated sig R := by
  induction h with
  | neutral => exact saturated_tame
  | sort => exact saturated_universe _
  | pi _ _ _ _ ihR ihQ => exact saturated_pi hsig ihR ihQ
  | sigma _ _ _ hQ ihR ihQ =>
    refine saturated_sigma hsig ihR ihQ fun p q hp hq hstep => ?_
    have hL := Level.congruence_same
    have hfst : Joinable Level.Same sig [] (.proj1 p) (.proj1 q) :=
      .of_parallel (.proj (hstep.step.parallel hL))
    exact (hQ _ hp).unique hsig (hQ _ hq) ((Joinable.refl _).instantiate hL hsig hfst)

end TypeTheory
