import TypeTheory.Proofs.Conversion.Rigid
import TypeTheory.Proofs.Normalization.Declarations
import TypeTheory.Proofs.Normalization.Descent
import TypeTheory.Proofs.Typing.Weakening

/-!
# Contexts with members

A context is valid if it looks at no variable beyond it and its variables can be filled
with members of their types (`Context.Valid`), and a term is a valid type if it is a type
in every such filling (`ValidType`). Over a sound signature, what the rules find for a
term is a valid type (`Accepts.validType`), and so is a term whose type is a sort. Valid
types terminate, so they have weak-head normal forms, and the parts of a dependent type
are valid types.
-/

namespace TypeTheory

open Relation Term

variable {sig : Signature} {ρ : Name → Nat} {Γ : Context} {γ : Nat → Term}
  {e s t u v A B a b : Term} {n m : Name} {k : Binder} {l : Level}

/-! ## Fillings -/

/-- A filling without what it puts for the last variable. -/
theorem Models.tail {entry : Entry} (h : Models sig ρ (entry :: Γ) γ) :
    Models sig ρ Γ fun i => γ (i + 1) where
  closed i := h.closed (i + 1)
  settles i v hv := by
    have hi := h.settles (i + 1) v hv
    rw [fill_shift] at hi ⊢
    exact hi
  member i other hother := by
    have hi := h.member (i + 1) other hother
    rw [fill_shift] at hi ⊢
    exact hi

theorem Models.head {entry : Entry} (h : Models sig ρ (entry :: Γ) γ) :
    Member sig ρ (entry.type.fill fun i => γ (i + 1)) (γ 0) := by
  have hmember := h.member 0 entry rfl
  rwa [fill_shift] at hmember

/-- A term that terminates when it is filled terminates. -/
theorem Models.terminates (h : Models sig ρ Γ γ) (hsig : sig.ClosedValues)
    (he : Tame sig (e.fill γ)) : Terminates sig Γ.values e :=
  he.2.of_fill hsig h.settles.sustains

/-! ## Valid contexts and types -/

/-- A context in scope whose variables can be filled with members of their types. -/
structure Context.Valid (sig : Signature) (ρ : Name → Nat) (Γ : Context) : Prop where
  scope : Context.AgreeTo Γ.length Γ Γ
  inhabited : ∃ γ, Models sig ρ Γ γ

/-- A term in scope that is a type however the variables are filled. -/
structure ValidType (sig : Signature) (ρ : Name → Nat) (Γ : Context) (A : Term) : Prop where
  scope : A.looseRange ≤ Γ.length
  isType : ∀ γ, Models sig ρ Γ γ → IsType sig ρ (A.fill γ)

theorem Context.valid_nil : Context.Valid sig ρ [] :=
  ⟨.zero, _, Environment.models_nil⟩

section

variable (hsig : sig.ClosedValues)

include hsig

/-- A valid type may be put in front of a valid context, since some free variable is a member of
it. -/
theorem Context.Valid.push (h : Γ.Valid sig ρ) (hA : ValidType sig ρ Γ A) (n : Name) :
    (Γ.push n A).Valid sig ρ := by
  obtain ⟨γ, hγ⟩ := h.inhabited
  exact ⟨h.scope.push hA.scope n, _, hγ.push hsig ((hA.isType γ hγ).fvar hsig .anonymous)⟩

namespace ValidType

theorem terminates (h : ValidType sig ρ Γ A) (hΓ : Γ.Valid sig ρ) :
    Terminates sig Γ.values A := by
  obtain ⟨γ, hγ⟩ := hΓ.inhabited
  exact hγ.terminates hsig (h.isType γ hγ).tame

theorem exists_evaluates (h : ValidType sig ρ Γ A) (hΓ : Γ.Valid sig ρ) (δ : Bool) :
    ∃ r, Evaluates sig δ Γ A r :=
  (h.terminates hsig hΓ).exists_evaluates hsig δ hΓ.scope h.scope

theorem family (h : ValidType sig ρ Γ A) (hA : Evaluates sig true Γ A (.bind k n t b))
    (hγ : Models sig ρ Γ γ) : Family sig ρ (t.fill γ) (b.fill (lift γ)) :=
  (h.isType γ hγ).family hsig (hγ.heads hsig hA.heads)

theorem domain (h : ValidType sig ρ Γ A) (hΓ : Γ.Valid sig ρ)
    (hA : Evaluates sig true Γ A (.bind k n t b)) : ValidType sig ρ Γ t where
  scope := (looseRange_bind_le.mp (hA.of_agreeTo hsig hΓ.scope h.scope).2).1
  isType _ hγ := (h.family hsig hA hγ).domain

/-- The body of a dependent type, for a variable whose type is joinable with the
domain. -/
theorem body (h : ValidType sig ρ Γ A) (hΓ : Γ.Valid sig ρ)
    (hA : Evaluates sig true Γ A (.bind k n t b)) (hu : ValidType sig ρ Γ u)
    (hut : Joinable Level.Equiv sig Γ.values u t) : ValidType sig ρ (Γ.push m u) b where
  scope := (looseRange_bind_le.mp (hA.of_agreeTo hsig hΓ.scope h.scope).2).2
  isType γ hγ := by
    have hfamily := h.family hsig hA hγ.tail
    have hsame := hγ.tail.joinable hsig (hut.mono fun _ _ => Level.same_of_equiv)
    have hbody := hfamily.body (γ 0)
    rw [instantiate_fill_lift, extend_eta,
      ← (hu.isType _ hγ.tail).member_eq hsig hfamily.domain hsame] at hbody
    exact hbody hγ.head

/-- A valid type that is joinable with a sort is one. -/
theorem exists_sort (h : ValidType sig ρ Γ A) (hΓ : Γ.Valid sig ρ)
    (hA : Joinable Level.Equiv sig Γ.values A (.sort l)) :
    ∃ r, Evaluates sig true Γ A (.sort r) ∧ Level.Equiv r l := by
  have hL := Level.congruence_equiv
  obtain ⟨r, hr⟩ := h.exists_evaluates hsig hΓ true
  have hjoin := (Joinable.of_parallels (hr.steps.parallels hL)).symm.trans hL hsig hA
  cases (hr.rigid hL hsig).joinable hL (.sort l) hjoin with
  | sort hl => exact ⟨_, hr, hl⟩

/-- A valid type that is joinable with a dependent type is one, with joinable parts. -/
theorem exists_bind (h : ValidType sig ρ Γ A) (hΓ : Γ.Valid sig ρ)
    (hA : Joinable Level.Equiv sig Γ.values A (.bind k n t b)) :
    ∃ m u c, Evaluates sig true Γ A (.bind k m u c) ∧ Joinable Level.Equiv sig Γ.values u t ∧
      Joinable Level.Equiv sig (none :: Γ.values) c b := by
  have hL := Level.congruence_equiv
  obtain ⟨r, hr⟩ := h.exists_evaluates hsig hΓ true
  have hjoin := (Joinable.of_parallels (hr.steps.parallels hL)).symm.trans hL hsig hA
  cases (hr.rigid hL hsig).joinable hL (.bind k n t b) hjoin with
  | bind ht hb => exact ⟨_, _, _, hr, ht, hb⟩

omit hsig in
/-- A type from outside, where there is one more variable. -/
theorem shift (h : ValidType sig ρ Γ A) (entry : Entry) :
    ValidType sig ρ (entry :: Γ) (A.shift 0 1) where
  scope := looseRange_shift_le h.scope 0
  isType γ hγ := by
    rw [fill_shift_one]
    exact h.isType _ hγ.tail

end ValidType

end

/-! ## Typing -/

section

variable (hsound : sig.Sound sig ρ)

include hsound

/-- What is accepted is a member of its type. -/
theorem Accepts.member_of_models {mode : Mode} (h : Judges sig mode Γ e t)
    (hγ : Models sig ρ Γ γ) (ht : mode = .check → ValidType sig ρ Γ t) :
    Member sig ρ (t.fill γ) (e.fill γ) :=
  (h.derives fun _ _ hd => hd).member hsound hγ fun hmode => (ht hmode).isType γ hγ

/-- What the rules accept in a valid context terminates there, if the type it is checked against is
valid. -/
theorem Accepts.terminates {mode : Mode} (h : Judges sig mode Γ e t) (hΓ : Γ.Valid sig ρ)
    (ht : mode = .check → ValidType sig ρ Γ t) : Terminates sig Γ.values e := by
  obtain ⟨γ, hγ⟩ := hΓ.inhabited
  exact hγ.terminates hsound.values ((h.member_of_models hsound hγ ht).tame hsound.values)

/-- **What the rules find for a term is a valid type.** -/
theorem Accepts.validType (h : Judges sig .infer Γ e t) (hΓ : Γ.Valid sig ρ) :
    ValidType sig ρ Γ t where
  scope := by
    refine (h.of_agreeTo hsound.types (fun n Γ Γ' x y hΓ hx hxy => ?_)
      (fun n Γ Γ' x y hΓ hx hy hxy => ?_) hΓ.scope h.looseRange_le fun h => by cases h).2
    · exact hxy.of_agreeTo hsound.values hΓ hx
    · exact hxy.of_valuesAgree hsound.values hΓ.values hx hy
  isType γ hγ := (h.member_of_models hsound hγ fun h => by cases h).isType

/-- **A term whose type is a sort is a valid type.** -/
theorem Accepts.validType_of_sort (h : Judges sig .infer Γ t s)
    (hs : Evaluates sig true Γ s (.sort l)) : ValidType sig ρ Γ t where
  scope := h.looseRange_le
  isType γ hγ := ((h.member_of_models hsound hγ fun h => by cases h).isType_of_sort hsound.values
    (hγ.heads hsound.values hs.heads)).2

/-- A valid type with an accepted value may be put in front of a valid context. -/
theorem Context.Valid.pushLet (h : Γ.Valid sig ρ) (hA : ValidType sig ρ Γ A)
    (hv : Judges sig .check Γ v A) (n : Name) : (Γ.pushLet n A v).Valid sig ρ := by
  obtain ⟨γ, hγ⟩ := h.inhabited
  exact ⟨h.scope.pushLet hA.scope hv.looseRange_le n, _,
    hγ.pushLet hsound.values (hv.member_of_models hsound hγ fun _ => hA)⟩

/-- The body of a dependent type at a member of the domain. -/
theorem ValidType.instantiate (h : ValidType sig ρ Γ A) (hΓ : Γ.Valid sig ρ)
    (hA : Evaluates sig true Γ A (.bind k n t b)) (ha : Judges sig .check Γ a t) :
    ValidType sig ρ Γ (b.instantiate a) where
  scope := looseRange_instantiate_le
    (looseRange_bind_le.mp (hA.of_agreeTo hsound.values hΓ.scope h.scope).2).2 ha.looseRange_le
  isType γ hγ := by
    have hmember := ha.member_of_models hsound hγ fun _ => h.domain hsound.values hΓ hA
    rw [fill_instantiate]
    exact (h.family hsound.values hA hγ).body _ hmember

end

end TypeTheory
