import TypeTheory.Proofs.Typing.Validity

/-!
# Substitution

A filling carries a context over to another one (`Carries`) if what it puts for a variable
is accepted for a type that is joinable with the type of the variable, and what it puts
for a variable with a value reduces to the value. The type that is found for what is put
for a variable may be another one, as it is for a pair. So the types of what is put have
to be found for those variables only whose types are asked for (`Term.AsksOnly`).

What the rules accept is then accepted once it is filled, for a type that is joinable with
the filled one (`Accepts.fill`). The types that are found before and after differ, since
types are found by reduction. That what is found after has a weak-head normal form at all
is because it is a valid type.
-/

namespace TypeTheory

open Relation Term

variable {sig : Signature} {ρ : Name → Nat} {Γ Γ' : Context} {σ : Nat → Term} {U : Nat → Prop}
  {e s t u A a b : Term} {n : Name} {k : Binder} {l : Level}

/-! ## Joinable types -/

/-- The weak-head normal form of a type, for a type that is joinable with it. -/
theorem Joinable.of_evaluates (hsig : sig.ClosedValues)
    (h : Joinable Level.Equiv sig Γ.values A s) (hs : Evaluates sig true Γ s t) :
    Joinable Level.Equiv sig Γ.values A t :=
  h.trans Level.congruence_equiv hsig (.of_parallels (hs.steps.parallels Level.congruence_equiv))

/-- **A term is accepted for joinable types alike.** By induction on the rules. -/
theorem Accepts.check_of_joinable (hsound : sig.Sound sig ρ) {mode : Mode}
    (h : Judges sig mode Γ e t) (hmode : mode = .check) (hΓ : Γ.Valid sig ρ)
    (hA : ValidType sig ρ Γ A) (hjoin : Joinable Level.Equiv sig Γ.values A t) :
    Judges sig .check Γ e A := by
  have hL := Level.congruence_equiv
  have hsig := hsound.values
  induction h generalizing A with
  | bvar | sort | const | app | lam | quantifier | letE | pair | fst | snd => cases hmode
  | @checkLam Γ n m s t t' b b' e l he ht hs htt' _ _ ihb =>
    obtain ⟨m', u, c, hpi, hu, hc⟩ := hA.exists_bind hsig hΓ (hjoin.of_evaluates hsig he)
    have htype := ht.validType_of_sort hsound hs
    have htu := htt'.trans hL hsig hu.symm
    exact .checkLam hpi ht hs htu
      (ihb rfl (hΓ.push hsig htype n) (hA.body hsig hΓ hpi htype htu) hc)
  | @checkLet Γ n s t v b e l ht hs hv _ _ _ ihb =>
    have htype := ht.validType_of_sort hsound hs
    exact .checkLet ht hs hv
      (ihb rfl (hΓ.pushLet hsound htype hv n) (hA.shift _) (hjoin.shift hsig _))
  | checkPair he _ _ iha ihb =>
    obtain ⟨m, u, c, hsigma, hu, hc⟩ := hA.exists_bind hsig hΓ (hjoin.of_evaluates hsig he)
    have ha := iha rfl hΓ (hA.domain hsig hΓ hsigma) hu
    exact .checkPair hsigma ha
      (ihb rfl hΓ (hA.instantiate hsound hΓ hsigma ha) (hc.instantiate hL hsig (.refl _)))
  | compare hs hst _ => exact .compare hs (hst.trans hL hsig hjoin.symm)

/-! ## Fillings that carry a context over -/

/-- The variables of a scope and the variable of a binder. -/
def underBinder (U : Nat → Prop) : Nat → Prop
  | 0 => True
  | i + 1 => U i

/-- Finding the type of a term, or checking the term, asks for the types of no variables
but those in `U`. A variable that is checked has its type compared, but what is put for it
may be checked in its place. -/
def Term.AsksOnly : Term → Mode → (Nat → Prop) → Prop
  | .bvar i, mode, U => mode = .infer → U i
  | .fvar _, _, _ | .sort _, _, _ | .const _ _, _, _ => True
  | .app f a, _, U => f.AsksOnly .infer U ∧ a.AsksOnly .check U
  | .bind k _ t b, mode, U =>
    t.AsksOnly .infer U ∧ b.AsksOnly (if k = .lam then mode else .infer) (underBinder U)
  | .letE _ t v b, mode, U =>
    t.AsksOnly .infer U ∧ v.AsksOnly .check U ∧ b.AsksOnly mode (underBinder U)
  | .pair a b, mode, U => a.AsksOnly mode U ∧ b.AsksOnly mode U
  | .proj _ p, _, U => p.AsksOnly .infer U

/-- A filling that puts terms of the same types for the variables of a context. The types
of what is put for the variables in `U` are found. -/
structure Carries (sig : Signature) (ρ : Name → Nat) (U : Nat → Prop) (Γ Γ' : Context)
    (σ : Nat → Term) : Prop where
  value : ∀ i v, Γ.values[i]? = some (some v) →
    Parallel Level.Equiv sig Γ'.values (σ i) ((v.shift 0 (i + 1)).fill σ)
  check : ∀ i entry, Γ[i]? = some entry → ∃ s, Judges sig .check Γ' (σ i) s ∧
    ValidType sig ρ Γ' s ∧
      Joinable Level.Equiv sig Γ'.values s ((entry.type.shift 0 (i + 1)).fill σ)
  infer : ∀ i entry, Γ[i]? = some entry → U i → ∃ s, Judges sig .infer Γ' (σ i) s ∧
    Joinable Level.Equiv sig Γ'.values s ((entry.type.shift 0 (i + 1)).fill σ)

namespace Carries

variable (h : Carries sig ρ U Γ Γ' σ)

include h

theorem fills : Parallel.Fills Level.Equiv sig Γ.values Γ'.values σ σ :=
  ⟨fun i => .refl Level.congruence_equiv (σ i), h.value⟩

variable (hsound : sig.Sound sig ρ)

include hsound

/-- Under one more variable, whose type and value are filled as well. -/
theorem cons {entry entry' : Entry} (htype : entry'.type = entry.type.fill σ)
    (hvalue : entry'.value = entry.value.map (fill σ)) (hvalid : ValidType sig ρ Γ' entry'.type) :
    Carries sig ρ (underBinder U) (entry :: Γ) (entry' :: Γ') (lift σ) := by
  have hsig := hsound.values
  have hself : (entry.type.shift 0 (((0 : Nat) : Int) + 1)).fill (lift σ) =
      entry'.type.shift 0 1 := by
    rw [htype]
    exact fill_lift_shift_one entry.type σ
  -- a type for a variable of the context, seen from under the binder
  have hshift {i : Nat} {other : Entry} {s : Term} (hs : Joinable Level.Equiv sig Γ'.values s
      ((other.type.shift 0 (i + 1)).fill σ)) : Joinable Level.Equiv sig
        (Context.values (entry' :: Γ')) (s.shift 0 1)
        ((other.type.shift 0 (((i + 1 : Nat) : Int) + 1)).fill (lift σ)) := by
    have hs := hs.shift hsig entry'.value
    rw [fill_shift, shift_one_eq_rename (fill _ _), rename_fill] at hs
    rw [fill_shift]
    exact hs
  refine ⟨fun i v hv => ?_, fun i other hother => ?_, fun i other hother hU => ?_⟩
  · cases i with
    | zero =>
      have hentry : entry.value = some v := Option.some.inj hv
      rw [hentry] at hvalue
      have hlookup : (v.shift 0 (((0 : Nat) : Int) + 1)).fill (lift σ) =
          (v.fill σ).shift 0 (((0 : Nat) : Int) + 1) := fill_lift_shift_one v σ
      rw [hlookup]
      exact .lookup (congrArg some hvalue)
    | succ i =>
      have hshift := (h.value i v hv).shift hsig entry'.value
      rw [fill_shift, rename_fill] at hshift
      rw [fill_shift]
      exact hshift
  · cases i with
    | zero =>
      cases Option.some.inj hother
      rw [hself]
      exact ⟨_, .compare (.bvar rfl) (.refl _), hvalid.shift entry', .refl _⟩
    | succ i =>
      obtain ⟨s, hs, hvalid', hjoin⟩ := h.check i other hother
      exact ⟨_, hs.shift hsig hsound.types entry', hvalid'.shift entry', hshift hjoin⟩
  · cases i with
    | zero =>
      cases Option.some.inj hother
      rw [hself]
      exact ⟨_, .bvar rfl, .refl _⟩
    | succ i =>
      obtain ⟨s, hs, hjoin⟩ := h.infer i other hother hU
      exact ⟨_, hs.shift hsig hsound.types entry', hshift hjoin⟩

theorem push (ht : ValidType sig ρ Γ' (t.fill σ)) (n : Name) :
    Carries sig ρ (underBinder U) (Γ.push n t) (Γ'.push n (t.fill σ)) (lift σ) :=
  h.cons hsound rfl rfl ht

theorem pushLet (ht : ValidType sig ρ Γ' (t.fill σ)) (n : Name) (v : Term) :
    Carries sig ρ (underBinder U) (Γ.pushLet n t v) (Γ'.pushLet n (t.fill σ) (v.fill σ))
      (lift σ) :=
  h.cons hsound rfl rfl ht

/-- What is joinable with a type is joinable with its weak-head normal form. -/
theorem joinable (hA : Joinable Level.Equiv sig Γ'.values A (s.fill σ))
    (hs : Evaluates sig true Γ s t) : Joinable Level.Equiv sig Γ'.values A (t.fill σ) :=
  hA.trans Level.congruence_equiv hsound.values
    (.of_parallels ((hs.steps.parallels Level.congruence_equiv).fill hsound.values h.fills))

/-- The dependent type that a filled type has. -/
theorem exists_bind (hΓ' : Γ'.Valid sig ρ) (hA : ValidType sig ρ Γ' A)
    (hjoin : Joinable Level.Equiv sig Γ'.values A (s.fill σ))
    (hs : Evaluates sig true Γ s (.bind k n t b)) :
    ∃ m u c, Evaluates sig true Γ' A (.bind k m u c) ∧
      Joinable Level.Equiv sig Γ'.values u (t.fill σ) ∧
      Joinable Level.Equiv sig (none :: Γ'.values) c (b.fill (lift σ)) :=
  hA.exists_bind hsound.values hΓ' (h.joinable hsound hjoin hs)

end Carries

/-- A term that is accepted for the type of the last variable carries its context over to
the rest. -/
theorem carries_extend (hsound : sig.Sound sig ρ) (hΓ : Γ.Valid sig ρ)
    (ht : ValidType sig ρ Γ t) (ha : Judges sig .check Γ a t)
    (hinfer : U 0 → ∃ s, Judges sig .infer Γ a s ∧ Joinable Level.Equiv sig Γ.values s t) :
    Carries sig ρ U (Γ.push n t) Γ (extend a bvar) := by
  have hself : (t.shift 0 (((0 : Nat) : Int) + 1)).fill (extend a bvar) = t := by
    rw [fill_shift]
    exact fill_bvar_self t
  have hshift (i : Nat) (other : Term) : (other.shift 0 (((i + 1 : Nat) : Int) + 1)).fill
      (extend a bvar) = other.shift 0 ((i : Int) + 1) := by
    rw [fill_shift, shift_succ_eq_rename, rename_eq_fill]
    rfl
  refine ⟨(Parallel.fills_extend Level.congruence_equiv (.refl Level.congruence_equiv a)
    fun v hv => by cases hv).value, fun i entry hentry => ?_, fun i entry hentry hU => ?_⟩
  · cases i with
    | zero =>
      cases Option.some.inj hentry
      rw [hself]
      exact ⟨t, ha, ht, .refl t⟩
    | succ i =>
      have hbvar : Judges sig .infer Γ (.bvar i) (entry.type.shift 0 ((i : Int) + 1)) :=
        .bvar hentry
      rw [hshift]
      exact ⟨_, .compare hbvar (.refl _), hbvar.validType hsound hΓ, .refl _⟩
  · cases i with
    | zero =>
      cases Option.some.inj hentry
      rw [hself]
      exact hinfer hU
    | succ i =>
      rw [hshift]
      exact ⟨_, .bvar hentry, .refl _⟩

/-! ## Filled terms -/

theorem Term.fill_prod (t u : Term) (σ : Nat → Term) :
    (t.prod u).fill σ = (t.fill σ).prod (u.fill σ) := by
  unfold prod
  rw [← fill_lift_shift_one]
  rfl

/-- A type is found for the term that is joinable with the given one. -/
def FoundFor (sig : Signature) (Γ : Context) (e t : Term) : Prop :=
  ∃ s, Judges sig .infer Γ e s ∧ Joinable Level.Equiv sig Γ.values s t

/-- The term is accepted for the types that are joinable with the given one. -/
def AcceptedFor (sig : Signature) (ρ : Name → Nat) (Γ : Context) (e t : Term) : Prop :=
  ∀ A, ValidType sig ρ Γ A → Joinable Level.Equiv sig Γ.values A t → Judges sig .check Γ e A

/-- A term whose type is found joinable with a type is accepted for every type that is joinable with
that. -/
theorem FoundFor.accepted (hsig : sig.ClosedValues) (h : FoundFor sig Γ e t) :
    AcceptedFor sig ρ Γ e t := by
  intro A _ hjoin
  obtain ⟨s, hs, hst⟩ := h
  exact .compare hs (hst.trans Level.congruence_equiv hsig hjoin.symm)

/-- The sort of a filled type, and that the type is valid. -/
theorem Carries.sorted (hσ : Carries sig ρ U Γ Γ' σ) (hsound : sig.Sound sig ρ)
    (hΓ' : Γ'.Valid sig ρ) (ht : FoundFor sig Γ' (t.fill σ) (s.fill σ))
    (hs : Evaluates sig true Γ s (.sort l)) :
    ∃ s' r, Judges sig .infer Γ' (t.fill σ) s' ∧ Evaluates sig true Γ' s' (.sort r) ∧
      Level.Equiv r l ∧ ValidType sig ρ Γ' (t.fill σ) := by
  obtain ⟨s', hs', hjoin⟩ := ht
  obtain ⟨r, hr, hrl⟩ := (hs'.validType hsound hΓ').exists_sort hsound.values hΓ'
    (hσ.joinable hsound hjoin hs)
  exact ⟨s', r, hs', hr, hrl, hs'.validType_of_sort hsound hr⟩

/-! ### Forms that are checked part by part -/

section

variable (hσ : Carries sig ρ U Γ Γ' σ) (hsound : sig.Sound sig ρ) (hΓ' : Γ'.Valid sig ρ)
  (hA : ValidType sig ρ Γ' A)

include hσ hsound hΓ' hA

/-- A function that was found is accepted, filled, for a function type with a joinable domain and
body. -/
theorem Carries.check_lam {m : Name} {u d d' : Term}
    (ht : FoundFor sig Γ' (t.fill σ) (s.fill σ)) (hs : Evaluates sig true Γ s (.sort l))
    (hpi : Evaluates sig true Γ' A (.pi m d d'))
    (htd : Joinable Level.Equiv sig Γ'.values (t.fill σ) d)
    (hd' : Joinable Level.Equiv sig (none :: Γ'.values) d' u)
    (hb : ValidType sig ρ Γ' (t.fill σ) →
      AcceptedFor sig ρ (Γ'.push n (t.fill σ)) (b.fill (lift σ)) u) :
    Judges sig .check Γ' ((Term.lam n t b).fill σ) A := by
  obtain ⟨s', r, hs', hr, -, ht⟩ := hσ.sorted hsound hΓ' ht hs
  exact .checkLam hpi hs' hr htd (hb ht d' (hA.body hsound.values hΓ' hpi ht htd) hd')

/-- A local definition that was found is accepted, filled, for a type that is joinable once the
value is in the context. -/
theorem Carries.check_letE {u v : Term} (ht : FoundFor sig Γ' (t.fill σ) (s.fill σ))
    (hs : Evaluates sig true Γ s (.sort l)) (hv : AcceptedFor sig ρ Γ' (v.fill σ) (t.fill σ))
    (hu : Joinable Level.Equiv sig (some (v.fill σ) :: Γ'.values) (A.shift 0 1) u)
    (hb : ValidType sig ρ Γ' (t.fill σ) → Judges sig .check Γ' (v.fill σ) (t.fill σ) →
      AcceptedFor sig ρ (Γ'.pushLet n (t.fill σ) (v.fill σ)) (b.fill (lift σ)) u) :
    Judges sig .check Γ' ((Term.letE n t v b).fill σ) A := by
  obtain ⟨s', r, hs', hr, -, ht⟩ := hσ.sorted hsound hΓ' ht hs
  have hv := hv _ ht (.refl _)
  exact .checkLet hs' hr hv (hb ht hv _ (hA.shift _) hu)

omit hσ in
/-- A pair is accepted for a pair type if its parts are accepted for joinable types. -/
theorem Context.Valid.check_pair {d d' u : Term} (hsigma : Evaluates sig true Γ' A (.sigma n d d'))
    (hd : Joinable Level.Equiv sig Γ'.values d t)
    (hd' : Joinable Level.Equiv sig Γ'.values (d'.instantiate a) u)
    (ha : AcceptedFor sig ρ Γ' a t) (hb : AcceptedFor sig ρ Γ' b u) :
    Judges sig .check Γ' (.pair a b) A := by
  have ha := ha d (hA.domain hsound.values hΓ' hsigma) hd
  exact .checkPair hsigma ha (hb _ (hA.instantiate hsound hΓ' hsigma ha) hd')

end

/-! ### All forms -/

/-- What becomes of a term that is filled: a type is found for it if one was found before,
and it is accepted, provided that it asks for no types but those in `U`. -/
structure Filled (sig : Signature) (ρ : Name → Nat) (U : Nat → Prop) (Γ' : Context) (mode : Mode)
    (e e' t : Term) : Prop where
  found : mode = .infer → e.AsksOnly .infer U → FoundFor sig Γ' e' t
  accepted : e.AsksOnly .check U → AcceptedFor sig ρ Γ' e' t

/-- A form that asks for the same types either way. -/
theorem Filled.of_found (hsig : sig.ClosedValues) {mode : Mode} {e' : Term}
    (hsame : e.AsksOnly .check U → e.AsksOnly .infer U)
    (hfound : e.AsksOnly .infer U → FoundFor sig Γ' e' t) : Filled sig ρ U Γ' mode e e' t :=
  ⟨fun _ => hfound, fun hcheck => (hfound (hsame hcheck)).accepted hsig⟩

theorem Filled.of_accepted {e' : Term} (h : e.AsksOnly .check U → AcceptedFor sig ρ Γ' e' t) :
    Filled sig ρ U Γ' .check e e' t :=
  ⟨fun hmode => Mode.noConfusion hmode, h⟩

/-- **What the rules accept is accepted once it is filled**, up to joinable types. By
induction on the rules. A term whose type is found may be checked after it is filled, where
fewer types are asked for. -/
theorem Accepts.fill (hsound : sig.Sound sig ρ) {mode : Mode} (h : Judges sig mode Γ e t)
    (hσ : Carries sig ρ U Γ Γ' σ) (hΓ' : Γ'.Valid sig ρ) :
    Filled sig ρ U Γ' mode e (e.fill σ) (t.fill σ) := by
  have hL := Level.congruence_equiv
  have hsig := hsound.values
  induction h generalizing Γ' σ U with
  | bvar hentry =>
    refine ⟨fun _ hU => hσ.infer _ _ hentry (hU rfl), fun _ A hA hjoin => ?_⟩
    obtain ⟨s, hs, -, hst⟩ := hσ.check _ _ hentry
    exact hs.check_of_joinable hsound rfl hΓ' hA (hjoin.trans hL hsig hst.symm)
  | sort l => exact .of_found hsig id fun _ => ⟨_, .sort l, .refl _⟩
  | const hd hlength =>
    rw [fill_of_closed (looseRange_substLevels_le _ (hsound.types _ _ hd))]
    exact .of_found hsig id fun _ => ⟨_, .const hd hlength, .refl _⟩
  | app _ hs _ ihf iha =>
    refine .of_found hsig id fun hasks => ?_
    obtain ⟨s', hs', hjoin⟩ := (ihf hσ hΓ').found rfl hasks.1
    have hvalid := hs'.validType hsound hΓ'
    obtain ⟨m, u, c, hpi, hu, hc⟩ := hσ.exists_bind hsound hΓ' hvalid hjoin hs
    have ha := (iha hσ hΓ').accepted hasks.2 u (hvalid.domain hsig hΓ' hpi) hu
    rw [fill_instantiate]
    exact ⟨_, .app hs' hpi ha, hc.instantiate hL hsig (.refl _)⟩
  | @lam Γ n s t b u l _ hs _ iht ihb =>
    refine ⟨fun _ hasks => ?_, fun hasks A hA hjoin => ?_⟩
    · have ht := (iht hσ hΓ').found rfl hasks.1
      obtain ⟨s', r, hs', hr, -, ht⟩ := hσ.sorted hsound hΓ' ht hs
      have hbody := ihb (hσ.push hsound ht n) (hΓ'.push hsig ht n)
      obtain ⟨u', hu', hjoin⟩ := hbody.found rfl hasks.2
      exact ⟨_, .lam hs' hr hu', .bind hL (.refl _) hjoin⟩
    · obtain ⟨m, d, d', hpi, hd, hd'⟩ := hA.exists_bind hsig hΓ' hjoin
      exact hσ.check_lam hsound hΓ' hA ((iht hσ hΓ').found rfl hasks.1) hs hpi hd.symm hd' fun ht =>
        (ihb (hσ.push hsound ht n) (hΓ'.push hsig ht n)).accepted hasks.2
  | @quantifier Γ k n s s' t b l r m hk _ hs _ hs' hm iht ihb =>
    have hasks {mode : Mode} : (Term.bind k n t b).AsksOnly mode U ↔
        t.AsksOnly .infer U ∧ b.AsksOnly .infer (underBinder U) := by
      rw [Term.AsksOnly, if_neg hk]
    refine .of_found hsig (fun h => hasks.mpr (hasks.mp h)) fun h => ?_
    obtain ⟨hasks, hasks'⟩ := hasks.mp h
    obtain ⟨s₁, l', hs₁, hl', hll', ht⟩ := hσ.sorted hsound hΓ' ((iht hσ hΓ').found rfl hasks) hs
    have hσ' := hσ.push hsound ht n
    have hpush := hΓ'.push hsig ht n
    obtain ⟨s₂, r', hs₂, hr', hrr', -⟩ :=
      hσ'.sorted hsound hpush ((ihb hσ' hpush).found rfl hasks') hs'
    refine ⟨_, .quantifier hk hs₁ hl' hs₂ hr' rfl, ?_⟩
    rw [(hll'.max hrr').normalize_eq, ← hm]
    exact .refl _
  | @letE Γ n s t v b u l _ hs _ _ iht ihv ihb =>
    rw [fill_instantiate]
    refine ⟨fun _ hasks => ?_, fun hasks A hA hjoin => ?_⟩
    · have ht := (iht hσ hΓ').found rfl hasks.1
      obtain ⟨s', r, hs', hr, -, ht⟩ := hσ.sorted hsound hΓ' ht hs
      have hv := (ihv hσ hΓ').accepted hasks.2.1 _ ht (.refl _)
      have hbody := ihb (hσ.pushLet hsound ht n v) (hΓ'.pushLet hsound ht hv n)
      obtain ⟨u', hu', hjoin⟩ := hbody.found rfl hasks.2.2
      exact ⟨_, .letE hs' hr hv hu', hjoin.instantiateLet hL hsig⟩
    · have hself := Joinable.instantiate_shift (ν := Γ'.values) hL hsig (u.fill (lift σ)) (v.fill σ)
      have hexpected := (hjoin.shift hsig (some (v.fill σ))).trans hL hsig hself.symm
      exact hσ.check_letE hsound hΓ' hA ((iht hσ hΓ').found rfl hasks.1) hs
        ((ihv hσ hΓ').accepted hasks.2.1) hexpected fun ht hv =>
          (ihb (hσ.pushLet hsound ht n v) (hΓ'.pushLet hsound ht hv n)).accepted hasks.2.2
  | @pair Γ a b t u _ _ iha ihb =>
    rw [fill_prod]
    refine ⟨fun _ hasks => ?_, fun hasks A hA hjoin => ?_⟩
    · obtain ⟨t', ht', hjoin⟩ := (iha hσ hΓ').found rfl hasks.1
      obtain ⟨u', hu', hjoin'⟩ := (ihb hσ hΓ').found rfl hasks.2
      exact ⟨_, .pair ht' hu', .bind hL hjoin (hjoin'.shift hsig none)⟩
    · obtain ⟨m, d, d', hsigma, hd, hd'⟩ := hA.exists_bind hsig hΓ' hjoin
      have hsnd := hd'.instantiate hL hsig (.refl (a.fill σ))
      rw [instantiate_shift_one] at hsnd
      exact hΓ'.check_pair hsound hA hsigma hd hsnd ((iha hσ hΓ').accepted hasks.1)
        ((ihb hσ hΓ').accepted hasks.2)
  | fst _ hs ih =>
    refine .of_found hsig id fun hasks => ?_
    obtain ⟨s', hs', hjoin⟩ := (ih hσ hΓ').found rfl hasks
    obtain ⟨m, u, c, hsigma, hu, -⟩ :=
      hσ.exists_bind hsound hΓ' (hs'.validType hsound hΓ') hjoin hs
    exact ⟨_, .fst hs' hsigma, hu⟩
  | snd _ hs ih =>
    refine .of_found hsig id fun hasks => ?_
    obtain ⟨s', hs', hjoin⟩ := (ih hσ hΓ').found rfl hasks
    obtain ⟨m, u, c, hsigma, -, hc⟩ :=
      hσ.exists_bind hsound hΓ' (hs'.validType hsound hΓ') hjoin hs
    rw [fill_instantiate]
    exact ⟨_, .snd hs' hsigma, hc.instantiate hL hsig (.refl _)⟩
  | @checkLam Γ n m s t t' b b' e l he _ hs htt' _ iht ihb =>
    refine .of_accepted fun hasks A hA hjoin => ?_
    obtain ⟨m', u, c, hpi, hu, hc⟩ := hσ.exists_bind hsound hΓ' hA hjoin he
    have htu := (htt'.fill hsig hσ.fills).trans hL hsig hu.symm
    exact hσ.check_lam hsound hΓ' hA ((iht hσ hΓ').found rfl hasks.1) hs hpi htu hc fun ht =>
      (ihb (hσ.push hsound ht n) (hΓ'.push hsig ht n)).accepted hasks.2
  | @checkLet Γ n s t v b e l _ hs _ _ iht ihv ihb =>
    refine .of_accepted fun hasks A hA hjoin => ?_
    have hexpected := hjoin.shift hsig (some (v.fill σ))
    rw [← fill_lift_shift_one] at hexpected
    exact hσ.check_letE hsound hΓ' hA ((iht hσ hΓ').found rfl hasks.1) hs
      ((ihv hσ hΓ').accepted hasks.2.1) hexpected fun ht hv =>
        (ihb (hσ.pushLet hsound ht n v) (hΓ'.pushLet hsound ht hv n)).accepted hasks.2.2
  | @checkPair Γ n a b t u e he _ _ iha ihb =>
    refine .of_accepted fun hasks A hA hjoin => ?_
    obtain ⟨m, d, d', hsigma, hd, hd'⟩ := hσ.exists_bind hsound hΓ' hA hjoin he
    have hsnd := hd'.instantiate hL hsig (.refl (a.fill σ))
    rw [← fill_instantiate] at hsnd
    exact hΓ'.check_pair hsound hA hsigma hd hsnd ((iha hσ hΓ').accepted hasks.1)
      ((ihb hσ hΓ').accepted hasks.2)
  | compare _ hst ih =>
    refine .of_accepted fun hasks A hA hjoin => ?_
    exact (ih hσ hΓ').accepted hasks A hA (hjoin.trans hL hsig (hst.fill hsig hσ.fills).symm)

/-! ## Contraction -/

/-- Every term asks for the types of some variables only, if all are allowed. -/
theorem Term.asksOnly_of_forall (e : Term) (mode : Mode) (hU : ∀ i, U i) : e.AsksOnly mode U := by
  have hunder {U : Nat → Prop} (hU : ∀ i, U i) (i : Nat) : underBinder U i := by
    cases i with
    | zero => trivial
    | succ i => exact hU i
  induction e generalizing mode U with
  | bvar i => exact fun _ => hU i
  | fvar | sort | const => trivial
  | app f a ihf iha => exact ⟨ihf .infer hU, iha .check hU⟩
  | bind k n t b iht ihb => exact ⟨iht .infer hU, ihb _ (hunder hU)⟩
  | letE n t v b iht ihv ihb => exact ⟨iht .infer hU, ihv .check hU, ihb mode (hunder hU)⟩
  | pair a b iha ihb => exact ⟨iha mode hU, ihb mode hU⟩
  | proj k p ih => exact ih .infer hU

/-- **A type is found for the body at the argument**, if it does not ask for the type of
its variable, or one is found for the argument. -/
theorem Accepts.contract (hsound : sig.Sound sig ρ) (hΓ : Γ.Valid sig ρ)
    (h : Judges sig .infer Γ (.app (.lam n t b) a) s)
    (harg : b.AsksOnly .infer (· ≠ 0) ∨ FoundFor sig Γ a t) :
    FoundFor sig Γ (b.instantiate a) s := by
  cases h with
  | app hlam hpi ha =>
    cases hlam with
    | lam ht hl hb =>
      cases hpi
      have htype := ht.validType_of_sort hsound hl
      rw [instantiate_eq_fill, instantiate_eq_fill]
      rcases harg with hasks | hfound
      · have hσ := carries_extend (n := n) (U := (· ≠ 0)) hsound hΓ htype ha fun h => absurd rfl h
        exact (hb.fill hsound hσ hΓ).found rfl hasks
      · have hσ := carries_extend (n := n) (U := fun _ => True) hsound hΓ htype ha fun _ => hfound
        exact (hb.fill hsound hσ hΓ).found rfl (b.asksOnly_of_forall .infer fun _ => trivial)
    | quantifier hk => exact absurd rfl hk

end TypeTheory
