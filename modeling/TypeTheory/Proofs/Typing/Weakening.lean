import TypeTheory.Proofs.Typing.Bidirectional

/-!
# Weakening

A renaming that takes the entries of one context to the same entries of another
(`Context.Renames`) takes weak-head normal forms to weak-head normal forms and what the
rules accept to what they accept, with the renamed type (`Accepts.rename`). Making room
for one more variable is such a renaming (`Accepts.shift`).
-/

namespace TypeTheory

open Relation Term

variable {sig : Signature} {Γ Γ' : Context} {ξ : Nat → Nat} {e r t v : Term} {n : Name}

/-- Making room under a binder is the same before the renaming as after it. -/
theorem Term.rename_shift_one (e : Term) (ξ : Nat → Nat) :
    (e.shift 0 1).rename (liftIndex ξ) = (e.rename ξ).shift 0 1 := by
  rw [shift_one_eq_rename, shift_one_eq_rename, rename_rename, rename_rename]
  rfl

theorem Term.rename_prod (t u : Term) (ξ : Nat → Nat) :
    (t.prod u).rename ξ = (t.rename ξ).prod (u.rename ξ) := by
  unfold prod
  rw [← rename_shift_one]
  rfl

/-- The same term of an entry of one context and of the entry that it is renamed to. -/
abbrev SameFrom (ξ : Nat → Nat) (i : Nat) (x y : Term) : Prop :=
  y.rename (· + (ξ i + 1)) = x.rename fun j => ξ (j + (i + 1))

/-- A renaming that takes each entry of a context to the same entry of another. -/
def Context.Renames (ξ : Nat → Nat) (Γ Γ' : Context) : Prop :=
  ∀ i entry, Γ[i]? = some entry → ∃ entry', Γ'[ξ i]? = some entry' ∧
    SameFrom ξ i entry.type entry'.type ∧ Option.Rel (SameFrom ξ i) entry.value entry'.value

namespace Context.Renames

/-- A renaming of contexts takes values to values, which is what reduction asks for. -/
theorem values (h : Context.Renames ξ Γ Γ') : Parallel.Renames ξ Γ.values Γ'.values := by
  intro i v hv
  obtain ⟨entry, hentry, hvalue⟩ := Context.values_eq_some.mp hv
  obtain ⟨entry', hentry', -, hsame⟩ := h i entry hentry
  rw [hvalue] at hsame
  generalize hw : entry'.value = w at hsame
  cases hsame with
  | some hsame => exact ⟨_, Context.values_eq_some.mpr ⟨entry', hentry', hw⟩, hsame⟩

/-- Under one more variable with the same type and value. -/
theorem cons (h : Context.Renames ξ Γ Γ') {entry entry' : Entry}
    (htype : entry'.type = entry.type.rename ξ)
    (hvalue : entry'.value = entry.value.map (Term.rename ξ)) :
    Context.Renames (liftIndex ξ) (entry :: Γ) (entry' :: Γ') := by
  have hsame (x : Term) : SameFrom (liftIndex ξ) 0 x (x.rename ξ) := by
    unfold SameFrom
    rw [rename_rename]
    rfl
  have hnext {i : Nat} {x y : Term} (hxy : SameFrom ξ i x y) :
      SameFrom (liftIndex ξ) (i + 1) x y := by
    have hshift := congrArg (Term.rename (· + 1)) hxy
    rw [rename_rename, rename_rename] at hshift
    exact hshift
  intro i other hother
  cases i with
  | zero =>
    cases Option.some.inj hother
    refine ⟨entry', rfl, htype ▸ hsame entry.type, ?_⟩
    rw [hvalue]
    cases entry.value with
    | none => exact .none
    | some v => exact .some (hsame v)
  | succ i =>
    obtain ⟨entry', hentry', htype, hvalue⟩ := h i other hother
    refine ⟨entry', hentry', hnext htype, ?_⟩
    generalize other.value = o, entry'.value = o' at hvalue
    cases hvalue with
    | none => exact .none
    | some hv => exact .some (hnext hv)

theorem push (h : Context.Renames ξ Γ Γ') (n : Name) (t : Term) :
    Context.Renames (liftIndex ξ) (Γ.push n t) (Γ'.push n (t.rename ξ)) :=
  h.cons rfl rfl

theorem pushLet (h : Context.Renames ξ Γ Γ') (n : Name) (t v : Term) :
    Context.Renames (liftIndex ξ) (Γ.pushLet n t v) (Γ'.pushLet n (t.rename ξ) (v.rename ξ)) :=
  h.cons rfl rfl

end Context.Renames

/-- Making room for one more entry renames a context into the longer one. -/
theorem Context.renames_succ (Γ : Context) (entry : Entry) :
    Context.Renames (· + 1) Γ (entry :: Γ) := by
  intro i other hother
  refine ⟨other, hother, rfl, ?_⟩
  cases other.value with
  | none => exact .none
  | some v => exact .some rfl

/-! ## Evaluation -/

theorem Term.isLam_rename (e : Term) (ξ : Nat → Nat) : (e.rename ξ).isLam = e.isLam := by
  cases e with
  | bind k => cases k <;> rfl
  | _ => rfl

/-- A term without a component has none under other names of its variables. -/
theorem Term.component?_rename_eq_none {k : Side} (h : e.component? k = none) (ξ : Nat → Nat) :
    (e.rename ξ).component? k = none := by
  cases e with
  | pair => cases k <;> cases h
  | _ => cases k <;> rfl

/-- A weak-head normal form is one under other names of the variables. -/
theorem Evaluates.rename (hsig : sig.ClosedValues) {δ : Bool} (h : Evaluates sig δ Γ e r)
    (hξ : Context.Renames ξ Γ Γ') : Evaluates sig δ Γ' (e.rename ξ) (r.rename ξ) := by
  induction h with
  | fvar y => exact .fvar y
  | sort l => exact .sort l
  | bind k y t b => exact .bind k y _ _
  | pair a b => exact .pair _ _
  | @bvar i entry hentry hvalue =>
    obtain ⟨entry', hentry', -, hsame⟩ := hξ i entry hentry
    rw [hvalue] at hsame
    generalize hw : entry'.value = w at hsame
    cases hsame with
    | none => exact .bvar hentry' hw
  | @lookup i entry v r hentry hvalue _ ih =>
    obtain ⟨entry', hentry', -, hsame⟩ := hξ i entry hentry
    rw [hvalue] at hsame
    generalize hw : entry'.value = w at hsame
    cases hsame with
    | some hsame =>
      rw [shift_succ_eq_rename, rename_rename, ← hsame, ← shift_succ_eq_rename] at ih
      exact .lookup hentry' hw ih
  | const hnone => exact .const hnone
  | delta hsome _ ih =>
    rw [rename_of_closed (hsig.delta? hsome)] at ih
    exact .delta hsome ih
  | zeta _ ih =>
    rw [Parallel.rename_instantiate] at ih
    exact .zeta ih
  | beta _ _ ihf ih =>
    rw [Parallel.rename_instantiate] at ih
    exact .beta ihf ih
  | app _ hlam ihf => exact .app ihf ((isLam_rename _ ξ).trans hlam)
  | iota _ hq _ ihp ih => exact .iota ihp (Parallel.component?_rename hq ξ) ih
  | proj _ hnone ihp => exact .proj ihp (component?_rename_eq_none hnone ξ)

theorem Joinable.rename (hsig : sig.ClosedValues) {L : Level → Level → Prop}
    {ν ν' : List (Option Term)} {x y : Term} (h : Joinable L sig ν x y)
    (hξ : Parallel.Renames ξ ν ν') : Joinable L sig ν' (x.rename ξ) (y.rename ξ) := by
  obtain ⟨z, hx, hy⟩ := h
  exact ⟨z.rename ξ, hx.lift _ fun _ _ h => h.rename hsig hξ,
    hy.lift _ fun _ _ h => h.rename hsig hξ⟩

/-! ## Typing -/

/-- A term whose variables have entries is in scope. -/
theorem Accepts.looseRange_le {V E : Context → Term → Term → Prop} {J : Level → Level → Prop}
    {mode : Mode} (h : Accepts sig V E J mode Γ e t) : e.looseRange ≤ Γ.length := by
  have hclosed {e : Term} {n : Nat} (h : e.looseRange ≤ 0) : e.looseRange ≤ n :=
    Nat.le_trans h (Nat.zero_le n)
  induction h with
  | bvar hentry =>
    obtain ⟨hi, -⟩ := List.getElem?_eq_some_iff.mp hentry
    exact looseRange_bvar_le.mpr hi
  | sort l => exact hclosed looseRange_sort_le
  | const => exact hclosed looseRange_const_le
  | app _ _ _ ihf iha => exact looseRange_app_le.mpr ⟨ihf, iha⟩
  | lam _ _ _ iht ihb => exact looseRange_bind_le.mpr ⟨iht, ihb⟩
  | quantifier _ _ _ _ _ _ iht ihb => exact looseRange_bind_le.mpr ⟨iht, ihb⟩
  | letE _ _ _ _ iht ihv ihb => exact looseRange_letE_le.mpr ⟨iht, ihv, ihb⟩
  | pair _ _ iha ihb => exact looseRange_pair_le.mpr ⟨iha, ihb⟩
  | fst _ _ ih => exact looseRange_proj_le.mpr ih
  | snd _ _ ih => exact looseRange_proj_le.mpr ih
  | checkLam _ _ _ _ _ iht ihb => exact looseRange_bind_le.mpr ⟨iht, ihb⟩
  | checkLet _ _ _ _ iht ihv ihb => exact looseRange_letE_le.mpr ⟨iht, ihv, ihb⟩
  | checkPair _ _ _ iha ihb => exact looseRange_pair_le.mpr ⟨iha, ihb⟩
  | compare _ _ ih => exact ih

/-- **What the rules accept they accept under other names of the variables.** -/
theorem Accepts.rename (hsig : sig.ClosedValues)
    (htypes : ∀ n d, sig n = some d → d.type.looseRange ≤ 0) {mode : Mode}
    (h : Judges sig mode Γ e t) (hξ : Context.Renames ξ Γ Γ') :
    Judges sig mode Γ' (e.rename ξ) (t.rename ξ) := by
  induction h generalizing Γ' ξ with
  | @bvar Γ i entry hentry =>
    obtain ⟨entry', hentry', hsame, -⟩ := hξ i entry hentry
    rw [shift_succ_eq_rename, rename_rename, ← hsame, ← shift_succ_eq_rename]
    exact .bvar hentry'
  | sort l => exact .sort l
  | const hd hlength =>
    rw [rename_of_closed (looseRange_substLevels_le _ (htypes _ _ hd))]
    exact .const hd hlength
  | app _ hs _ ihf iha =>
    rw [Parallel.rename_instantiate]
    exact .app (ihf hξ) (hs.rename hsig hξ) (iha hξ)
  | @lam Γ n s t b u l _ hs _ iht ihb =>
    exact .lam (iht hξ) (hs.rename hsig hξ) (ihb (hξ.push n t))
  | @quantifier Γ k n s s' t b l r m hk _ hs _ hs' hm iht ihb =>
    exact .quantifier hk (iht hξ) (hs.rename hsig hξ) (ihb (hξ.push n t))
      (hs'.rename hsig (hξ.push n t)) hm
  | @letE Γ n s t v b u l _ hs _ _ iht ihv ihb =>
    rw [Parallel.rename_instantiate]
    exact .letE (iht hξ) (hs.rename hsig hξ) (ihv hξ) (ihb (hξ.pushLet n t v))
  | pair _ _ iha ihb =>
    rw [rename_prod]
    exact .pair (iha hξ) (ihb hξ)
  | fst _ hs ih => exact .fst (ih hξ) (hs.rename hsig hξ)
  | snd _ hs ih =>
    rw [Parallel.rename_instantiate]
    exact .snd (ih hξ) (hs.rename hsig hξ)
  | @checkLam Γ n m s t t' b b' e l he _ hs htt' _ iht ihb =>
    exact .checkLam (he.rename hsig hξ) (iht hξ) (hs.rename hsig hξ)
      (htt'.rename hsig hξ.values) (ihb (hξ.push n t))
  | @checkLet Γ n s t v b e l _ hs _ _ iht ihv ihb =>
    have hbody := ihb (hξ.pushLet n t v)
    rw [rename_shift_one] at hbody
    exact .checkLet (iht hξ) (hs.rename hsig hξ) (ihv hξ) hbody
  | checkPair he _ _ iha ihb =>
    have hsnd := ihb hξ
    rw [Parallel.rename_instantiate] at hsnd
    exact .checkPair (he.rename hsig hξ) (iha hξ) hsnd
  | compare _ hst ih => exact .compare (ih hξ) (hst.rename hsig hξ.values)

/-- Room for one more variable. -/
theorem Accepts.shift (hsig : sig.ClosedValues)
    (htypes : ∀ n d, sig n = some d → d.type.looseRange ≤ 0) {mode : Mode}
    (h : Judges sig mode Γ e t) (entry : Entry) :
    Judges sig mode (entry :: Γ) (e.rename (· + 1)) (t.shift 0 1) := by
  rw [shift_one_eq_rename]
  exact h.rename hsig htypes (Context.renames_succ Γ entry)

end TypeTheory
