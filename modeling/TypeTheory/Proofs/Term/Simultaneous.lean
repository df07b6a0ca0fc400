import TypeTheory.Proofs.Term.Levels

/-!
# Substituting for all indices at once

`Term.fill σ` puts a term for every index, and `Term.rename ξ` an index for every
index. Shifting, substitution and instantiation are special cases
(`shift_eq_rename`, `subst_eq_fill`, `instantiate_eq_fill`). Two of these in a row
are one (`fill_fill`), so an equation between iterated shifts and substitutions is
an equation between two functions on indices.
-/

namespace TypeTheory

namespace Term

/-! ## Renaming -/

/-- A renaming of indices under one more binder. -/
def liftIndex (ξ : Nat → Nat) : Nat → Nat
  | 0 => 0
  | i + 1 => ξ i + 1

/-- Renames every loose index. -/
def rename (ξ : Nat → Nat) : Term → Term
  | .bvar i => .bvar (ξ i)
  | .fvar x => .fvar x
  | .sort l => .sort l
  | .const x ls => .const x ls
  | .app f a => .app (rename ξ f) (rename ξ a)
  | .bind k x t b => .bind k x (rename ξ t) (rename (liftIndex ξ) b)
  | .letE x t v b => .letE x (rename ξ t) (rename ξ v) (rename (liftIndex ξ) b)
  | .pair a b => .pair (rename ξ a) (rename ξ b)
  | .proj k p => .proj k (rename ξ p)

theorem liftIndex_comp (ξ ζ : Nat → Nat) :
    liftIndex (fun i => ζ (ξ i)) = fun i => liftIndex ζ (liftIndex ξ i) := by
  funext i
  cases i <;> rfl

theorem rename_rename (e : Term) (ξ ζ : Nat → Nat) :
    (e.rename ξ).rename ζ = e.rename fun i => ζ (ξ i) := by
  induction e generalizing ξ ζ <;> simp_all [rename, liftIndex_comp]

/-- Shifting is renaming. -/
theorem shift_eq_rename (e : Term) (c k : Nat) :
    e.shift c k = e.rename fun i => if i < c then i else i + k := by
  have hlift (c : Nat) : (fun i => if i < c + 1 then i else i + k) =
      liftIndex fun i => if i < c then i else i + k := by
    funext i
    cases i with
    | zero => simp [liftIndex]
    | succ i =>
      simp only [liftIndex]
      split <;> split <;> omega
  induction e generalizing c with
  | bvar i =>
    rw [shift_bvar, rename]
    split
    · rfl
    · congr 1
  | _ => simp_all [rename]

/-- A shift of all indices is a renaming that adds to each of them. -/
theorem shift_zero_eq_rename (e : Term) (k : Nat) : e.shift 0 k = e.rename (· + k) := by
  rw [shift_eq_rename]
  rfl

theorem shift_one_eq_rename (e : Term) : e.shift 0 1 = e.rename (· + 1) :=
  shift_zero_eq_rename e 1

theorem shift_succ_eq_rename (e : Term) (i : Nat) :
    e.shift 0 ((i : Int) + 1) = e.rename (· + (i + 1)) :=
  shift_zero_eq_rename e (i + 1)

/-! ## Filling -/

/-- Terms for the indices under one more binder. -/
def lift (σ : Nat → Term) : Nat → Term
  | 0 => .bvar 0
  | i + 1 => (σ i).rename (· + 1)

/-- Terms for the indices inside a binder, given one for the binder's variable. -/
def extend (a : Term) (σ : Nat → Term) : Nat → Term
  | 0 => a
  | i + 1 => σ i

/-- Puts a term for every loose index. -/
def fill (σ : Nat → Term) : Term → Term
  | .bvar i => σ i
  | .fvar x => .fvar x
  | .sort l => .sort l
  | .const x ls => .const x ls
  | .app f a => .app (fill σ f) (fill σ a)
  | .bind k x t b => .bind k x (fill σ t) (fill (lift σ) b)
  | .letE x t v b => .letE x (fill σ t) (fill σ v) (fill (lift σ) b)
  | .pair a b => .pair (fill σ a) (fill σ b)
  | .proj k p => .proj k (fill σ p)

@[simp] theorem lift_zero (σ : Nat → Term) : lift σ 0 = .bvar 0 := rfl

@[simp] theorem lift_succ (σ : Nat → Term) (i : Nat) : lift σ (i + 1) = (σ i).rename (· + 1) := rfl

@[simp] theorem extend_zero (a : Term) (σ : Nat → Term) : extend a σ 0 = a := rfl

@[simp] theorem extend_succ (a : Term) (σ : Nat → Term) (i : Nat) : extend a σ (i + 1) = σ i := rfl

/-- A filling is what it puts for the first index and for the others. -/
theorem extend_eta (σ : Nat → Term) : extend (σ 0) (fun i => σ (i + 1)) = σ := by
  funext i
  cases i <;> rfl

theorem lift_bvar : lift bvar = bvar := by
  funext i
  cases i <;> rfl

/-- Filling every index with itself changes nothing. -/
@[simp] theorem fill_bvar_self (e : Term) : e.fill bvar = e := by
  induction e <;> simp_all [fill, lift_bvar]

/-- A filling after a renaming is lifted over a binder as the two are one after the other. -/
theorem lift_rename (σ : Nat → Term) (ξ : Nat → Nat) :
    lift (fun i => σ (ξ i)) = fun i => lift σ (liftIndex ξ i) := by
  funext i
  cases i <;> rfl

theorem fill_rename (e : Term) (ξ : Nat → Nat) (σ : Nat → Term) :
    (e.rename ξ).fill σ = e.fill fun i => σ (ξ i) := by
  induction e generalizing ξ σ <;> simp_all [fill, rename, lift_rename]

theorem lift_bvar_comp (ξ : Nat → Nat) :
    lift (fun i => bvar (ξ i)) = fun i => bvar (liftIndex ξ i) := by
  funext i
  cases i <;> rfl

/-- Renaming is filling with indices. -/
theorem rename_eq_fill (e : Term) (ξ : Nat → Nat) : e.rename ξ = e.fill fun i => bvar (ξ i) := by
  induction e generalizing ξ <;> simp_all [fill, rename, lift_bvar_comp]

/-- A renaming after a filling is lifted over a binder as the two are one after the other. -/
theorem rename_lift (σ : Nat → Term) (ξ : Nat → Nat) :
    lift (fun i => (σ i).rename ξ) = fun i => (lift σ i).rename (liftIndex ξ) := by
  funext i
  cases i with
  | zero => rfl
  | succ i => simp only [lift_succ, rename_rename, liftIndex]

theorem rename_fill (e : Term) (σ : Nat → Term) (ξ : Nat → Nat) :
    (e.fill σ).rename ξ = e.fill fun i => (σ i).rename ξ := by
  induction e generalizing ξ σ <;> simp_all [fill, rename, rename_lift]

/-- Two fillings are lifted over a binder as their composition is, which is what `fill_fill` needs
under binders. -/
theorem fill_lift (σ τ : Nat → Term) :
    lift (fun i => (σ i).fill τ) = fun i => (lift σ i).fill (lift τ) := by
  funext i
  cases i with
  | zero => rfl
  | succ i => simp only [lift_succ, rename_fill, fill_rename]

/-- **Two fillings in a row are one.** -/
theorem fill_fill (e : Term) (σ τ : Nat → Term) :
    (e.fill σ).fill τ = e.fill fun i => (σ i).fill τ := by
  induction e generalizing σ τ <;> simp_all [fill, fill_lift]

/-- Terms for the indices under `d` more binders. -/
def liftTimes (σ : Nat → Term) : (d : Nat) → Nat → Term
  | 0 => σ
  | d + 1 => lift (liftTimes σ d)

/-- The variables of the binders that were crossed stay as they are. -/
theorem liftTimes_of_lt (σ : Nat → Term) {d i : Nat} (h : i < d) : liftTimes σ d i = bvar i := by
  induction d generalizing i with
  | zero => omega
  | succ d ih =>
    cases i with
    | zero => rfl
    | succ i => rw [liftTimes, lift_succ, ih (by omega), rename]

/-- Beyond these the variables are filled as outside, moved past the binders. -/
theorem liftTimes_add (σ : Nat → Term) (d k : Nat) :
    liftTimes σ d (k + d) = (σ k).rename (· + d) := by
  induction d with
  | zero =>
    rw [rename_eq_fill]
    exact (fill_bvar_self (σ k)).symm
  | succ d ih =>
    rw [liftTimes, ← Nat.add_assoc, lift_succ, ih, rename_rename]
    rfl

/-! ## Substitution -/

/-- What substitution puts for the indices, under one more binder. -/
theorem lift_replacement (idx : Nat) (r : Term) :
    (lift fun i => if i < idx then bvar i else if i = idx then r else bvar (i - 1)) =
      fun i =>
        if i < idx + 1 then bvar i else if i = idx + 1 then r.shift 0 1 else bvar (i - 1) := by
  funext i
  cases i with
  | zero => simp
  | succ i =>
    simp only [lift_succ, Nat.add_lt_add_iff_right, Nat.add_right_cancel_iff]
    split
    · rfl
    · split
      · exact (shift_one_eq_rename r).symm
      · rw [rename]
        congr 1
        omega

/-- Substitution for one index is filling. -/
theorem subst_eq_fill (e : Term) (idx : Nat) (r : Term) :
    e.subst idx r =
      e.fill fun i => if i < idx then bvar i else if i = idx then r else bvar (i - 1) := by
  induction e generalizing idx r with
  | bvar i => rw [subst_bvar, fill]
  | _ => simp_all [fill, lift_replacement]

/-- To instantiate the outermost variable is to fill it and leave all others. -/
theorem instantiate_eq_fill (b a : Term) : b.instantiate a = b.fill (extend a bvar) := by
  rw [instantiate, subst_eq_fill]
  congr 1
  funext i
  cases i <;> simp

/-- Filling goes through an instantiation. -/
theorem fill_instantiate (b a : Term) (σ : Nat → Term) :
    (b.instantiate a).fill σ = (b.fill (lift σ)).instantiate (a.fill σ) := by
  rw [instantiate_eq_fill, instantiate_eq_fill, fill_fill, fill_fill]
  congr 1
  funext i
  cases i with
  | zero => rfl
  | succ i => simp [fill, fill_rename]

/-- Instantiating a body whose outer indices are filled. -/
theorem instantiate_fill_lift (b a : Term) (σ : Nat → Term) :
    (b.fill (lift σ)).instantiate a = b.fill (extend a σ) := by
  rw [instantiate_eq_fill, fill_fill]
  congr 1
  funext i
  cases i with
  | zero => rfl
  | succ i => simp [fill_rename]

/-- Filling a body that was instantiated with a term. -/
theorem fill_instantiate_eq_extend (b a : Term) (σ : Nat → Term) :
    (b.instantiate a).fill σ = b.fill (extend (a.fill σ) σ) := by
  rw [fill_instantiate, instantiate_fill_lift]

/-- A filling after a shift never meets the variables that the shift made room for. -/
theorem fill_shift (e : Term) (i : Nat) (σ : Nat → Term) :
    (e.shift 0 ((i : Int) + 1)).fill σ = e.fill fun j => σ (j + (i + 1)) := by
  rw [shift_succ_eq_rename, fill_rename]

theorem fill_shift_one (e : Term) (σ : Nat → Term) :
    (e.shift 0 1).fill σ = e.fill fun j => σ (j + 1) := by
  rw [shift_one_eq_rename, fill_rename]

/-- A term from outside a binder does not see its variable. -/
theorem fill_extend_shift_one (e a : Term) (σ : Nat → Term) :
    (e.shift 0 1).fill (extend a σ) = e.fill σ :=
  fill_shift_one e _

/-- Making room under a binder is the same before the filling as after it. -/
theorem fill_lift_shift_one (e : Term) (σ : Nat → Term) :
    (e.shift 0 1).fill (lift σ) = (e.fill σ).shift 0 1 := by
  rw [fill_shift_one, shift_one_eq_rename, rename_fill]
  rfl

/-! ## Closed terms -/

/-- Only the indices in the range of a term matter. -/
theorem fill_congr {e : Term} {n : Nat} {σ τ : Nat → Term} (he : e.looseRange ≤ n)
    (h : ∀ i < n, σ i = τ i) : e.fill σ = e.fill τ := by
  have hlift {n : Nat} {σ τ : Nat → Term} (h : ∀ i < n, σ i = τ i) :
      ∀ i < n + 1, lift σ i = lift τ i := by
    intro i hi
    cases i with
    | zero => rfl
    | succ i => rw [lift_succ, lift_succ, h i (by omega)]
  induction e generalizing n σ τ with
  | bvar i => exact h i (looseRange_bvar_le.mp he)
  | fvar | sort | const => rfl
  | app f a ihf iha =>
    rw [looseRange_app_le] at he
    rw [fill, fill, ihf he.1 h, iha he.2 h]
  | bind k x t b iht ihb =>
    rw [looseRange_bind_le] at he
    rw [fill, fill, iht he.1 h, ihb he.2 (hlift h)]
  | letE x t v b iht ihv ihb =>
    rw [looseRange_letE_le] at he
    rw [fill, fill, iht he.1 h, ihv he.2.1 h, ihb he.2.2 (hlift h)]
  | pair a b iha ihb =>
    rw [looseRange_pair_le] at he
    rw [fill, fill, iha he.1 h, ihb he.2 h]
  | proj k p ih =>
    rw [looseRange_proj_le] at he
    rw [fill, fill, ih he h]

/-- There is nothing to fill in a closed term. -/
theorem fill_of_closed {e : Term} (he : e.looseRange ≤ 0) (σ : Nat → Term) : e.fill σ = e := by
  rw [fill_congr he fun i hi => absurd hi (Nat.not_lt_zero i), fill_bvar_self]

theorem rename_of_closed {e : Term} (he : e.looseRange ≤ 0) (ξ : Nat → Nat) : e.rename ξ = e := by
  rw [rename_eq_fill, fill_of_closed he]

/-- A renamed term is in range if the renaming takes indices in range to indices in range. -/
theorem looseRange_rename_le {e : Term} {n m : Nat} {ξ : Nat → Nat} (he : e.looseRange ≤ n)
    (h : ∀ i < n, ξ i < m) : (e.rename ξ).looseRange ≤ m := by
  have hlift {n m : Nat} {ξ : Nat → Nat} (h : ∀ i < n, ξ i < m) :
      ∀ i < n + 1, liftIndex ξ i < m + 1 := by
    intro i hi
    cases i with
    | zero => exact Nat.succ_pos m
    | succ i => exact Nat.succ_lt_succ (h i (by omega))
  induction e generalizing n m ξ with
  | bvar i => exact looseRange_bvar_le.mpr (h i (looseRange_bvar_le.mp he))
  | fvar | sort | const => simp [rename]
  | app f a ihf iha =>
    rw [looseRange_app_le] at he
    exact looseRange_app_le.mpr ⟨ihf he.1 h, iha he.2 h⟩
  | bind k x t b iht ihb =>
    rw [looseRange_bind_le] at he
    exact looseRange_bind_le.mpr ⟨iht he.1 h, ihb he.2 (hlift h)⟩
  | letE x t v b iht ihv ihb =>
    rw [looseRange_letE_le] at he
    exact looseRange_letE_le.mpr ⟨iht he.1 h, ihv he.2.1 h, ihb he.2.2 (hlift h)⟩
  | pair a b iha ihb =>
    rw [looseRange_pair_le] at he
    exact looseRange_pair_le.mpr ⟨iha he.1 h, ihb he.2 h⟩
  | proj k p ih =>
    rw [looseRange_proj_le] at he
    exact looseRange_proj_le.mpr (ih he h)

/-- A filled term is in range if everything that is put for an index in range is. -/
theorem looseRange_fill_le {e : Term} {n m : Nat} {σ : Nat → Term} (he : e.looseRange ≤ n)
    (h : ∀ i < n, (σ i).looseRange ≤ m) : (e.fill σ).looseRange ≤ m := by
  have hlift {n m : Nat} {σ : Nat → Term} (h : ∀ i < n, (σ i).looseRange ≤ m) :
      ∀ i < n + 1, (lift σ i).looseRange ≤ m + 1 := by
    intro i hi
    cases i with
    | zero => exact looseRange_bvar_le.mpr (Nat.succ_pos m)
    | succ i => exact looseRange_rename_le (h i (by omega)) fun j hj => Nat.succ_lt_succ hj
  induction e generalizing n m σ with
  | bvar i => exact h i (looseRange_bvar_le.mp he)
  | fvar | sort | const => simp [fill]
  | app f a ihf iha =>
    rw [looseRange_app_le] at he
    exact looseRange_app_le.mpr ⟨ihf he.1 h, iha he.2 h⟩
  | bind k x t b iht ihb =>
    rw [looseRange_bind_le] at he
    exact looseRange_bind_le.mpr ⟨iht he.1 h, ihb he.2 (hlift h)⟩
  | letE x t v b iht ihv ihb =>
    rw [looseRange_letE_le] at he
    exact looseRange_letE_le.mpr ⟨iht he.1 h, ihv he.2.1 h, ihb he.2.2 (hlift h)⟩
  | pair a b iha ihb =>
    rw [looseRange_pair_le] at he
    exact looseRange_pair_le.mpr ⟨iha he.1 h, ihb he.2 h⟩
  | proj k p ih =>
    rw [looseRange_proj_le] at he
    exact looseRange_proj_le.mpr (ih he h)

/-- A filling with closed terms closes every term. -/
theorem looseRange_fill_closed {σ : Nat → Term} (h : ∀ i, (σ i).looseRange ≤ 0) (e : Term) :
    (e.fill σ).looseRange ≤ 0 :=
  looseRange_fill_le (Nat.le_refl _) fun i _ => h i

/-! ## Levels -/

/-- Renaming indices and changing levels can be done in either order. -/
theorem substLevels_rename (e : Term) (ξ : Nat → Nat) (τ : Level.Assignment) :
    (e.rename ξ).substLevels τ = (e.substLevels τ).rename ξ := by
  induction e generalizing ξ <;> simp_all [rename]

theorem lift_substLevels (σ : Nat → Term) (τ : Level.Assignment) :
    lift (fun i => (σ i).substLevels τ) = fun i => (lift σ i).substLevels τ := by
  funext i
  cases i with
  | zero => simp
  | succ i => rw [lift_succ, lift_succ, substLevels_rename]

/-- Filling and changing levels can be done in either order, with the levels changed in what is put
in as well. -/
theorem substLevels_fill (e : Term) (σ : Nat → Term) (τ : Level.Assignment) :
    (e.fill σ).substLevels τ = (e.substLevels τ).fill fun i => (σ i).substLevels τ := by
  induction e generalizing σ <;> simp_all [fill, lift_substLevels]

theorem substLevels_shift (e : Term) (c : Nat) (δ : Int) (τ : Level.Assignment) :
    (e.shift c δ).substLevels τ = (e.substLevels τ).shift c δ := by
  induction e generalizing c with
  | bvar i =>
    simp only [shift_bvar, substLevels_bvar]
    split <;> simp
  | _ => simp_all

theorem substLevels_subst (e : Term) (idx : Nat) (r : Term) (τ : Level.Assignment) :
    (e.subst idx r).substLevels τ = (e.substLevels τ).subst idx (r.substLevels τ) := by
  rw [subst_eq_fill, subst_eq_fill, substLevels_fill]
  congr 1
  funext i
  split
  · simp
  · split <;> simp

theorem substLevels_instantiate (b a : Term) (τ : Level.Assignment) :
    (b.instantiate a).substLevels τ = (b.substLevels τ).instantiate (a.substLevels τ) :=
  substLevels_subst b 0 a τ

end Term

end TypeTheory
