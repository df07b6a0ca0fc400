import TypeTheory.Proofs.Level.Canonical

/-!
# Equal levels under instantiation

Giving values to the parameters of two equal levels gives levels of the same
value (`Level.Same.subst`), but not always levels that are called equal. An
`imax` over a maximum of parameters is spread over them; once one of the
parameters has a positive value, the `imax` itself is a plain maximum, while the
halves that were spread stay `imax` atoms.

That is the only obstacle. In an *unspread* level no `imax` is spread over a
maximum, and there the atoms of the instance are the instances of the atoms, up
to likeness (`Level.steady_of_unspread`). So equality of unspread levels is kept
by every instantiation.
-/

namespace TypeTheory

namespace Level

open Atom

variable {σ : Assignment}

/-! ## Values -/

/-- The values of the parameters after those in `σ` have been replaced. -/
def Assignment.valuation (σ : Assignment) (ρ : Name → Nat) (n : Name) : Nat :=
  ((param n).subst σ).value ρ

/-- The value of an instance is the value of the level, with each parameter worth what its level is
worth. -/
theorem value_subst (ρ : Name → Nat) (l : Level) :
    (l.subst σ).value ρ = l.value (σ.valuation ρ) := by
  induction l with
  | zero | param n => rfl
  | succ l ih => simp only [subst, value, ih]
  | max a b iha ihb | imax a b iha ihb => simp only [subst, value, iha, ihb]

/-- **Instances of levels of one value have one value.** -/
theorem Same.subst {a b : Level} (h : Same a b) (σ : Assignment) :
    Same (a.subst σ) (b.subst σ) := by
  intro ρ
  rw [value_subst, value_subst]
  exact h _

/-! ## Atoms of sums and maxima -/

theorem map_raise_raise (as : List Atom) (j k : Nat) :
    (as.map (raise j)).map (raise k) = as.map (raise (j + k)) := by
  rw [List.map_map]
  refine List.map_congr_left fun a _ => ?_
  simp only [Function.comp, raise, Nat.add_assoc]

theorem map_raise_zero (as : List Atom) : as.map (raise 0) = as := by
  exact List.map_id' as

/-- Successors on top of a level raise the offsets of all its atoms. -/
theorem atomsFrom_add (l : Level) (j k : Nat) :
    l.atomsFrom (j + k) = (l.atomsFrom j).map (raise k) := by
  induction l generalizing j with
  | zero | param n => rfl
  | succ l ih =>
    rw [atomsFrom, atomsFrom, ← ih]
    congr 1
    omega
  | max a b iha ihb => rw [atomsFrom, atomsFrom, iha, ihb, List.map_append]
  | imax a b => rw [atomsFrom, atomsFrom, map_raise_raise]

theorem atoms_succ (l : Level) : l.succ.atoms = l.atoms.map (raise 1) :=
  atomsFrom_add l 0 1

/-- The atoms of an `imax` are found by its rules from the atoms of the left side and the canonical
right side. -/
theorem atoms_imax (a b : Level) : (imax a b).atoms = imaxAtoms a.atoms b.normalize :=
  map_raise_zero _

theorem atomsFrom_addOffset (l : Level) (j k : Nat) :
    (l.addOffset k).atomsFrom j = l.atomsFrom (j + k) := by
  induction k generalizing l with
  | zero => rfl
  | succ k ih =>
    rw [addOffset, ih, atomsFrom]
    congr 1

theorem subst_addOffset (l : Level) (k : Nat) :
    (l.addOffset k).subst σ = (l.subst σ).addOffset k := by
  induction k generalizing l with
  | zero => rfl
  | succ k ih => rw [addOffset, ih, subst, addOffset]

/-! ## Instances of atoms -/

/-- The atoms of the instances of atoms. -/
def Atom.instantiate (σ : Assignment) (atoms : List Atom) : List Atom :=
  atoms.flatMap fun a => (a.base.subst σ).atomsFrom a.offset

variable {as bs : List Atom}

/-- Raising the offsets and instantiating the bases can be done in either order. -/
theorem instantiate_map_raise (as : List Atom) (k : Nat) :
    instantiate σ (as.map (raise k)) = (instantiate σ as).map (raise k) := by
  induction as with
  | nil => rfl
  | cons a rest ih =>
    rw [List.map_cons, instantiate, List.flatMap_cons, instantiate, List.flatMap_cons,
      List.map_append]
    exact congrArg₂ (· ++ ·) (atomsFrom_add _ _ k) ih

/-- **What an atom covers, its instance covers.** A covered constant stays below
every atom of the instance, because their offsets do not shrink. -/
theorem Atom.Below.instantiate (h : Below as bs) :
    Below (instantiate σ as) (instantiate σ bs) := by
  intro x hx
  obtain ⟨a, ha, hx⟩ := List.mem_flatMap.mp hx
  obtain ⟨b, hb, hle, hbase⟩ := h a ha
  obtain ⟨d, hd⟩ := Nat.exists_eq_add_of_le hle
  have hmem : ∀ y ∈ (b.base.subst σ).atomsFrom b.offset, y ∈ Atom.instantiate σ bs :=
    fun y hy => List.mem_flatMap.mpr ⟨b, hb, hy⟩
  rcases hbase with hbase | hbase
  · refine ⟨raise d x, hmem _ ?_, ?_, .inl rfl⟩
    · rw [← hbase, hd, atomsFrom_add]
      exact List.mem_map_of_mem hx
    · simp [raise]
  · rw [hbase, subst, atomsFrom, List.mem_singleton] at hx
    obtain ⟨y, hy⟩ := List.exists_mem_of_ne_nil _ (atomsFrom_ne_nil b.offset (b.base.subst σ))
    refine ⟨y, hmem y hy, ?_, .inr (by rw [hx])⟩
    rw [← Nat.zero_add b.offset, atomsFrom_add] at hy
    obtain ⟨z, -, rfl⟩ := List.mem_map.mp hy
    simp only [hx, raise]
    omega

/-- The instances of lists that are alike are alike: a covered atom has instances that are
covered. -/
theorem Atom.Alike.instantiate (h : Alike as bs) :
    Alike (instantiate σ as) (instantiate σ bs) :=
  ⟨h.1.instantiate, h.2.instantiate⟩

theorem instantiate_constant (k : Nat) :
    Atom.instantiate σ [⟨.zero, k⟩] = [⟨.zero, k⟩] := rfl

/-- The atoms of an instance of a maximum of atoms. -/
theorem atoms_subst_maximum (hne : as ≠ []) :
    ((maximum as).subst σ).atoms = instantiate σ as := by
  induction as with
  | nil => exact absurd rfl hne
  | cons a rest ih =>
    have ha : (a.level.subst σ).atoms = (a.base.subst σ).atomsFrom a.offset := by
      rw [level, subst_addOffset, atoms, atomsFrom_addOffset, Nat.zero_add]
    rw [Atom.instantiate, List.flatMap_cons, ← ha]
    cases rest with
    | nil => exact (List.append_nil _).symm
    | cons b rest =>
      rw [maximum, Level.subst]
      · exact congrArg (_ ++ ·) (ih (by simp))
      · simp

/-! ## The rules for `imax` -/

/-- In the atoms of an `imax`, the atoms of the left side may be exchanged for a list that is
alike. -/
theorem Atom.Alike.imaxAtoms (h : Alike as bs) (b : Level) :
    Alike (imaxAtoms as b) (imaxAtoms bs b) := by
  unfold Level.imaxAtoms
  rw [canonical_eq_iff.mpr h]
  split
  · exact .refl _
  split
  · exact h.append (.refl _)
  · exact .refl _

/-- An `imax` whose right side has an atom with an offset is a plain maximum, since that side is
never zero. -/
theorem imaxAtoms_of_any_offset {b : Level} (hany : b.summands.any (0 < ·.offset) = true) :
    imaxAtoms as b = as ++ b.summands := by
  have hzero : b ≠ zero := by
    rintro rfl
    cases hany
  rw [imaxAtoms, if_neg hzero, if_pos hany]

/-- Where none of the simpler rules applies, the left side is spread over the right one. -/
theorem imaxAtoms_of_spread {b : Level} (hzero : b ≠ zero)
    (hany : ¬b.summands.any (0 < ·.offset) = true)
    (hsmall : ¬(maximum (canonical as) = zero ∨ maximum (canonical as) = succ zero)) :
    imaxAtoms as b = (maximum (canonical as)).spread b := by
  rw [imaxAtoms, if_neg hzero, if_neg hany]
  exact if_neg hsmall

/-- An `imax` of a level over itself is spread to the summands of the level. -/
theorem spread_self (a : Level) : a.spread a = a.summands := by
  unfold spread
  exact if_pos rfl

/-- **An `imax` with equal sides is that side.** -/
theorem alike_imaxAtoms_self (h : Based as) (hne : as ≠ []) :
    Alike (imaxAtoms as (maximum (canonical as))) as := by
  have hsummands := summands_maximum_canonical h hne
  have halike := alike_canonical as
  have hrule := imaxRule_imaxAtoms as (maximum (canonical as))
  generalize imaxAtoms as (maximum (canonical as)) = result at hrule ⊢
  cases hrule with
  | zero hzero =>
    have hcanonical : [⟨.zero, 0⟩] = canonical as := by
      rw [← hsummands, hzero]
      rfl
    exact hcanonical ▸ halike
  | positive =>
    rw [hsummands]
    exact (Alike.of_append_covered halike.2).trans halike
  | small =>
    rw [hsummands]
    exact halike
  | spread =>
    rw [spread_self, hsummands]
    exact halike

/-- A left side of at most one adds nothing. -/
theorem alike_imaxAtoms_of_small {b : Level} {k : Nat} (hk : k ≤ 1) (h : Alike as [⟨.zero, k⟩]) :
    Alike (imaxAtoms as b) b.summands := by
  have hcanonical : canonical as = [⟨.zero, k⟩] := by
    rw [canonical_eq_iff.mpr h]
    rfl
  have hrule := imaxRule_imaxAtoms as b
  generalize imaxAtoms as b = result at hrule ⊢
  cases hrule with
  | zero hzero =>
    rw [hzero]
    exact .refl _
  | positive hany =>
    obtain ⟨s, hs, hpos⟩ := List.any_eq_true.mp hany
    rw [decide_eq_true_eq] at hpos
    have hbelow : Below [⟨.zero, k⟩] b.summands := by
      intro x hx
      rw [List.mem_singleton.mp hx]
      exact ⟨s, hs, by dsimp only; omega, .inr rfl⟩
    exact .of_append_covered (h.1.trans hbelow)
  | small => exact .refl _
  | spread _ _ hlarge =>
    have hcases : k = 0 ∨ k = 1 := by omega
    rw [hcanonical] at hlarge
    refine absurd ?_ hlarge
    rcases hcases with rfl | rfl
    · exact .inl rfl
    · exact .inr rfl

/-! ## Unspread levels -/

/-- Whether the level is a maximum. -/
def isMaximum : Level → Bool
  | max .. => true
  | _ => false

/-- Over anything but a maximum an `imax` is spread to itself, as a single atom. -/
theorem spread_of_not_isMaximum {a b : Level} (hne : a ≠ b) (h : b.isMaximum = false) :
    a.spread b = [⟨imax a b, 0⟩] := by
  unfold spread
  rw [if_neg hne]
  cases b with
  | max x y => cases h
  | zero | param n | succ l | imax x y => rfl

/-- Whether the rules for `imax` keep canonical sides `a` and `b` together: they
do not spread `a` over the atoms of `b`. -/
def keepsTogether (a b : Level) : Bool :=
  !b.isMaximum || b.summands.any (0 < ·.offset) || a = zero || a = succ zero || a = b

/-- Whether no `imax` of the level is spread over a maximum. -/
def unspread : Level → Bool
  | zero | param _ => true
  | succ l => l.unspread
  | max a b => a.unspread && b.unspread
  | imax a b => a.unspread && b.unspread && keepsTogether a.normalize b.normalize

/-- A level whose canonical form is a constant has atoms that are alike to that constant. -/
theorem alike_of_normalize_constant {l : Level} {k : Nat} (h : l.normalize = zero.addOffset k) :
    Alike l.atoms [⟨.zero, k⟩] := by
  have hsummands : canonical l.atoms = [⟨.zero, k⟩] := by
    rw [← summands_normalize, h, summands, summandsFrom_addOffset rfl, Nat.zero_add]
  exact hsummands ▸ (alike_canonical l.atoms).symm

/-- Collecting atoms and giving values to parameters can be done in either order. -/
def Steady (σ : Assignment) (l : Level) : Prop :=
  Alike (l.subst σ).atoms (instantiate σ l.atoms)

namespace Steady

variable {a b l : Level}

/-- The canonical form has the same instance. -/
theorem alike_normalize (h : Steady σ l) : Alike (l.subst σ).atoms (l.normalize.subst σ).atoms := by
  have hne : canonical l.atoms ≠ [] := (alike_canonical _).2.ne_nil (atomsFrom_ne_nil 0 l)
  rw [normalize, atoms_subst_maximum hne]
  exact h.trans (alike_canonical _).instantiate.symm

/-- In a steady level the summands of the canonical form may be instantiated one by one. -/
theorem alike_summands (h : Steady σ l) :
    Alike (l.subst σ).normalize.summands (instantiate σ l.normalize.summands) :=
  (alike_summands_normalize _).trans (h.trans (alike_summands_normalize l).instantiate.symm)

/-- A steady level that is a constant is the same constant in every instance. -/
theorem alike_constant {k : Nat} (h : Steady σ l) (hl : l.normalize = zero.addOffset k) :
    Alike (l.subst σ).atoms [⟨.zero, k⟩] :=
  h.trans (instantiate_constant (σ := σ) k ▸ (alike_of_normalize_constant hl).instantiate)

theorem normalize_constant {k : Nat} (h : Steady σ l) (hl : l.normalize = zero.addOffset k) :
    (l.subst σ).normalize = zero.addOffset k := by
  rw [normalize, canonical_eq_iff.mpr (h.alike_constant hl)]
  rfl

/-- An atom with an offset leaves one in every instance. -/
theorem any_offset (h : Steady σ l) (hl : l.normalize.summands.any (0 < ·.offset) = true) :
    (l.subst σ).normalize.summands.any (0 < ·.offset) = true := by
  obtain ⟨s, hs, hpos⟩ := List.any_eq_true.mp hl
  rw [decide_eq_true_eq] at hpos
  -- a constant of that offset is covered by the atom, so by the instance
  have hbelow : Below [⟨.zero, s.offset⟩] l.normalize.summands := by
    intro x hx
    rw [List.mem_singleton.mp hx]
    exact ⟨s, hs, Nat.le_refl _, .inr rfl⟩
  have hinstance := hbelow.instantiate (σ := σ)
  rw [instantiate_constant] at hinstance
  obtain ⟨t, ht, hle, -⟩ := (hinstance.trans h.alike_summands.2) _ (List.mem_singleton.mpr rfl)
  refine List.any_eq_true.mpr ⟨t, ht, ?_⟩
  rw [decide_eq_true_eq]
  exact Nat.lt_of_lt_of_le hpos hle

theorem succ (h : Steady σ l) : Steady σ l.succ := by
  rw [Steady, Level.subst, atoms_succ, atoms_succ, instantiate_map_raise]
  exact h.map_raise 1

theorem max (ha : Steady σ a) (hb : Steady σ b) : Steady σ (.max a b) := by
  have hatoms : instantiate σ (Level.max a b).atoms =
      instantiate σ a.atoms ++ instantiate σ b.atoms := List.flatMap_append
  rw [Steady, hatoms]
  exact Alike.append ha hb

/-- Over a right side that is zero an `imax` is zero, and so are all its instances. -/
theorem imax_of_zero (hb : Steady σ b) (hzero : b.normalize = zero) : Steady σ (.imax a b) := by
  have hzero' : (b.subst σ).normalize = zero := hb.normalize_constant (k := 0) hzero
  rw [Steady, Level.subst, atoms_imax, atoms_imax, hzero, hzero']
  exact .refl _

/-- A right side that is never zero gives the atoms of both sides, and so does
its instance. -/
theorem imax_of_any_offset (ha : Steady σ a) (hb : Steady σ b)
    (hany : b.normalize.summands.any (0 < ·.offset) = true) : Steady σ (.imax a b) := by
  have hany' := hb.any_offset hany
  have hsplit : instantiate σ (a.atoms ++ b.normalize.summands) =
      instantiate σ a.atoms ++ instantiate σ b.normalize.summands := List.flatMap_append
  rw [Steady, Level.subst, atoms_imax, atoms_imax, imaxAtoms_of_any_offset hany,
    imaxAtoms_of_any_offset hany', hsplit]
  exact Alike.append ha hb.alike_summands

/-- A left side of at most one is a constant, and so is its instance. -/
theorem imax_of_small {k : Nat} (hk : k ≤ 1) (ha : Steady σ a) (hb : Steady σ b)
    (hsmall : a.normalize = zero.addOffset k) : Steady σ (.imax a b) := by
  have hnow := alike_of_normalize_constant hsmall
  rw [Steady, Level.subst, atoms_imax, atoms_imax]
  calc
    Alike _ (b.subst σ).normalize.summands := alike_imaxAtoms_of_small hk (ha.alike_constant hsmall)
    Alike _ (instantiate σ b.normalize.summands) := hb.alike_summands
    Alike _ _ := (alike_imaxAtoms_of_small hk hnow).instantiate.symm

/-- Equal sides stay equal. -/
theorem imax_of_same (ha : Steady σ a) (hb : Steady σ b) (hsame : a.normalize = b.normalize) :
    Steady σ (.imax a b) := by
  have hsame' : (a.subst σ).normalize = (b.subst σ).normalize := by
    rw [normalize_eq_iff]
    exact ha.trans ((normalize_eq_iff.mp hsame).instantiate.trans hb.symm)
  have hself (l : Level) : Alike (imaxAtoms l.atoms l.normalize) l.atoms :=
    alike_imaxAtoms_self (based_atomsFrom 0 l) (atomsFrom_ne_nil 0 l)
  rw [Steady, Level.subst, atoms_imax, atoms_imax, ← hsame, ← hsame']
  exact (hself _).trans (ha.trans (hself a).instantiate.symm)

/-- An `imax` that is an atom has the `imax` of the instances for its instance. -/
theorem imax_of_atom (ha : Steady σ a) (hb : Steady σ b)
    (hatoms : imaxAtoms a.atoms b.normalize = [⟨.imax a.normalize b.normalize, 0⟩]) :
    Steady σ (.imax a b) := by
  have hright : (b.subst σ).normalize = (b.normalize.subst σ).normalize :=
    normalize_eq_iff.mpr hb.alike_normalize
  have hinstance : instantiate σ [⟨.imax a.normalize b.normalize, 0⟩] =
      imaxAtoms (a.normalize.subst σ).atoms (b.normalize.subst σ).normalize := by
    rw [← atoms_imax]
    exact List.append_nil _
  rw [Steady, Level.subst, atoms_imax, atoms_imax, hatoms, hinstance, hright]
  exact ha.alike_normalize.imaxAtoms _

/-- The cases are those of `imaxAtoms`. -/
theorem imax (ha : Steady σ a) (hb : Steady σ b)
    (h : keepsTogether a.normalize b.normalize = true) : Steady σ (.imax a b) := by
  by_cases hzero : b.normalize = zero
  · exact hb.imax_of_zero hzero
  by_cases hany : b.normalize.summands.any (0 < ·.offset) = true
  · exact ha.imax_of_any_offset hb hany
  by_cases hsmall : a.normalize = zero ∨ a.normalize = Level.succ zero
  · rcases hsmall with hsmall | hsmall
    · exact imax_of_small (k := 0) (Nat.zero_le 1) ha hb hsmall
    · exact imax_of_small (k := 1) (Nat.le_refl 1) ha hb hsmall
  by_cases hsame : a.normalize = b.normalize
  · exact ha.imax_of_same hb hsame
  have hmaximum : b.normalize.isMaximum = false := by
    simp only [keepsTogether, Bool.or_eq_true, Bool.not_eq_true', decide_eq_true_eq] at h
    tauto
  refine ha.imax_of_atom hb ?_
  rw [imaxAtoms_of_spread hzero hany hsmall]
  exact spread_of_not_isMaximum hsame hmaximum

end Steady

/-- **Unspread levels are steady.** -/
theorem steady_of_unspread {l : Level} (σ : Assignment) (h : l.unspread = true) : Steady σ l := by
  induction l with
  | zero => exact .refl _
  | param n =>
    have hatoms : instantiate σ (param n).atoms = ((param n).subst σ).atoms := List.append_nil _
    rw [Steady, hatoms]
  | succ l ih => exact (ih h).succ
  | max a b iha ihb =>
    obtain ⟨ha, hb⟩ := Bool.and_eq_true_iff.mp h
    exact (iha ha).max (ihb hb)
  | imax a b iha ihb =>
    obtain ⟨hab, hkeeps⟩ := Bool.and_eq_true_iff.mp h
    obtain ⟨ha, hb⟩ := Bool.and_eq_true_iff.mp hab
    exact (iha ha).imax (ihb hb) hkeeps

/-- **What instantiation keeps of equality.** Instances of equal levels have the
same value, and instances of equal unspread levels are equal. -/
theorem equiv_subst_of_unspread {a b : Level} (σ : Assignment) (h : a.equiv b = true) :
    Same (a.subst σ) (b.subst σ) ∧
      (a.unspread = true → b.unspread = true → (a.subst σ).equiv (b.subst σ) = true) := by
  refine ⟨(same_of_equiv h).subst σ, ?_⟩
  intro ha hb
  have halike := normalize_eq_iff.mp (equiv_iff.mp h)
  rw [equiv_iff, normalize_eq_iff]
  calc
    Alike (a.subst σ).atoms (instantiate σ a.atoms) := steady_of_unspread σ ha
    Alike _ (instantiate σ b.atoms) := halike.instantiate
    Alike _ (b.subst σ).atoms := (steady_of_unspread σ hb).symm

/-- Two forms of a maximum with an `imax` are equal, and so are their instances
where the right side of the `imax` becomes one. -/
theorem equiv_subst_of_unspread_imax :
    let u := param (.atom "u")
    let v := param (.atom "v")
    let a := max (imax u.succ v) (max v u).succ
    let b := max u.succ (max v.succ (imax u.succ v))
    let σ : Assignment := [(.atom "v", imax u (ofNat 1))]
    a.equiv b = true ∧ a.unspread = true ∧ b.unspread = true ∧
      Same (a.subst σ) (b.subst σ) ∧ (a.subst σ).equiv (b.subst σ) = true := by
  intro u v a b σ
  have h : a.equiv b = true := by decide +kernel
  have ha : a.unspread = true := by decide +kernel
  have hb : b.unspread = true := by decide +kernel
  have hinstances := equiv_subst_of_unspread σ h
  exact ⟨h, ha, hb, hinstances.1, hinstances.2 ha hb⟩

/-- An `imax` over a maximum of two parameters is equal to the maximum of its
halves, but not once one of the parameters is one: the other half keeps its
`imax`. -/
theorem equiv_subst_spread :
    let u := param (.atom "u")
    let v := param (.atom "v")
    let w := param (.atom "w")
    let a := imax u (max v w)
    let b := max (imax u v) (imax u w)
    let σ : Assignment := [(.atom "v", ofNat 1)]
    a.equiv b = true ∧ (a.subst σ).equiv (b.subst σ) = false := by
  decide +kernel

end Level

end TypeTheory
