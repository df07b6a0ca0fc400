import TypeTheory.Proofs.Level.Instantiation
import TypeTheory.Proofs.Level.Parameters

/-!
# The shape of canonical forms

A canonical form is a maximum of atoms with ascending bases, and a base is zero, a
parameter or an `imax` of two canonical forms that no rule simplifies
(`Level.NormalForm`, `Level.NormalBase`). Every level is brought to such a form, and
such a form is left as it is: its atoms are the ones it is made of.

The bases of the atoms are what has to be followed through the collection of atoms.
The one place where a base is made is `Level.spread`, where an `imax` comes to stand
over an atom of a canonical form; that atom has no offset and is not zero.
-/

namespace TypeTheory

namespace Level

open Atom

mutual

/-- The level is a maximum of atoms, nested to the right. Their bases are normal and
ascend, and a constant exceeds the offsets of all other atoms. -/
inductive NormalForm : Level → Prop where
  | maximum {atoms : List Atom} (nonempty : atoms ≠ [])
      (bases : ∀ a ∈ atoms, NormalBase a.base)
      (ascending : atoms.Pairwise fun a b => a.base.cmp b.base = .lt)
      (constant : ∀ a ∈ atoms, a.base = .zero → ∀ b ∈ atoms, b ≠ a → b.offset < a.offset) :
      NormalForm (maximum atoms)

/-- The level is zero, a parameter, or an `imax` of normal forms that no rule simplifies:
the right side is neither zero nor a successor nor a maximum, and the left side is neither
zero nor one nor the right side. -/
inductive NormalBase : Level → Prop where
  | zero : NormalBase .zero
  | param (n : Name) : NormalBase (.param n)
  | imax {a b : Level} (left : NormalForm a) (right : NormalForm b) (left_ne_zero : a ≠ .zero)
      (left_ne_one : a ≠ .succ .zero) (right_ne_zero : b ≠ .zero)
      (right_isBase : b.isBase = true) (ne : a ≠ b) : NormalBase (.imax a b)

end

variable {as bs : List Atom} {a b l : Level}

/-- The base of an atom in normal form is neither a successor nor a maximum. -/
theorem NormalBase.isBase (h : NormalBase l) : l.isBase = true := by
  cases h <;> rfl

/-! ## Normal forms are kept -/

/-- A maximum of atoms whose bases are atoms has these atoms. -/
theorem atoms_maximum_eq_self (hne : as ≠ []) (h : ∀ a ∈ as, a.base.atoms = [⟨a.base, 0⟩]) :
    (maximum as).atoms = as := by
  have hatom : ∀ a ∈ as, (a.base.subst []).atomsFrom a.offset = [a] := by
    intro a ha
    rw [subst_nil, ← Nat.zero_add a.offset, atomsFrom_add]
    exact (congrArg _ (h a ha)).trans (by simp [raise])
  calc (maximum as).atoms
      = instantiate [] as := by rw [← atoms_subst_maximum hne, subst_nil]
    _ = as.flatMap ([·]) := List.flatMap_congr hatom
    _ = as := List.flatMap_singleton' as

/-- A list with ascending bases whose constant exceeds the other offsets is canonical. -/
theorem canonical_eq_self (ascending : Ascending as)
    (constant : ∀ a ∈ as, a.base = .zero → ∀ b ∈ as, b ≠ a → b.offset < a.offset) :
    canonical as = as := by
  refine (canonical_canonical as).eq_of_alike ⟨ascending, ?_⟩ (alike_canonical as)
  intro a ha
  rw [Bool.eq_false_iff]
  intro hdominated
  obtain ⟨hzero, b, hb, hbase, hle⟩ := dominatedIn_iff.mp hdominated
  have hne : b ≠ a := by
    rintro rfl
    exact hbase hzero
  have hlt := constant a ha hzero b hb hne
  omega

theorem summands_of_isBase (h : l.isBase = true) : l.summands = [⟨l, 0⟩] :=
  summandsFrom_addOffset h 0 0

/-- A base is not a maximum, so an `imax` over it is not spread. -/
theorem isMaximum_of_isBase (h : l.isBase = true) : l.isMaximum = false := by
  cases l with
  | zero | param n | imax a b => rfl
  | succ l | max a b => cases h

/-- An `imax` of canonical forms that no rule simplifies is an atom. -/
theorem atoms_imax_eq_self (ha : a.normalize = a) (hb : b.normalize = b) (ha_zero : a ≠ zero)
    (ha_one : a ≠ succ zero) (hb_zero : b ≠ zero) (hb_base : b.isBase = true) (hne : a ≠ b) :
    (imax a b).atoms = [⟨imax a b, 0⟩] := by
  have hoffsets : ¬ b.summands.any (0 < ·.offset) = true := by
    simp [summands_of_isBase hb_base]
  have hsmall : ¬ (a.normalize = zero ∨ a.normalize = succ zero) := by
    rw [ha]
    exact not_or.mpr ⟨ha_zero, ha_one⟩
  calc (imax a b).atoms
      = imaxAtoms a.atoms b := by rw [atoms_imax, hb]
    _ = a.normalize.spread b := imaxAtoms_of_spread hb_zero hoffsets hsmall
    _ = a.spread b := by rw [ha]
    _ = [⟨imax a b, 0⟩] := spread_of_not_isMaximum hne (isMaximum_of_isBase hb_base)

mutual

/-- **A normal form is its own canonical form.** -/
theorem NormalForm.normalize_eq : ∀ {l : Level}, NormalForm l → l.normalize = l
  | _, .maximum nonempty bases ascending constant => by
    have hatoms := atoms_maximum_eq_self nonempty fun a ha => (bases a ha).atoms_eq
    rw [normalize, hatoms, canonical_eq_self ascending constant]

/-- **A normal base is its own only atom.** -/
theorem NormalBase.atoms_eq : ∀ {l : Level}, NormalBase l → l.atoms = [⟨l, 0⟩]
  | _, .zero => rfl
  | _, .param n => rfl
  | _, .imax left right left_ne_zero left_ne_one right_ne_zero right_isBase ne =>
    atoms_imax_eq_self left.normalize_eq right.normalize_eq left_ne_zero left_ne_one
      right_ne_zero right_isBase ne

end

/-! ## Canonical forms are normal -/

/-- Every atom has a normal base. -/
def Atom.NormalBases (atoms : List Atom) : Prop :=
  ∀ a ∈ atoms, NormalBase a.base

theorem Atom.NormalBases.append (has : NormalBases as) (hbs : NormalBases bs) :
    NormalBases (as ++ bs) := by
  intro a ha
  exact (List.mem_append.mp ha).elim (has a) (hbs a)

theorem Atom.normalBases_singleton {a : Atom} (h : NormalBase a.base) : NormalBases [a] := by
  intro b hb
  rw [List.mem_singleton.mp hb]
  exact h

/-- Putting atoms in canonical order keeps their bases, and so their bases normal. -/
theorem Atom.NormalBases.canonical (h : NormalBases as) : NormalBases (canonical as) := by
  intro a ha
  obtain ⟨b, hb, hbase⟩ := mem_canonical_base ha
  exact hbase ▸ h b hb

theorem Atom.NormalBases.based (h : NormalBases as) : Based as :=
  fun a ha => (h a ha).isBase

/-- The constant of a canonical list exceeds the other offsets. -/
theorem offset_lt_of_mem_canonical {x y : Atom} (hx : x ∈ canonical as) (hzero : x.base = .zero)
    (hy : y ∈ canonical as) (hne : y ≠ x) : y.offset < x.offset := by
  have hcanonical := canonical_canonical as
  by_contra hle
  have hbase : y.base ≠ .zero := fun hbase =>
    hne (hcanonical.ascending.eq_of_base hy hx (hbase.trans hzero.symm))
  exact Bool.eq_false_iff.mp (hcanonical.undominated x hx)
    (dominatedIn_iff.mpr ⟨hzero, y, hy, hbase, by omega⟩)

theorem normalForm_maximum_canonical (h : NormalBases as) (hne : as ≠ []) :
    NormalForm (maximum (canonical as)) :=
  .maximum ((alike_canonical as).2.ne_nil hne) h.canonical (canonical_canonical as).ascending
    fun _ hx hzero _ hy hne => offset_lt_of_mem_canonical hx hzero hy hne

/-- A base is a canonical form of one atom. -/
theorem NormalBase.normalForm (h : NormalBase l) : NormalForm l := by
  have hmaximum : NormalForm (maximum [⟨l, 0⟩]) :=
    .maximum (by simp) (normalBases_singleton h) (List.pairwise_singleton _ _) (by simp)
  exact hmaximum

/-- The offsets of the summands are at least the offset that they are collected from. -/
theorem le_offset_of_mem_summandsFrom {s : Atom} {k : Nat} (h : s ∈ l.summandsFrom k) :
    k ≤ s.offset := by
  fun_induction summandsFrom k l with
  | case1 k l ih => exact Nat.le_of_succ_le (ih h)
  | case2 k a b iha ihb => exact (List.mem_append.mp h).elim iha ihb
  | case3 => exact Nat.le_of_eq (by rw [List.mem_singleton.mp h])

/-- A list with ascending bases that has one atom only has it once. -/
theorem Atom.Ascending.eq_singleton {a : Atom} (h : Ascending as) (ha : a ∈ as)
    (hsame : ∀ b ∈ as, b = a) : as = [a] := by
  have hmem : ∀ b, b ∈ as ↔ b ∈ [a] := by
    intro b
    rw [List.mem_singleton]
    exact ⟨hsame b, fun hb => hb ▸ ha⟩
  exact List.perm_singleton.mp
    ((List.perm_ext_iff_of_nodup h.nodup (List.nodup_singleton a)).mpr hmem)

/-- Among atoms without offsets there is no constant, unless it is all there is: it would
have to exceed the other offsets. -/
theorem base_ne_zero_of_mem_canonical (hzero : maximum (canonical as) ≠ .zero)
    (hoffsets : ∀ s ∈ canonical as, s.offset = 0) : ∀ s ∈ canonical as, s.base ≠ .zero := by
  intro s hs hbase
  have hsame : ∀ t ∈ canonical as, t = s := by
    intro t ht
    by_contra hne
    have hlt := offset_lt_of_mem_canonical hs hbase ht hne
    rw [hoffsets s hs] at hlt
    exact Nat.not_lt_zero _ hlt
  refine hzero ?_
  rw [(canonical_canonical as).ascending.eq_singleton hs hsame, maximum, level, hbase,
    hoffsets s hs]
  rfl

/-- **Spreading an `imax` makes normal bases.** The induction takes the right side apart
down to levels that are no maximum; such a level is an atom, and without an offset it is
the base of that atom. -/
theorem normalBases_spread (ha : NormalForm a) (ha_zero : a ≠ zero) (ha_one : a ≠ succ zero)
    (has : NormalBases a.summands) (hbs : NormalBases b.summands)
    (hplain : ∀ s ∈ b.summands, s.base ≠ .zero ∧ s.offset = 0) : NormalBases (a.spread b) := by
  fun_induction spread a b with
  | case1 => exact has
  | case2 x y _ ihx ihy =>
    have hsummands : (max x y).summands = x.summands ++ y.summands := rfl
    rw [hsummands] at hbs hplain
    have hx := List.subset_append_left x.summands y.summands
    have hy := List.subset_append_right x.summands y.summands
    exact (ihx (fun s hs => hbs s (hx hs)) fun s hs => hplain s (hx hs)).append
      (ihy (fun s hs => hbs s (hy hs)) fun s hs => hplain s (hy hs))
  | case3 b hne hmax =>
    have hbase : b.isBase = true := by
      cases b with
      | zero | param n | imax x y => rfl
      | max x y => exact absurd rfl (hmax x y)
      | succ l =>
        -- a successor leaves an offset on every atom below it
        obtain ⟨s, hs⟩ := List.exists_mem_of_ne_nil _ (summandsFrom_ne_nil 1 l)
        have hle := le_offset_of_mem_summandsFrom hs
        have hzero := (hplain s hs).2
        omega
    rw [summands_of_isBase hbase] at hbs hplain
    have hnormal : NormalBase b := hbs _ (List.mem_singleton.mpr rfl)
    have hb_zero : b ≠ zero := (hplain _ (List.mem_singleton.mpr rfl)).1
    exact normalBases_singleton (.imax ha hnormal.normalForm ha_zero ha_one hb_zero hbase hne)

theorem normalBases_imaxAtoms (has : NormalBases as) (hne : as ≠ []) (hbs : NormalBases bs)
    (hne' : bs ≠ []) : NormalBases (imaxAtoms as (maximum (canonical bs))) := by
  have hleft := summands_maximum_canonical has.based hne
  have hright := summands_maximum_canonical hbs.based hne'
  have hrule := imaxRule_imaxAtoms as (maximum (canonical bs))
  generalize imaxAtoms as (maximum (canonical bs)) = result at hrule ⊢
  cases hrule with
  | zero => exact normalBases_singleton .zero
  | positive =>
    rw [hright]
    exact has.append hbs.canonical
  | small =>
    rw [hright]
    exact hbs.canonical
  | spread hzero hany hsmall =>
    obtain ⟨ha_zero, ha_one⟩ := not_or.mp hsmall
    rw [hright] at hany
    have hoffsets : ∀ s ∈ canonical bs, s.offset = 0 := by
      intro s hs
      simpa using List.any_eq_false.mp (Bool.eq_false_iff.mpr hany) s hs
    refine normalBases_spread (normalForm_maximum_canonical has hne) ha_zero ha_one ?_ ?_ ?_
    · rw [hleft]
      exact has.canonical
    · rw [hright]
      exact hbs.canonical
    · rw [hright]
      exact fun s hs => ⟨base_ne_zero_of_mem_canonical hzero hoffsets s hs, hoffsets s hs⟩

/-- **The atoms of a level have normal bases.** -/
theorem normalBases_atomsFrom (k : Nat) (l : Level) : NormalBases (l.atomsFrom k) := by
  induction l generalizing k with
  | zero => exact normalBases_singleton .zero
  | param n => exact normalBases_singleton (.param n)
  | succ l ih => exact ih (k + 1)
  | max a b iha ihb => exact (iha k).append (ihb k)
  | imax a b iha ihb =>
    have himax := normalBases_imaxAtoms (iha 0) (atomsFrom_ne_nil 0 a) (ihb 0)
      (atomsFrom_ne_nil 0 b)
    intro x hx
    obtain ⟨y, hy, rfl⟩ := List.mem_map.mp hx
    exact himax y hy

/-- **The canonical form of a level is normal.** -/
theorem normalForm_normalize (l : Level) : NormalForm l.normalize :=
  normalForm_maximum_canonical (normalBases_atomsFrom 0 l) (atomsFrom_ne_nil 0 l)

/-- **Canonical forms are normal, and normal forms are kept.** The canonical form of a
level is a maximum of atoms, nested to the right, by ascending bases that are zero,
parameters or an `imax` of canonical forms that no rule simplifies; a constant stands
beside other atoms only if it exceeds their offsets. The canonical form of a canonical
form is itself; and to be its own canonical form is what makes a level normal. -/
theorem normalForm_normalize_idem (l : Level) :
    NormalForm l.normalize ∧ l.normalize.normalize = l.normalize ∧
      (l.normalize = l ↔ NormalForm l) := by
  have hnormal := normalForm_normalize l
  refine ⟨hnormal, hnormal.normalize_eq, ?_, NormalForm.normalize_eq⟩
  intro hkept
  exact hkept ▸ hnormal

end Level

end TypeTheory
