import TypeTheory.Proofs.Level.Congruence

/-!
# The laws of maxima

Equality of levels is a congruence (`Level.congruence_equiv`) under which levels
calculate as numbers do: the maximum is commutative, associative and idempotent, zero is
its unit, successors distribute over it, and `imax` is the maximum over a successor, zero
over zero, and its right side where the left side is at most one or the same
(`Level.MaxLaws`).

Equality is sameness of canonical forms, hence likeness of atoms, so each law compares
two lists of atoms. The rules for `imax` look at the canonical form of the right side; a
law that does not know it says what the rules have in common.
-/

namespace TypeTheory

namespace Level

open Atom

/-- A congruence of levels with the laws of maxima. -/
structure MaxLaws (L : Level → Level → Prop) : Prop extends Congruence L where
  max_comm : ∀ a b, L (.max a b) (.max b a)
  max_assoc : ∀ a b c, L (.max (.max a b) c) (.max a (.max b c))
  max_self : ∀ a, L (.max a a) a
  zero_max : ∀ a, L (.max .zero a) a
  max_zero : ∀ a, L (.max a .zero) a
  succ_max : ∀ a b, L (.succ (.max a b)) (.max (.succ a) (.succ b))
  imax_zero : ∀ a, L (.imax a .zero) .zero
  imax_succ : ∀ a b, L (.imax a (.succ b)) (.max a (.succ b))
  zero_imax : ∀ b, L (.imax .zero b) b
  one_imax : ∀ b, L (.imax (.succ .zero) b) b
  imax_self : ∀ b, L (.imax b b) b

variable {as bs : List Atom}

/-! ## Maxima -/

/-- Lists of the same atoms are alike. -/
theorem Atom.Alike.of_mem_iff (h : ∀ x, x ∈ as ↔ x ∈ bs) : Alike as bs :=
  ⟨.of_subset fun x => (h x).mp, .of_subset fun x => (h x).mpr⟩

/-- Every atom is as large as zero. -/
theorem Atom.below_zero (hne : as ≠ []) : Below [⟨.zero, 0⟩] as := by
  intro x hx
  obtain ⟨y, hy⟩ := List.exists_mem_of_ne_nil _ hne
  rw [List.mem_singleton.mp hx]
  exact ⟨y, hy, Nat.zero_le _, .inr rfl⟩

theorem atoms_max (a b : Level) : (max a b).atoms = a.atoms ++ b.atoms := rfl

/-- The atoms of both sides come in another order, which likeness does not see. -/
theorem equiv_max_comm (a b : Level) : Equiv (max a b) (max b a) := by
  rw [equiv_iff_alike, atoms_max, atoms_max]
  refine .of_mem_iff fun x => ?_
  rw [List.mem_append, List.mem_append, or_comm]

theorem equiv_max_assoc (a b c : Level) : Equiv (max (max a b) c) (max a (max b c)) := by
  rw [equiv_iff_alike, atoms_max, atoms_max, atoms_max, atoms_max, List.append_assoc]

theorem equiv_max_self (a : Level) : Equiv (max a a) a := by
  rw [equiv_iff_alike, atoms_max]
  exact .of_append_covered (.of_subset (List.Subset.refl _))

theorem equiv_zero_max (a : Level) : Equiv (max zero a) a := by
  rw [equiv_iff_alike, atoms_max]
  exact .of_append_covered (below_zero (atomsFrom_ne_nil 0 a))

/-! ## Impredicative maxima -/

/-- The canonical form of a successor has an atom with an offset. -/
theorem any_offset_normalize_succ (l : Level) :
    l.succ.normalize.summands.any (0 < ·.offset) = true := by
  obtain ⟨x, hx⟩ := List.exists_mem_of_ne_nil _ (atomsFrom_ne_nil 0 l)
  have hsucc : raise 1 x ∈ l.succ.atoms := by
    rw [atoms_succ]
    exact List.mem_map_of_mem hx
  -- the atom that covers it has no smaller offset
  obtain ⟨y, hy, hle, -⟩ := (alike_summands_normalize l.succ).2 _ hsucc
  refine List.any_eq_true.mpr ⟨y, hy, ?_⟩
  rw [decide_eq_true_eq]
  exact Nat.lt_of_lt_of_le (Nat.succ_pos x.offset) hle

theorem equiv_imax_zero (a : Level) : Equiv (imax a zero) zero := by
  rw [equiv_iff_alike, atoms_imax]
  exact .refl _

/-- **Over a successor `imax` is the maximum.** -/
theorem equiv_imax_succ (a b : Level) : Equiv (imax a b.succ) (max a b.succ) := by
  rw [equiv_iff_alike, atoms_imax, imaxAtoms_of_any_offset (any_offset_normalize_succ b), atoms_max]
  exact (Alike.refl _).append (alike_summands_normalize b.succ)

/-- **A left side of at most one adds nothing.** -/
theorem equiv_ofNat_imax {k : Nat} (hk : k ≤ 1) (b : Level) : Equiv (imax (ofNat k) b) b := by
  have hatoms : (ofNat k).atoms = [⟨zero, k⟩] := by
    rw [ofNat, atoms, atomsFrom_addOffset, Nat.zero_add]
    rfl
  rw [equiv_iff_alike, atoms_imax, hatoms]
  exact (alike_imaxAtoms_of_small hk (.refl _)).trans (alike_summands_normalize b)

/-- Over itself an `imax` is that level, whatever its canonical form is. -/
theorem equiv_imax_self (b : Level) : Equiv (imax b b) b := by
  rw [equiv_iff_alike, atoms_imax]
  exact alike_imaxAtoms_self (based_atomsFrom 0 b) (atomsFrom_ne_nil 0 b)

/-! ## All laws -/

/-- **Equality of levels is a congruence with the laws of maxima.** And it is no coarser
than sameness of values. -/
theorem maxLaws_equiv :
    MaxLaws (fun a b => a.equiv b = true) ∧ ∀ a b : Level, a.equiv b = true → Same a b := by
  refine ⟨{ congruence_equiv with
    max_comm := equiv_max_comm
    max_assoc := equiv_max_assoc
    max_self := equiv_max_self
    zero_max := equiv_zero_max
    max_zero := fun a => congruence_equiv.trans (equiv_max_comm a zero) (equiv_zero_max a)
    succ_max := fun a b => equiv_iff_alike.mpr (.refl _)
    imax_zero := equiv_imax_zero
    imax_succ := equiv_imax_succ
    zero_imax := equiv_ofNat_imax (Nat.zero_le 1)
    one_imax := equiv_ofNat_imax (Nat.le_refl 1)
    imax_self := equiv_imax_self }, ?_⟩
  intro a b
  exact same_of_equiv

/-- The successor of an `imax` under one, calculated by the laws. -/
theorem maxLaws_equiv_succ_imax :
    let u := param (.atom "u")
    let v := param (.atom "v")
    let a := succ (imax (succ zero) (max u v))
    let b := max v.succ u.succ
    a.equiv b = true ∧ Same a b := by
  intro u v a b
  obtain ⟨laws, hsame⟩ := maxLaws_equiv
  have hleft : a.equiv (succ (max u v)) = true := laws.succ (laws.one_imax (max u v))
  have hright : (succ (max u v)).equiv b = true :=
    laws.trans (laws.succ_max u v) (laws.max_comm u.succ v.succ)
  have hequiv : a.equiv b = true := laws.trans hleft hright
  exact ⟨hequiv, hsame a b hequiv⟩

end Level

end TypeTheory
