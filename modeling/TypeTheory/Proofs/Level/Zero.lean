import TypeTheory.Proofs.Level.NormalForm

/-!
# Levels that are always zero

A level is zero under every assignment exactly if its canonical form is `zero`
(`Level.isZero_iff_value_eq_zero`). One assignment decides: the one that gives every parameter the
value one. A canonical form that is zero there is `zero` itself: a parameter is one, an `imax`
that no rule simplifies has a right side that is not `zero`, and a maximum of atoms that are
all zero is a single constant without an offset.
-/

namespace TypeTheory

namespace Level

open Atom

/-- Every parameter is one. -/
def ones : Name → Nat :=
  fun _ => 1

/-- Atoms with ascending bases that are all `zero` are the one atom `zero`. -/
theorem maximum_eq_zero {as : List Atom} (hne : as ≠ []) (hascending : Ascending as)
    (hzero : ∀ a ∈ as, a.base = .zero ∧ a.offset = 0) : maximum as = .zero := by
  have hatom : ∀ a ∈ as, a = ⟨.zero, 0⟩ := by
    intro a ha
    obtain ⟨hbase, hoffset⟩ := hzero a ha
    cases a
    cases hbase
    cases hoffset
    rfl
  obtain ⟨a, ha⟩ := List.exists_mem_of_ne_nil _ hne
  rw [hascending.eq_singleton (hatom a ha ▸ ha) hatom]
  rfl

/-! ## One assignment decides -/

mutual

/-- **A normal form that is zero where every parameter is one is `zero`.** -/
theorem NormalForm.eq_zero : ∀ {l : Level}, NormalForm l → l.value ones = 0 → l = zero
  | _, .maximum nonempty bases ascending _, hl => by
    rw [value_maximum] at hl
    refine maximum_eq_zero nonempty ascending fun a ha => ?_
    have hle : a.value ones ≤ 0 := hl ▸ value_le_top ha
    have hvalue : a.value ones = a.base.value ones + a.offset := rfl
    exact ⟨(bases a ha).eq_zero (by omega), by omega⟩

/-- A base that is worth nothing where all parameters are one is zero. -/
theorem NormalBase.eq_zero : ∀ {l : Level}, NormalBase l → l.value ones = 0 → l = zero
  | _, .zero, _ => rfl
  | _, .param _, hl => absurd hl Nat.one_ne_zero
  | _, .imax (b := b) _ right _ _ right_ne_zero _ _, hl => by
    -- an `imax` is no smaller than its right side
    have hright : b.value ones = 0 := by
      rw [value_imax] at hl
      split at hl <;> omega
    exact absurd (right.eq_zero hright) right_ne_zero

end

/-- **A level that is zero where every parameter is one has the canonical form `zero`.** -/
theorem normalize_eq_zero (l : Level) (hl : l.value ones = 0) : l.normalize = zero :=
  (normalForm_normalize l).eq_zero (by rw [value_normalize, hl])

/-- **The test for zero is exact.** The canonical form of a level is `zero` if and only if
the level has the value zero under every assignment of numbers to its parameters. -/
theorem isZero_iff_value_eq_zero (l : Level) : l.isZero = true ↔ ∀ ρ, l.value ρ = 0 := by
  unfold isZero
  rw [decide_eq_true_eq]
  constructor
  · intro hnormalize ρ
    rw [← value_normalize l, hnormalize]
    rfl
  · intro hvalue
    exact normalize_eq_zero l (hvalue ones)

end Level

end TypeTheory
