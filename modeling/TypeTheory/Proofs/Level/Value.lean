import TypeTheory.Level.Normal
import Mathlib.Tactic.Common

/-!
# The value of a level

Under an assignment of numbers to universe parameters a level is a number:
`Level.value`. A list of atoms has the largest of its atoms' values, and every
step of the canonical form keeps that number: inserting an atom, dropping a
dominated constant, splitting a maximum, spreading an `imax` over the atoms of
its right side. So a level and its canonical form have one value
(`value_normalize`), and levels that `Level.equiv` calls equal have the same
value under every assignment (`Level.Same`).
-/

namespace TypeTheory

/-! ## The order decides equality -/

/-- Names that compare as equal are equal. -/
theorem Name.eq_of_cmp_eq : ∀ {m n : Name}, m.cmp n = .eq → m = n
  | .anonymous, .anonymous, _ => rfl
  | .anonymous, .str .., h => by simp [Name.cmp] at h
  | .str .., .anonymous, h => by simp [Name.cmp] at h
  | .str p s, .str q t, h => by
    rw [Name.cmp, Ordering.then_eq_eq] at h
    rw [eq_of_cmp_eq h.1, Std.LawfulEqOrd.eq_of_compare h.2]

namespace Level

/-- Levels that compare as equal are equal. -/
theorem eq_of_cmp_eq {a b : Level} (h : a.cmp b = .eq) : a = b := by
  fun_induction cmp a b with
  | case1 => rfl
  | case4 m n => rw [Name.eq_of_cmp_eq h]
  | case8 a b ih => rw [ih h]
  | case10 a b c d iha ihb | case13 a b c d iha ihb =>
    rw [Ordering.then_eq_eq] at h
    rw [iha h.1, ihb h.2]
  | _ => simp at h

/-! ## Values -/

/-- The value of a level when its parameters have the values `ρ`. -/
def value (ρ : Name → Nat) : Level → Nat
  | zero => 0
  | param n => ρ n
  | succ l => l.value ρ + 1
  | max a b => Max.max (a.value ρ) (b.value ρ)
  | imax a b => if b.value ρ = 0 then 0 else Max.max (a.value ρ) (b.value ρ)

/-- Two levels are the same when no assignment tells them apart. -/
def Same (a b : Level) : Prop :=
  ∀ ρ, a.value ρ = b.value ρ

theorem Same.refl (a : Level) : Same a a := fun _ => rfl

theorem Same.symm {a b : Level} (h : Same a b) : Same b a := fun ρ => (h ρ).symm

theorem Same.trans {a b c : Level} (h : Same a b) (h' : Same b c) : Same a c :=
  fun ρ => (h ρ).trans (h' ρ)

variable {ρ : Name → Nat}

theorem value_imax (a b : Level) :
    (imax a b).value ρ = if b.value ρ = 0 then 0 else Max.max (a.value ρ) (b.value ρ) := rfl

theorem value_addOffset (l : Level) (k : Nat) : (l.addOffset k).value ρ = l.value ρ + k := by
  induction k generalizing l with
  | zero => rfl
  | succ k ih =>
    rw [addOffset, ih, value]
    omega

/-! ## Values of atoms -/

/-- The value of an atom. -/
def Atom.value (ρ : Name → Nat) (a : Atom) : Nat :=
  a.base.value ρ + a.offset

/-- The largest value of a list of atoms. -/
def Atom.top (ρ : Name → Nat) : List Atom → Nat
  | [] => 0
  | a :: rest => Max.max (a.value ρ) (Atom.top ρ rest)

namespace Atom

@[simp] theorem top_nil : top ρ [] = 0 := rfl

@[simp] theorem top_cons (a : Atom) (rest : List Atom) :
    top ρ (a :: rest) = Max.max (a.value ρ) (top ρ rest) := rfl

@[simp] theorem top_append (as bs : List Atom) :
    top ρ (as ++ bs) = Max.max (top ρ as) (top ρ bs) := by
  induction as with
  | nil => simp
  | cons a as ih =>
    rw [List.cons_append, top_cons, top_cons, ih]
    omega

theorem value_le_top {a : Atom} {atoms : List Atom} (h : a ∈ atoms) : a.value ρ ≤ top ρ atoms := by
  induction atoms with
  | nil => cases h
  | cons b rest ih =>
    rw [top_cons]
    rcases List.mem_cons.mp h with rfl | h
    · omega
    · have := ih h
      omega

/-- A list is worth at most a number if each of its atoms is. -/
theorem top_le_iff {atoms : List Atom} {n : Nat} :
    top ρ atoms ≤ n ↔ ∀ a ∈ atoms, a.value ρ ≤ n := by
  induction atoms with
  | nil => simp
  | cons a rest ih => rw [top_cons, Nat.max_le, ih, List.forall_mem_cons]

theorem value_level (a : Atom) : a.level.value ρ = a.value ρ :=
  value_addOffset a.base a.offset

/-- The maximum of a list of atoms has the largest of their values. -/
theorem value_maximum : ∀ atoms : List Atom, (maximum atoms).value ρ = top ρ atoms
  | [] => rfl
  | [a] => by simp [maximum, value_level]
  | a :: b :: rest => by
    rw [maximum, Level.value, value_level, value_maximum (b :: rest), top_cons a]
    simp

/-- Raising every atom raises the largest value. The list must not be empty: it
would stay at zero. -/
theorem top_map_raise (k : Nat) {atoms : List Atom} (h : atoms ≠ []) :
    top ρ (atoms.map (raise k)) = top ρ atoms + k := by
  induction atoms with
  | nil => exact absurd rfl h
  | cons a rest ih =>
    have ha : (raise k a).value ρ = a.value ρ + k := by
      simp only [raise, value]
      omega
    rw [List.map_cons, top_cons, top_cons, ha]
    cases rest with
    | nil => simp
    | cons b rest =>
      rw [ih (by simp)]
      omega

/-! ## Canonical lists -/

/-- Inserting an atom makes no new base. -/
theorem mem_insert_base {x a : Atom} {atoms : List Atom} (h : x ∈ insert a atoms) :
    x.base = a.base ∨ ∃ b ∈ atoms, x.base = b.base := by
  induction atoms with
  | nil => exact .inl (List.mem_singleton.mp h ▸ rfl)
  | cons b rest ih =>
    rw [insert] at h
    split at h
    · rcases List.mem_cons.mp h with rfl | h
      · exact .inl rfl
      · exact .inr ⟨x, h, rfl⟩
    · rcases List.mem_cons.mp h with rfl | h
      · exact .inr ⟨b, List.mem_cons_self, rfl⟩
      · exact .inr ⟨x, List.mem_cons_of_mem b h, rfl⟩
    · rcases List.mem_cons.mp h with rfl | h
      · exact .inr ⟨x, List.mem_cons_self, rfl⟩
      · rcases ih h with h | ⟨c, hc, h⟩
        · exact .inl h
        · exact .inr ⟨c, List.mem_cons_of_mem b hc, h⟩

/-- The base of a canonical atom is the base of some atom. -/
theorem mem_canonical_base {x : Atom} {atoms : List Atom} (h : x ∈ canonical atoms) :
    ∃ a ∈ atoms, x.base = a.base := by
  have hsorted : x ∈ atoms.foldr insert [] := (List.mem_filter.mp h).1
  clear h
  induction atoms generalizing x with
  | nil => cases hsorted
  | cons a rest ih =>
    rcases mem_insert_base hsorted with hbase | ⟨b, hb, hbase⟩
    · exact ⟨a, List.mem_cons_self, hbase⟩
    · obtain ⟨c, hc, hbase'⟩ := ih hb
      exact ⟨c, List.mem_cons_of_mem a hc, hbase.trans hbase'⟩

/-- Inserting an atom keeps all values. -/
theorem top_insert (a : Atom) (atoms : List Atom) :
    top ρ (insert a atoms) = Max.max (a.value ρ) (top ρ atoms) := by
  induction atoms with
  | nil => rfl
  | cons b rest ih =>
    rw [insert]
    split
    · rfl
    · -- one base, and the larger of two offsets
      rename_i hcmp
      have hbase : a.base = b.base := eq_of_cmp_eq hcmp
      simp only [top_cons, value, hbase, Nat.max]
      omega
    · rw [top_cons, ih, top_cons]
      omega

theorem top_foldr_insert (atoms : List Atom) : top ρ (atoms.foldr insert []) = top ρ atoms := by
  induction atoms with
  | nil => rfl
  | cons a rest ih => rw [List.foldr_cons, top_insert, ih, top_cons]

/-- **A dominated constant is not missed.** The atom that dominates it is no
constant, so it is kept, and its value is at least its offset. -/
theorem top_filter_dominated (atoms : List Atom) :
    top ρ (atoms.filter fun a => !a.dominatedIn atoms) = top ρ atoms := by
  refine Nat.le_antisymm ?_ ?_
  · exact top_le_iff.mpr fun a ha => value_le_top (List.mem_filter.mp ha).1
  · refine top_le_iff.mpr fun a ha => ?_
    by_cases hdom : a.dominatedIn atoms = true
    · simp only [dominatedIn, Bool.and_eq_true, decide_eq_true_eq, List.any_eq_true] at hdom
      obtain ⟨hzero, b, hb, hbase, hle⟩ := hdom
      have hkept : b ∈ atoms.filter fun a => !a.dominatedIn atoms := by
        refine List.mem_filter.mpr ⟨hb, ?_⟩
        simp [dominatedIn, hbase]
      have hva : a.value ρ = a.offset := by simp [value, hzero, Level.value]
      have hvb : b.offset ≤ b.value ρ := by simp [value]
      have := value_le_top (ρ := ρ) hkept
      omega
    · exact value_le_top (List.mem_filter.mpr ⟨ha, by simpa using hdom⟩)

/-- The canonical form of a list is worth what the list is worth, under every assignment. -/
theorem top_canonical (atoms : List Atom) : top ρ (canonical atoms) = top ρ atoms := by
  rw [canonical, top_filter_dominated, top_foldr_insert]

end Atom

open Atom

/-- The canonical level of a list of atoms has the largest of their values. -/
theorem value_maximum_canonical (atoms : List Atom) :
    (maximum (canonical atoms)).value ρ = top ρ atoms := by
  rw [value_maximum, top_canonical]

/-! ## The atoms of a level -/

theorem summandsFrom_ne_nil (k : Nat) (l : Level) : l.summandsFrom k ≠ [] := by
  fun_induction summandsFrom k l with
  | case1 _ _ ih => exact ih
  | case2 _ _ _ iha _ => simp [iha]
  | case3 => simp

/-- The summands of a level are worth the level, with the offset that they are collected from. -/
theorem top_summandsFrom (k : Nat) (l : Level) : top ρ (l.summandsFrom k) = l.value ρ + k := by
  fun_induction summandsFrom k l with
  | case1 k l ih =>
    rw [ih, Level.value]
    omega
  | case2 k a b iha ihb =>
    rw [top_append, iha, ihb, Level.value]
    omega
  | case3 => simp [Atom.value]

theorem top_summands (l : Level) : top ρ l.summands = l.value ρ :=
  top_summandsFrom 0 l

theorem spread_ne_nil (a b : Level) : a.spread b ≠ [] := by
  fun_induction spread a b with
  | case1 => exact summandsFrom_ne_nil 0 a
  | case2 _ _ _ ihx _ => simp [ihx]
  | case3 => simp

/-- **Spreading an `imax` keeps its value**: `imax a` goes through a maximum,
and `imax a a` is `a`. -/
theorem top_spread (a b : Level) : top ρ (a.spread b) = (imax a b).value ρ := by
  fun_induction spread a b with
  | case1 =>
    rw [top_summands, value_imax]
    split <;> omega
  | case2 x y _ ihx ihy =>
    have hmax : (max x y).value ρ = Max.max (x.value ρ) (y.value ρ) := rfl
    rw [top_append, ihx, ihy, value_imax, value_imax, value_imax]
    split_ifs <;> omega
  | case3 => simp [Atom.value]

/-- The rules for the atoms of an `imax`, whose left side is given by its atoms and whose
right side is a canonical form: the right side is zero, or never zero, or the left side is at
most one, or the `imax` is spread. -/
inductive ImaxRule (as : List Atom) (b : Level) : List Atom → Prop where
  | zero (hzero : b = .zero) : ImaxRule as b [⟨.zero, 0⟩]
  | positive (hany : b.summands.any (0 < ·.offset) = true) : ImaxRule as b (as ++ b.summands)
  | small (hzero : b ≠ .zero) (hany : ¬b.summands.any (0 < ·.offset) = true)
      (hsmall : maximum (canonical as) = .zero ∨ maximum (canonical as) = .succ .zero) :
      ImaxRule as b b.summands
  | spread (hzero : b ≠ .zero) (hany : ¬b.summands.any (0 < ·.offset) = true)
      (hsmall : ¬(maximum (canonical as) = .zero ∨ maximum (canonical as) = .succ .zero)) :
      ImaxRule as b ((maximum (canonical as)).spread b)

/-- The atoms of an `imax` are found by one of the rules. -/
theorem imaxRule_imaxAtoms (as : List Atom) (b : Level) : ImaxRule as b (imaxAtoms as b) := by
  unfold imaxAtoms
  split
  · rename_i hzero
    exact .zero hzero
  rename_i hzero
  split
  · rename_i hany
    exact .positive hany
  rename_i hany
  dsimp only
  split
  · rename_i hsmall
    exact .small hzero hany hsmall
  · rename_i hsmall
    exact .spread hzero hany hsmall

/-- An `imax` has atoms in any case, so its maximum is never empty. -/
theorem imaxAtoms_ne_nil {atoms : List Atom} (b : Level) : imaxAtoms atoms b ≠ [] := by
  have hrule := imaxRule_imaxAtoms atoms b
  generalize imaxAtoms atoms b = result at hrule ⊢
  cases hrule with
  | zero => simp
  | positive => simp [summandsFrom_ne_nil 0 b, summands]
  | small => exact summandsFrom_ne_nil 0 b
  | spread => exact spread_ne_nil _ b

/-- **The four rules for `imax` keep its value.** A right side with an offset is
never zero, and a left side of at most one adds nothing to a right side that is
not zero. -/
theorem top_imaxAtoms (atoms : List Atom) (b : Level) :
    top ρ (imaxAtoms atoms b) = if b.value ρ = 0 then 0 else Max.max (top ρ atoms) (b.value ρ) := by
  have hrule := imaxRule_imaxAtoms atoms b
  have ha := value_maximum_canonical (ρ := ρ) atoms
  generalize imaxAtoms atoms b = result at hrule ⊢
  cases hrule with
  | zero hzero => simp [hzero, Atom.value, Level.value]
  | positive hany =>
    obtain ⟨s, hs, hpos⟩ := List.any_eq_true.mp hany
    have hle : s.value ρ ≤ b.value ρ := top_summands (ρ := ρ) b ▸ value_le_top hs
    have hoff : 0 < s.value ρ := by
      simp only [decide_eq_true_eq] at hpos
      simp only [Atom.value]
      omega
    rw [if_neg (by omega), top_append, top_summands]
  | small hzero hany hsmall =>
    have hle : top ρ atoms ≤ 1 := by
      rcases hsmall with h | h <;> rw [← ha, h] <;> simp [Level.value]
    rw [top_summands]
    split <;> omega
  | spread => rw [top_spread, value_imax, ha]

/-- The atoms of a level have its value. -/
theorem top_atomsFrom (k : Nat) (l : Level) : top ρ (l.atomsFrom k) = l.value ρ + k := by
  induction l generalizing k with
  | zero | param n => simp [atomsFrom, Atom.value]
  | succ l ih =>
    rw [atomsFrom, ih, Level.value]
    omega
  | max a b iha ihb =>
    rw [atomsFrom, top_append, iha, ihb, Level.value]
    omega
  | imax a b iha ihb =>
    rw [atomsFrom, top_map_raise k (imaxAtoms_ne_nil _), top_imaxAtoms,
      value_maximum_canonical, iha 0, ihb 0, value_imax]
    simp

/-! ## Canonical forms -/

/-- **A level and its canonical form have one value.** -/
theorem value_normalize (l : Level) : l.normalize.value ρ = l.value ρ := by
  rw [normalize, value_maximum_canonical, atoms, top_atomsFrom, Nat.add_zero]

theorem same_normalize (l : Level) : Same l l.normalize :=
  fun _ => (value_normalize l).symm

/-- **Levels that are called equal are the same.** -/
theorem same_of_equiv {a b : Level} (h : a.equiv b = true) : Same a b := by
  simp only [equiv, Bool.or_eq_true, decide_eq_true_eq] at h
  rcases h with rfl | h
  · exact Same.refl a
  · intro ρ
    rw [← value_normalize a, ← value_normalize b, h]

/-- Lists that are called equal are the same position by position. -/
theorem forall₂_same_of_equivAll {as bs : List Level} (h : equivAll as bs = true) :
    List.Forall₂ Same as bs := by
  fun_induction equivAll as bs with
  | case1 => exact .nil
  | case2 a as b bs ih =>
    rw [Bool.and_eq_true] at h
    exact .cons (same_of_equiv h.1) (ih h.2)
  | case3 => cases h

/-- **Canonical forms keep the meaning of levels.** Under every assignment a level
and its canonical form have one value; so levels that are called equal have the
same value. -/
theorem value_canonical (ρ : Name → Nat) :
    (∀ l : Level, l.normalize.value ρ = l.value ρ) ∧
      ∀ a b : Level, a.equiv b = true → a.value ρ = b.value ρ := by
  refine ⟨value_normalize, ?_⟩
  intro a b hEquiv
  exact same_of_equiv hEquiv ρ

/-- An `imax` over a maximum is called equal to the maximum of its two halves in
the other order, also where one of them is zero. -/
theorem value_canonical_imax_max :
    let u := param (.atom "u")
    let v := param (.atom "v")
    let w := param (.atom "w")
    let ρ : Name → Nat := fun n => if n = .atom "v" then 0 else 3
    let spread := max (imax u.succ w) (imax u.succ v)
    (imax u.succ (max v w)).equiv spread = true ∧
      (imax u.succ (max v w)).value ρ = spread.value ρ ∧
      (imax u.succ (max v w)).normalize.value ρ = 4 := by
  intro u v w ρ spread
  have hEquiv : (imax u.succ (max v w)).equiv spread = true := by decide +kernel
  exact ⟨hEquiv, (value_canonical ρ).2 _ _ hEquiv, (value_canonical ρ).1 _⟩

end Level

end TypeTheory
