import TypeTheory.Proofs.Level.Canonical

/-!
# Levels of one value are equal

Among levels without `imax` equality is decided exactly: two of them that have the
same value under every assignment have one canonical form
(`Level.equiv_iff_value_eq`). Their atoms are constants and parameters with offsets,
and what covers what among such atoms can be read off a few assignments. Where all
parameters are zero, the atoms are worth their offsets, so some atom covers the
largest constant. Where one parameter is larger than all offsets and the others are
zero, only an atom of that parameter reaches it (`Atom.below_of_top_le`).
-/

namespace TypeTheory

namespace Level

/-- Whether the level is built from zero, parameters, successors and maxima alone. -/
def imaxFree : Level → Bool
  | zero | param _ => true
  | succ l => l.imaxFree
  | max a b => a.imaxFree && b.imaxFree
  | imax .. => false

/-- The parameter `n` is `k`, and every other parameter is zero. -/
def peak (n : Name) (k : Nat) : Name → Nat :=
  fun m => if m = n then k else 0

/-- Every parameter is zero. -/
def zeros : Name → Nat :=
  fun _ => 0

namespace Atom

variable {a b : Atom} {as bs : List Atom} {ρ : Name → Nat} {n : Name} {k : Nat}

/-- The largest value is the value of some atom. -/
theorem exists_value_eq_top (hne : as ≠ []) : ∃ a ∈ as, a.value ρ = top ρ as := by
  induction as with
  | nil => exact absurd rfl hne
  | cons a rest ih =>
    rw [top_cons]
    by_cases hle : top ρ rest ≤ a.value ρ
    · exact ⟨a, List.mem_cons_self, (Nat.max_eq_left hle).symm⟩
    · -- the head is smaller, so there is a rest to look at
      have hrest : rest ≠ [] := by
        rintro rfl
        exact hle (Nat.zero_le _)
      obtain ⟨b, hb, hvalue⟩ := ih hrest
      exact ⟨b, List.mem_cons_of_mem a hb, by omega⟩

/-! ## Constants and parameters -/

/-- The base is `zero` or a parameter. -/
def Plain (a : Atom) : Prop :=
  a.base = .zero ∨ ∃ n, a.base = .param n

theorem Plain.value_zeros (h : a.Plain) : a.value zeros = a.offset := by
  rcases h with h | ⟨n, h⟩ <;> simp [value, h, Level.value, zeros]

/-- An atom of the parameter that is raised is worth the raise and its offset. -/
theorem value_peak_self (h : a.base = .param n) : a.value (peak n k) = k + a.offset := by
  simp [value, h, Level.value, peak]

/-- A peak at a parameter does not lift the other atoms. -/
theorem Plain.value_peak_of_ne (h : a.Plain) (hne : a.base ≠ .param n) :
    a.value (peak n k) = a.offset := by
  rcases h with h | ⟨m, h⟩
  · simp [value, h, Level.value]
  · have hmn : m ≠ n := by
      rintro rfl
      exact hne h
    simp [value, h, Level.value, peak, hmn]

/-- A constant that is nowhere above some atoms is covered: where all parameters are
zero, an atom of the same value has no smaller offset. -/
theorem covers_constant (hbs : ∀ b ∈ bs, b.Plain) (hne : bs ≠ []) (ha : a.base = .zero)
    (hle : a.value zeros ≤ top zeros bs) : Covers bs a := by
  obtain ⟨b, hb, hvalue⟩ := exists_value_eq_top (ρ := zeros) hne
  rw [← hvalue, Plain.value_zeros (.inl ha), (hbs b hb).value_zeros] at hle
  exact ⟨b, hb, hle, .inr ha⟩

/-- A parameter with an offset that is nowhere above some atoms is covered: where the
parameter exceeds all offsets, only an atom of the parameter itself is as large. -/
theorem covers_param (hbs : ∀ b ∈ bs, b.Plain) (hne : bs ≠ []) (ha : a.base = .param n)
    (hle : ∀ k, a.value (peak n k) ≤ top (peak n k) bs) : Covers bs a := by
  obtain ⟨b, hb, hvalue⟩ := exists_value_eq_top (ρ := peak n (top zeros bs + 1)) hne
  have hpeak := hle (top zeros bs + 1)
  rw [← hvalue, value_peak_self ha] at hpeak
  have hbase : b.base = .param n := by
    by_contra hother
    have hoffset : b.offset ≤ top zeros bs := (hbs b hb).value_zeros ▸ value_le_top hb
    rw [(hbs b hb).value_peak_of_ne hother] at hpeak
    omega
  rw [value_peak_self hbase] at hpeak
  exact ⟨b, hb, by omega, .inl (ha.trans hbase.symm)⟩

/-- **Atoms that are nowhere larger are covered.** -/
theorem below_of_top_le (has : ∀ a ∈ as, a.Plain) (hbs : ∀ b ∈ bs, b.Plain) (hne : bs ≠ [])
    (hle : ∀ ρ, top ρ as ≤ top ρ bs) : Below as bs := by
  intro a ha
  have hvalue (ρ : Name → Nat) : a.value ρ ≤ top ρ bs := (value_le_top ha).trans (hle ρ)
  rcases has a ha with hbase | ⟨n, hbase⟩
  · exact covers_constant hbs hne hbase (hvalue zeros)
  · exact covers_param hbs hne hbase fun k => hvalue (peak n k)

end Atom

open Atom

/-! ## Levels without `imax` -/

theorem plain_atomsFrom {l : Level} (h : l.imaxFree = true) (k : Nat) :
    ∀ a ∈ l.atomsFrom k, a.Plain := by
  induction l generalizing k with
  | zero =>
    intro x hx
    rw [List.mem_singleton.mp hx]
    exact .inl rfl
  | param n =>
    intro x hx
    rw [List.mem_singleton.mp hx]
    exact .inr ⟨n, rfl⟩
  | succ l ih => exact ih h (k + 1)
  | max a b iha ihb =>
    obtain ⟨ha, hb⟩ := Bool.and_eq_true_iff.mp h
    intro x hx
    exact (List.mem_append.mp hx).elim (iha ha k x) (ihb hb k x)
  | imax a b => cases h

/-- The atoms of a level that is nowhere larger are covered. -/
theorem below_atoms {a b : Level} (ha : a.imaxFree = true) (hb : b.imaxFree = true)
    (h : ∀ ρ, a.value ρ ≤ b.value ρ) : Below a.atoms b.atoms := by
  refine below_of_top_le (plain_atomsFrom ha 0) (plain_atomsFrom hb 0) (atomsFrom_ne_nil 0 b) ?_
  intro ρ
  rw [atoms, atoms, top_atomsFrom, top_atomsFrom]
  exact h ρ

/-- **Equality is exact without `imax`.** Levels built from zero, successors, maxima and
parameters are called equal if and only if they have the same value under every
assignment of numbers to the parameters. -/
theorem equiv_iff_value_eq {a b : Level} (ha : a.imaxFree = true) (hb : b.imaxFree = true) :
    a.equiv b = true ↔ ∀ ρ, a.value ρ = b.value ρ := by
  constructor
  · exact same_of_equiv
  · intro hvalue
    rw [equiv_iff, normalize_eq_iff]
    exact ⟨below_atoms ha hb fun ρ => (hvalue ρ).le, below_atoms hb ha fun ρ => (hvalue ρ).ge⟩

/-- A constant is not seen beside an atom whose offset is as large, and it is seen if it
exceeds the offset by one. -/
theorem equiv_iff_value_eq_absorbed :
    let u := param (.atom "u")
    let v := param (.atom "v")
    let a := max u.succ.succ v
    let absorbed := max (max v (ofNat 2)) (max u.succ u).succ
    let exceeding := max a (ofNat 3)
    a.imaxFree = true ∧ absorbed.imaxFree = true ∧ exceeding.imaxFree = true ∧
      (∀ ρ, a.value ρ = absorbed.value ρ) ∧ a.equiv absorbed = true ∧
      a.equiv exceeding = false := by
  intro u v a absorbed exceeding
  have hvalue (ρ : Name → Nat) : a.value ρ = absorbed.value ρ := by
    simp only [a, absorbed, u, v, value, ofNat, addOffset]
    omega
  refine ⟨rfl, rfl, rfl, hvalue, (equiv_iff_value_eq rfl rfl).mpr hvalue, ?_⟩
  rw [Bool.eq_false_iff]
  intro hequiv
  have hzeros : a.value zeros = exceeding.value zeros :=
    (equiv_iff_value_eq rfl rfl).mp hequiv zeros
  exact absurd hzeros (by decide)

end Level

end TypeTheory
