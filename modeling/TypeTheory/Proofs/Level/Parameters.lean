import TypeTheory.Proofs.Level.Value

/-!
# Universe parameters stay in their list

The canonical form of a level mentions no parameter that the level does not
mention: its atoms have bases that are made of parts of the level
(`Level.paramsWithin_normalize`). Giving values to parameters leaves the
parameters of the values (`Level.paramsWithin_subst`).
-/

namespace TypeTheory

namespace Level

variable {ps : List Name} {l a b : Level}

@[simp] theorem paramsWithin_succ : l.succ.paramsWithin ps = l.paramsWithin ps := rfl

@[simp] theorem paramsWithin_max :
    (max a b).paramsWithin ps = true ↔ a.paramsWithin ps = true ∧ b.paramsWithin ps = true := by
  simp [paramsWithin]

@[simp] theorem paramsWithin_imax :
    (imax a b).paramsWithin ps = true ↔ a.paramsWithin ps = true ∧ b.paramsWithin ps = true := by
  simp [paramsWithin]

@[simp] theorem paramsWithin_addOffset (l : Level) (k : Nat) :
    (l.addOffset k).paramsWithin ps = l.paramsWithin ps := by
  induction k generalizing l with
  | zero => rfl
  | succ k ih => rw [addOffset, ih, paramsWithin_succ]

/-! ## Atoms -/

namespace Atom

/-- The bases of the atoms have their parameters in the list. -/
def Within (ps : List Name) (atoms : List Atom) : Prop :=
  ∀ x ∈ atoms, x.base.paramsWithin ps = true

variable {x : Atom} {atoms more : List Atom}

@[simp] theorem within_nil : Within ps [] := by
  simp [Within]

@[simp] theorem within_cons :
    Within ps (x :: atoms) ↔ x.base.paramsWithin ps = true ∧ Within ps atoms := by
  simp [Within]

@[simp] theorem within_append : Within ps (atoms ++ more) ↔ Within ps atoms ∧ Within ps more := by
  simp [Within, or_imp, forall_and]

/-- Sorting and dropping atoms brings in no parameter. -/
theorem Within.canonical (h : Within ps atoms) : Within ps (canonical atoms) := by
  intro y hy
  obtain ⟨z, hz, hbase⟩ := mem_canonical_base hy
  exact hbase ▸ h z hz

theorem Within.map_raise (h : Within ps atoms) (k : Nat) : Within ps (atoms.map (raise k)) := by
  intro y hy
  obtain ⟨z, hz, rfl⟩ := List.mem_map.mp hy
  exact h z hz

/-- A maximum of atoms mentions the parameters of their bases only. -/
theorem paramsWithin_maximum : ∀ {atoms : List Atom}, Within ps atoms →
    (maximum atoms).paramsWithin ps = true
  | [], _ => rfl
  | [y], h => by
    rw [maximum, level, paramsWithin_addOffset]
    exact (within_cons.mp h).1
  | y :: z :: rest, h => by
    obtain ⟨hy, hrest⟩ := within_cons.mp h
    rw [maximum, paramsWithin_max, level, paramsWithin_addOffset]
    · exact ⟨hy, paramsWithin_maximum hrest⟩
    · simp

end Atom

open Atom

/-- The summands of a level mention its parameters only. -/
theorem within_summandsFrom (h : l.paramsWithin ps = true) (k : Nat) :
    Within ps (l.summandsFrom k) := by
  fun_induction summandsFrom k l with
  | case1 k l ih => exact ih h
  | case2 k a b iha ihb =>
    obtain ⟨ha, hb⟩ := paramsWithin_max.mp h
    exact within_append.mpr ⟨iha ha, ihb hb⟩
  | case3 => exact within_cons.mpr ⟨h, within_nil⟩

/-- Spreading an `imax` repeats its sides, and so mentions their parameters only. -/
theorem within_spread (ha : a.paramsWithin ps = true) (hb : b.paramsWithin ps = true) :
    Within ps (a.spread b) := by
  fun_induction spread a b with
  | case1 => exact within_summandsFrom ha 0
  | case2 x y _ ihx ihy =>
    obtain ⟨hx, hy⟩ := paramsWithin_max.mp hb
    exact within_append.mpr ⟨ihx hx, ihy hy⟩
  | case3 => exact within_cons.mpr ⟨paramsWithin_imax.mpr ⟨ha, hb⟩, within_nil⟩

/-- Each rule for `imax` gives atoms that mention the parameters of the two sides only. -/
theorem within_imaxAtoms {atoms : List Atom} (h : Within ps atoms)
    (hb : b.paramsWithin ps = true) : Within ps (imaxAtoms atoms b) := by
  have hsummands := within_summandsFrom hb 0
  have hrule := imaxRule_imaxAtoms atoms b
  generalize imaxAtoms atoms b = result at hrule ⊢
  cases hrule with
  | zero => exact within_cons.mpr ⟨rfl, within_nil⟩
  | positive => exact within_append.mpr ⟨h, hsummands⟩
  | small => exact hsummands
  | spread => exact within_spread (paramsWithin_maximum h.canonical) hb

/-- The atoms of a level mention its parameters only. The induction is on the level. -/
theorem within_atomsFrom (h : l.paramsWithin ps = true) (k : Nat) :
    Within ps (l.atomsFrom k) := by
  induction l generalizing k with
  | zero | param n => exact within_cons.mpr ⟨h, within_nil⟩
  | succ l ih => exact ih h (k + 1)
  | max a b iha ihb =>
    obtain ⟨ha, hb⟩ := paramsWithin_max.mp h
    exact within_append.mpr ⟨iha ha k, ihb hb k⟩
  | imax a b iha ihb =>
    obtain ⟨ha, hb⟩ := paramsWithin_imax.mp h
    have hright := paramsWithin_maximum (ihb hb 0).canonical
    exact (within_imaxAtoms (iha ha 0) hright).map_raise k

/-- **The canonical form of a level has no new parameters.** -/
theorem paramsWithin_normalize (h : l.paramsWithin ps = true) :
    l.normalize.paramsWithin ps = true :=
  paramsWithin_maximum (within_atomsFrom h 0).canonical

/-! ## Substitution -/

/-- Without a level for any parameter a level stays as it is. -/
theorem subst_nil (l : Level) : l.subst [] = l := by
  induction l with
  | zero | param n => rfl
  | succ l ih => rw [subst, ih]
  | max a b iha ihb | imax a b iha ihb => rw [subst, iha, ihb]

/-- Every parameter of the first list has a value with parameters in the second. -/
def Assignment.Maps (σ : Assignment) (params ps : List Name) : Prop :=
  ∀ n ∈ params, ∃ l, σ.lookup n = some l ∧ l.paramsWithin ps = true

/-- **A level whose parameters have values keeps the parameters of the values.** -/
theorem paramsWithin_subst {σ : Assignment} {params : List Name} (hσ : σ.Maps params ps)
    (h : l.paramsWithin params = true) : (l.subst σ).paramsWithin ps = true := by
  induction l with
  | zero => rfl
  | param n =>
    obtain ⟨l, hlookup, hl⟩ := hσ n (List.contains_iff_mem.mp h)
    rw [subst, hlookup]
    exact hl
  | succ l ih => exact ih h
  | max a b iha ihb =>
    obtain ⟨ha, hb⟩ := paramsWithin_max.mp h
    exact paramsWithin_max.mpr ⟨iha ha, ihb hb⟩
  | imax a b iha ihb =>
    obtain ⟨ha, hb⟩ := paramsWithin_imax.mp h
    exact paramsWithin_imax.mpr ⟨iha ha, ihb hb⟩

/-- Parameters that are given as many levels all have a value. -/
theorem Assignment.maps_zip {params : List Name} {levels : List Level}
    (hlength : params.length = levels.length) (h : ∀ l ∈ levels, l.paramsWithin ps = true) :
    Assignment.Maps (params.zip levels) params ps := by
  induction params generalizing levels with
  | nil => simp [Maps]
  | cons x params ih =>
    cases levels with
    | nil => cases hlength
    | cons l levels =>
      intro n hn
      rw [List.zip_cons_cons, List.lookup_cons]
      by_cases heq : n = x
      · exact ⟨l, by simp [heq], h l List.mem_cons_self⟩
      · have hmem := (List.mem_cons.mp hn).resolve_left heq
        obtain ⟨l', hlookup, hl'⟩ := ih (Nat.succ.inj hlength)
          (fun l' hl' => h l' (List.mem_cons_of_mem _ hl')) n hmem
        rw [beq_false_of_ne heq]
        exact ⟨l', hlookup, hl'⟩

end Level

end TypeTheory
