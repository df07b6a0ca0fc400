import Mathlib.Data.List.Forall2
import TypeTheory.Proofs.Level.Instantiation
import TypeTheory.Proofs.Level.Parameters

/-!
# Congruences of levels

Two notions of equality of levels go through every form of level: having one value
under every assignment (`Level.Same`), and having one canonical form
(`Level.equiv`). The second is decided, the first is kept when parameters are given
levels. Either way, equal levels for the parameters of a level give equal levels.
-/

namespace TypeTheory

namespace Level

variable {a a' b b' : Level}

/-- An equality of levels that goes through every form. -/
structure Congruence (L : Level → Level → Prop) : Prop where
  refl : ∀ l, L l l
  symm : ∀ {l r}, L l r → L r l
  trans : ∀ {l m r}, L l m → L m r → L l r
  succ : ∀ {l r}, L l r → L l.succ r.succ
  max : ∀ {l l' r r'}, L l l' → L r r' → L (.max l r) (.max l' r')
  imax : ∀ {l l' r r'}, L l l' → L r r' → L (.imax l r) (.imax l' r')

/-- Having one value under every assignment is a congruence, and is kept when parameters are given
levels. -/
theorem congruence_same : Congruence Same where
  refl := Same.refl
  symm := Same.symm
  trans := Same.trans
  succ h := fun ρ => by simp only [value, h ρ]
  max h h' := fun ρ => by simp only [value, h ρ, h' ρ]
  imax h h' := fun ρ => by simp only [value, h ρ, h' ρ]

/-! ## One canonical form -/

/-- The levels have one canonical form. -/
def Equiv (l r : Level) : Prop :=
  l.equiv r = true

theorem equiv_iff_alike : Equiv a b ↔ Atom.Alike a.atoms b.atoms :=
  equiv_iff.trans normalize_eq_iff

/-- Levels with one canonical form have it in common. -/
theorem Equiv.normalize_eq (h : Equiv a b) : a.normalize = b.normalize :=
  equiv_iff.mp h

/-- Equal levels have equal maxima, since the atoms of a maximum are those of its sides. -/
theorem Equiv.max (h : Equiv a a') (h' : Equiv b b') : Equiv (.max a b) (.max a' b') :=
  equiv_iff_alike.mpr ((equiv_iff_alike.mp h).append (equiv_iff_alike.mp h'))

/-- Having one canonical form is a congruence: each form of level has atoms that depend on those of
its parts. -/
theorem congruence_equiv : Congruence Equiv where
  refl l := equiv_iff.mpr rfl
  symm h := equiv_iff.mpr (equiv_iff.mp h).symm
  trans h h' := equiv_iff.mpr ((equiv_iff.mp h).trans (equiv_iff.mp h'))
  succ {l r} h := by
    rw [equiv_iff_alike, atoms_succ, atoms_succ]
    exact (equiv_iff_alike.mp h).map_raise 1
  max h h' := h.max h'
  imax {l l' r r'} h h' := by
    rw [equiv_iff_alike, atoms_imax, atoms_imax, h'.normalize_eq]
    exact (equiv_iff_alike.mp h).imaxAtoms _

/-- Lists of levels count as equal if their members do, position by position. -/
theorem equivAll_iff {ls rs : List Level} : equivAll ls rs = true ↔ List.Forall₂ Equiv ls rs := by
  induction ls generalizing rs with
  | nil => cases rs <;> simp [equivAll]
  | cons l ls ih =>
    cases rs with
    | nil => simp [equivAll]
    | cons r rs => rw [equivAll, Bool.and_eq_true, ih, List.forall₂_cons, Equiv]

/-! ## Levels for parameters -/

namespace Congruence

variable {L : Level → Level → Prop} {ls rs : List Level}

theorem forall₂_refl (h : Congruence L) (ls : List Level) : List.Forall₂ L ls ls :=
  List.forall₂_same.mpr fun l _ => h.refl l

theorem forall₂_symm (h : Congruence L) (hls : List.Forall₂ L ls rs) : List.Forall₂ L rs ls :=
  hls.flip.imp fun _ _ => h.symm

theorem forall₂_trans (h : Congruence L) {ms : List Level} (hls : List.Forall₂ L ls ms)
    (hms : List.Forall₂ L ms rs) : List.Forall₂ L ls rs := by
  induction hls generalizing rs with
  | nil => exact hms
  | cons hl _ ih =>
    cases hms with
    | cons hr hrs => exact .cons (h.trans hl hr) (ih hrs)

/-- Equal levels for one parameter. -/
theorem lookup (h : Congruence L) (params : List Name) (hls : List.Forall₂ L ls rs) (n : Name) :
    L (((params.zip ls).lookup n).getD (param n)) (((params.zip rs).lookup n).getD (param n)) := by
  induction hls generalizing params with
  | nil =>
    rw [List.zip_nil_right]
    exact h.refl _
  | cons hl _ ih =>
    cases params with
    | nil => exact h.refl _
    | cons x params =>
      rw [List.zip_cons_cons, List.zip_cons_cons, List.lookup_cons, List.lookup_cons]
      split
      · exact hl
      · exact ih params

/-- **Equal levels for the parameters of a level give equal levels.** -/
theorem subst (h : Congruence L) (params : List Name) (hls : List.Forall₂ L ls rs) (l : Level) :
    L (l.subst (params.zip ls)) (l.subst (params.zip rs)) := by
  induction l with
  | zero => exact h.refl _
  | param n => exact h.lookup params hls n
  | succ l ih => exact h.succ ih
  | max a b iha ihb => exact h.max iha ihb
  | imax a b iha ihb => exact h.imax iha ihb

end Congruence

/-! ## Levels for parameters, twice -/

/-- A parameter that is looked up among changed levels gives its level, changed. -/
theorem lookup_zip_map (params : List Name) (ls : List Level) (f : Level → Level) (n : Name) :
    (params.zip (ls.map f)).lookup n = ((params.zip ls).lookup n).map f := by
  induction params generalizing ls with
  | nil => rfl
  | cons x params ih =>
    cases ls with
    | nil => rfl
    | cons l ls =>
      rw [List.map_cons, List.zip_cons_cons, List.zip_cons_cons, List.lookup_cons,
        List.lookup_cons]
      split
      · rfl
      · exact ih ls

/-- There is a level for each of the parameters. -/
theorem exists_lookup_zip {params : List Name} {ls : List Level}
    (hlength : params.length = ls.length) {n : Name} (hn : n ∈ params) :
    ∃ r, (params.zip ls).lookup n = some r := by
  induction params generalizing ls with
  | nil => cases hn
  | cons x params ih =>
    cases ls with
    | nil => cases hlength
    | cons r ls =>
      rw [List.zip_cons_cons, List.lookup_cons]
      by_cases heq : n = x
      · exact ⟨r, by simp [heq]⟩
      · rw [beq_false_of_ne heq]
        exact ih (Nat.succ.inj hlength) ((List.mem_cons.mp hn).resolve_left heq)

/-- Giving levels to the parameters of the levels that were given is giving the
resulting levels, if there was one for each parameter. -/
theorem subst_subst {params : List Name} {ls : List Level} (hlength : params.length = ls.length)
    (σ : Assignment) {l : Level} (hl : l.paramsWithin params = true) :
    (l.subst (params.zip ls)).subst σ = l.subst (params.zip (ls.map (·.subst σ))) := by
  induction l with
  | zero => rfl
  | param n =>
    obtain ⟨r, hr⟩ := exists_lookup_zip hlength (List.contains_iff_mem.mp hl)
    simp only [subst, lookup_zip_map, hr, Option.map_some, Option.getD_some]
  | succ l ih =>
    simp only [subst]
    rw [ih hl]
  | max a b iha ihb =>
    obtain ⟨ha, hb⟩ := paramsWithin_max.mp hl
    simp only [subst]
    rw [iha ha, ihb hb]
  | imax a b iha ihb =>
    obtain ⟨ha, hb⟩ := paramsWithin_imax.mp hl
    simp only [subst]
    rw [iha ha, ihb hb]

end Level

end TypeTheory
