import TypeTheory.Proofs.Term.Simultaneous

/-!
# The algebra of shifting and substitution

Shifts and substitutions in a row can be undone, joined and exchanged. A shift
upwards and a substitution are fillings of all indices at once, and two fillings
in a row are one, so the laws that exchange them are equations between two
functions on indices. A shift downwards is no filling: it undoes a shift upwards,
and that is an induction on the term.
-/

namespace TypeTheory

namespace Term

/-- **A shift is undone by the shift back.** Every index that moved lies above
the gap, so none is lowered into it. -/
theorem shift_neg_shift (e : Term) (c k : Nat) : (e.shift c k).shift c (-k) = e := by
  induction e generalizing c with
  | bvar i =>
    simp only [shift_bvar]
    split
    · rw [shift_bvar, if_pos (by assumption)]
    · rw [shift_bvar, if_neg (by omega)]
      congr 1
      omega
  | _ => simp_all

/-- **A shift above a substituted index goes into both terms.** Before the
substitution its cutoff is one higher, by the index that is still there. -/
theorem shift_subst {i c : Nat} (h : i ≤ c) (e a : Term) (k : Nat) :
    (e.subst i a).shift c k = (e.shift (c + 1) k).subst i (a.shift c k) := by
  rw [shift_eq_rename, subst_eq_fill, rename_fill, shift_eq_rename e, subst_eq_fill, fill_rename]
  congr 1
  funext j
  rcases Nat.lt_trichotomy j i with hlt | rfl | hgt
  · have hj : j < c + 1 := by omega
    rw [if_pos hlt, if_pos hj, if_pos hlt, rename, if_pos (by omega)]
  · have hj : j < c + 1 := by omega
    simp only [if_pos hj, Nat.lt_irrefl, if_false, if_true, shift_eq_rename]
  · rw [if_neg (by omega), if_neg (by omega), rename]
    by_cases hj : j < c + 1
    · rw [if_pos hj, if_pos (by omega), if_neg (by omega), if_neg (by omega)]
    · rw [if_neg hj, if_neg (by omega), if_neg (by omega), if_neg (by omega)]
      congr 1
      omega

/-- **The substitution lemma.** A substitution goes through an earlier one at the
innermost index, which it meets as one index more. -/
theorem subst_subst (e a b : Term) (j : Nat) :
    (e.subst 0 a).subst j b = (e.subst (j + 1) (b.shift 0 1)).subst 0 (a.subst j b) := by
  have hOuter := subst_eq_fill (e.subst 0 a) j b
  have hInner := subst_eq_fill e (j + 1) (b.shift 0 1)
  rw [← lift_replacement] at hInner
  rw [hOuter, hInner, subst_eq_fill a]
  exact fill_instantiate e a _

/-- **The algebra of substitution.** Substituting into the room that a shift made
and shifting back give the term back; shifts in a row are one; a shift goes
through a substitution, a substitution through an earlier one, and levels for
universe parameters through both. -/
theorem substitution_laws (e a b : Term) (i j c c' d d' : Nat) (δ : Int) (σ : Level.Assignment) :
    (e.shift i 1).subst i a = e ∧
      (e.shift c d).shift c (-d) = e ∧
      (c ≤ c' → c' ≤ c + d → (e.shift c d).shift c' d' = e.shift c (d + d')) ∧
      (i ≤ c → (e.subst i a).shift c d = (e.shift (c + 1) d).subst i (a.shift c d)) ∧
      (e.subst 0 a).subst j b = (e.subst (j + 1) (b.shift 0 1)).subst 0 (a.subst j b) ∧
      (e.shift c δ).substLevels σ = (e.substLevels σ).shift c δ ∧
      (e.subst i a).substLevels σ = (e.substLevels σ).subst i (a.substLevels σ) := by
  refine ⟨subst_shift_one e i a, shift_neg_shift e c d, ?_, ?_, subst_subst e a b j,
    substLevels_shift e c δ σ, substLevels_subst e i a σ⟩
  · intro hc hc'
    exact shift_shift_of_le e hc hc' d'
  · intro hi
    exact shift_subst hi e a d

/-- Two shifts that meet in the gap, under a binder, and a shift that goes into
both terms of a substitution. -/
theorem substitution_laws_under_binder :
    ((lam .anonymous (sort .zero) (app (bvar 1) (bvar 3))).shift 1 2).shift 2 4 =
        lam .anonymous (sort .zero) (app (bvar 1) (bvar 9)) ∧
      ((lam .anonymous (sort .zero) (app (bvar 1) (bvar 3))).subst 0 (bvar 5)).shift 1 2 =
        lam .anonymous (sort .zero) (app (bvar 8) (bvar 4)) := by
  have h := substitution_laws (lam .anonymous (sort .zero) (app (bvar 1) (bvar 3))) (bvar 5)
    (bvar 0) 0 0 1 2 2 4 0 []
  refine ⟨(h.2.2.1 (by decide) (by decide)).trans ?_, (h.2.2.2.1 (by decide)).trans ?_⟩
  · simp
  · simp

end Term

end TypeTheory
