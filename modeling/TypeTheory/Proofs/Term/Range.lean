import TypeTheory.Proofs.Term.Substitution
import TypeTheory.Term.Word
import Mathlib.Algebra.Group.Nat.Defs
import Mathlib.Order.Bounds.Defs

/-!
# Ranges, and what they let be skipped

The range that a node carries is a number that was computed from the ranges of
its parts. `Term.Loose` says which indices of the scope outside a term occur in
it, and the range is the least number above them all (`isLeast_looseRange`). So
a part that is skipped for its range has no index that would change.

`Term.plainShift` and `Term.plainSubst` are shifting and substitution without
ranges: they visit every node, with the cutoff or the index one higher under a
binder. The guided operations agree with them everywhere. The operations on words
do so as long as all indices are signed words, those of the result included
(`shiftWord_eq_shift`, `substWord_eq_subst`).
-/

namespace TypeTheory

namespace Term

/-! ## Loose indices -/

/-- The index `i` of the scope around a term occurs in it. -/
def Loose : Term → Nat → Prop
  | .bvar j, i => j = i
  | .fvar _, _ | .sort _, _ | .const .., _ => False
  | .app f a, i => f.Loose i ∨ a.Loose i
  | .bind _ _ t b, i => t.Loose i ∨ b.Loose (i + 1)
  | .letE _ t v b, i => t.Loose i ∨ v.Loose i ∨ b.Loose (i + 1)
  | .pair a b, i => a.Loose i ∨ b.Loose i
  | .proj _ p, i => p.Loose i

/-- All indices of a term, loose or not, as they are written. -/
def indices : Term → List Nat
  | .bvar i => [i]
  | .fvar _ | .sort _ | .const .. => []
  | .app f a => f.indices ++ a.indices
  | .bind _ _ t b => t.indices ++ b.indices
  | .letE _ t v b => t.indices ++ v.indices ++ b.indices
  | .pair a b => a.indices ++ b.indices
  | .proj _ p => p.indices

variable {e : Term} {n : Nat}

/-- Under a binder the bound is one higher, and the binder's own variable is
below it in any case. -/
theorem forall_loose_succ {b : Term} :
    (∀ i, b.Loose i → i < n + 1) ↔ ∀ i, b.Loose (i + 1) → i < n := by
  constructor
  · intro h i hi
    have := h (i + 1) hi
    omega
  · intro h i hi
    cases i with
    | zero => omega
    | succ i =>
      have := h i hi
      omega

/-- **The range bounds the loose indices and nothing else.** -/
theorem looseRange_le_iff : e.looseRange ≤ n ↔ ∀ i, e.Loose i → i < n := by
  induction e generalizing n with
  | bvar j => simp [Loose]
  | fvar | sort | const => simp [Loose]
  | app f a ihf iha | pair f a ihf iha =>
    simp only [looseRange_app_le, looseRange_pair_le, ihf, iha, Loose, or_imp, forall_and]
  | bind k x t b iht ihb =>
    simp only [looseRange_bind_le, iht, ihb, forall_loose_succ, Loose, or_imp, forall_and]
  | letE x t v b iht ihv ihb =>
    simp only [looseRange_letE_le, iht, ihv, ihb, forall_loose_succ, Loose, or_imp, forall_and]
  | proj k p ih => simp only [looseRange_proj_le, ih, Loose]

/-- **The range is the least bound of the loose indices.** -/
theorem isLeast_looseRange (e : Term) : IsLeast {n | ∀ i, e.Loose i → i < n} e.looseRange :=
  ⟨looseRange_le_iff.mp (Nat.le_refl _), fun _ hn => looseRange_le_iff.mpr hn⟩

/-- Where no index is the largest word, the reported range is the range. -/
theorem wordRange_eq_looseRange (h : ∀ i ∈ e.indices, i < maxWord) :
    e.wordRange = e.looseRange := by
  induction e with
  | bvar i =>
    have hi : i < maxWord := h i (by simp [indices])
    show Nat.min (i + 1) maxWord = i + 1
    exact Nat.min_eq_left (by omega)
  | fvar | sort | const => rfl
  | app f a ihf iha =>
    simp only [indices, List.forall_mem_append] at h
    show Nat.max f.wordRange a.wordRange = Nat.max f.looseRange a.looseRange
    rw [ihf h.1, iha h.2]
  | bind k x t b iht ihb =>
    simp only [indices, List.forall_mem_append] at h
    show Nat.max t.wordRange (b.wordRange - 1) = Nat.max t.looseRange (b.looseRange - 1)
    rw [iht h.1, ihb h.2]
  | letE x t v b iht ihv ihb =>
    simp only [indices, List.forall_mem_append] at h
    show Nat.max (Nat.max t.wordRange (b.wordRange - 1)) v.wordRange =
      Nat.max (Nat.max t.looseRange (b.looseRange - 1)) v.looseRange
    rw [iht h.1.1, ihv h.1.2, ihb h.2]
  | pair a b iha ihb =>
    simp only [indices, List.forall_mem_append] at h
    show Nat.max a.wordRange b.wordRange = Nat.max a.looseRange b.looseRange
    rw [iha h.1, ihb h.2]
  | proj k p ih => exact ih h

/-! ## Visiting every node -/

/-- Adds `k` to the indices that are loose from `cutoff` on. -/
def plainShift : Term → (cutoff k : Nat) → Term
  | .bvar i, c, k => if i < c then .bvar i else .bvar (i + k)
  | .fvar x, _, _ => .fvar x
  | .sort l, _, _ => .sort l
  | .const x ls, _, _ => .const x ls
  | .app f a, c, k => .app (f.plainShift c k) (a.plainShift c k)
  | .bind b x t u, c, k => .bind b x (t.plainShift c k) (u.plainShift (c + 1) k)
  | .letE x t v u, c, k =>
    .letE x (t.plainShift c k) (v.plainShift c k) (u.plainShift (c + 1) k)
  | .pair a b, c, k => .pair (a.plainShift c k) (b.plainShift c k)
  | .proj s p, c, k => .proj s (p.plainShift c k)

/-- Puts `r` for the index `idx` and lowers the indices above it. A binder that
is crossed moves the indices of `r` out of its variable's way. -/
def plainSubst : Term → (idx : Nat) → (r : Term) → Term
  | .bvar i, idx, r => if i < idx then .bvar i else if i = idx then r else .bvar (i - 1)
  | .fvar x, _, _ => .fvar x
  | .sort l, _, _ => .sort l
  | .const x ls, _, _ => .const x ls
  | .app f a, idx, r => .app (f.plainSubst idx r) (a.plainSubst idx r)
  | .bind b x t u, idx, r =>
    .bind b x (t.plainSubst idx r) (u.plainSubst (idx + 1) (r.plainShift 0 1))
  | .letE x t v u, idx, r =>
    .letE x (t.plainSubst idx r) (v.plainSubst idx r)
      (u.plainSubst (idx + 1) (r.plainShift 0 1))
  | .pair a b, idx, r => .pair (a.plainSubst idx r) (b.plainSubst idx r)
  | .proj s p, idx, r => .proj s (p.plainSubst idx r)

/-- **Shifting by the ranges is shifting.** -/
theorem shift_eq_plainShift (e : Term) (cutoff k : Nat) :
    e.shift cutoff k = e.plainShift cutoff k := by
  induction e generalizing cutoff with
  | bvar i => exact shift_bvar i
  | _ => simp_all [plainShift]

/-- **Substituting by the ranges is substituting.** -/
theorem subst_eq_plainSubst (e : Term) (idx : Nat) (r : Term) :
    e.subst idx r = e.plainSubst idx r := by
  have hShift (r : Term) : r.shift 0 1 = r.plainShift 0 1 := shift_eq_plainShift r 0 1
  induction e generalizing idx r with
  | bvar i => exact subst_bvar idx i
  | _ => simp_all [plainSubst]

/-! ## Words -/

theorem shift_of_looseRange_le {cutoff : Nat} (h : e.looseRange ≤ cutoff) (δ : Int) :
    e.shift cutoff δ = e := by
  rw [shift_eq_mapLoose, mapLoose_of_le h]

theorem subst_of_looseRange_le {idx : Nat} (h : e.looseRange ≤ idx) (r : Term) :
    e.subst idx r = e := by
  rw [subst, mapLoose_of_le h]

/-- A move that stays within the signed words is a move. -/
theorem moveWord_eq_add {i k : Nat} (h : i + k < 2 ^ 63) : moveWord i k = i + k := by
  have hmod : ((i : Int) + k).bmod (maxWord + 1) = (i : Int) + k := by
    refine Int.bmod_eq_of_le_mul_two ?_ ?_
    · simp only [maxWord]
      omega
    · simp only [maxWord]
      omega
  rw [moveWord, hmod]
  omega

/-- Two replacements of the loose indices do the same if they do so wherever the
indices of the result are bounded. -/
theorem mapLoose_congr_of_indices {cutoff bound : Nat} {f g : Nat → Nat → Term}
    (h : ∀ depth, ∀ i ∈ e.indices, cutoff + depth ≤ i →
      (∀ j ∈ (g depth i).indices, j < bound) → f depth i = g depth i)
    {depth : Nat} (hresult : ∀ j ∈ (e.mapLoose cutoff g depth).indices, j < bound) :
    e.mapLoose cutoff f depth = e.mapLoose cutoff g depth := by
  induction e generalizing depth with
  | bvar i =>
    rw [mapLoose_bvar] at hresult ⊢
    rw [mapLoose_bvar]
    split
    · rfl
    · rename_i hi
      rw [if_neg hi] at hresult
      exact h depth i (List.mem_singleton.mpr rfl) (Nat.le_of_not_lt hi) hresult
  | fvar | sort | const => rfl
  | app _ _ ihf iha | pair _ _ ihf iha =>
    simp only [mapLoose_app, mapLoose_pair, indices, List.forall_mem_append] at h hresult ⊢
    rw [ihf (fun d => (h d).1) hresult.1, iha (fun d => (h d).2) hresult.2]
  | bind _ _ _ _ iht ihb =>
    simp only [mapLoose_bind, indices, List.forall_mem_append] at h hresult ⊢
    rw [iht (fun d => (h d).1) hresult.1, ihb (fun d => (h d).2) hresult.2]
  | letE _ _ _ _ iht ihv ihb =>
    simp only [mapLoose_letE, indices, List.forall_mem_append] at h hresult ⊢
    rw [iht (fun d => (h d).1.1) hresult.1.1, ihv (fun d => (h d).1.2) hresult.1.2,
      ihb (fun d => (h d).2) hresult.2]
  | proj _ _ ih =>
    simp only [mapLoose_proj, indices] at h hresult ⊢
    rw [ih h hresult]

/-- **Shifting words is shifting** as long as the indices are signed words, before
and after. -/
theorem shiftWord_eq_shift (he : ∀ i ∈ e.indices, i < 2 ^ 63) {cutoff k : Nat}
    (hresult : ∀ i ∈ (e.shift cutoff k).indices, i < 2 ^ 63) :
    e.shiftWord cutoff k = e.shift cutoff k := by
  have hword : 2 ^ 63 < maxWord := by decide
  unfold shift at hresult ⊢
  unfold shiftWord
  split
  · rfl
  · rename_i hk
    rw [if_neg hk] at hresult
    refine mapLoose_congr_of_indices (fun depth i hi hcutoff hmoved => ?_) hresult
    have hbelow : ¬ maxWord ≤ cutoff + depth := by
      have := he i hi
      omega
    have hmoved := hmoved _ (List.mem_singleton.mpr rfl)
    rw [if_neg hbelow, moveWord_eq_add (by omega)]
    rfl

/-- **Substituting words is substituting** as long as the indices are signed words,
those of the result included. -/
theorem substWord_eq_subst (he : ∀ i ∈ e.indices, i < 2 ^ 63) {idx : Nat} {r : Term}
    (hr : ∀ i ∈ r.indices, i < 2 ^ 63)
    (hresult : ∀ i ∈ (e.subst idx r).indices, i < 2 ^ 63) :
    e.substWord idx r = e.subst idx r := by
  have hword : 2 ^ 63 < maxWord := by decide
  refine mapLoose_congr_of_indices (fun depth i hi hcutoff hput => ?_) hresult
  have hbelow : ¬ maxWord ≤ idx + depth := by
    have := he i hi
    omega
  rw [if_neg hbelow]
  split
  · rename_i heq
    rw [if_pos heq] at hput
    exact shiftWord_eq_shift hr hput
  · rfl

/-- **Ranges are exact, and skipping by them cannot be seen.** For a term whose
indices are signed words, the reported range is the least bound of the loose
indices, and shifting and substitution do what visiting every node does. They do
so on words as well, if the indices of the other term and of the result are
signed words too. -/
theorem guided_eq_plain (e : Term) (hIndices : ∀ i ∈ e.indices, i < 2 ^ 63) :
    IsLeast {n | ∀ i, e.Loose i → i < n} e.wordRange ∧ e.looseRange = e.wordRange ∧
      (∀ cutoff delta : Nat, e.shift cutoff delta = e.plainShift cutoff delta ∧
        ((∀ i ∈ (e.plainShift cutoff delta).indices, i < 2 ^ 63) →
          e.shiftWord cutoff delta = e.plainShift cutoff delta)) ∧
      ∀ (idx : Nat) (r : Term), e.subst idx r = e.plainSubst idx r ∧
        ((∀ i ∈ r.indices, i < 2 ^ 63) → (∀ i ∈ (e.plainSubst idx r).indices, i < 2 ^ 63) →
          e.substWord idx r = e.plainSubst idx r) := by
  have hWord : 2 ^ 63 < maxWord := by decide
  have hRange : e.wordRange = e.looseRange :=
    wordRange_eq_looseRange fun i hi => Nat.lt_trans (hIndices i hi) hWord
  refine ⟨hRange ▸ isLeast_looseRange e, hRange.symm, fun cutoff delta => ?_, fun idx r => ?_⟩
  · rw [← shift_eq_plainShift]
    exact ⟨rfl, shiftWord_eq_shift hIndices⟩
  · rw [← subst_eq_plainSubst]
    exact ⟨rfl, substWord_eq_subst hIndices⟩

/-- Under a binder the largest index of a signed word is loose as one less. -/
theorem guided_eq_plain_under_binder :
    (lam (.str .anonymous "x") (sort .zero) (app (bvar 0) (bvar (2 ^ 63 - 1)))).wordRange =
        2 ^ 63 - 1 ∧
      IsLeast {n | ∀ i,
        (lam (.str .anonymous "x") (sort .zero) (app (bvar 0) (bvar (2 ^ 63 - 1)))).Loose i →
          i < n} (2 ^ 63 - 1) := by
  have h := guided_eq_plain
    (lam (.str .anonymous "x") (sort .zero) (app (bvar 0) (bvar (2 ^ 63 - 1))))
    (by simp [indices])
  have hRange : (lam (.str .anonymous "x") (sort .zero)
      (app (bvar 0) (bvar (2 ^ 63 - 1)))).wordRange = 2 ^ 63 - 1 := by decide
  exact ⟨hRange, hRange ▸ h.1⟩

end Term

end TypeTheory
