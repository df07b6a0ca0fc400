import TypeTheory.Proofs.Level.Parameters
import TypeTheory.Proofs.Term.Substitution

/-!
# Levels for universe parameters, form by form

`Term.substLevels` changes the levels of a term and nothing else. An empty
assignment is no special case: it changes no level.
-/

namespace TypeTheory

namespace Term

variable {σ : Level.Assignment}

/-- A function that does not look at the depth may be used at any depth. -/
theorem mapLeaves_depth (g : Term → Term) (d : Nat) (e : Term) :
    mapLeaves (fun _ leaf => g leaf) d e = mapLeaves (fun _ leaf => g leaf) 0 e := by
  induction e generalizing d <;> simp_all [mapLeaves]

@[simp] theorem substLevels_bvar (i : Nat) : (bvar i).substLevels σ = bvar i := by
  simp [substLevels, mapLeaves]

@[simp] theorem substLevels_fvar (x : Name) : (fvar x).substLevels σ = fvar x := by
  simp [substLevels, mapLeaves]

/-- A sort has its level changed. -/
@[simp] theorem substLevels_sort (l : Level) : (sort l).substLevels σ = sort (l.subst σ) := by
  unfold substLevels
  split
  · rename_i h
    rw [List.isEmpty_iff.mp h, Level.subst_nil]
  · rfl

/-- A constant has each of its levels changed, and stays the same constant. -/
@[simp] theorem substLevels_const (x : Name) (ls : List Level) :
    (const x ls).substLevels σ = const x (ls.map (·.subst σ)) := by
  unfold substLevels
  split
  · rename_i h
    have hid : (fun l : Level => l.subst σ) = id := by
      rw [List.isEmpty_iff.mp h]
      exact funext Level.subst_nil
    rw [hid, List.map_id]
  · rfl

@[simp] theorem substLevels_app (g a : Term) :
    (app g a).substLevels σ = app (g.substLevels σ) (a.substLevels σ) := by
  unfold substLevels
  split <;> rfl

/-- Levels are changed in both parts of a binder, as no binder binds a level. -/
@[simp] theorem substLevels_bind (k : Binder) (x : Name) (t b : Term) :
    (bind k x t b).substLevels σ = bind k x (t.substLevels σ) (b.substLevels σ) := by
  unfold substLevels
  split
  · rfl
  · rw [mapLeaves, mapLeaves_depth _ 1]

/-- Levels are changed in the three parts of a local definition. -/
@[simp] theorem substLevels_letE (x : Name) (t v b : Term) :
    (letE x t v b).substLevels σ =
      letE x (t.substLevels σ) (v.substLevels σ) (b.substLevels σ) := by
  unfold substLevels
  split
  · rfl
  · rw [mapLeaves, mapLeaves_depth _ 1]

@[simp] theorem substLevels_pair (a b : Term) :
    (pair a b).substLevels σ = pair (a.substLevels σ) (b.substLevels σ) := by
  unfold substLevels
  split <;> rfl

@[simp] theorem substLevels_proj (k : Side) (p : Term) :
    (proj k p).substLevels σ = proj k (p.substLevels σ) := by
  unfold substLevels
  split <;> rfl

end Term

end TypeTheory
