import TypeTheory.Term.Substitution
import Mathlib.Tactic.Common

/-!
# Laws of shifting and substitution

`Term.mapLoose` skips a part whose range shows that nothing in it changes. The
skipping cannot be seen from outside: `mapLoose` goes through every form of
term, and on an index it applies its function from the cutoff on. From this
`Term.shift` and `Term.subst` get one equation a form, and every further law is
an induction on the term with these equations.
-/

namespace TypeTheory

namespace Term

variable {c d : Nat} {f : Nat → Nat → Term}

/-! ## Ranges of terms -/

section Range

variable {n : Nat}

/-- An index is within a scope if it is one of its variables. -/
@[simp] theorem looseRange_bvar_le {i : Nat} : (bvar i).looseRange ≤ n ↔ i < n :=
  Iff.rfl

@[simp] theorem looseRange_fvar_le {x : Name} : (fvar x).looseRange ≤ n :=
  Nat.zero_le n

@[simp] theorem looseRange_sort_le {l : Level} : (sort l).looseRange ≤ n :=
  Nat.zero_le n

@[simp] theorem looseRange_const_le {x : Name} {ls : List Level} : (const x ls).looseRange ≤ n :=
  Nat.zero_le n

@[simp] theorem looseRange_app_le {g a : Term} :
    (app g a).looseRange ≤ n ↔ g.looseRange ≤ n ∧ a.looseRange ≤ n :=
  Nat.max_le

/-- Under a binder there is one variable more, so a body may point one further than its binder. -/
@[simp] theorem looseRange_bind_le {k : Binder} {x : Name} {t b : Term} :
    (bind k x t b).looseRange ≤ n ↔ t.looseRange ≤ n ∧ b.looseRange ≤ n + 1 := by
  have h : (bind k x t b).looseRange = Nat.max t.looseRange (b.looseRange - 1) := rfl
  rw [h, Nat.max, Nat.max_le]
  omega

/-- The body of a local definition is under one binder, as that of a function is. -/
@[simp] theorem looseRange_letE_le {x : Name} {t v b : Term} :
    (letE x t v b).looseRange ≤ n ↔
      t.looseRange ≤ n ∧ v.looseRange ≤ n ∧ b.looseRange ≤ n + 1 := by
  have h : (letE x t v b).looseRange =
    Nat.max (Nat.max t.looseRange (b.looseRange - 1)) v.looseRange := rfl
  rw [h, Nat.max, Nat.max, Nat.max_le, Nat.max_le]
  omega

@[simp] theorem looseRange_pair_le {a b : Term} :
    (pair a b).looseRange ≤ n ↔ a.looseRange ≤ n ∧ b.looseRange ≤ n :=
  Nat.max_le

@[simp] theorem looseRange_proj_le {k : Side} {p : Term} :
    (proj k p).looseRange ≤ n ↔ p.looseRange ≤ n :=
  Iff.rfl

/-- A term without loose indices is one whose range is empty. -/
theorem hasLoose_eq_false_iff {e : Term} : e.hasLoose = false ↔ e.looseRange ≤ 0 := by
  simp [hasLoose]

end Range

/-! ## Mapping goes through every form -/

/-- A term without indices from the cutoff on is not changed. -/
theorem mapLoose_of_le {e : Term} (h : e.looseRange ≤ c + d) : mapLoose c f d e = e := by
  rw [mapLoose.eq_def, if_pos h]

/-- An index within the cutoff stays as it is, and any other is mapped at the depth where it
stands. -/
@[simp] theorem mapLoose_bvar (i : Nat) :
    mapLoose c f d (bvar i) = if i < c + d then bvar i else f d i := by
  rw [mapLoose]
  rfl

@[simp] theorem mapLoose_fvar (x : Name) : mapLoose c f d (fvar x) = fvar x :=
  mapLoose_of_le looseRange_fvar_le

@[simp] theorem mapLoose_sort (l : Level) : mapLoose c f d (sort l) = sort l :=
  mapLoose_of_le looseRange_sort_le

@[simp] theorem mapLoose_const (x : Name) (ls : List Level) :
    mapLoose c f d (const x ls) = const x ls :=
  mapLoose_of_le looseRange_const_le

/-- **Skipping cannot be seen.** Where an application is skipped, so are both
its parts. -/
@[simp] theorem mapLoose_app (g a : Term) :
    mapLoose c f d (app g a) = app (mapLoose c f d g) (mapLoose c f d a) := by
  by_cases h : (app g a).looseRange ≤ c + d
  · obtain ⟨hg, ha⟩ := looseRange_app_le.mp h
    rw [mapLoose_of_le h, mapLoose_of_le hg, mapLoose_of_le ha]
  · rw [mapLoose, if_neg h]

/-- A body is mapped one level deeper. -/
@[simp] theorem mapLoose_bind (k : Binder) (x : Name) (t b : Term) :
    mapLoose c f d (bind k x t b) = bind k x (mapLoose c f d t) (mapLoose c f (d + 1) b) := by
  by_cases h : (bind k x t b).looseRange ≤ c + d
  · obtain ⟨ht, hb⟩ := looseRange_bind_le.mp h
    rw [mapLoose_of_le h, mapLoose_of_le ht, mapLoose_of_le (by omega)]
  · rw [mapLoose, if_neg h]

/-- The body of a local definition is mapped one level deeper, and its type and value are not. -/
@[simp] theorem mapLoose_letE (x : Name) (t v b : Term) :
    mapLoose c f d (letE x t v b) =
      letE x (mapLoose c f d t) (mapLoose c f d v) (mapLoose c f (d + 1) b) := by
  by_cases h : (letE x t v b).looseRange ≤ c + d
  · obtain ⟨ht, hv, hb⟩ := looseRange_letE_le.mp h
    rw [mapLoose_of_le h, mapLoose_of_le ht, mapLoose_of_le hv, mapLoose_of_le (by omega)]
  · rw [mapLoose, if_neg h]

@[simp] theorem mapLoose_pair (a b : Term) :
    mapLoose c f d (pair a b) = pair (mapLoose c f d a) (mapLoose c f d b) := by
  by_cases h : (pair a b).looseRange ≤ c + d
  · obtain ⟨ha, hb⟩ := looseRange_pair_le.mp h
    rw [mapLoose_of_le h, mapLoose_of_le ha, mapLoose_of_le hb]
  · rw [mapLoose, if_neg h]

@[simp] theorem mapLoose_proj (k : Side) (p : Term) :
    mapLoose c f d (proj k p) = proj k (mapLoose c f d p) := by
  by_cases h : (proj k p).looseRange ≤ c + d
  · rw [mapLoose_of_le h, mapLoose_of_le (looseRange_proj_le.mp h)]
  · rw [mapLoose, if_neg h]

/-! ## Shifting, form by form -/

/-- A function that does not look at the depth may take a binder for a higher
cutoff. -/
theorem mapLoose_succ_depth (g : Nat → Term) (e : Term) :
    mapLoose c (fun _ i => g i) (d + 1) e = mapLoose (c + 1) (fun _ i => g i) d e := by
  have hcd : c + (d + 1) = c + 1 + d := by omega
  induction e generalizing d <;> simp_all [Nat.add_right_comm, Nat.add_assoc]

variable {δ : Int}

/-- Shifting by nothing is no special case. -/
theorem shift_eq_mapLoose (e : Term) :
    e.shift c δ = e.mapLoose c (fun _ i => bvar (i + δ).toNat) 0 := by
  rw [shift]
  split
  · rename_i h
    subst h
    have hid : ∀ d, e.mapLoose c (fun _ i => bvar ((i : Int) + 0).toNat) d = e := by
      induction e <;> simp_all
    rw [hid]
  · rfl

/-- An index from the cutoff on is moved, and any other stays. -/
@[simp] theorem shift_bvar (i : Nat) :
    (bvar i).shift c δ = if i < c then bvar i else bvar (i + δ).toNat := by
  simp [shift_eq_mapLoose]

@[simp] theorem shift_fvar (x : Name) : (fvar x).shift c δ = fvar x := by
  simp [shift_eq_mapLoose]

@[simp] theorem shift_sort (l : Level) : (sort l).shift c δ = sort l := by
  simp [shift_eq_mapLoose]

@[simp] theorem shift_const (x : Name) (ls : List Level) :
    (const x ls).shift c δ = const x ls := by
  simp [shift_eq_mapLoose]

@[simp] theorem shift_app (g a : Term) :
    (app g a).shift c δ = app (g.shift c δ) (a.shift c δ) := by
  simp [shift_eq_mapLoose]

/-- Under a binder the cutoff is one higher, so that the bound variable stays. -/
@[simp] theorem shift_bind (k : Binder) (x : Name) (t b : Term) :
    (bind k x t b).shift c δ = bind k x (t.shift c δ) (b.shift (c + 1) δ) := by
  simp [shift_eq_mapLoose, mapLoose_succ_depth (d := 0)]

/-- So it is in the body of a local definition. -/
@[simp] theorem shift_letE (x : Name) (t v b : Term) :
    (letE x t v b).shift c δ = letE x (t.shift c δ) (v.shift c δ) (b.shift (c + 1) δ) := by
  simp [shift_eq_mapLoose, mapLoose_succ_depth (d := 0)]

@[simp] theorem shift_pair (a b : Term) :
    (pair a b).shift c δ = pair (a.shift c δ) (b.shift c δ) := by
  simp [shift_eq_mapLoose]

@[simp] theorem shift_proj (k : Side) (p : Term) :
    (proj k p).shift c δ = proj k (p.shift c δ) := by
  simp [shift_eq_mapLoose]

/-- Two shifts in a row are one, if the second cuts the gap that the first makes. -/
theorem shift_shift_of_le (e : Term) {c c' k : Nat} (hc : c ≤ c') (hc' : c' ≤ c + k) (m : Nat) :
    (e.shift c k).shift c' m = e.shift c ((k : Int) + m) := by
  induction e generalizing c c' with
  | bvar i =>
    simp only [shift_bvar]
    split
    · rw [shift_bvar, if_pos (by omega)]
    · rw [shift_bvar, if_neg (by omega)]
      congr 1
      omega
  | fvar | sort | const => simp
  | app f a ihf iha => simp only [shift_app, ihf hc hc', iha hc hc']
  | bind b x t u iht ihu =>
    have hu := ihu (show c + 1 ≤ c' + 1 by omega) (show c' + 1 ≤ c + 1 + k by omega)
    simp only [shift_bind, iht hc hc', hu]
  | letE x t v u iht ihv ihu =>
    have hu := ihu (show c + 1 ≤ c' + 1 by omega) (show c' + 1 ≤ c + 1 + k by omega)
    simp only [shift_letE, iht hc hc', ihv hc hc', hu]
  | pair a b iha ihb => simp only [shift_pair, iha hc hc', ihb hc hc']
  | proj k p ih => simp only [shift_proj, ih hc hc']

/-- Two shifts at one cutoff are one. -/
theorem shift_shift (e : Term) (c k m : Nat) :
    (e.shift c k).shift c m = e.shift c ((k : Int) + m) :=
  e.shift_shift_of_le (Nat.le_refl c) (Nat.le_add_right c k) m

/-! ## Substitution, form by form -/

variable {r : Term}

/-- Under one more binder the index and the term put for it move up by one. -/
theorem mapLoose_subst_succ_depth (idx : Nat) (r e : Term) :
    e.mapLoose idx (fun depth i => if i = idx + depth then r.shift 0 depth else bvar (i - 1))
        (d + 1) =
      e.mapLoose (idx + 1)
        (fun depth i =>
          if i = idx + 1 + depth then (r.shift 0 1).shift 0 depth else bvar (i - 1)) d := by
  induction e generalizing d with
  | bvar i =>
    have hshift : r.shift 0 ((d + 1 : Nat) : Int) = (r.shift 0 1).shift 0 d := by
      have h : (r.shift 0 1).shift 0 d = r.shift 0 ((1 : Int) + d) := shift_shift r 0 1 d
      rw [h]
      congr 1
      omega
    rw [mapLoose_bvar, mapLoose_bvar, hshift, Nat.add_right_comm idx 1 d, Nat.add_assoc idx d 1]
  | _ => simp_all

/-- The index itself gives way, those above it close the gap, and those below it stay. -/
@[simp] theorem subst_bvar (idx i : Nat) :
    (bvar i).subst idx r = if i < idx then bvar i else if i = idx then r else bvar (i - 1) := by
  simp [subst, shift]

@[simp] theorem subst_fvar (idx : Nat) (x : Name) : (fvar x).subst idx r = fvar x := by
  simp [subst]

@[simp] theorem subst_sort (idx : Nat) (l : Level) : (sort l).subst idx r = sort l := by
  simp [subst]

@[simp] theorem subst_const (idx : Nat) (x : Name) (ls : List Level) :
    (const x ls).subst idx r = const x ls := by
  simp [subst]

@[simp] theorem subst_app (idx : Nat) (g a : Term) :
    (app g a).subst idx r = app (g.subst idx r) (a.subst idx r) := by
  simp [subst]

/-- Under a binder the index is one higher, and what is put in is moved past the binder. -/
@[simp] theorem subst_bind (idx : Nat) (k : Binder) (x : Name) (t b : Term) :
    (bind k x t b).subst idx r = bind k x (t.subst idx r) (b.subst (idx + 1) (r.shift 0 1)) := by
  rw [subst, mapLoose_bind, mapLoose_subst_succ_depth]
  rfl

/-- So it is in the body of a local definition. -/
@[simp] theorem subst_letE (idx : Nat) (x : Name) (t v b : Term) :
    (letE x t v b).subst idx r =
      letE x (t.subst idx r) (v.subst idx r) (b.subst (idx + 1) (r.shift 0 1)) := by
  rw [subst, mapLoose_letE, mapLoose_subst_succ_depth]
  rfl

@[simp] theorem subst_pair (idx : Nat) (a b : Term) :
    (pair a b).subst idx r = pair (a.subst idx r) (b.subst idx r) := by
  simp [subst]

@[simp] theorem subst_proj (idx : Nat) (k : Side) (p : Term) :
    (proj k p).subst idx r = proj k (p.subst idx r) := by
  simp [subst]

/-! ## Laws -/

/-- **Substituting for a variable that a shift has just made room for gives the
term back.** -/
theorem subst_shift_one (e : Term) (c : Nat) (r : Term) : (e.shift c 1).subst c r = e := by
  induction e generalizing c r with
  | bvar i =>
    simp only [shift_bvar]
    split
    · simp [*]
    · rw [subst_bvar, if_neg (by omega), if_neg (by omega)]
      congr 1
  | _ => simp_all

/-- Making room for a variable and then putting a term for it changes nothing. -/
theorem instantiate_shift_one (e r : Term) : (e.shift 0 1).instantiate r = e :=
  subst_shift_one e 0 r

/-! ## Ranges of results -/

/-- Making room for `k` variables widens the scope of a term by as many. -/
theorem looseRange_shift_le {e : Term} {n k : Nat} (h : e.looseRange ≤ n) (c : Nat) :
    (e.shift c k).looseRange ≤ n + k := by
  induction e generalizing c n with
  | bvar i =>
    rw [looseRange_bvar_le] at h
    rw [shift_bvar]
    split <;> rw [looseRange_bvar_le] <;> omega
  | bind b x t u iht ihu =>
    rw [looseRange_bind_le] at h
    rw [shift_bind, looseRange_bind_le]
    exact ⟨iht h.1 c, by have := ihu h.2 (c + 1); omega⟩
  | letE x t v u iht ihv ihu =>
    rw [looseRange_letE_le] at h
    rw [shift_letE, looseRange_letE_le]
    exact ⟨iht h.1 c, ihv h.2.1 c, by have := ihu h.2.2 (c + 1); omega⟩
  | _ => simp_all

/-- Putting a term of the scope for one of its variables leaves the term in the scope without it. -/
theorem looseRange_subst_le {e r : Term} {n idx : Nat} (he : e.looseRange ≤ n + 1)
    (hr : r.looseRange ≤ n) (hidx : idx ≤ n) : (e.subst idx r).looseRange ≤ n := by
  induction e generalizing n idx r with
  | bvar i =>
    rw [looseRange_bvar_le] at he
    rw [subst_bvar]
    split
    · rw [looseRange_bvar_le]; omega
    · split
      · exact hr
      · rw [looseRange_bvar_le]; omega
  | bind b x t u iht ihu =>
    rw [looseRange_bind_le] at he
    rw [subst_bind, looseRange_bind_le]
    exact ⟨iht he.1 hr hidx, ihu he.2 (looseRange_shift_le hr 0) (by omega)⟩
  | letE x t v u iht ihv ihu =>
    rw [looseRange_letE_le] at he
    rw [subst_letE, looseRange_letE_le]
    exact ⟨iht he.1 hr hidx, ihv he.2.1 hr hidx,
      ihu he.2.2 (looseRange_shift_le hr 0) (by omega)⟩
  | _ => simp_all

/-- The case of the outermost variable, which is the one that contractions need. -/
theorem looseRange_instantiate_le {b a : Term} {n : Nat} (hb : b.looseRange ≤ n + 1)
    (ha : a.looseRange ≤ n) : (b.instantiate a).looseRange ≤ n :=
  looseRange_subst_le hb ha (Nat.zero_le n)

/-- Giving levels to universe parameters does not touch indices. -/
theorem looseRange_substLevels_le {e : Term} {n : Nat} (σ : Level.Assignment)
    (h : e.looseRange ≤ n) : (e.substLevels σ).looseRange ≤ n := by
  rw [substLevels]
  split
  · exact h
  · generalize (0 : Nat) = depth
    induction e generalizing n depth <;> simp_all [mapLeaves]

end Term

end TypeTheory
