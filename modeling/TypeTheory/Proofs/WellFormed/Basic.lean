import Mathlib.Data.List.Nodup
import TypeTheory.Proofs.Environment.Extension
import TypeTheory.Proofs.Term.Levels

/-!
# Well-formed terms

A term is well-formed in a scope of `n` binders over a `Vocabulary` when no index
escapes the scope, no free variable occurs, its universe parameters are those of
the vocabulary, and its constants are declared there with as many levels as they
are given (`Term.WellFormed`). This is a condition on every leaf, so it goes
through every form of term, and shifting, substitution and giving levels keep it.

In a well-formed environment a declaration is well-formed over the declarations
before it. It is then well-formed over any larger part of the environment
(`Environment.WellFormed.declared`), because names are declared once.
-/

namespace TypeTheory

/-- What a term may mention: the declarations of an environment before a
position, and universe parameters. -/
structure Vocabulary where
  env : Environment
  visible : Nat
  params : List Name

namespace Term

/-! ## Terms -/

/-- Whether every constant of the term is declared, and has as many levels as it
takes. -/
@[simp] def constantsIn (v : Vocabulary) : Term → Bool
  | .const x ls => (v.env.find? x v.visible).any fun d => d.params.length = ls.length
  | .app f a => f.constantsIn v && a.constantsIn v
  | .bind _ _ t b => t.constantsIn v && b.constantsIn v
  | .letE _ t u b => t.constantsIn v && u.constantsIn v && b.constantsIn v
  | .pair a b => a.constantsIn v && b.constantsIn v
  | .proj _ p => p.constantsIn v
  | .bvar _ | .fvar _ | .sort _ => true

/-- The term is well-formed under `n` binders. -/
structure WellFormed (v : Vocabulary) (n : Nat) (e : Term) : Prop where
  range : e.looseRange ≤ n
  fvarFree : e.hasFvars = false
  params : e.paramsWithin v.params = true
  constants : e.constantsIn v = true

variable {v : Vocabulary} {n m : Nat} {e f a b t u : Term} {x : Name} {ls : List Level}

theorem wellFormed_iff : e.WellFormed v n ↔ e.looseRange ≤ n ∧ e.hasFvars = false ∧
    e.paramsWithin v.params = true ∧ e.constantsIn v = true :=
  ⟨fun h => ⟨h.range, h.fvarFree, h.params, h.constants⟩,
    fun h => ⟨h.1, h.2.1, h.2.2.1, h.2.2.2⟩⟩

instance : Decidable (e.WellFormed v n) :=
  decidable_of_iff _ wellFormed_iff.symm

@[simp] theorem wellFormed_bvar {i : Nat} : (bvar i).WellFormed v n ↔ i < n := by
  simp [wellFormed_iff, hasFvars]

@[simp] theorem not_wellFormed_fvar : ¬(fvar x).WellFormed v n := by
  simp [wellFormed_iff, hasFvars]

@[simp] theorem wellFormed_sort {l : Level} :
    (sort l).WellFormed v n ↔ l.paramsWithin v.params = true := by
  simp [wellFormed_iff, hasFvars]

/-- A constant is well-formed if it is declared in view with as many parameters as it has levels,
all of them well-formed. -/
@[simp] theorem wellFormed_const : (const x ls).WellFormed v n ↔
    (∀ l ∈ ls, l.paramsWithin v.params = true) ∧
      ∃ d, v.env.find? x v.visible = some d ∧ d.params.length = ls.length := by
  simp [wellFormed_iff, hasFvars, Option.any_eq_true]

@[simp] theorem wellFormed_app :
    (app f a).WellFormed v n ↔ f.WellFormed v n ∧ a.WellFormed v n := by
  simp only [wellFormed_iff, looseRange_app_le, hasFvars, paramsWithin, constantsIn,
    Bool.or_eq_false_iff, Bool.and_eq_true]
  tauto

/-- The body of a binder is well-formed in a scope with one variable more. -/
@[simp] theorem wellFormed_bind {k : Binder} :
    (bind k x t b).WellFormed v n ↔ t.WellFormed v n ∧ b.WellFormed v (n + 1) := by
  simp only [wellFormed_iff, looseRange_bind_le, hasFvars, paramsWithin, constantsIn,
    Bool.or_eq_false_iff, Bool.and_eq_true]
  tauto

@[simp] theorem wellFormed_letE : (letE x t u b).WellFormed v n ↔
    t.WellFormed v n ∧ u.WellFormed v n ∧ b.WellFormed v (n + 1) := by
  simp only [wellFormed_iff, looseRange_letE_le, hasFvars, paramsWithin, constantsIn,
    Bool.or_eq_false_iff, Bool.and_eq_true]
  tauto

@[simp] theorem wellFormed_pair :
    (pair a b).WellFormed v n ↔ a.WellFormed v n ∧ b.WellFormed v n := by
  simp only [wellFormed_iff, looseRange_pair_le, hasFvars, paramsWithin, constantsIn,
    Bool.or_eq_false_iff, Bool.and_eq_true]
  tauto

@[simp] theorem wellFormed_proj {k : Side} :
    (proj k e).WellFormed v n ↔ e.WellFormed v n := by
  simp only [wellFormed_iff, looseRange_proj_le, hasFvars, paramsWithin, constantsIn]

namespace WellFormed

/-- A well-formed term is so in every larger scope. -/
theorem mono (h : e.WellFormed v n) (hle : n ≤ m) : e.WellFormed v m :=
  { h with range := Nat.le_trans h.range hle }

/-- A closed term is well-formed under any binders if it is under some. -/
theorem of_closed (h : e.WellFormed v n) (hclosed : e.looseRange ≤ 0) : e.WellFormed v m :=
  { h with range := Nat.le_trans hclosed (Nat.zero_le m) }

/-- Making room for variables keeps a term well-formed, in a scope that is as much larger. -/
theorem shift {k : Nat} (h : e.WellFormed v n) (c : Nat) : (e.shift c k).WellFormed v (n + k) := by
  induction e generalizing c n with
  | bvar i =>
    rw [wellFormed_bvar] at h
    rw [shift_bvar]
    split <;> rw [wellFormed_bvar] <;> omega
  | bind b x t u iht ihu =>
    rw [wellFormed_bind] at h
    rw [shift_bind, wellFormed_bind]
    exact ⟨iht h.1 c, Nat.add_right_comm n 1 k ▸ ihu h.2 (c + 1)⟩
  | letE x t w u iht ihw ihu =>
    rw [wellFormed_letE] at h
    rw [shift_letE, wellFormed_letE]
    exact ⟨iht h.1 c, ihw h.2.1 c, Nat.add_right_comm n 1 k ▸ ihu h.2.2 (c + 1)⟩
  | _ => simp_all

/-- Putting a well-formed term for a variable keeps a term well-formed, in the scope without the
variable. -/
theorem subst {idx : Nat} {r : Term} (h : e.WellFormed v (n + 1)) (hr : r.WellFormed v n)
    (hidx : idx ≤ n) : (e.subst idx r).WellFormed v n := by
  induction e generalizing n idx r with
  | bvar i =>
    rw [wellFormed_bvar] at h
    rw [subst_bvar]
    split
    · rw [wellFormed_bvar]; omega
    · split
      · exact hr
      · rw [wellFormed_bvar]; omega
  | bind b x t u iht ihu =>
    rw [wellFormed_bind] at h
    rw [subst_bind, wellFormed_bind]
    exact ⟨iht h.1 hr hidx, ihu h.2 (hr.shift 0) (by omega)⟩
  | letE x t w u iht ihw ihu =>
    rw [wellFormed_letE] at h
    rw [subst_letE, wellFormed_letE]
    exact ⟨iht h.1 hr hidx, ihw h.2.1 hr hidx, ihu h.2.2 (hr.shift 0) (by omega)⟩
  | _ => simp_all

theorem instantiate (hb : b.WellFormed v (n + 1)) (ha : a.WellFormed v n) :
    (b.instantiate a).WellFormed v n :=
  hb.subst ha (Nat.zero_le n)

/-- **Levels for all parameters give a term of the new parameters.** -/
theorem substLevels {σ : Level.Assignment} {ps : List Name} (h : e.WellFormed v n)
    (hσ : σ.Maps v.params ps) : (e.substLevels σ).WellFormed { v with params := ps } n := by
  induction e generalizing n with
  | bvar i => simpa using h
  | fvar x => exact absurd h not_wellFormed_fvar
  | sort l =>
    rw [wellFormed_sort] at h
    rw [substLevels_sort, wellFormed_sort]
    exact Level.paramsWithin_subst hσ h
  | const x ls =>
    rw [wellFormed_const] at h
    rw [substLevels_const, wellFormed_const]
    refine ⟨fun l hl => ?_, ?_⟩
    · obtain ⟨r, hr, rfl⟩ := List.mem_map.mp hl
      exact Level.paramsWithin_subst hσ (h.1 r hr)
    · simpa using h.2
  | app f a ihf iha =>
    rw [wellFormed_app] at h
    rw [substLevels_app, wellFormed_app]
    exact ⟨ihf h.1, iha h.2⟩
  | bind k x t b iht ihb =>
    rw [wellFormed_bind] at h
    rw [substLevels_bind, wellFormed_bind]
    exact ⟨iht h.1, ihb h.2⟩
  | letE x t u b iht ihu ihb =>
    rw [wellFormed_letE] at h
    rw [substLevels_letE, wellFormed_letE]
    exact ⟨iht h.1, ihu h.2.1, ihb h.2.2⟩
  | pair a b iha ihb =>
    rw [wellFormed_pair] at h
    rw [substLevels_pair, wellFormed_pair]
    exact ⟨iha h.1, ihb h.2⟩
  | proj k p ih =>
    rw [wellFormed_proj] at h
    rw [substLevels_proj, wellFormed_proj]
    exact ih h

end WellFormed

end Term

/-! ## Environments -/

namespace Environment

variable {env : Environment} {x : Name} {i k : Nat} {d : Declaration}

/-- Names are declared once, and each declaration has a closed type and a closed
value, over its own universe parameters and the declarations before it. -/
structure WellFormed (env : Environment) : Prop where
  distinct : (env.toList.map (·.name)).Nodup
  declaration {i : Nat} {d : Declaration} : env.at? i = some d →
    d.type.WellFormed ⟨env, i, d.params⟩ 0 ∧ ∀ u ∈ d.value, u.WellFormed ⟨env, i, d.params⟩ 0

theorem wellFormed_iff : env.WellFormed ↔ (env.toList.map (·.name)).Nodup ∧
    ∀ i < env.size, ∀ d ∈ env.at? i, d.type.WellFormed ⟨env, i, d.params⟩ 0 ∧
      ∀ u ∈ d.value, u.WellFormed ⟨env, i, d.params⟩ 0 :=
  ⟨fun h => ⟨h.distinct, fun _ _ _ hd => h.declaration hd⟩,
    fun h => ⟨h.1, fun {i d} hd => h.2 i (lt_size_of_at? hd) d hd⟩⟩

instance : Decidable env.WellFormed :=
  decidable_of_iff _ wellFormed_iff.symm

/-- What a search finds has the name. -/
theorem at?_of_search (h : env.search x k = some i) :
    i < k ∧ ∃ d, env.at? i = some d ∧ d.name = x := by
  refine ⟨search_lt h, ?_⟩
  induction k with
  | zero => cases h
  | succ k ih =>
    unfold search at h
    split at h
    · split at h
      · cases h
        exact ⟨_, ‹_›, ‹_›⟩
      · exact ih h
    · exact ih h

/-- A name that is declared before a position is found there. -/
theorem exists_search (hi : i < k) (hd : env.at? i = some d) (hx : d.name = x) :
    ∃ j, env.search x k = some j := by
  induction k with
  | zero => omega
  | succ k ih =>
    unfold search
    split
    · split
      · exact ⟨k, rfl⟩
      · rename_i d' hd' hne
        refine ih (Nat.lt_of_le_of_ne (Nat.le_of_lt_succ hi) ?_)
        rintro rfl
        rw [at?, hd'] at hd
        cases hd
        exact hne hx
    · rename_i hnone
      refine ih (Nat.lt_of_le_of_ne (Nat.le_of_lt_succ hi) ?_)
      rintro rfl
      rw [at?, hnone] at hd
      cases hd

/-- Declarations with one name have one position. -/
theorem eq_of_name_eq (hdistinct : (env.toList.map (·.name)).Nodup) {j : Nat} {d' : Declaration}
    (hd : env.at? i = some d) (hd' : env.at? j = some d') (hname : d.name = d'.name) : i = j := by
  rw [at?_eq] at hd hd'
  obtain ⟨hi, rfl⟩ := List.getElem?_eq_some_iff.mp hd
  obtain ⟨hj, rfl⟩ := List.getElem?_eq_some_iff.mp hd'
  have hi' : i < (env.toList.map (·.name)).length := by simpa using hi
  have hj' : j < (env.toList.map (·.name)).length := by simpa using hj
  have hnames : (env.toList.map (·.name))[i] = (env.toList.map (·.name))[j] := by simpa using hname
  exact hdistinct.getElem_inj_iff.mp hnames

/-- The declaration that is found lies before the bound. -/
theorem at?_of_find? (h : env.find? x k = some d) : ∃ i < k, env.at? i = some d ∧ d.name = x := by
  obtain ⟨i, hsearch, hi⟩ := Option.bind_eq_some_iff.mp h
  obtain ⟨hlt, d', hd', hname⟩ := at?_of_search hsearch
  rw [hi] at hd'
  cases hd'
  exact ⟨i, Nat.lt_of_lt_of_le hlt (Nat.min_le_left k env.size), hi, hname⟩

/-- **A declaration that is found is found with more in view.** -/
theorem find?_mono (hdistinct : (env.toList.map (·.name)).Nodup) {k' : Nat} (hle : k ≤ k')
    (h : env.find? x k = some d) : env.find? x k' = some d := by
  obtain ⟨i, hik, hi, hname⟩ := at?_of_find? h
  have hlt : i < Nat.min k' env.size := Nat.lt_min.mpr ⟨by omega, lt_size_of_at? hi⟩
  obtain ⟨j, hj⟩ := exists_search hlt hi hname
  obtain ⟨-, d', hd', hname'⟩ := at?_of_search hj
  have hij := eq_of_name_eq hdistinct hi hd' (hname.trans hname'.symm)
  refine Option.bind_eq_some_iff.mpr ⟨j, hj, ?_⟩
  rw [← hij]
  exact hi

/-- A term stays well-formed with more declarations in view. -/
theorem WellFormed.mono_visible (henv : env.WellFormed) {k' n : Nat} {ps : List Name} {e : Term}
    (hle : k ≤ k') (h : e.WellFormed ⟨env, k, ps⟩ n) : e.WellFormed ⟨env, k', ps⟩ n := by
  induction e generalizing n with
  | const x ls =>
    obtain ⟨hls, d, hd, hlength⟩ := Term.wellFormed_const.mp h
    exact Term.wellFormed_const.mpr ⟨hls, d, find?_mono henv.distinct hle hd, hlength⟩
  | fvar x => exact absurd h Term.not_wellFormed_fvar
  | _ => simp_all

/-- **A visible declaration is well-formed over all that is visible.** -/
theorem WellFormed.declared (henv : env.WellFormed) (h : env.find? x k = some d) :
    d.type.WellFormed ⟨env, k, d.params⟩ 0 ∧ ∀ u ∈ d.value, u.WellFormed ⟨env, k, d.params⟩ 0 := by
  obtain ⟨i, hik, hi, -⟩ := at?_of_find? h
  obtain ⟨htype, hvalue⟩ := henv.declaration hi
  have hle := Nat.le_of_lt hik
  exact ⟨henv.mono_visible hle htype, fun u hu => henv.mono_visible hle (hvalue u hu)⟩

end Environment

/-! ## Contexts -/

namespace Context

/-- Every entry of the context is well-formed in the entries outside it. -/
def WellFormed (v : Vocabulary) : Context → Prop
  | [] => True
  | entry :: Γ => entry.type.WellFormed v Γ.length ∧
      (∀ u ∈ entry.value, u.WellFormed v Γ.length) ∧ WellFormed v Γ

instance decidableWellFormed (v : Vocabulary) : (Γ : Context) → Decidable (WellFormed v Γ)
  | [] => inferInstanceAs (Decidable True)
  | _ :: Γ =>
    have := decidableWellFormed v Γ
    inferInstanceAs (Decidable (_ ∧ _ ∧ _))

/-- The first `n` entries of the context are there, and each is well-formed in
those of them that are outside it. -/
def WellFormedTo (v : Vocabulary) (n : Nat) (Γ : Context) : Prop :=
  ∀ i < n, ∃ entry, Γ[i]? = some entry ∧ entry.type.WellFormed v (n - (i + 1)) ∧
    ∀ u ∈ entry.value, u.WellFormed v (n - (i + 1))

variable {v : Vocabulary} {n : Nat} {Γ : Context}

namespace WellFormedTo

theorem zero : WellFormedTo v 0 Γ := by
  intro i hi
  omega

/-- An entry that is well-formed over the variables before it may be put in front of them. -/
theorem cons {entry : Entry} (h : WellFormedTo v n Γ) (htype : entry.type.WellFormed v n)
    (hvalue : ∀ u ∈ entry.value, u.WellFormed v n) : WellFormedTo v (n + 1) (entry :: Γ) := by
  intro i hi
  cases i with
  | zero => exact ⟨entry, rfl, htype, hvalue⟩
  | succ i =>
    obtain ⟨entry', hentry', htype', hvalue'⟩ := h i (by omega)
    have hsub : n + 1 - (i + 1 + 1) = n - (i + 1) := by omega
    rw [hsub]
    exact ⟨entry', hentry', htype', hvalue'⟩

/-- What an index stands for is well-formed where the index is. -/
theorem lookup {i : Nat} (h : WellFormedTo v n Γ) (hi : i < n) :
    ∃ entry, Γ[i]? = some entry ∧ (entry.type.shift 0 (i + 1)).WellFormed v n ∧
      ∀ u ∈ entry.value, (u.shift 0 (i + 1)).WellFormed v n := by
  have hshift : ∀ e : Term, e.WellFormed v (n - (i + 1)) →
      (e.shift 0 ((i : Int) + 1)).WellFormed v n := by
    intro e he
    have hshifted := he.shift (k := i + 1) 0
    rwa [Nat.sub_add_cancel (by omega)] at hshifted
  obtain ⟨entry, hentry, htype, hvalue⟩ := h i hi
  exact ⟨entry, hentry, hshift _ htype, fun u hu => hshift u (hvalue u hu)⟩

end WellFormedTo

/-- A well-formed context is well-formed to its end. -/
theorem WellFormed.toEnd (h : WellFormed v Γ) : WellFormedTo v Γ.length Γ := by
  induction Γ with
  | nil => exact .zero
  | cons entry Γ ih => exact (ih h.2.2).cons h.1 h.2.1

end Context

end TypeTheory
