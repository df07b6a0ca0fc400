import TypeTheory.Proofs.Environment.Distinct
import TypeTheory.Proofs.Normalization.Declarations
import TypeTheory.Proofs.Reduction.Cost
import TypeTheory.Proofs.WellFormed.Kernel

/-!
# More declarations in view

A term that a checker has accepted mentions constants that the checker sees
(`Accepts.constantsIn`). With more declarations in view these constants stand for the
same declarations at the same positions, because names are declared once, and the
declarations mention no others. So a run on such a term does not notice the new
declarations, and neither does its cost (`Checker.Widens.pays_sortOf`).
-/

namespace TypeTheory

/-! ## The constants of a term -/

namespace Term

variable {v : Vocabulary} {e r : Term}

@[simp] theorem constantsIn_shift (c : Nat) (k : Int) :
    (e.shift c k).constantsIn v = e.constantsIn v := by
  induction e generalizing c with
  | bvar i =>
    rw [shift_bvar]
    split <;> rfl
  | _ => simp_all

/-- A substitution brings in the constants of what is substituted and no others. -/
theorem constantsIn_subst {idx : Nat} (he : e.constantsIn v = true)
    (hr : r.constantsIn v = true) : (e.subst idx r).constantsIn v = true := by
  induction e generalizing idx r with
  | bvar i =>
    rw [subst_bvar]
    split
    · rfl
    · split
      · exact hr
      · rfl
  | _ => simp_all

@[simp] theorem constantsIn_substLevels (σ : Level.Assignment) :
    (e.substLevels σ).constantsIn v = e.constantsIn v := by
  induction e with
  | _ => simp_all

/-- Replacing leaves by others that mention the same constants. -/
theorem constantsIn_mapLeaves {f : Nat → Term → Term}
    (hf : ∀ d leaf, leaf.isLeaf = true → (f d leaf).constantsIn v = leaf.constantsIn v) (d : Nat)
    (e : Term) : (mapLeaves f d e).constantsIn v = e.constantsIn v := by
  induction e generalizing d with
  | bvar | fvar | sort | const => exact hf d _ rfl
  | _ => simp_all [mapLeaves]

@[simp] theorem constantsIn_abstractFvars (names : List Name) :
    (e.abstractFvars names).constantsIn v = e.constantsIn v := by
  refine constantsIn_mapLeaves (fun d leaf _ => ?_) 0 e
  cases leaf with
  | fvar x =>
    dsimp only
    cases names.idxOf? x <;> rfl
  | _ => rfl

/-- A constant is in the vocabulary if it is declared in view, with as many parameters as it is
given levels. -/
theorem constantsIn_const {x : Name} {ls : List Level} :
    (const x ls).constantsIn v = true ↔
      ∃ d, v.env.find? x v.visible = some d ∧ d.params.length = ls.length := by
  simp [Option.any_eq_true]

/-- More declarations in view do no harm. -/
theorem constantsIn_mono {v' : Vocabulary}
    (hview : ∀ x d, v.env.find? x v.visible = some d → v'.env.find? x v'.visible = some d)
    (he : e.constantsIn v = true) : e.constantsIn v' = true := by
  induction e with
  | const x ls =>
    obtain ⟨d, hd, hlength⟩ := constantsIn_const.mp he
    exact constantsIn_const.mpr ⟨d, hview x d hd, hlength⟩
  | _ => simp_all

theorem constantsIn_parts (he : e.constantsIn v = true) :
    e.Parts (·.constantsIn v = true) (·.constantsIn v = true) := by
  cases e <;> simp_all [Parts]

theorem constantsIn_of_parts (hleaf : e.isLeaf = false)
    (h : e.Parts (·.constantsIn v = true) (·.constantsIn v = true)) : e.constantsIn v = true := by
  cases e <;> simp_all [Parts, isLeaf]

end Term

/-- **What is accepted mentions constants that are there.** -/
theorem Accepts.constantsIn {v : Vocabulary} {V E : Context → Term → Term → Prop}
    {J : Level → Level → Prop} {mode : Mode} {Γ : Context} {e t : Term}
    (h : Accepts (fun x => v.env.find? x v.visible) V E J mode Γ e t) :
    e.constantsIn v = true := by
  induction h with
  | bvar | sort => rfl
  | const hd hlength => exact Term.constantsIn_const.mpr ⟨_, hd, hlength⟩
  | _ => simp_all

namespace Checker

variable {c c' : Checker}

/-! ## The correspondence -/

/-- The second checker sees what the first one sees, at the same positions, and what the
first one sees mentions nothing else. Neither remembers anything. -/
structure Widens (c c' : Checker) : Prop where
  const? {x : Name} {d : Declaration} : c.const? x = some d → c'.const? x = some d
  constPosition? {x : Name} {d : Declaration} : c.const? x = some d →
    c.constPosition? d.name = c'.constPosition? d.name
  declared {x : Name} {d : Declaration} : c.const? x = some d →
    d.type.constantsIn (c.vocabulary []) = true ∧
      ∀ u ∈ d.value, u.constantsIn (c.vocabulary []) = true
  forgetful : c.memoize = false
  forgetful' : c'.memoize = false

/-- Every entry of the context mentions constants that the checker sees. -/
def SeesContext (c : Checker) (Γ : Context) : Prop :=
  ∀ entry ∈ Γ, entry.type.constantsIn (c.vocabulary []) = true ∧
    ∀ u ∈ entry.value, u.constantsIn (c.vocabulary []) = true

/-- An entry whose type and value have their constants in view may be put in front of such a
context. -/
theorem SeesContext.cons {entry : Entry} {Γ : Context} (h : c.SeesContext Γ)
    (htype : entry.type.constantsIn (c.vocabulary []) = true)
    (hvalue : ∀ u ∈ entry.value, u.constantsIn (c.vocabulary []) = true) :
    c.SeesContext (entry :: Γ) :=
  List.forall_mem_cons.mpr ⟨⟨htype, hvalue⟩, h⟩

/-- Runs from one state on one term that mentions what the left checker sees. -/
def widened (c c' : Checker) : Correspondence c c' where
  World := Unit
  under := id
  name := Eq
  term _ e e' := e = e' ∧ e.constantsIn (c.vocabulary []) = true
  context _ Γ Γ' := Γ = Γ' ∧ c.SeesContext Γ
  state p p' := p = p' ∧ p.Blank
  error := Eq
  lenient := False

/-- **More declarations in view make no difference.** -/
theorem Widens.lawful (h : c.Widens c') (hlimit : c.limit = c'.limit) :
    (widened c c').Lawful where
  name_refl _ := rfl
  form := by
    rintro _ e _ ⟨rfl, he⟩
    exact Term.alike_of_parts (Term.constantsIn_parts he)
  build hleaf he := by
    obtain ⟨rfl, hparts⟩ := Term.parts_of_alike hleaf he
    exact ⟨rfl, Term.constantsIn_of_parts hleaf hparts⟩
  sortSucc _ := ⟨rfl, rfl⟩
  sortMax _ _ := ⟨rfl, rfl⟩
  instantiate := by
    rintro _ b _ a _ ⟨rfl, hb⟩ ⟨rfl, ha⟩
    exact ⟨rfl, Term.constantsIn_subst hb ha⟩
  weaken := by
    rintro _ e _ ⟨rfl, he⟩
    exact ⟨rfl, (Term.constantsIn_shift 0 1).trans he⟩
  alphaEq := by
    rintro _ x _ y _ ⟨rfl, -⟩ ⟨rfl, -⟩
    exact Iff.rfl
  push := by
    rintro _ Γ _ t _ x _ ⟨rfl, hΓ⟩ rfl ⟨rfl, ht⟩
    refine ⟨rfl, hΓ.cons ht fun u hu => ?_⟩
    cases hu
  pushLet := by
    rintro _ Γ _ t _ v _ x _ ⟨rfl, hΓ⟩ rfl ⟨rfl, ht⟩ ⟨rfl, hv⟩
    refine ⟨rfl, hΓ.cons ht fun u hu => ?_⟩
    cases hu
    exact hv
  lookup := by
    rintro _ Γ _ i i' ⟨rfl, hΓ⟩ ⟨hi, -⟩
    cases hi
    cases hentry : Γ[i]? with
    | none => exact .inl ⟨rfl, rfl, rfl⟩
    | some entry =>
      obtain ⟨htype, hvalue⟩ := hΓ entry (List.mem_of_getElem? hentry)
      refine .inr ⟨entry, entry, rfl, rfl, ⟨rfl, (Term.constantsIn_shift _ _).trans htype⟩, ?_⟩
      cases hv : entry.value with
      | none => exact .none
      | some u => exact .some ⟨rfl, (Term.constantsIn_shift _ _).trans (hvalue u hv)⟩
  const? hx := by
    obtain ⟨d, hd, -⟩ := Term.constantsIn_const.mp hx.2
    have hconst : c.const? _ = some d := hd
    rw [hconst, h.const? hconst]
  constPosition? _ hd := h.constPosition? hd
  declaredType _ hd _ :=
    ⟨rfl, (Term.constantsIn_substLevels _).trans (h.declared hd).1⟩
  declaredValue _ hd _ hv :=
    ⟨rfl, (Term.constantsIn_substLevels _).trans ((h.declared hd).2 _ hv)⟩
  freeVariable _ := rfl
  unknownConstant _ _ := rfl
  universeArity _ _ _ := rfl
  notAFunction he ht := by rw [he.1, ht.1]; rfl
  notAPair he ht := by rw [he.1, ht.1]; rfl
  notASort he ht := by rw [he.1, ht.1]; rfl
  typeMismatch he ht hu := by rw [he.1, ht.1, hu.1]; rfl
  tick k k' := by
    rintro p _ ⟨rfl, hp⟩ - -
    have hnext : Progress.Blank { p with steps := p.steps + 1 } := hp.of_tables rfl rfl rfl
    unfold tick
    dsimp only
    rw [hlimit]
    split
    · exact .inr ⟨rfl, ⟨rfl, hnext⟩, Nat.le_succ _, Nat.le_succ _⟩
    · exact ⟨trivial, ⟨rfl, hnext⟩, Nat.le_succ _, Nat.le_succ _⟩
  calls i j k hp := by
    obtain ⟨rfl, hblank⟩ := hp
    exact ⟨rfl, hblank.of_tables rfl rfl rfl⟩
  remembered {q Γ Γ' e e'} hanswer w hΓ he k k' p p' hp hk hk' := by
    obtain ⟨rfl, hblank⟩ := hp
    rw [remembered_of_blank h.forgetful hblank, remembered_of_blank h.forgetful' hblank]
    exact hanswer w hΓ he k k' p p ⟨rfl, hblank⟩ hk hk'

/-- A type whose sort is found mentions constants that the checker sees. -/
theorem constantsIn_of_pays_sortOf (hclosed : c.SeesClosed) {e : Term} {Γ : Context} {l : Level}
    (h : c.Pays (fun c _ => c.sortOf e Γ) l) : e.constantsIn (c.vocabulary []) = true := by
  obtain ⟨cost, hpays⟩ := h
  obtain ⟨q, hrun, -⟩ := hpays cost cost {} Progress.blank_empty (by simp) (by simp)
  have hclosed' : SeesClosed { c with limit := cost } := hclosed
  obtain ⟨⟨s, hs, -⟩, -⟩ := (follows_sortOf hclosed' (follows hclosed' e) Γ).of_ok
    (.of_blank Progress.blank_empty) hrun
  exact Accepts.constantsIn (v := c.vocabulary []) hs

/-- **The sort of a type is found at the same cost with more declarations in view.** -/
theorem Widens.pays_sortOf (h : c.Widens c') {e : Term} {Γ : Context} {l : Level}
    (hΓ : c.SeesContext Γ) (he : e.constantsIn (c.vocabulary []) = true)
    (hpays : c.Pays (fun c _ => c.sortOf e Γ) l) : c'.Pays (fun c _ => c.sortOf e Γ) l := by
  refine (pays_iff_of_sim (R := fun limit => widened { c with limit := limit }
    { c' with limit := limit }) (fun _ _ _ => Iff.rfl) (fun _ => id) fun limit k n n' => ?_).mp
    hpays
  have hwidens : Widens { c with limit := limit } { c' with limit := limit } := { h with }
  have hlawful := hwidens.lawful rfl
  exact (hlawful.sim_sortOf (w := ()) (hlawful.simTyping e) ⟨rfl, hΓ⟩ ⟨rfl, he⟩).mono
    fun _ _ hl => hl.1

end Checker

/-! ## Extensions -/

namespace Environment

variable {env env' : Environment} {limit k : Nat} {x : Name} {d : Declaration}

/-- A position that is found is found with more in view. -/
theorem position?_mono (hdistinct : env.Distinct) {k' : Nat} (hle : k ≤ k')
    (h : env.find? x k = some d) : env.position? x k = env.position? x k' := by
  obtain ⟨i, hpos, hi⟩ := Option.bind_eq_some_iff.mp h
  obtain ⟨j, hpos', hj⟩ := Option.bind_eq_some_iff.mp (find?_mono hdistinct hle h)
  rw [hpos, hpos', eq_of_name_eq hdistinct hi hj rfl]

/-- **The declarations of a verified environment mention declarations before them.** -/
theorem Verified.constantsIn (hverified : env.Verified limit) (hdistinct : env.Distinct)
    (hd : env.find? x k = some d) (ps : List Name) :
    d.type.constantsIn ⟨env, k, ps⟩ = true ∧ ∀ u ∈ d.value, u.constantsIn ⟨env, k, ps⟩ = true := by
  -- the declaration was checked when those before it were in view
  obtain ⟨i, hik, hi, -⟩ := at?_of_find? hd
  obtain ⟨⟨-, s, l, hs, -⟩, hvalue⟩ :=
    Checker.judges_of_failure? (hverified.seesClosed i limit true) (hverified i d hi)
  have hmono {e : Term} (he : e.constantsIn ⟨env, i, ps⟩ = true) :
      e.constantsIn ⟨env, k, ps⟩ = true :=
    Term.constantsIn_mono (fun y d' => find?_mono hdistinct (Nat.le_of_lt hik)) he
  exact ⟨hmono (Accepts.constantsIn (v := ⟨env, i, ps⟩) hs),
    fun u hu => hmono (Accepts.constantsIn (v := ⟨env, i, ps⟩) (hvalue u hu).2)⟩

/-- **A verified environment may be extended** behind the back of a checker. -/
theorem Extends.widens (hext : env.Extends env') (hverified : env.Verified limit)
    (hdistinct : env'.Distinct) (steps steps' : Nat) :
    Checker.Widens ⟨env, env.size, steps, false⟩ ⟨env', env'.size, steps', false⟩ where
  const? {x d} hd := by
    have hsame : env'.find? x env.size = some d := (hext.find? (Nat.le_refl _)).trans hd
    exact find?_mono hdistinct hext.size_le hsame
  constPosition? {x d} hd := by
    obtain ⟨-, -, -, rfl⟩ := at?_of_find? hd
    have hsame : env'.find? d.name env.size = some d := (hext.find? (Nat.le_refl _)).trans hd
    exact (hext.position? (Nat.le_refl _)).symm.trans
      (position?_mono hdistinct hext.size_le hsame)
  declared hd := hverified.constantsIn (hdistinct.of_extends hext) hd []
  forgetful := rfl
  forgetful' := rfl

end Environment

end TypeTheory
