import TypeTheory.Proofs.Simulation.View

/-!
# A term looks at its own scope only

A run on a term looks at no more of the context than the term has loose indices,
provided that the constants it meets are closed. In particular a closed term has
one weak-head normal form and one type, whatever context it is met in, and a run
that has spent fewer steps before gets as far as one that has spent more. Both
are one correspondence, `Checker.sameScope`, between runs that remember nothing.
-/

namespace TypeTheory

/-! ## Terms and contexts -/

/-- One term, whose loose indices are below `n`. -/
def Term.SameWithin (n : Nat) (e e' : Term) : Prop :=
  e = e' ∧ e.looseRange ≤ n

namespace Term.SameWithin

variable {n : Nat} {e e' : Term}

/-- The parts of a term lie within its scope. -/
theorem alike (h : SameWithin n e e') : Alike Eq (SameWithin n) (SameWithin (n + 1)) e e' := by
  obtain ⟨rfl, he⟩ := h
  refine alike_of_parts ?_
  cases e <;> simp_all [Parts]

/-- A term whose parts lie within its scope lies within it. -/
theorem of_alike (hleaf : e.isLeaf = false)
    (h : Alike Eq (SameWithin n) (SameWithin (n + 1)) e e') : SameWithin n e e' := by
  obtain ⟨rfl, hparts⟩ := parts_of_alike hleaf h
  refine ⟨rfl, ?_⟩
  cases e <;> simp_all [Parts, isLeaf]

theorem of_closed (he : e.looseRange ≤ 0) : SameWithin n e e :=
  ⟨rfl, Nat.le_trans he n.zero_le⟩

end Term.SameWithin

/-- The first `n` entries of both contexts are there, are the same, and look at
no entry beyond them. -/
def Context.AgreeTo (n : Nat) (Γ Γ' : Context) : Prop :=
  ∀ i < n, ∃ entry, Γ[i]? = some entry ∧ Γ'[i]? = some entry ∧
    entry.type.looseRange + (i + 1) ≤ n ∧ ∀ v ∈ entry.value, v.looseRange + (i + 1) ≤ n

namespace Context.AgreeTo

variable {n : Nat} {Γ Γ' : Context}

theorem zero : AgreeTo 0 Γ Γ' := by
  intro i hi
  omega

/-- Both contexts take the same entry, which looks at the first `n` only. -/
theorem cons {entry : Entry} (h : AgreeTo n Γ Γ') (htype : entry.type.looseRange ≤ n)
    (hvalue : ∀ v ∈ entry.value, v.looseRange ≤ n) :
    AgreeTo (n + 1) (entry :: Γ) (entry :: Γ') := by
  intro i hi
  cases i with
  | zero => exact ⟨entry, rfl, rfl, by omega, fun v hv => by have := hvalue v hv; omega⟩
  | succ i =>
    obtain ⟨entry', hΓ, hΓ', htype', hvalue'⟩ := h i (by omega)
    exact ⟨entry', hΓ, hΓ', by omega, fun v hv => by have := hvalue' v hv; omega⟩

/-- What an index within the scope stands for lies within the scope. -/
theorem lookup {i : Nat} (h : AgreeTo n Γ Γ') (hi : i < n) :
    ∃ entry, Γ[i]? = some entry ∧ Γ'[i]? = some entry ∧
      Term.SameWithin n (entry.type.shift 0 (i + 1)) (entry.type.shift 0 (i + 1)) ∧
      Option.Rel (Term.SameWithin n) (entry.value.map (·.shift 0 (i + 1)))
        (entry.value.map (·.shift 0 (i + 1))) := by
  have hshift : ∀ e : Term, e.looseRange + (i + 1) ≤ n →
      (e.shift 0 ((i : Int) + 1)).looseRange ≤ n := by
    intro e he
    exact Nat.le_trans (Term.looseRange_shift_le (Nat.le_refl _) (k := i + 1) 0) he
  obtain ⟨entry, hentry, hentry', htype, hvalue⟩ := h i hi
  refine ⟨entry, hentry, hentry', ⟨rfl, hshift _ htype⟩, ?_⟩
  cases hv : entry.value with
  | none => exact .none
  | some v => exact .some ⟨rfl, hshift v (hvalue v hv)⟩

end Context.AgreeTo

/-! ## The correspondence -/

namespace Checker

/-- Every constant that the checker sees is closed. -/
def SeesClosed (c : Checker) : Prop :=
  ∀ x d, c.const? x = some d → d.type.looseRange ≤ 0 ∧ ∀ v ∈ d.value, v.looseRange ≤ 0

/-- Two runs on one term that look at the same part of their contexts. The right
one has spent no more steps than the left one. -/
def sameScope (c : Checker) : Correspondence c c where
  World := Nat
  under n := n + 1
  name := Eq
  term := Term.SameWithin
  context := Context.AgreeTo
  state p p' := p.Blank ∧ p'.Blank ∧ p'.steps ≤ p.steps
  error := Eq
  lenient := True

variable {c : Checker}

/-- **Runs on one term correspond** if constants are closed and nothing is
remembered. -/
theorem lawful_sameScope (hc : c.memoize = false) (hclosed : c.SeesClosed) :
    c.sameScope.Lawful where
  name_refl _ := rfl
  form := Term.SameWithin.alike
  build := Term.SameWithin.of_alike
  sortSucc _ := .of_closed Term.looseRange_sort_le
  sortMax _ _ := .of_closed Term.looseRange_sort_le
  instantiate := by
    rintro n b _ a _ ⟨rfl, hb⟩ ⟨rfl, ha⟩
    exact ⟨rfl, Term.looseRange_instantiate_le hb ha⟩
  weaken := by
    rintro n e _ ⟨rfl, he⟩
    exact ⟨rfl, Term.looseRange_shift_le he 0⟩
  alphaEq := by
    rintro n x _ y _ ⟨rfl, -⟩ ⟨rfl, -⟩
    exact Iff.rfl
  push := by
    rintro n Γ Γ' t _ x _ hΓ rfl ⟨rfl, ht⟩
    exact Context.AgreeTo.cons hΓ ht nofun
  pushLet := by
    rintro n Γ Γ' t _ v _ x _ hΓ rfl ⟨rfl, ht⟩ ⟨rfl, hv⟩
    refine Context.AgreeTo.cons hΓ ht fun u hu => ?_
    cases hu
    exact hv
  lookup := by
    rintro n Γ Γ' i i' hΓ ⟨hi, hrange⟩
    cases hi
    obtain ⟨entry, hentry⟩ := Context.AgreeTo.lookup hΓ (Term.looseRange_bvar_le.mp hrange)
    exact .inr ⟨entry, entry, hentry⟩
  const? _ := rfl
  constPosition? _ _ := rfl
  declaredType _ hd _ := .of_closed (Term.looseRange_substLevels_le _ (hclosed _ _ hd).1)
  declaredValue _ hd _ hv := .of_closed (Term.looseRange_substLevels_le _ ((hclosed _ _ hd).2 _ hv))
  freeVariable _ := rfl
  unknownConstant _ _ := rfl
  universeArity _ _ _ := rfl
  notAFunction he ht := by rw [he.1, ht.1]; rfl
  notAPair he ht := by rw [he.1, ht.1]; rfl
  notASort he ht := by rw [he.1, ht.1]; rfl
  typeMismatch he ht hu := by rw [he.1, ht.1, hu.1]; rfl
  tick k k' := by
    refine .tick trivial (fun p p' hp hlt => ?_) fun p p' hp => ?_
    · exact Nat.lt_of_le_of_lt hp.2.2 hlt
    · exact ⟨hp.1.of_tables rfl rfl rfl, hp.2.1.of_tables rfl rfl rfl, Nat.succ_le_succ hp.2.2⟩
  calls _ _ _ hp := ⟨hp.1.of_tables rfl rfl rfl, hp.2.1.of_tables rfl rfl rfl, hp.2.2⟩
  remembered := by
    intro q Γ Γ' e e' hanswer n hΓ he k k' p p' hp hk hk'
    rw [remembered_of_blank hc hp.1, remembered_of_blank hc hp.2.1]
    exact hanswer n hΓ he k k' p p' hp hk hk'

/-- **A closed term has one result in every context.** A run that has spent fewer
steps before has it too. -/
theorem outcome_query_of_closed (hc : c.memoize = false) (hclosed : c.SeesClosed) (q : Query)
    {e : Term} (he : e.looseRange ≤ 0) {p p' : Progress} (hp : p.Blank) (hp' : p'.Blank)
    (hsteps : p'.steps ≤ p.steps) (Γ Γ' : Context) :
    c.sameScope.Outcome (Term.SameWithin 0) p p' (c.query q e Γ p) (c.query q e Γ' p') := by
  have hΓ : Context.AgreeTo 0 Γ Γ' := .zero
  have hterm : Term.SameWithin 0 e e := .of_closed he
  have hlawful := lawful_sameScope hc hclosed
  exact Correspondence.Sim.outcome (fun _ _ => hlawful.sim_query q hΓ hterm) ⟨hp, hp', hsteps⟩

end Checker

end TypeTheory
