import TypeTheory.Proofs.Simulation.Typing
import TypeTheory.Proofs.Term.Range
import TypeTheory.Proofs.Typing.Rules

/-!
# Indices stay in range

The kernel moves indices that are numbers, and callers from outside hold words, whose moves
are exact among signed words only (`Term.shiftWord_eq_shift`, `Term.substWord_eq_subst`).
`Checker.InRange` leaves room between the two: the indices that a run starts from, and the
context, are below `2 ^ 62`.

An index that points beyond its context points as far beyond it wherever it is moved, since
an index is moved by the binders that are crossed. So nothing comes to point more than
`2 ^ 62` beyond its context in steps of reduction (`Checker.InRange.looseRange_of_rewrites`)
or in a run of the checker (`Checker.InRange.looseRange_of_infer`).
-/

namespace TypeTheory

open CheckM

/-! ## Where a run starts -/

/-- The indices of the term, as they are written, are below `2 ^ 62`. -/
def Term.InRange (e : Term) : Prop :=
  ∀ i ∈ e.indices, i < 2 ^ 62

instance : DecidablePred Term.InRange :=
  fun e => inferInstanceAs (Decidable (∀ i ∈ e.indices, i < 2 ^ 62))

/-- The indices of the declarations in view, of the context and of the terms are below
`2 ^ 62`, and so is the length of the context. -/
structure Checker.InRange (c : Checker) (Γ : Context) (terms : List Term) : Prop where
  declarations : ∀ x d, c.const? x = some d → d.type.InRange ∧ ∀ v ∈ d.value, v.InRange
  length : Γ.length < 2 ^ 62
  entries : ∀ entry ∈ Γ, entry.type.InRange ∧ ∀ v ∈ entry.value, v.InRange
  terms : ∀ e ∈ terms, e.InRange

/-- A term has no loose index above all of its indices. -/
theorem Term.looseRange_le_of_indices {e : Term} {n : Nat} (h : ∀ i ∈ e.indices, i < n) :
    e.looseRange ≤ n := by
  induction e with
  | bvar i => exact looseRange_bvar_le.mpr (h i (List.mem_singleton.mpr rfl))
  | fvar | sort | const => exact Nat.zero_le n
  | app _ _ ihf iha =>
    obtain ⟨hf, ha⟩ := List.forall_mem_append.mp h
    exact looseRange_app_le.mpr ⟨ihf hf, iha ha⟩
  | bind _ _ _ _ iht ihb =>
    obtain ⟨ht, hb⟩ := List.forall_mem_append.mp h
    exact looseRange_bind_le.mpr ⟨iht ht, Nat.le_succ_of_le (ihb hb)⟩
  | letE _ _ _ _ iht ihv ihb =>
    obtain ⟨htv, hb⟩ := List.forall_mem_append.mp h
    obtain ⟨ht, hv⟩ := List.forall_mem_append.mp htv
    exact looseRange_letE_le.mpr ⟨iht ht, ihv hv, Nat.le_succ_of_le (ihb hb)⟩
  | pair _ _ iha ihb =>
    obtain ⟨ha, hb⟩ := List.forall_mem_append.mp h
    exact looseRange_pair_le.mpr ⟨iha ha, ihb hb⟩
  | proj _ _ ih => exact looseRange_proj_le.mpr (ih h)

/-- A term with all indices in range points at most `2 ^ 62` beyond its binders. -/
theorem Term.InRange.looseRange_le {e : Term} (h : e.InRange) : e.looseRange ≤ 2 ^ 62 :=
  looseRange_le_of_indices h

/-! ## Contexts -/

/-- Moved to the front of the context, no entry looks at more than `n` variables. -/
def Context.Within (n : Nat) (Γ : Context) : Prop :=
  ∀ i entry, Γ[i]? = some entry →
    entry.type.looseRange + (i + 1) ≤ n ∧ ∀ v ∈ entry.value, v.looseRange + (i + 1) ≤ n

namespace Context.Within

variable {n : Nat} {Γ : Context}

/-- An entry within `n` may be put in front of a context within `n`, which then has one binder
more. -/
theorem cons {entry : Entry} (h : Γ.Within n) (htype : entry.type.looseRange ≤ n)
    (hvalue : ∀ v ∈ entry.value, v.looseRange ≤ n) : Context.Within (n + 1) (entry :: Γ) := by
  intro i entry' hentry
  cases i with
  | zero =>
    cases hentry
    exact ⟨by omega, fun v hv => by have := hvalue v hv; omega⟩
  | succ i =>
    obtain ⟨htype', hvalue'⟩ := h i entry' hentry
    exact ⟨by omega, fun v hv => by have := hvalue' v hv; omega⟩

/-- What an index stands for looks at no more than `n` variables. -/
theorem lookup {i : Nat} {entry : Entry} (h : Γ.Within n) (hentry : Γ[i]? = some entry) :
    Term.SameWithin n (entry.type.shift 0 (i + 1)) (entry.type.shift 0 (i + 1)) ∧
      Option.Rel (Term.SameWithin n) (entry.value.map (·.shift 0 (i + 1)))
        (entry.value.map (·.shift 0 (i + 1))) := by
  have hshift {e : Term} (he : e.looseRange + (i + 1) ≤ n) :
      Term.SameWithin n (e.shift 0 ((i : Int) + 1)) (e.shift 0 ((i : Int) + 1)) :=
    ⟨rfl, Nat.le_trans (Term.looseRange_shift_le (Nat.le_refl _) (k := i + 1) 0) he⟩
  obtain ⟨htype, hvalue⟩ := h i entry hentry
  refine ⟨hshift htype, ?_⟩
  cases hv : entry.value with
  | none => exact .none
  | some v => exact .some (hshift (hvalue v hv))

theorem values (h : Γ.Within n) : ValuesAgree n Γ.values Γ.values := by
  refine fun i _ => ⟨rfl, fun v hv => ?_⟩
  obtain ⟨entry, hentry, hvalue⟩ := Context.values_eq_some.mp hv
  exact (h i entry hentry).2 v hvalue

end Context.Within

namespace Checker

/-! ## Runs beside themselves -/

/-- A run beside itself on terms that look at no more than `m` variables beyond the context. -/
def reaching (c : Checker) (m : Nat) : Correspondence c c where
  World := Nat
  under n := n + 1
  name := Eq
  term n := Term.SameWithin (m + n)
  context n Γ Γ' := Γ = Γ' ∧ Γ.Within (m + n)
  state p p' := p = p' ∧ p.Blank
  error := Eq
  lenient := False

variable {c : Checker} {m : Nat}

/-- **A run looks no further beyond the context than it did at the start**, if nothing is
remembered and the declarations look no further. -/
theorem lawful_reaching (hc : c.memoize = false) (hdeclared : ∀ x d, c.const? x = some d →
    d.type.looseRange ≤ m ∧ ∀ v ∈ d.value, v.looseRange ≤ m) : (c.reaching m).Lawful where
  name_refl _ := rfl
  form := Term.SameWithin.alike
  build := Term.SameWithin.of_alike
  sortSucc _ := .of_closed Term.looseRange_sort_le
  sortMax _ _ := .of_closed Term.looseRange_sort_le
  instantiate := by
    rintro n b _ a _ ⟨rfl, hb⟩ ⟨rfl, ha⟩
    exact ⟨rfl, Term.looseRange_instantiate_le hb ha⟩
  weaken := by
    rintro n e _ ⟨rfl, he⟩
    exact ⟨rfl, Term.looseRange_shift_le he 0⟩
  alphaEq := by
    rintro n x _ y _ ⟨rfl, -⟩ ⟨rfl, -⟩
    exact Iff.rfl
  push := by
    rintro n Γ _ t _ x _ ⟨rfl, hΓ⟩ rfl ⟨rfl, ht⟩
    exact ⟨rfl, hΓ.cons ht fun _ hv => by cases hv⟩
  pushLet := by
    rintro n Γ _ t _ v _ x _ ⟨rfl, hΓ⟩ rfl ⟨rfl, ht⟩ ⟨rfl, hv⟩
    refine ⟨rfl, hΓ.cons ht fun u hu => ?_⟩
    cases hu
    exact hv
  lookup := by
    rintro n Γ _ i i' ⟨rfl, hΓ⟩ ⟨hi, -⟩
    cases hi
    cases hentry : Γ[i]? with
    | none => exact .inl ⟨rfl, rfl, rfl⟩
    | some entry => exact .inr ⟨entry, entry, rfl, rfl, hΓ.lookup hentry⟩
  const? _ := rfl
  constPosition? _ _ := rfl
  declaredType _ hd _ :=
    ⟨rfl, Term.looseRange_substLevels_le _ (Nat.le_add_right_of_le (hdeclared _ _ hd).1)⟩
  declaredValue _ hd _ hv :=
    ⟨rfl, Term.looseRange_substLevels_le _ (Nat.le_add_right_of_le ((hdeclared _ _ hd).2 _ hv))⟩
  freeVariable _ := rfl
  unknownConstant _ _ := rfl
  universeArity _ _ _ := rfl
  notAFunction he ht := by rw [he.1, ht.1]; rfl
  notAPair he ht := by rw [he.1, ht.1]; rfl
  notASort he ht := by rw [he.1, ht.1]; rfl
  typeMismatch he ht hu := by rw [he.1, ht.1, hu.1]; rfl
  tick _ _ := .tick_self (fun _ _ => Iff.rfl) (fun _ hp => hp.of_tables rfl rfl rfl) rfl
  calls := by
    rintro p _ i j k ⟨rfl, hp⟩
    exact ⟨rfl, hp.of_tables rfl rfl rfl⟩
  remembered := by
    rintro q Γ Γ' e e' hanswer n hΓ he k k' p _ ⟨rfl, hp⟩ hk hk'
    rw [remembered_of_blank hc hp, remembered_of_blank hc hp]
    exact hanswer n hΓ he k k' p p ⟨rfl, hp⟩ hk hk'

/-! ## In range -/

namespace InRange

variable {Γ : Context} {e r t x y : Term} {terms : List Term}

/-- In range, a context of any length keeps its entries within `2 ^ 62` beyond its own length. -/
theorem within (h : c.InRange Γ terms) : Γ.Within (2 ^ 62 + Γ.length) := by
  intro i entry hentry
  obtain ⟨htype, hvalue⟩ := h.entries entry (List.mem_of_getElem? hentry)
  have hi := (List.getElem?_eq_some_iff.mp hentry).1
  refine ⟨?_, fun v hv => ?_⟩
  · have := htype.looseRange_le
    omega
  · have := (hvalue v hv).looseRange_le
    omega

/-- What is parallel to a term in range has signed words as its loose indices. -/
theorem looseRange_of_parallels (h : c.InRange Γ terms) (he : e ∈ terms)
    {L : Level → Level → Prop} (hr : Parallels L c.const? Γ.values e r) :
    r.looseRange < 2 ^ 63 := by
  have hvalues : Signature.ValuesWithin (2 ^ 62) c.const? :=
    fun n d hd v hv => ((h.declarations n d hd).2 v hv).looseRange_le
  have hrange := (hr.of_valuesAgree hvalues (Nat.le_add_right _ _) h.within.values
    (Nat.le_add_right_of_le (h.terms e he).looseRange_le)).2
  have := h.length
  omega

/-- **Reduction keeps the loose indices signed words.** -/
theorem looseRange_of_rewrites (h : c.InRange Γ terms) (he : e ∈ terms)
    (hr : Rewrites c.const? Γ.values e r) : r.looseRange < 2 ^ 63 :=
  h.looseRange_of_parallels he (hr.parallels Level.congruence_equiv)

/-- **The type that is found has signed words as its loose indices.** -/
theorem looseRange_of_infer (h : c.InRange Γ terms) (hc : c.memoize = false) (he : e ∈ terms)
    {p q : Progress} (hp : p.Blank) (hrun : c.infer e Γ p = .ok t q) : t.looseRange < 2 ^ 63 := by
  have hlawful : (c.reaching (2 ^ 62)).Lawful := by
    refine lawful_reaching hc fun x d hd => ?_
    obtain ⟨htype, hvalue⟩ := h.declarations x d hd
    exact ⟨htype.looseRange_le, fun v hv => (hvalue v hv).looseRange_le⟩
  have hterm : (c.reaching (2 ^ 62)).term Γ.length e e :=
    ⟨rfl, Nat.le_add_right_of_le (h.terms e he).looseRange_le⟩
  have hends := Correspondence.Sim.ends_self
    (fun _ _ => (hlawful.simTyping e).infer (w := Γ.length) ⟨rfl, h.within⟩ hterm)
    (fun _ _ => Iff.rfl) id hp
  rw [hrun] at hends
  have hrange : t.looseRange ≤ 2 ^ 62 + Γ.length := hends.1.2
  have := h.length
  omega

/-- The declarations in view are in range if all declarations are. -/
theorem of_forall (hdeclarations : ∀ d ∈ c.env.toList, d.type.InRange ∧ ∀ v ∈ d.value, v.InRange)
    (hlength : Γ.length < 2 ^ 62)
    (hentries : ∀ entry ∈ Γ, entry.type.InRange ∧ ∀ v ∈ entry.value, v.InRange)
    (hterms : ∀ e ∈ terms, e.InRange) : c.InRange Γ terms where
  declarations x d hd := by
    obtain ⟨i, -, hi⟩ := Option.bind_eq_some_iff.mp hd
    exact hdeclarations d (Array.mem_toList_iff.mpr (Array.mem_of_getElem? hi))
  length := hlength
  entries := hentries
  terms := hterms

end InRange

end Checker

end TypeTheory
