import TypeTheory.Proofs.Simulation.Names
import TypeTheory.Proofs.Typing.Weakening

/-!
# Runs under other names of the variables

A renaming of indices that takes the entries of a context to the same entries of
another, and indices outside the one to indices outside the other
(`Context.Embeds`), takes a run on a term to a run on the renamed term: it has the
same steps, and its results and errors are renamed. Distinct variables have to stay
distinct, because alpha-equality is decided on indices, and constants have to be
closed, because nothing in them may be renamed.

Terms are related in worlds that count the binders crossed: under `d` binders the
renaming is lifted `d` times (`Term.liftBy`). An error carries terms from some depth,
which its relation leaves open: an index that is complained of lies outside the context
at that depth, and of the terms of an error the run has to be asked
(`Checker.failureDepth`).
-/

namespace TypeTheory

/-! ## Renamed terms -/

namespace Term

/-- A renaming of indices under `d` more binders. -/
def liftBy (ξ : Nat → Nat) : (d : Nat) → Nat → Nat
  | 0 => ξ
  | d + 1 => liftIndex (liftBy ξ d)

/-- Under a binder, too, different indices are renamed to different ones. -/
theorem liftIndex_injective {ξ : Nat → Nat} (h : Function.Injective ξ) :
    Function.Injective (liftIndex ξ) := by
  intro i j hij
  cases i with
  | zero =>
    cases j with
    | zero => rfl
    | succ j => cases hij
  | succ i =>
    cases j with
    | zero => cases hij
    | succ j => exact congrArg (· + 1) (h (Nat.succ.inj hij))

theorem liftBy_injective {ξ : Nat → Nat} (h : Function.Injective ξ) (d : Nat) :
    Function.Injective (liftBy ξ d) := by
  induction d with
  | zero => exact h
  | succ d ih => exact liftIndex_injective ih

/-- A renaming that keeps variables distinct keeps terms distinct. -/
theorem rename_injective {ξ : Nat → Nat} (h : Function.Injective ξ) :
    Function.Injective (rename ξ) := by
  intro e e' heq
  induction e generalizing ξ e' with
  | bvar i =>
    cases e' <;> simp only [rename, reduceCtorEq, bvar.injEq] at heq
    exact congrArg bvar (h heq)
  | fvar x => cases e' <;> simp_all [rename]
  | sort l => cases e' <;> simp_all [rename]
  | const x ls => cases e' <;> simp_all [rename]
  | app f a ihf iha =>
    cases e' <;> simp only [rename, reduceCtorEq, app.injEq] at heq
    exact congrArg₂ app (ihf h heq.1) (iha h heq.2)
  | bind k x t b iht ihb =>
    cases e' <;> simp only [rename, reduceCtorEq, bind.injEq] at heq
    obtain ⟨rfl, rfl, ht, hb⟩ := heq
    exact congrArg₂ (bind k x) (iht h ht) (ihb (liftIndex_injective h) hb)
  | letE x t v b iht ihv ihb =>
    cases e' <;> simp only [rename, reduceCtorEq, letE.injEq] at heq
    obtain ⟨rfl, ht, hv, hb⟩ := heq
    rw [iht h ht, ihv h hv, ihb (liftIndex_injective h) hb]
  | pair a b iha ihb =>
    cases e' <;> simp only [rename, reduceCtorEq, pair.injEq] at heq
    exact congrArg₂ pair (iha h heq.1) (ihb h heq.2)
  | proj k p ih =>
    cases e' <;> simp only [rename, reduceCtorEq, proj.injEq] at heq
    obtain ⟨rfl, hp⟩ := heq
    exact congrArg (proj k) (ih h hp)

theorem nameless_rename (e : Term) (ξ : Nat → Nat) :
    (e.rename ξ).nameless = e.nameless.rename ξ := by
  induction e generalizing ξ <;> simp_all [rename, nameless]

/-- An injective renaming neither makes terms alpha-equal nor keeps them from being so. -/
theorem alphaEq_rename {ξ : Nat → Nat} (h : Function.Injective ξ) (x y : Term) :
    x.AlphaEq y ↔ (x.rename ξ).AlphaEq (y.rename ξ) := by
  rw [AlphaEq, AlphaEq, nameless_rename, nameless_rename]
  exact (rename_injective h).eq_iff.symm

/-- The right term is the left one renamed. -/
def Renamed (ξ : Nat → Nat) (e e' : Term) : Prop :=
  e' = e.rename ξ

namespace Renamed

variable {ξ : Nat → Nat} {e e' : Term}

theorem alike (h : Renamed ξ e e') : e.Alike Eq (Renamed ξ) (Renamed (liftIndex ξ)) e' := by
  subst h
  cases e with
  | bvar i => exact .bvar i _
  | fvar x => exact .fvar x
  | sort l => exact .sort l
  | const x ls => exact .const x ls
  | app f a => exact .app rfl rfl
  | bind k x t b => exact .bind k rfl rfl rfl
  | letE x t v b => exact .letE rfl rfl rfl rfl
  | pair a b => exact .pair rfl rfl
  | proj k p => exact .proj k rfl

theorem of_alike (hleaf : e.isLeaf = false)
    (h : e.Alike Eq (Renamed ξ) (Renamed (liftIndex ξ)) e') : Renamed ξ e e' := by
  unfold Renamed at *
  cases h with
  | bvar | fvar | sort | const => cases hleaf
  | app hf ha => rw [rename, hf, ha]
  | bind k hx ht hb => rw [rename, hx, ht, hb]
  | letE hx ht hv hb => rw [rename, hx, ht, hv, hb]
  | pair ha hb => rw [rename, ha, hb]
  | proj k hp => rw [rename, hp]

theorem of_closed (he : e.looseRange ≤ 0) : Renamed ξ e e :=
  (rename_of_closed he ξ).symm

end Renamed

end Term

open Term

/-- The error with the indices in its terms renamed, and the index it complains of. -/
def KernelError.rename (ξ : Nat → Nat) : KernelError → KernelError
  | .notAFunction e t => .notAFunction (e.rename ξ) (t.rename ξ)
  | .notAPair e t => .notAPair (e.rename ξ) (t.rename ξ)
  | .notASort e t => .notASort (e.rename ξ) (t.rename ξ)
  | .typeMismatch e t u => .typeMismatch (e.rename ξ) (t.rename ξ) (u.rename ξ)
  | .looseIndex i => .looseIndex (ξ i)
  | e => e

/-! ## Embedded contexts -/

/-- A renaming that takes each entry of a context to the same entry of another, and
indices without an entry to indices without one. -/
structure Context.Embeds (ξ : Nat → Nat) (Γ Γ' : Context) : Prop where
  entries : Context.Renames ξ Γ Γ'
  outside (i : Nat) : Γ[i]? = none → Γ'[ξ i]? = none

namespace Context.Embeds

variable {ξ : Nat → Nat} {Γ Γ' : Context}

/-- Under one more variable with the same type and value. -/
theorem cons (h : Context.Embeds ξ Γ Γ') {entry entry' : Entry}
    (htype : entry'.type = entry.type.rename ξ)
    (hvalue : entry'.value = entry.value.map (Term.rename ξ)) :
    Context.Embeds (liftIndex ξ) (entry :: Γ) (entry' :: Γ') where
  entries := h.entries.cons htype hvalue
  outside i hi := by
    cases i with
    | zero => cases hi
    | succ i => exact h.outside i hi

/-- Under one more variable of the larger context. -/
theorem skip (h : Context.Embeds ξ Γ Γ') (entry : Entry) :
    Context.Embeds (fun i => ξ i + 1) Γ (entry :: Γ') where
  entries i other hother := by
    have hnext {x y : Term} (hxy : SameFrom ξ i x y) : SameFrom (fun i => ξ i + 1) i x y := by
      have hshift := congrArg (Term.rename (· + 1)) hxy
      rw [rename_rename, rename_rename] at hshift
      exact hshift
    obtain ⟨entry', hentry', htype, hvalue⟩ := h.entries i other hother
    refine ⟨entry', hentry', hnext htype, ?_⟩
    generalize other.value = o, entry'.value = o' at hvalue ⊢
    cases hvalue with
    | none => exact .none
    | some hv => exact .some (hnext hv)
  outside i hi := h.outside i hi

/-- Renamed indices have no entries both, or renamed types and values. -/
theorem lookup (h : Context.Embeds ξ Γ Γ') (i : Nat) :
    (Γ[i]? = none ∧ Γ'[ξ i]? = none) ∨
    ∃ entry entry', Γ[i]? = some entry ∧ Γ'[ξ i]? = some entry' ∧
      Renamed ξ (entry.type.shift 0 (i + 1)) (entry'.type.shift 0 (ξ i + 1)) ∧
      Option.Rel (Renamed ξ) (entry.value.map (·.shift 0 (i + 1)))
        (entry'.value.map (·.shift 0 (ξ i + 1))) := by
  -- an entry is read from inside: both sides move to where the index stands
  have hread {x y : Term} (hxy : SameFrom ξ i x y) :
      Renamed ξ (x.shift 0 ((i : Int) + 1)) (y.shift 0 ((ξ i : Int) + 1)) := by
    rw [Renamed, shift_succ_eq_rename, shift_succ_eq_rename, rename_rename]
    exact hxy
  cases hentry : Γ[i]? with
  | none => exact .inl ⟨rfl, h.outside i hentry⟩
  | some entry =>
    obtain ⟨entry', hentry', htype, hvalue⟩ := h.entries i entry hentry
    refine .inr ⟨entry, entry', rfl, hentry', hread htype, ?_⟩
    generalize entry.value = o, entry'.value = o' at hvalue ⊢
    cases hvalue with
    | none => exact .none
    | some hv => exact .some (hread hv)

end Context.Embeds

/-! ## The correspondence -/

namespace Checker

/-- Runs from one state, the right one on renamed terms in a context that the left
one, of `k` variables at least, is embedded in. Nothing is remembered. -/
def relocated (c : Checker) (ξ : Nat → Nat) (k : Nat) : Correspondence c c where
  World := Nat
  under d := d + 1
  name := Eq
  term d := Renamed (liftBy ξ d)
  context d Γ Γ' := Context.Embeds (liftBy ξ d) Γ Γ' ∧ k + d ≤ Γ.length
  state p p' := p = p' ∧ p.Blank
  error e e' := ∃ d, e' = e.rename (liftBy ξ d) ∧ ∀ i, e = .looseIndex i → k + d ≤ i
  lenient := False

variable {c : Checker} {ξ : Nat → Nat} {k : Nat}

/-- An error that complains of no index. -/
theorem error_relocated {e e' : KernelError} (d : Nat) (he : e' = e.rename (liftBy ξ d))
    (hindex : ∀ i, e ≠ .looseIndex i) : (c.relocated ξ k).error e e' :=
  ⟨d, he, fun i hi => absurd hi (hindex i)⟩

/-- **Runs on renamed terms correspond** if variables stay distinct, constants are
closed and nothing is remembered. -/
theorem lawful_relocated (hξ : Function.Injective ξ) (hc : c.memoize = false)
    (hclosed : c.SeesClosed) : (c.relocated ξ k).Lawful where
  name_refl _ := rfl
  form := Renamed.alike
  build := Renamed.of_alike
  sortSucc _ := rfl
  sortMax _ _ := rfl
  instantiate := by
    rintro d b _ a _ rfl rfl
    exact (Parallel.rename_instantiate b a _).symm
  weaken := by
    rintro d e _ rfl
    exact (rename_shift_one e _).symm
  alphaEq := by
    rintro d x _ y _ rfl rfl
    exact alphaEq_rename (liftBy_injective hξ d) x y
  push := by
    rintro d Γ Γ' t _ x _ ⟨hΓ, hlength⟩ rfl rfl
    exact ⟨hΓ.cons rfl rfl, Nat.succ_le_succ hlength⟩
  pushLet := by
    rintro d Γ Γ' t _ v _ x _ ⟨hΓ, hlength⟩ rfl rfl rfl
    exact ⟨hΓ.cons rfl rfl, Nat.succ_le_succ hlength⟩
  lookup := by
    rintro d Γ Γ' i i' ⟨hΓ, hlength⟩ hi
    cases hi
    refine (hΓ.lookup i).imp_left fun ⟨hnone, hnone'⟩ => ⟨hnone, hnone', d, rfl, ?_⟩
    rintro _ ⟨⟩
    exact Nat.le_trans hlength (List.getElem?_eq_none_iff.mp hnone)
  const? _ := rfl
  constPosition? _ _ := rfl
  declaredType _ hd _ := .of_closed (looseRange_substLevels_le _ (hclosed _ _ hd).1)
  declaredValue _ hd _ hv := .of_closed (looseRange_substLevels_le _ ((hclosed _ _ hd).2 _ hv))
  freeVariable _ := error_relocated 0 rfl fun _ hi => by cases hi
  unknownConstant _ _ := error_relocated 0 rfl fun _ hi => by cases hi
  universeArity _ _ _ := error_relocated 0 rfl fun _ hi => by cases hi
  notAFunction := by
    rintro d e _ t _ rfl rfl
    exact error_relocated d rfl fun _ hi => by cases hi
  notAPair := by
    rintro d e _ t _ rfl rfl
    exact error_relocated d rfl fun _ hi => by cases hi
  notASort := by
    rintro d e _ t _ rfl rfl
    exact error_relocated d rfl fun _ hi => by cases hi
  typeMismatch := by
    rintro d e _ t _ u _ rfl rfl rfl
    exact error_relocated d rfl fun _ hi => by cases hi
  tick k k' :=
    .tick_self (fun _ _ => Iff.rfl) (fun p hp => hp.of_tables rfl rfl rfl)
      (error_relocated 0 rfl fun _ hi => by cases hi)
  calls i j k hp := by
    obtain ⟨rfl, hblank⟩ := hp
    exact ⟨rfl, hblank.of_tables rfl rfl rfl⟩
  remembered {q Γ Γ' e e'} hanswer w hΓ he k k' p p' hp hk hk' := by
    obtain ⟨rfl, hblank⟩ := hp
    rw [remembered_of_blank hc hblank, remembered_of_blank hc hblank]
    exact hanswer w hΓ he k k' p p ⟨rfl, hblank⟩ hk hk'

end Checker

end TypeTheory
