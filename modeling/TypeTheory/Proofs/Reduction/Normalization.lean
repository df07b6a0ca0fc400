import TypeTheory.Proofs.Reduction.NormalForm
import TypeTheory.Proofs.Typing.Contraction

/-!
# Normalization finds the normal form

A run that comes to a term has come to the normal form that the rules give
(`Checker.normalizes_of_run`). Here is the other direction: the normal form that the
rules give is found, at a cost (`Checker.pays_normalizeWithin`), hence with every budget
that is large enough, with or without tables (`Checker.exists_value?_normalizeWithin`).
By induction on the nesting: what normalization costs is what the weak-head normal form
costs and what its parts cost, one after the other.
-/

namespace TypeTheory

open CheckM

variable {sig : Signature} {Γ : Context} {d d' : Nat} {e e' n : Term}

/-! ## Rules -/

namespace Term

variable {R : Context → Term → Term → Prop} {w : Term}

/-- What is rebuilt of a form is built of other parts. -/
theorem Rebuilt.exists_parts (h : w.Rebuilt R Γ n) :
    ∃ ns, List.Forall₂ (fun x m => R x.1 x.2 m) (w.parts Γ) ns ∧ w.rebuild ns = n := by
  cases h with
  | leaf hparts =>
    refine ⟨[], hparts ▸ .nil, ?_⟩
    cases n with
    | app | bind | pair | proj => cases hparts
    | bvar | fvar | sort | const | letE => rfl
  | @bind k x t t' b b' ht hb => exact ⟨[t', b'], .cons ht (.cons hb .nil), rfl⟩
  | @apps h h' a a' as as' hhead hh ha has =>
    refine ⟨h' :: a' :: as', ?_, rebuild_apps h a as h' (a' :: as')⟩
    rw [parts_apps hhead]
    exact .cons hh (.cons ha (List.forall₂_map_left_iff.mpr has))
  | @pair a a' b b' ha hb => exact ⟨[a', b'], .cons ha (.cons hb .nil), rfl⟩
  | @proj k p p' hp => exact ⟨[p'], .cons hp .nil, rfl⟩

end Term

/-- Terms with the same value have the same normal form. -/
theorem Normalizes.of_sameValue (h : SameValue sig true Γ e e') (hn : Normalizes sig d Γ e' n) :
    Normalizes sig d Γ e n := by
  cases d with
  | zero => exact hn.elim
  | succ d =>
    obtain ⟨w, hw, hn⟩ := hn
    exact ⟨w, (h w).mpr hw, hn⟩

/-! ## Runs -/

namespace Checker

variable {c : Checker} {α β : Type} {a : α} {b : Option β}

/-- Costs add up in a sequence that may be cut short, if its first part comes to a value. -/
theorem Pays.run_bind {m : Checker → Nat → OptionT CheckM α}
    {f : Checker → Nat → α → OptionT CheckM β} (hm : c.Pays (fun c n => (m c n).run) (some a))
    (hf : c.Pays (fun c n => (f c n a).run) b) :
    c.Pays (fun c n => (m c n >>= f c n).run) b :=
  hm.bind hf

theorem Pays.run_lift {m : Checker → Nat → CheckM α} (hm : c.Pays m a) :
    c.Pays (fun c n => (liftM (m c n) : OptionT CheckM α).run) (some a) :=
  hm.bind (.pure _)

/-- Computations one after the other come to their results one after the other. -/
theorem Pays.run_mapM {f : Checker → Nat → α → OptionT CheckM β} {as : List α} {bs : List β}
    (h : List.Forall₂ (fun a b => c.Pays (fun c n => (f c n a).run) (some b)) as bs) :
    c.Pays (fun c n => (as.mapM (f c n)).run) (some bs) := by
  induction h with
  | nil => exact .pure _
  | cons ha _ ih =>
    simp only [List.mapM_cons]
    exact ha.run_bind (ih.run_bind (.pure _))

/-- **The normal form that the rules give is found at a cost.** -/
theorem pays_normalizeWithin (hc : c.memoize = false) (h : Normalizes c.const? d Γ e n) :
    c.Pays (fun c _ => (c.normalizeWithin d e Γ).run) (some n) := by
  induction d generalizing Γ e n with
  | zero => exact h.elim
  | succ d ih =>
    obtain ⟨w, hw, hn⟩ := h
    obtain ⟨ns, hparts, rfl⟩ := hn.exists_parts
    simp only [normalizeWithin_succ]
    exact (pays_whnf hc hw).run_lift.run_bind
      (.run_bind (.run_mapM (hparts.imp fun _ _ => ih)) (.pure _))

theorem value?_normalizeWithin_of_forgetful (hclosed : c.SeesClosed) {limit : Nat}
    (hlimit : c.limit ≤ limit) (memoize : Bool) {o : Option Term}
    (h : ({ c with memoize := false }.normalizeWithin d e Γ).run.value? {} = some o) :
    ({ c with limit := limit, memoize := memoize }.normalizeWithin d e Γ).run.value? {} =
      some o := by
  have hlawful := lawful_of_forgetful hclosed hlimit memoize
  refine Correspondence.Sim.value?_eq_some
    (fun _ _ => (hlawful.sim_normalizeWithin (w := ()) d rfl rfl).mono fun o o' ho => ?_)
    ⟨Progress.blank_empty, Nat.le_refl _, .of_blank Progress.blank_empty⟩ h
  cases ho with
  | none => rfl
  | some he => exact congrArg some he

/-- What is found is found within more nesting. -/
theorem value?_normalizeWithin_of_le {p : Progress} (hd : d ≤ d')
    (h : (c.normalizeWithin d e Γ).run.value? p = some (some n)) :
    (c.normalizeWithin d' e Γ).run.value? p = some (some n) := by
  obtain ⟨q, hrun⟩ := value?_eq_some.mp h
  have hfinished : ¬ CutShort (c.normalizeWithin d e Γ) p := by
    rintro ⟨q', hcut⟩
    rw [hrun] at hcut
    cases hcut
  have hsame := (deepens_normalizeWithin e Γ).extends hd p hfinished
  exact value?_eq_some.mpr ⟨q, hsame.trans hrun⟩

/-- **The normal form that the rules give is found** with every budget that is large
enough and within every nesting that is, whatever is remembered. -/
theorem exists_value?_normalizeWithin (hclosed : c.SeesClosed)
    (h : Normalizes c.const? d Γ e n) :
    ∃ N, ∀ limit memoize depth, N ≤ limit → d ≤ depth →
      ({ c with limit := limit, memoize := memoize }.normalizeWithin depth e Γ).run.value? {} =
        some (some n) := by
  obtain ⟨N, hN⟩ := (pays_normalizeWithin (c := { c with memoize := false }) rfl h).exists_value?
  refine ⟨N, fun limit memoize depth hlimit hdepth => value?_normalizeWithin_of_le hdepth ?_⟩
  exact value?_normalizeWithin_of_forgetful (c := { c with limit := limit }) hclosed
    (Nat.le_refl limit) memoize (hN limit hlimit)

end Checker

end TypeTheory
