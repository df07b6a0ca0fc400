import TypeTheory.Proofs.Conversion.Joinability

/-!
# Forms that reduction keeps

A weak-head normal form keeps its form when it is reduced further (`Rigid.parallels`),
also where the target of its projection is not reduced yet: the target never becomes a
pair. Hence two weak-head normal forms that are joinable have the same form, and their
parts are joinable (`Rigid.joinable`). For spines this holds of the heads and of the
arguments (`Rigid.joinable_spine`).
-/

namespace TypeTheory

open Relation

variable {L : Level → Level → Prop} {sig : Signature} {ν : List (Option Term)} {Γ : Context}
  {x y z f g p : Term}

/-- A term that keeps its form: no step is left at its weak head, and none appears. -/
inductive Rigid (L : Level → Level → Prop) (sig : Signature) (ν : List (Option Term)) :
    Term → Prop
  | fvar (n : Name) : Rigid L sig ν (.fvar n)
  | sort (l : Level) : Rigid L sig ν (.sort l)
  | bind (k : Binder) (n : Name) (t b : Term) : Rigid L sig ν (.bind k n t b)
  | pair (a b : Term) : Rigid L sig ν (.pair a b)
  | bvar {i : Nat} : (∀ v, ν[i]? ≠ some (some v)) → Rigid L sig ν (.bvar i)
  | const {n : Name} {ls : List Level} : sig.headUnfolded? (.const n ls) = none →
      Rigid L sig ν (.const n ls)
  | app {f : Term} (a : Term) : Rigid L sig ν f → f.isLam = false → Rigid L sig ν (.app f a)
  /-- The target never becomes a pair. -/
  | proj {k : Side} {p : Term} : (∀ q, Parallels L sig ν p q → q.component? k = none) →
      Rigid L sig ν (.proj k p)

/-- Two terms of the same form whose parts are related. -/
inductive Matches (L : Level → Level → Prop) (R : List (Option Term) → Term → Term → Prop)
    (ν : List (Option Term)) : Term → Term → Prop
  | bvar (i : Nat) : Matches L R ν (.bvar i) (.bvar i)
  | fvar (n : Name) : Matches L R ν (.fvar n) (.fvar n)
  | sort {l r : Level} : L l r → Matches L R ν (.sort l) (.sort r)
  | const {n : Name} {ls rs : List Level} : List.Forall₂ L ls rs →
      Matches L R ν (.const n ls) (.const n rs)
  | app {f f' a a' : Term} : R ν f f' → R ν a a' → Matches L R ν (.app f a) (.app f' a')
  | bind {k : Binder} {n m : Name} {t t' b b' : Term} : R ν t t' → R (none :: ν) b b' →
      Matches L R ν (.bind k n t b) (.bind k m t' b')
  | pair {a a' b b' : Term} : R ν a a' → R ν b b' → Matches L R ν (.pair a b) (.pair a' b')
  | proj {k : Side} {p p' : Term} : R ν p p' → Matches L R ν (.proj k p) (.proj k p')

theorem Matches.isLam_eq {R : List (Option Term) → Term → Term → Prop} (h : Matches L R ν x y) :
    y.isLam = x.isLam := by
  cases h with
  | @bind k => cases k <;> rfl
  | _ => rfl

/-- The common form of two terms that match a third one. -/
theorem Matches.join (hL : Level.Congruence L) (h : Matches L (Parallels L sig) ν x z)
    (h' : Matches L (Parallels L sig) ν y z) : Matches L (Joinable L sig) ν x y := by
  cases h with
  | bvar i =>
    cases h'
    exact .bvar i
  | fvar n =>
    cases h'
    exact .fvar n
  | sort hl =>
    cases h' with
    | sort hr => exact .sort (hL.trans hl (hL.symm hr))
  | const hls =>
    cases h' with
    | const hrs => exact .const (hL.forall₂_trans hls (hL.forall₂_symm hrs))
  | app hf ha =>
    cases h' with
    | app hg hb => exact .app ⟨_, hf, hg⟩ ⟨_, ha, hb⟩
  | bind ht hb =>
    cases h' with
    | bind hu hc => exact .bind ⟨_, ht, hu⟩ ⟨_, hb, hc⟩
  | pair ha hb =>
    cases h' with
    | pair ha' hb' => exact .pair ⟨_, ha, ha'⟩ ⟨_, hb, hb'⟩
  | proj hp =>
    cases h' with
    | proj hq => exact .proj ⟨_, hp, hq⟩

/-- A match up to many steps, followed by one up to a single step, is a match up to many steps. -/
theorem Matches.tail (hL : Level.Congruence L) (h : Matches L (Parallels L sig) ν x y)
    (h' : Matches L (Parallel L sig) ν y z) : Matches L (Parallels L sig) ν x z := by
  cases h with
  | bvar i =>
    cases h'
    exact .bvar i
  | fvar n =>
    cases h'
    exact .fvar n
  | sort hl =>
    cases h' with
    | sort hr => exact .sort (hL.trans hl hr)
  | const hls =>
    cases h' with
    | const hrs => exact .const (hL.forall₂_trans hls hrs)
  | app hf ha =>
    cases h' with
    | app hg hb => exact .app (hf.tail hg) (ha.tail hb)
  | bind ht hb =>
    cases h' with
    | bind hu hc => exact .bind (ht.tail hu) (hb.tail hc)
  | pair ha hb =>
    cases h' with
    | pair ha' hb' => exact .pair (ha.tail ha') (hb.tail hb')
  | proj hp =>
    cases h' with
    | proj hq => exact .proj (hp.tail hq)

namespace Rigid

variable (hL : Level.Congruence L)

include hL

/-- A rigid term matches itself, with no step in any of its parts. -/
theorem matches_refl (h : Rigid L sig ν x) : Matches L (Parallels L sig) ν x x := by
  cases h with
  | fvar n => exact .fvar n
  | sort l => exact .sort (hL.refl l)
  | bind k n t b => exact .bind .refl .refl
  | pair a b => exact .pair .refl .refl
  | bvar => exact .bvar _
  | const => exact .const (hL.forall₂_refl _)
  | app => exact .app .refl .refl
  | proj => exact .proj .refl

/-- **A step keeps the form.** -/
theorem parallel (h : Rigid L sig ν x) (hstep : Parallel L sig ν x y) :
    Rigid L sig ν y ∧ Matches L (Parallel L sig) ν x y := by
  induction h generalizing y with
  | fvar n =>
    cases hstep
    exact ⟨.fvar n, .fvar n⟩
  | sort l =>
    cases hstep with
    | sort hl => exact ⟨.sort _, .sort hl⟩
  | bind k n t b =>
    cases hstep with
    | bind ht hb => exact ⟨.bind _ _ _ _, .bind ht hb⟩
  | pair a b =>
    cases hstep with
    | pair ha hb => exact ⟨.pair _ _, .pair ha hb⟩
  | bvar hv =>
    cases hstep with
    | bvar => exact ⟨.bvar hv, .bvar _⟩
    | lookup hsome => exact absurd hsome (hv _)
  | @const n ls hnone =>
    have hlevels {rs : List Level} (hls : List.Forall₂ L ls rs) :
        sig.headUnfolded? (.const n rs) = none := by
      cases hv : sig.headUnfolded? (.const n rs) with
      | none => rfl
      | some v =>
        obtain ⟨w, hw, -⟩ := Parallel.exists_headUnfolded? (ν := ν) hL (hL.forall₂_symm hls) hv
        rw [hnone] at hw
        cases hw
    cases hstep with
    | const hls => exact ⟨.const (hlevels hls), .const hls⟩
    | delta hls hsome =>
      rw [hlevels hls] at hsome
      cases hsome
  | app a hf hlam ih =>
    cases hstep with
    | app hf' ha =>
      obtain ⟨hrigid, hmatches⟩ := ih hf'
      exact ⟨.app _ hrigid (hmatches.isLam_eq.trans hlam), .app hf' ha⟩
    | beta => cases hlam
  | proj hnone =>
    cases hstep with
    | proj hp => exact ⟨.proj fun q hq => hnone q (.head hp hq), .proj hp⟩
    | iota hq =>
      rw [hnone _ .refl] at hq
      cases hq

/-- **Reduction keeps the form.** -/
theorem parallels (h : Rigid L sig ν x) (hsteps : Parallels L sig ν x y) :
    Rigid L sig ν y ∧ Matches L (Parallels L sig) ν x y := by
  induction hsteps with
  | refl => exact ⟨h, h.matches_refl hL⟩
  | tail _ hstep ih =>
    obtain ⟨hrigid, hmatches⟩ := ih.1.parallel hL hstep
    exact ⟨hrigid, ih.2.tail hL hmatches⟩

/-- **Joinable rigid terms have the same form**, and joinable parts. -/
theorem joinable (hx : Rigid L sig ν x) (hy : Rigid L sig ν y) (h : Joinable L sig ν x y) :
    Matches L (Joinable L sig) ν x y := by
  obtain ⟨z, hxz, hyz⟩ := h
  exact (hx.parallels hL hxz).2.join hL (hy.parallels hL hyz).2

/-- **Joinable rigid spines** have joinable heads and as many joinable arguments. -/
theorem joinable_spine (hx : Rigid L sig ν x) (hy : Rigid L sig ν y)
    (h : Joinable L sig ν x y) {as bs : List Term} (hargs : List.Forall₂ (Joinable L sig ν) as bs) :
    Joinable L sig ν (x.spineOnto as).1 (y.spineOnto bs).1 ∧
      List.Forall₂ (Joinable L sig ν) (x.spineOnto as).2 (y.spineOnto bs).2 := by
  induction x generalizing y as bs with
  | app f a ihf _ =>
    cases hx.joinable hL hy h with
    | app hf ha =>
      cases hx with
      | app _ hxf =>
        cases hy with
        | app _ hyf => exact ihf hxf hyf hf (.cons ha hargs)
  | letE => cases hx
  | bvar | fvar | sort | const | bind | pair | proj =>
    cases hx.joinable hL hy h
    exact ⟨h, hargs⟩

end Rigid

theorem Term.exists_of_component? {k : Side} {p q : Term} (h : p.component? k = some q) :
    ∃ a b, p = .pair a b := by
  cases p with
  | pair a b => exact ⟨a, b, rfl⟩
  | _ => cases h

/-- **A weak-head normal form is rigid.** -/
theorem Evaluates.rigid (hL : Level.Congruence L) (hsig : sig.ClosedValues) {e r : Term}
    (h : Evaluates sig true Γ e r) : Rigid L sig Γ.values r := by
  induction h with
  | fvar n => exact .fvar n
  | sort l => exact .sort l
  | bind k n t b => exact .bind k n t b
  | pair a b => exact .pair a b
  | bvar hentry hvalue =>
    refine .bvar fun v hv => ?_
    obtain ⟨entry, hentry', hvalue'⟩ := Context.values_eq_some.mp hv
    rw [hentry] at hentry'
    cases hentry'
    rw [hvalue] at hvalue'
    cases hvalue'
  | const hnone => exact .const hnone
  | app _ hlam ih => exact .app _ ih hlam
  | lookup _ _ _ ih | delta _ _ ih | zeta _ ih => exact ih
  | beta _ _ _ ih | iota _ _ _ _ ih => exact ih
  | @proj k p p' hp hnone ih =>
    refine .proj fun q hq => ?_
    -- a pair and the normal form of the target would have a common reduct
    obtain ⟨z, hz, hqz⟩ := (hp.steps.parallels hL).join hL hsig hq
    have hmatches := (ih.parallels hL hz).2
    cases hcomponent : q.component? k with
    | none => rfl
    | some s =>
      obtain ⟨a, b, rfl⟩ := Term.exists_of_component? hcomponent
      obtain ⟨a', b', rfl, -, -⟩ := hqz.of_pair
      cases hmatches
      cases k <;> cases hnone

end TypeTheory
