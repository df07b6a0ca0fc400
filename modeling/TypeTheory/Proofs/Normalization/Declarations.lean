import TypeTheory.Proofs.Level.Instantiation
import TypeTheory.Proofs.Normalization.Soundness
import TypeTheory.Proofs.Typing.Bidirectional
import TypeTheory.Proofs.WellFormed.Basic

/-!
# Verified declarations in the interpretation

Each constant of a verified environment is a member of its type, at all levels
(`Environment.Verified.sound`). By induction on the position of its declaration: the
declaration was accepted by a checker that sees the declarations before it, so by the
rules its value is a member of its type. The rules do not depend on what is declared
later (`Accepts.derives`), and they hold at all levels (`Accepts.atLevels`).
-/

namespace TypeTheory

open Relation

/-! ## More constants -/

/-- Every constant of the one signature is in the other, with the same declaration. -/
def Signature.Within (sig sig' : Signature) : Prop :=
  ∀ n d, sig n = some d → sig' n = some d

section

variable {sig sig' : Signature} {ν : List (Option Term)} {L : Level → Level → Prop} {x y : Term}

/-- With more constants declared, a constant that unfolds still unfolds to the same term. -/
theorem Signature.Within.headUnfolded? (h : sig.Within sig') {n : Name} {ls : List Level}
    {v : Term} (hv : sig.headUnfolded? (.const n ls) = some v) :
    sig'.headUnfolded? (.const n ls) = some v := by
  obtain ⟨d, u, hd, hu⟩ := Signature.headUnfolded?_const.mp hv
  exact Signature.headUnfolded?_const.mpr ⟨d, u, h n d hd, hu⟩

theorem Heads.within (hsig : sig.Within sig') (h : Heads sig ν x y) : Heads sig' ν x y := by
  refine h.lift id fun x y hstep => ?_
  induction hstep with
  | beta n t b a => exact .beta n t b a
  | zeta n t v b => exact .zeta n t v b
  | lookup hv => exact .lookup hv
  | delta hv => exact .delta (hsig.headUnfolded? hv)
  | iota hq => exact .iota hq
  | fn a _ ih => exact .fn a ih
  | target k _ ih => exact .target k ih

theorem Parallel.within (hsig : sig.Within sig') (h : Parallel L sig ν x y) :
    Parallel L sig' ν x y := by
  induction h with
  | bvar i => exact .bvar i
  | lookup hv => exact .lookup hv
  | fvar x => exact .fvar x
  | sort hl => exact .sort hl
  | const hls => exact .const hls
  | delta hls hv => exact .delta hls (hsig.headUnfolded? hv)
  | app _ _ ihf iha => exact .app ihf iha
  | beta _ _ ihb iha => exact .beta ihb iha
  | bind _ _ iht ihb => exact .bind iht ihb
  | letE _ _ _ iht ihv ihb => exact .letE iht ihv ihb
  | zeta _ _ ihv ihb => exact .zeta ihv ihb
  | pair _ _ iha ihb => exact .pair iha ihb
  | proj _ ih => exact .proj ih
  | iota hq _ ih => exact .iota hq ih

/-- Terms that are joinable stay so when more constants are declared. -/
theorem Joinable.within (hsig : sig.Within sig') (h : Joinable L sig ν x y) :
    Joinable L sig' ν x y := by
  obtain ⟨z, hx, hy⟩ := h
  exact ⟨z, hx.lift id fun _ _ h => h.within hsig, hy.lift id fun _ _ h => h.within hsig⟩

/-- **What the checker accepts is so by the rules on members**, also with more constants
in view. -/
theorem Accepts.derives (hsig : sig.Within sig') {mode : Mode} {Γ : Context} {e t : Term}
    (h : Judges sig mode Γ e t) : Derives sig sig' mode Γ e t := by
  refine h.mono (fun Γ x y hxy => hxy.heads.within hsig) (fun Γ x y hxy => ?_) fun m l hm => ?_
  · exact (hxy.mono fun _ _ => Level.same_of_equiv).within hsig
  · rw [hm]
    exact (Level.same_normalize l).symm

end

/-! ## All levels -/

/-- Levels that are given to the parameters of a declaration may be instantiated before or after
they are put in. -/
theorem Term.substLevels_substLevels {params : List Name} {ls : List Level}
    (hlength : params.length = ls.length) (τ : Level.Assignment) {e : Term}
    (he : e.paramsWithin params = true) :
    (e.substLevels (params.zip ls)).substLevels τ =
      e.substLevels (params.zip (ls.map (·.subst τ))) := by
  induction e with
  | bvar | fvar => simp
  | sort l => simp [Level.subst_subst hlength τ he]
  | const n rs =>
    have hrs (r : Level) (hr : r ∈ rs) := Level.subst_subst hlength τ (List.all_eq_true.mp he r hr)
    simpa using hrs
  | app f a ihf iha | pair f a ihf iha =>
    obtain ⟨hf, ha⟩ := Bool.and_eq_true_iff.mp he
    simp [ihf hf, iha ha]
  | bind k n t b iht ihb =>
    obtain ⟨ht, hb⟩ := Bool.and_eq_true_iff.mp he
    simp [iht ht, ihb hb]
  | letE n t v b iht ihv ihb =>
    obtain ⟨htv, hb⟩ := Bool.and_eq_true_iff.mp he
    obtain ⟨ht, hv⟩ := Bool.and_eq_true_iff.mp htv
    simp [iht ht, ihv hv, ihb hb]
  | proj k p ih => simp [ih he]

/-- The component of a pair at other levels is the component, at these levels. -/
theorem Term.component?_substLevels {k : Side} {p q : Term} (h : p.component? k = some q)
    (τ : Level.Assignment) : (p.substLevels τ).component? k = some (q.substLevels τ) := by
  cases p with
  | pair a b =>
    rw [Term.substLevels_pair]
    cases k with
    | fst =>
      cases h
      rfl
    | snd =>
      cases h
      rfl
  | _ => cases h

/-- Declarations use their own universe parameters only. -/
def Signature.Bounded (sig : Signature) : Prop :=
  ∀ n d, sig n = some d →
    d.type.paramsWithin d.params = true ∧ ∀ v, d.value = some v → v.paramsWithin d.params = true

/-- The values with levels for universe parameters. -/
def valuesAt (τ : Level.Assignment) (ν : List (Option Term)) : List (Option Term) :=
  ν.map (Option.map (·.substLevels τ))

/-- The context with levels for universe parameters. -/
def Context.atLevels (Γ : Context) (τ : Level.Assignment) : Context :=
  Γ.map fun entry => { entry with
    type := entry.type.substLevels τ
    value := entry.value.map (·.substLevels τ) }

/-- The values of a context at other levels are its values, at these levels. -/
theorem Context.values_atLevels (Γ : Context) (τ : Level.Assignment) :
    (Γ.atLevels τ).values = valuesAt τ Γ.values := by
  simp [Context.values, Context.atLevels, valuesAt]

theorem Context.getElem?_atLevels {Γ : Context} {i : Nat} {entry : Entry} (h : Γ[i]? = some entry)
    (τ : Level.Assignment) : (Γ.atLevels τ)[i]? = some { entry with
      type := entry.type.substLevels τ
      value := entry.value.map (·.substLevels τ) } := by
  simp [Context.atLevels, h]

theorem valuesAt_eq_some {ν : List (Option Term)} {i : Nat} {v : Term}
    (h : ν[i]? = some (some v)) (τ : Level.Assignment) :
    (valuesAt τ ν)[i]? = some (some (v.substLevels τ)) := by
  simp [valuesAt, h]

section

variable {known sig : Signature} {ν : List (Option Term)} {x y : Term} (τ : Level.Assignment)

/-- A definition that is unfolded at other levels gives its value at these levels, as it mentions
its parameters only. -/
theorem Signature.Bounded.headUnfolded? (hsig : sig.Bounded) {n : Name} {ls : List Level}
    {v : Term} (h : sig.headUnfolded? (.const n ls) = some v) :
    sig.headUnfolded? (.const n (ls.map (·.subst τ))) = some (v.substLevels τ) := by
  obtain ⟨d, u, hd, hlength, hu, rfl⟩ := Signature.headUnfolded?_const.mp h
  refine Signature.headUnfolded?_const.mpr ⟨d, u, hd, by simpa using hlength, hu, ?_⟩
  exact (Term.substLevels_substLevels hlength τ ((hsig n d hd).2 u hu)).symm

theorem Head.atLevels (hsig : sig.Bounded) (h : Head sig ν x y) :
    Head sig (valuesAt τ ν) (x.substLevels τ) (y.substLevels τ) := by
  induction h with
  | beta n t b a =>
    simp only [Term.substLevels_app, Term.substLevels_bind, Term.substLevels_instantiate]
    exact .beta n _ _ _
  | zeta n t v b =>
    simp only [Term.substLevels_letE, Term.substLevels_instantiate]
    exact .zeta n _ _ _
  | lookup hv =>
    rw [Term.substLevels_bvar, Term.substLevels_shift]
    exact .lookup (valuesAt_eq_some hv τ)
  | delta hv =>
    rw [Term.substLevels_const]
    exact .delta (hsig.headUnfolded? τ hv)
  | iota hq =>
    rw [Term.substLevels_proj]
    exact .iota (Term.component?_substLevels hq τ)
  | fn a _ ih =>
    simp only [Term.substLevels_app]
    exact .fn _ ih
  | target k _ ih =>
    simp only [Term.substLevels_proj]
    exact .target k ih

theorem Heads.atLevels (hsig : sig.Bounded) (h : Heads sig ν x y) :
    Heads sig (valuesAt τ ν) (x.substLevels τ) (y.substLevels τ) :=
  h.lift (Term.substLevels · τ) fun _ _ h => h.atLevels τ hsig

/-- Parallel steps are kept at all levels. The induction is on the step, and levels of one value
stay so. -/
theorem Parallel.atLevels (hsig : sig.Bounded) (h : Parallel Level.Same sig ν x y) :
    Parallel Level.Same sig (valuesAt τ ν) (x.substLevels τ) (y.substLevels τ) := by
  have hall {ls rs : List Level} (h : List.Forall₂ Level.Same ls rs) :
      List.Forall₂ Level.Same (ls.map (·.subst τ)) (rs.map (·.subst τ)) := by
    rw [List.forall₂_map_left_iff, List.forall₂_map_right_iff]
    exact h.imp fun _ _ hl => hl.subst τ
  induction h with
  | bvar i =>
    rw [Term.substLevels_bvar]
    exact .bvar i
  | lookup hv =>
    rw [Term.substLevels_bvar, Term.substLevels_shift]
    exact .lookup (valuesAt_eq_some hv τ)
  | fvar x =>
    rw [Term.substLevels_fvar]
    exact .fvar x
  | sort hl =>
    simp only [Term.substLevels_sort]
    exact .sort (hl.subst τ)
  | const hls =>
    simp only [Term.substLevels_const]
    exact .const (hall hls)
  | delta hls hv =>
    rw [Term.substLevels_const]
    exact .delta (hall hls) (hsig.headUnfolded? τ hv)
  | app _ _ ihf iha =>
    simp only [Term.substLevels_app]
    exact .app ihf iha
  | beta _ _ ihb iha =>
    simp only [Term.substLevels_app, Term.substLevels_bind, Term.substLevels_instantiate]
    exact .beta ihb iha
  | bind _ _ iht ihb =>
    simp only [Term.substLevels_bind]
    exact .bind iht ihb
  | letE _ _ _ iht ihv ihb =>
    simp only [Term.substLevels_letE]
    exact .letE iht ihv ihb
  | zeta _ _ ihv ihb =>
    simp only [Term.substLevels_letE, Term.substLevels_instantiate]
    exact .zeta ihv ihb
  | pair _ _ iha ihb =>
    simp only [Term.substLevels_pair]
    exact .pair iha ihb
  | proj _ ih =>
    simp only [Term.substLevels_proj]
    exact .proj ih
  | iota hq _ ih =>
    rw [Term.substLevels_proj]
    exact .iota (Term.component?_substLevels hq τ) ih

theorem Joinable.atLevels (hsig : sig.Bounded) (h : Joinable Level.Same sig ν x y) :
    Joinable Level.Same sig (valuesAt τ ν) (x.substLevels τ) (y.substLevels τ) := by
  obtain ⟨z, hx, hy⟩ := h
  exact ⟨z.substLevels τ, hx.lift (Term.substLevels · τ) fun _ _ h => h.atLevels τ hsig,
    hy.lift (Term.substLevels · τ) fun _ _ h => h.atLevels τ hsig⟩

/-- **The rules hold at all levels.** -/
theorem Accepts.atLevels (hknown : known.Bounded) (hsig : sig.Bounded) {mode : Mode} {Γ : Context}
    {e t : Term} (h : Derives known sig mode Γ e t) :
    Derives known sig mode (Γ.atLevels τ) (e.substLevels τ) (t.substLevels τ) := by
  have hV {Γ : Context} {x y : Term} (h : Heads sig Γ.values x y) :
      Heads sig (Γ.atLevels τ).values (x.substLevels τ) (y.substLevels τ) := by
    rw [Context.values_atLevels]
    exact h.atLevels τ hsig
  have hE {Γ : Context} {x y : Term} (h : Joinable Level.Same sig Γ.values x y) :
      Joinable Level.Same sig (Γ.atLevels τ).values (x.substLevels τ) (y.substLevels τ) := by
    rw [Context.values_atLevels]
    exact h.atLevels τ hsig
  have hsort {Γ : Context} {s : Term} {l : Level} (h : Heads sig Γ.values s (.sort l)) :
      Heads sig (Γ.atLevels τ).values (s.substLevels τ) (.sort (l.subst τ)) := by
    rw [← Term.substLevels_sort]
    exact hV h
  have hbind {Γ : Context} {k : Binder} {n : Name} {s t b : Term}
      (h : Heads sig Γ.values s (.bind k n t b)) :
      Heads sig (Γ.atLevels τ).values (s.substLevels τ)
        (.bind k n (t.substLevels τ) (b.substLevels τ)) := by
    rw [← Term.substLevels_bind]
    exact hV h
  induction h with
  | bvar hentry =>
    rw [Term.substLevels_bvar, Term.substLevels_shift]
    exact .bvar (Context.getElem?_atLevels hentry τ)
  | sort l =>
    simp only [Term.substLevels_sort]
    exact .sort (l.subst τ)
  | const hd hlength =>
    rw [Term.substLevels_const, Term.substLevels_substLevels hlength τ (hknown _ _ hd).1]
    exact .const hd (by simpa using hlength)
  | app _ hs _ ihf iha =>
    rw [Term.substLevels_app, Term.substLevels_instantiate]
    exact .app ihf (hbind hs) iha
  | lam _ hs _ iht ihb =>
    simp only [Term.substLevels_bind]
    exact .lam iht (hsort hs) ihb
  | quantifier hk _ hs _ hs' hm iht ihb =>
    rw [Term.substLevels_bind, Term.substLevels_sort]
    exact .quantifier hk iht (hsort hs) ihb (hsort hs') (hm.subst τ)
  | letE _ hs _ _ iht ihv ihb =>
    rw [Term.substLevels_letE, Term.substLevels_instantiate]
    exact .letE iht (hsort hs) ihv ihb
  | pair _ _ iha ihb =>
    rw [Term.substLevels_pair, Term.prod, Term.substLevels_bind, Term.substLevels_shift]
    exact .pair iha ihb
  | fst _ hs ih =>
    rw [Term.substLevels_proj]
    exact .fst ih (hbind hs)
  | snd _ hs ih =>
    rw [Term.substLevels_instantiate, Term.substLevels_proj, Term.substLevels_proj]
    exact .snd ih (hbind hs)
  | checkLam he _ hs htt' _ iht ihb =>
    rw [Term.substLevels_bind]
    exact .checkLam (hbind he) iht (hsort hs) (hE htt') ihb
  | checkLet _ hs _ _ iht ihv ihb =>
    rw [Term.substLevels_shift] at ihb
    rw [Term.substLevels_letE]
    exact .checkLet iht (hsort hs) ihv ihb
  | checkPair he _ _ iha ihb =>
    rw [Term.substLevels_instantiate] at ihb
    rw [Term.substLevels_pair]
    exact .checkPair (hbind he) iha ihb
  | compare _ hst ih => exact .compare ih (hE hst)

end

/-! ## Environments -/

/-- What the run of a declaration that is accepted has found. -/
theorem Checker.judges_of_failure? {c : Checker} (hclosed : c.SeesClosed) {d : Declaration}
    (h : c.failure? d = none) :
    (d.type.paramsWithin d.params = true ∧ ∃ s l, Judges c.const? .infer [] d.type s ∧
      Evaluates c.const? true [] s (.sort l)) ∧
    ∀ v, d.value = some v →
      v.paramsWithin d.params = true ∧ Judges c.const? .check [] v d.type := by
  have hparams {e : Term} {p q : Progress} (h : d.requireClosed e p = .ok () q) :
      e.paramsWithin d.params = true ∧ q = p := by
    rw [Declaration.requireClosed_eq] at h
    cases hloose : e.hasLoose with
    | true =>
      rw [hloose] at h
      cases h
    | false =>
      rw [hloose] at h
      cases hfvars : e.fvars with
      | cons x xs =>
        rw [hfvars] at h
        cases h
      | nil =>
        rw [hfvars] at h
        cases hwithin : e.paramsWithin d.params with
        | false =>
          rw [hwithin] at h
          cases h
        | true =>
          rw [hwithin] at h
          cases h
          exact ⟨rfl, rfl⟩
  obtain ⟨p, hp⟩ := Checker.failure?_eq_none_iff.mp h
  unfold checkDeclaration at hp
  cases hrepeated : Declaration.repeated? [] d.params with
  | some x =>
    rw [hrepeated] at hp
    cases hp
  | none =>
    rw [hrepeated] at hp
    obtain ⟨_, p₁, htype, hrest⟩ := EStateM.bind_eq_ok.mp hp
    obtain ⟨l, p₂, hsort, hlast⟩ := EStateM.bind_eq_ok.mp hrest
    obtain ⟨htypeParams, rfl⟩ := hparams htype
    obtain ⟨hs, hjudged⟩ := (follows_sortOf hclosed (follows hclosed d.type) []).of_ok
      (.of_blank Progress.blank_empty) hsort
    obtain ⟨s, hs, hl⟩ := hs
    refine ⟨⟨htypeParams, s, l, hs, hl⟩, fun v hv => ?_⟩
    rw [hv] at hlast
    obtain ⟨_, p₃, hvalue, hcheck⟩ := EStateM.bind_eq_ok.mp hlast
    obtain ⟨hvalueParams, rfl⟩ := hparams hvalue
    exact ⟨hvalueParams, (((follows hclosed v) []).2 d.type |>.of_ok hjudged hcheck).1⟩

namespace Environment

variable {env : Environment} {limit : Nat} {ρ : Name → Nat}

/-- The declarations before a position. -/
def view (env : Environment) (k : Nat) : Signature :=
  fun n => env.find? n k

/-- Nothing has to be filled in the empty context. -/
theorem models_nil {sig : Signature} : Models sig ρ [] fun _ => .fvar .anonymous where
  closed _ := Term.looseRange_fvar_le
  settles i v hv := by simp [Context.values] at hv
  member i entry hentry := by simp at hentry

variable (hverified : env.Verified limit) (hdistinct : (env.toList.map (·.name)).Nodup)

include hverified

theorem Verified.closedValues (k : Nat) : (env.view k).ClosedValues :=
  (hverified.seesClosed k limit true).values

/-- What is seen of a verified environment mentions the parameters of each declaration only. -/
theorem Verified.bounded (k : Nat) : (env.view k).Bounded := by
  intro n d hd
  obtain ⟨i, -, hi, -⟩ := at?_of_find? hd
  obtain ⟨htype, hvalue⟩ :=
    Checker.judges_of_failure? (hverified.seesClosed i limit true) (hverified i d hi)
  exact ⟨htype.1, fun v hv => (hvalue v hv).1⟩

include hdistinct

/-- **The constants of a verified environment are members of their types**, at all
levels. -/
theorem Verified.sound {k K : Nat} (hk : k ≤ K) : (env.view k).Sound (env.view K) ρ := by
  have hvalues := hverified.closedValues K
  induction k using Nat.strong_induction_on with
  | _ k ih =>
    refine ⟨hvalues, (hverified.seesClosed k limit true).types, fun n d ls hd hlength => ?_⟩
    obtain ⟨i, hik, hi, -⟩ := at?_of_find? hd
    have hsound := ih i hik (by omega)
    have hwithin : (env.view i).Within (env.view K) :=
      fun n d hd => find?_mono hdistinct (by omega) hd
    have hlevels {mode : Mode} {e t : Term} (h : Judges (env.view i) mode [] e t) :=
      (h.derives hwithin).atLevels (d.params.zip ls) (hverified.bounded i) (hverified.bounded K)
    have hclosed := hverified.seesClosed i limit true
    obtain ⟨⟨-, s, l, hs, hl⟩, hvalue⟩ := Checker.judges_of_failure? hclosed (hverified i d hi)
    -- the type is a type
    have hmodels : Models (env.view K) ρ [] _ := models_nil
    have htypeClosed := Term.looseRange_substLevels_le (d.params.zip ls)
      ((hverified.seesClosed k limit true).types n d hd)
    have htype : IsType (env.view K) ρ (d.type.substLevels (d.params.zip ls)) := by
      have hmember := (hlevels hs).member hsound hmodels fun h => by cases h
      have hheads := (hl.heads.within hwithin).atLevels (d.params.zip ls) (hverified.bounded K)
      rw [Term.substLevels_sort] at hheads
      rw [Term.fill_of_closed htypeClosed] at hmember
      exact (hmember.isType_of_sort hvalues (hmodels.heads hvalues hheads)).2
    have hdK : env.view K n = some d := find?_mono hdistinct hk hd
    have hrange : (Term.const n ls).looseRange ≤ 0 := Term.looseRange_const_le
    cases hv : d.value with
    | none =>
      have hnone : (env.view K).headUnfolded? (.const n ls) = none := by
        simp [Signature.headUnfolded?, hdK, hv]
      exact (htype.saturated hvalues).neutral (.const hnone)
        ⟨hrange, Neutral.terminates_const hnone⟩
    | some v =>
      have hvClosed := Term.looseRange_substLevels_le (d.params.zip ls) (hvalues n d hdK v hv)
      have hmember := (hlevels (hvalue v hv).2).member hsound hmodels fun _ => by
        rw [Term.fill_of_closed htypeClosed]
        exact htype
      rw [Term.fill_of_closed htypeClosed, Term.fill_of_closed hvClosed] at hmember
      have hunfold : (env.view K).headUnfolded? (.const n ls) =
          some (v.substLevels (d.params.zip ls)) :=
        Signature.headUnfolded?_const.mpr ⟨d, v, hdK, hlength, hv, rfl⟩
      exact hmember.of_head hvalues ⟨hrange, .delta hunfold (hmember.tame hvalues).2⟩
        (.delta hunfold)

end Environment

end TypeTheory
