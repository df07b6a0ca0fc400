import TypeTheory.Proofs.Typing.Completeness

/-!
# Classes of terms that conversion and typing stay in

A `Fragment` is a class of terms in their contexts that parts and steps do not lead out of,
and a `Language` is one that typing does not lead out of either. If no term of a fragment
hides a pair, then conversion misses none between its terms
(`Checker.missesNoPair_of_within`), and if no term of a language does, then neither do the
comparisons that are made when its terms are typed (`Language.overt`).

So it is for terms without pairs, and for terms without projections, over declarations of
the same kind (`Signature.Lacks.language`).
-/

namespace TypeTheory

open Relation Term

variable {sig : Signature} {P : Context → Term → Prop} {Γ : Context} {ν : List (Option Term)}
  {e r t : Term}

/-- A class of terms in their contexts that parts and steps do not lead out of. The body of
a binder may be taken where its variable has another type of the class. -/
structure Fragment (sig : Signature) (P : Context → Term → Prop) : Prop where
  app : ∀ {Γ f a}, P Γ (.app f a) → P Γ f ∧ P Γ a
  domain : ∀ {Γ k n t b}, P Γ (.bind k n t b) → P Γ t
  body : ∀ {Γ k n t b m u}, P Γ (.bind k n t b) → P Γ u → P (Γ.push m u) b
  pair : ∀ {Γ a b}, P Γ (.pair a b) → P Γ a ∧ P Γ b
  target : ∀ {Γ k p}, P Γ (.proj k p) → P Γ p
  step : ∀ {Γ x y}, Step sig Γ.values x y → P Γ x → P Γ y

/-- A class of terms in their contexts that reduction and typing do not lead out of. -/
structure Language (sig : Signature) (P : Context → Term → Prop) : Prop
    extends Fragment sig P where
  letE : ∀ {Γ n t v b}, P Γ (.letE n t v b) → P Γ t ∧ P Γ v ∧ P (Γ.pushLet n t v) b
  /-- The type that a term is found to have. -/
  type : ∀ {Γ e t}, Judges sig .infer Γ e t → P Γ e → P Γ t
  /-- The type that the body of a local definition is checked against. -/
  shift : ∀ {Γ n t v b A}, P Γ (.letE n t v b) → P Γ A → P (Γ.pushLet n t v) (A.shift 0 1)
  /-- The type that the second component of a pair is checked against. -/
  second : ∀ {Γ a b n t u}, P Γ (.pair a b) → P Γ (.sigma n t u) → P Γ (u.instantiate a)

/-! ## Conversion in a fragment -/

/-- Both sides of an equation belong to a class. -/
def Equation.Within (P : Context → Term → Prop) (q : Equation) : Prop :=
  P q.context q.lhs ∧ P q.context q.rhs

namespace Fragment

variable (hP : Fragment sig P)

include hP

theorem rewrites (h : Rewrites sig Γ.values e r) (he : P Γ e) : P Γ r := by
  induction h with
  | refl => exact he
  | tail _ hstep ih => exact hP.step hstep ih

/-- The head and the arguments of a spine are in the fragment that the spine is in. -/
theorem spine {f a : Term} (h : P Γ (.app f a)) :
    P Γ (Term.app f a).spine.1 ∧ ∀ b ∈ (Term.app f a).spine.2, P Γ b := by
  refine Term.forall_spineOnto (S := P Γ) (fun _ _ => hP.app) (hP.app h).1 fun b hb => ?_
  rw [List.mem_singleton.mp hb]
  exact (hP.app h).2

/-- The equations between the parts of two terms stay in the fragment. -/
theorem within_of_parts? {x y : Term} {parts : List Equation} (hx : P Γ x) (hy : P Γ y)
    (h : x.parts? Γ y = some parts) : ∀ q ∈ parts, q.Within P := by
  unfold Term.parts? at h
  split at h
  · cases h
    exact fun q hq => by cases hq
  · split at h
    · dsimp only at h
      split at h
      · cases h
        intro q hq
        rcases List.mem_append.mp hq with hq | hq
        · obtain ⟨a, ha, b, hb, rfl⟩ := Equation.mem_zipWith (List.mem_reverse.mp hq)
          exact ⟨(hP.spine hx).2 a ha, (hP.spine hy).2 b hb⟩
        · cases List.mem_singleton.mp hq
          exact ⟨(hP.spine hx).1, (hP.spine hy).1⟩
      · cases h
    · split at h
      · cases h
        intro q hq
        rcases List.mem_cons.mp hq with rfl | hq
        · exact ⟨hP.body hx (hP.domain hx), hP.body hy (hP.domain hx)⟩
        · cases List.mem_singleton.mp hq
          exact ⟨hP.domain hx, hP.domain hy⟩
      · cases h
    · cases h
      intro q hq
      rcases List.mem_cons.mp hq with rfl | hq
      · exact ⟨(hP.pair hx).2, (hP.pair hy).2⟩
      · cases List.mem_singleton.mp hq
        exact ⟨(hP.pair hx).1, (hP.pair hy).1⟩
    · split at h
      · cases h
        intro q hq
        cases List.mem_singleton.mp hq
        exact ⟨hP.target hx, hP.target hy⟩
      · cases h
    · cases h

end Fragment

namespace Checker

variable {c : Checker} {q q₀ : Equation} {x y : Term}

/-- A result that is paid for is the result of a run in an empty state. -/
theorem Pays.exists_run {α : Type} {m : Checker → Nat → CheckM α} {a : α} (h : c.Pays m a) :
    ∃ limit n p, m { c with limit := limit } n {} = .ok a p := by
  obtain ⟨cost, h⟩ := h
  obtain ⟨p, hrun, -⟩ := h cost cost {} Progress.blank_empty (by simp) (by simp)
  exact ⟨cost, cost, p, hrun⟩

/-- Conversion stops at terms that the sides step to. -/
theorem Stops.rewrites (hclosed : c.SeesClosed) (h : c.Stops q x y) :
    Rewrites c.const? q.context.values q.lhs x ∧ Rewrites c.const? q.context.values q.rhs y := by
  obtain ⟨-, x', y', hx', hy', -, hunfold⟩ := h
  obtain ⟨limit, n, p, hrun⟩ := hunfold.exists_run
  obtain ⟨⟨hx, hy⟩, -⟩ := ((ensures_solve_unfoldHeads (c := { c with limit := limit }) hclosed
    guarded_judged n).2 x' y' q.context).of_ok (.of_blank Progress.blank_empty) hrun
  exact ⟨hx'.steps.trans hx, hy'.steps.trans hy⟩

variable (hclosed : c.SeesClosed) (hP : Fragment c.const? P)

include hclosed hP

theorem Stops.within (h : c.Stops q x y) (hq : q.Within P) : P q.context x ∧ P q.context y :=
  ⟨hP.rewrites (h.rewrites hclosed).1 hq.1, hP.rewrites (h.rewrites hclosed).2 hq.2⟩

/-- Conversion of an equation of a fragment stays in it. -/
theorem Reaches.within (h : c.Reaches q₀ q) (hq₀ : q₀.Within P) : q.Within P := by
  induction h with
  | refl => exact hq₀
  | part _ hstops hparts hr ih =>
    obtain ⟨hx, hy⟩ := hstops.within hclosed hP ih
    exact hP.within_of_parts? hx hy hparts _ hr

/-- **No pair is missed between terms of a fragment in which none is hidden.** -/
theorem missesNoPair_of_within (hpair : ∀ {Γ e}, P Γ e → ¬ HidesPair c.const? Γ e)
    (hq₀ : q₀.Within P) : c.MissesNoPair q₀ := by
  intro q x y hreaches hstops
  obtain ⟨hx, hy⟩ := hstops.within hclosed hP (hreaches.within hclosed hP hq₀)
  exact ⟨hpair hx, hpair hy⟩

end Checker

/-! ## Typing in a language -/

/-- **Typing a term of a language compares terms of the language.** -/
theorem Compares.within {expected : Option Term} {q : Equation} (hP : Language sig P)
    (h : Compares sig Γ e expected q) (he : P Γ e) (hexpected : ∀ A ∈ expected, P Γ A) :
    q.Within P := by
  have hnone {Γ : Context} : ∀ A ∈ (none : Option Term), P Γ A := fun A hA => by cases hA
  have hsome {Γ : Context} {A : Term} (hA : P Γ A) : ∀ B ∈ some A, P Γ B := fun B hB => by
    cases hB
    exact hA
  induction h with
  | fn _ ih => exact ih (hP.app he).1 hnone
  | arg hf hs _ ih =>
    have hpi := hP.rewrites hs.steps (hP.type hf (hP.app he).1)
    exact ih (hP.app he).2 (hsome (hP.domain hpi))
  | domain _ ih => exact ih (hP.domain he) hnone
  | body _ ih => exact ih (hP.body he (hP.domain he)) hnone
  | letType _ ih => exact ih (hP.letE he).1 hnone
  | letValue _ ih => exact ih (hP.letE he).2.1 (hsome (hP.letE he).1)
  | letBody _ ih =>
    refine ih (hP.letE he).2.2 fun B hB => ?_
    obtain ⟨A, hA, rfl⟩ := Option.map_eq_some_iff.mp hB
    exact hP.shift he (hexpected A hA)
  | left _ ih => exact ih (hP.pair he).1 hnone
  | right _ ih => exact ih (hP.pair he).2 hnone
  | target _ ih => exact ih (hP.target he) hnone
  | parameter hA =>
    exact ⟨hP.domain he, hP.domain (hP.rewrites hA.steps (hexpected _ rfl))⟩
  | result hA _ ih =>
    have hpi := hP.rewrites hA.steps (hexpected _ rfl)
    exact ih (hP.body he (hP.domain he)) (hsome (hP.body hpi (hP.domain he)))
  | first hA _ ih =>
    have hsigma := hP.rewrites hA.steps (hexpected _ rfl)
    exact ih (hP.pair he).1 (hsome (hP.domain hsigma))
  | second hA _ ih =>
    have hsigma := hP.rewrites hA.steps (hexpected _ rfl)
    exact ih (hP.pair he).2 (hsome (hP.second he hsigma))
  | found _ hs => exact ⟨hP.type hs he, hexpected _ rfl⟩
  | inferred _ _ ih => exact ih he hnone

/-- **No pair is missed when a term of a language is typed** in which none is hidden. -/
theorem Language.overt {c : Checker} {expected : Option Term} (hclosed : c.SeesClosed)
    (hP : Language c.const? P) (hpair : ∀ {Γ e}, P Γ e → ¬ HidesPair c.const? Γ e) (he : P Γ e)
    (hexpected : ∀ A ∈ expected, P Γ A) : c.Overt Γ e expected :=
  fun _ hq => Checker.missesNoPair_of_within hclosed hP.toFragment hpair
    (hq.within hP he hexpected)

/-! ## Terms without pairs, and terms without projections -/

/-- The forms of terms that pair types come with. -/
inductive PairForm where
  | pair
  | proj
  deriving DecidableEq, Inhabited, Repr

/-- The form does not occur in the term. -/
@[simp] def Term.lacks (f : PairForm) : Term → Bool
  | .bvar _ | .fvar _ | .sort _ | .const _ _ => true
  | .app g a => g.lacks f && a.lacks f
  | .bind _ _ t b => t.lacks f && b.lacks f
  | .letE _ t v b => t.lacks f && v.lacks f && b.lacks f
  | .pair a b => f ≠ .pair && a.lacks f && b.lacks f
  | .proj _ p => f ≠ .proj && p.lacks f

/-- The form occurs in no type and in no value of a declaration. -/
def Signature.Lacks (f : PairForm) (sig : Signature) : Prop :=
  ∀ n d, sig n = some d → d.type.lacks f = true ∧ ∀ v, d.value = some v → v.lacks f = true

section

variable {f : PairForm}

theorem Term.lacks_rename (e : Term) (ξ : Nat → Nat) : (e.rename ξ).lacks f = e.lacks f := by
  induction e generalizing ξ <;> simp_all [rename]

theorem Term.lacks_substLevels (e : Term) (τ : Level.Assignment) :
    (e.substLevels τ).lacks f = e.lacks f := by
  induction e <;> simp_all

/-- A filling with terms that lack a form leaves the form out. -/
theorem Term.lacks_fill {σ : Nat → Term} (he : e.lacks f = true)
    (hσ : ∀ i, (σ i).lacks f = true) : (e.fill σ).lacks f = true := by
  have hlift {σ : Nat → Term} (hσ : ∀ i, (σ i).lacks f = true) (i : Nat) :
      (lift σ i).lacks f = true := by
    cases i with
    | zero => rfl
    | succ i => exact (lacks_rename _ _).trans (hσ i)
  induction e generalizing σ with
  | bvar i => exact hσ i
  | bind k n t b iht ihb => simp_all [fill]
  | letE n t v b iht ihv ihb => simp_all [fill]
  | _ => simp_all [fill]

theorem Term.lacks_instantiate {b a : Term} (hb : b.lacks f = true) (ha : a.lacks f = true) :
    (b.instantiate a).lacks f = true := by
  rw [instantiate_eq_fill]
  refine lacks_fill hb fun i => ?_
  cases i with
  | zero => exact ha
  | succ i => rfl

theorem Term.lacks_shift (e : Term) (i : Nat) :
    (e.shift 0 ((i : Int) + 1)).lacks f = e.lacks f := by
  rw [shift_succ_eq_rename, lacks_rename]

theorem Term.lacks_component? {k : Side} {p q : Term} (hp : p.lacks f = true)
    (hq : p.component? k = some q) : q.lacks f = true := by
  obtain ⟨a, b, rfl⟩ := exists_of_component? hq
  simp only [lacks, Bool.and_eq_true] at hp
  cases k with
  | fst =>
    cases hq
    exact hp.1.2
  | snd =>
    cases hq
    exact hp.2

/-- A definition unfolds to a term that lacks what the signature lacks. -/
theorem Signature.Lacks.headUnfolded? (hsig : sig.Lacks f) {n : Name} {ls : List Level} {v : Term}
    (hv : sig.headUnfolded? (.const n ls) = some v) : v.lacks f = true := by
  obtain ⟨d, u, hd, -, hu, rfl⟩ := headUnfolded?_const.mp hv
  exact (lacks_substLevels u _).trans ((hsig n d hd).2 u hu)

/-- The form occurs in no value. -/
def ValuesLack (f : PairForm) (ν : List (Option Term)) : Prop :=
  ∀ (i : Nat) (v : Term), ν[i]? = some (some v) → v.lacks f = true

/-- Steps do not bring the form in. -/
theorem Step.lacks (hsig : sig.Lacks f) {x y : Term} (h : Step sig ν x y) (hν : ValuesLack f ν)
    (hx : x.lacks f = true) : y.lacks f = true := by
  have hcons {ν : List (Option Term)} (hν : ValuesLack f ν) : ValuesLack f (none :: ν) := by
    intro i v hv
    cases i with
    | zero => cases hv
    | succ i => exact hν i v hv
  induction h with
  | beta n t b a =>
    simp only [Term.lacks, Bool.and_eq_true] at hx
    exact lacks_instantiate hx.1.2 hx.2
  | zeta n t v b =>
    simp only [Term.lacks, Bool.and_eq_true] at hx
    exact lacks_instantiate hx.2 hx.1.2
  | lookup hv => exact (lacks_shift _ _).trans (hν _ _ hv)
  | delta hv => exact hsig.headUnfolded? hv
  | iota hq =>
    simp only [Term.lacks, Bool.and_eq_true] at hx
    exact lacks_component? hx.2 hq
  | fn | arg | domain | letType | letValue | left | right | target => simp_all
  | body | letBody => simp_all

/-- The form occurs in no type and no value of a context. -/
def Context.Lacks (f : PairForm) (Γ : Context) : Prop :=
  ∀ entry ∈ Γ, entry.type.lacks f = true ∧ ∀ v, entry.value = some v → v.lacks f = true

namespace Context.Lacks

theorem push (h : Γ.Lacks f) (ht : t.lacks f = true) (n : Name) : (Γ.push n t).Lacks f :=
  List.forall_mem_cons.mpr ⟨⟨ht, fun _ hv => by cases hv⟩, h⟩

theorem pushLet {v : Term} (h : Γ.Lacks f) (ht : t.lacks f = true) (hv : v.lacks f = true)
    (n : Name) : (Γ.pushLet n t v).Lacks f := by
  refine List.forall_mem_cons.mpr ⟨⟨ht, fun w hw => ?_⟩, h⟩
  cases hw
  exact hv

/-- A step leads to a term that lacks the form, if the declarations and the context lack it. -/
theorem step (h : Γ.Lacks f) (hsig : sig.Lacks f) {x y : Term} (hstep : Step sig Γ.values x y)
    (hx : x.lacks f = true) : y.lacks f = true := by
  refine hstep.lacks hsig (fun i v hv => ?_) hx
  obtain ⟨entry, hentry, hvalue⟩ := Context.values_eq_some.mp hv
  exact (h entry (List.mem_of_getElem? hentry)).2 v hvalue

theorem rewrites (h : Γ.Lacks f) (hsig : sig.Lacks f) {x y : Term}
    (hsteps : Rewrites sig Γ.values x y) (hx : x.lacks f = true) : y.lacks f = true := by
  induction hsteps with
  | refl => exact hx
  | tail _ hstep ih => exact h.step hsig hstep ih

end Context.Lacks

/-- The type of a term without the form is without it. -/
theorem Accepts.lacks (hsig : sig.Lacks f) {mode : Mode} (h : Judges sig mode Γ e t)
    (hΓ : Γ.Lacks f) (he : e.lacks f = true) (ht : mode = .check → t.lacks f = true) :
    t.lacks f = true := by
  have hinfer {Q : Prop} : Mode.infer = .check → Q := fun h => by cases h
  induction h with
  | bvar hentry => exact (lacks_shift _ _).trans (hΓ _ (List.mem_of_getElem? hentry)).1
  | sort | quantifier => rfl
  | const hd _ => exact (lacks_substLevels _ _).trans (hsig _ _ hd).1
  | app _ hs _ ihf _ =>
    simp only [Term.lacks, Bool.and_eq_true] at he
    have hpi := hΓ.rewrites hsig hs.steps (ihf hΓ he.1 hinfer)
    simp only [Term.lacks, Bool.and_eq_true] at hpi
    exact lacks_instantiate hpi.2 he.2
  | @lam Γ n s t b u l _ _ _ _ ihb =>
    simp only [Term.lacks, Bool.and_eq_true] at he ⊢
    exact ⟨he.1, ihb (hΓ.push he.1 n) he.2 hinfer⟩
  | @letE Γ n s t v b u l _ _ _ _ _ _ ihb =>
    simp only [Term.lacks, Bool.and_eq_true] at he
    exact lacks_instantiate (ihb (hΓ.pushLet he.1.1 he.1.2 n) he.2 hinfer) he.1.2
  | pair _ _ iha ihb =>
    simp only [Term.lacks, Bool.and_eq_true] at he
    have hsecond := (lacks_shift _ 0).trans (ihb hΓ he.2 hinfer)
    simp only [Term.prod, Term.lacks, Bool.and_eq_true]
    exact ⟨iha hΓ he.1.2 hinfer, hsecond⟩
  | fst _ hs ih =>
    simp only [Term.lacks, Bool.and_eq_true] at he
    have hsigma := hΓ.rewrites hsig hs.steps (ih hΓ he.2 hinfer)
    simp only [Term.lacks, Bool.and_eq_true] at hsigma
    exact hsigma.1
  | snd _ hs ih =>
    have hp := he
    simp only [Term.lacks, Bool.and_eq_true] at hp
    have hsigma := hΓ.rewrites hsig hs.steps (ih hΓ hp.2 hinfer)
    simp only [Term.lacks, Bool.and_eq_true] at hsigma
    exact lacks_instantiate hsigma.2 he
  | checkLam | checkLet | checkPair | compare => exact ht rfl

/-- **The terms without the form are a language** if it occurs in no declaration. -/
theorem Signature.Lacks.language (hsig : sig.Lacks f) :
    Language sig fun Γ e => Γ.Lacks f ∧ e.lacks f = true where
  app h := by simp_all
  domain h := by simp_all
  body h hu := by
    obtain ⟨hΓ, hbind⟩ := h
    simp only [Term.lacks, Bool.and_eq_true] at hbind
    exact ⟨hΓ.push hu.2 _, hbind.2⟩
  pair h := by simp_all
  target h := by simp_all
  step hstep h := ⟨h.1, h.1.step hsig hstep h.2⟩
  letE h := by
    obtain ⟨hΓ, hlet⟩ := h
    simp only [Term.lacks, Bool.and_eq_true] at hlet
    exact ⟨⟨hΓ, hlet.1.1⟩, ⟨hΓ, hlet.1.2⟩, hΓ.pushLet hlet.1.1 hlet.1.2 _, hlet.2⟩
  type ht h := ⟨h.1, ht.lacks hsig h.1 h.2 fun h => by cases h⟩
  shift hlet hA := by
    have hlet := hlet.2
    simp only [Term.lacks, Bool.and_eq_true] at hlet
    exact ⟨hA.1.pushLet hlet.1.1 hlet.1.2 _, (lacks_shift _ 0).trans hA.2⟩
  second hpair hsigma := by
    obtain ⟨hΓ, hpair⟩ := hpair
    have hsigma := hsigma.2
    simp only [Term.lacks, Bool.and_eq_true] at hpair hsigma
    exact ⟨hΓ, lacks_instantiate hsigma.2 hpair.1.2⟩

/-- No pair is hidden without pairs, or without projections. -/
theorem Context.Lacks.not_hidesPair (hΓ : Γ.Lacks f) (hsig : sig.Lacks f)
    (he : e.lacks f = true) : ¬ HidesPair sig Γ e := by
  have hP := hsig.language
  intro h
  induction h with
  | target _ _ hq hcomponent =>
    cases f with
    | proj => cases he
    | pair =>
      have hq := hΓ.rewrites hsig hq.steps (hP.target ⟨hΓ, he⟩).2
      obtain ⟨a, b, rfl⟩ := exists_of_component? hcomponent
      cases hq
  | head a _ ih => exact ih (hP.app ⟨hΓ, he⟩).1.2
  | core hx _ ih => exact ih (hΓ.rewrites hsig hx.steps he)
  | unfold hnext _ ih => exact ih (hΓ.step hsig (.of_headUnfolded? hnext) he)

end

end TypeTheory
