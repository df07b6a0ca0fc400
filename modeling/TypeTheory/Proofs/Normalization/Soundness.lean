import TypeTheory.Proofs.Normalization.Members
import TypeTheory.Proofs.Typing.Rules

/-!
# The rules of typing hold in the interpretation

A filling of a context puts a member of its type for each variable, and the value for
a variable that has one (`Models`). A term that the rules accept is then a member of
its type (`Accepts.member`), provided that each constant is a member of its own
(`Signature.Sound`). By induction on the rules: each of them is a lemma on members.

A member terminates, and so does a term that becomes one when it is filled. Hence what
the rules accept terminates in its context (`Accepts.terminates`).
-/

namespace TypeTheory

open Relation

variable {sig : Signature} {ρ : Name → Nat} {Γ : Context} {ν ν' : List (Option Term)}

/-! ## Evaluation by head steps -/

/-- A weak-head normal form is reached by head steps. -/
theorem Evaluates.heads {e r : Term} (h : Evaluates sig true Γ e r) :
    Heads sig Γ.values e r := by
  induction h with
  | fvar | sort | bind | pair | bvar | const | proj => exact .refl
  | lookup hentry hvalue _ ih =>
    exact .head (.lookup (Context.values_eq_some.mpr ⟨_, hentry, hvalue⟩)) ih
  | delta hv _ ih => exact .head (.delta hv) ih
  | zeta _ ih => exact .head (.zeta _ _ _ _) ih
  | beta _ _ ihf ih => exact (ihf.fn _).trans (.head (.beta _ _ _ _) ih)
  | app _ _ ihf => exact ihf.fn _
  | iota _ hq _ ihp ih => exact (ihp.target _).trans (.head (.iota hq) ih)

/-- Each variable with a value is filled with it. -/
def Settles (ν : List (Option Term)) (σ : Nat → Term) : Prop :=
  ∀ i v, ν[i]? = some (some v) → σ i = (v.shift 0 (i + 1)).fill σ

/-- A filling that puts its value for a variable sustains the steps that look the value up. -/
theorem Settles.sustains {σ : Nat → Term} (h : Settles ν σ) : Sustains sig ν ν' σ :=
  fun i v hv => .inr (h i v hv)

theorem Settles.fills {L : Level → Level → Prop} (hL : Level.Congruence L) {σ : Nat → Term}
    (h : Settles ν σ) : Parallel.Fills L sig ν ν' σ σ where
  step i := .refl hL (σ i)
  value i v hv := by
    rw [← h i v hv]
    exact .refl hL (σ i)

/-- Head steps stay head steps when the variables with values are filled with them. -/
theorem Head.fill (hsig : sig.ClosedValues) {x y : Term} {σ : Nat → Term} (hσ : Settles ν σ)
    (h : Head sig ν x y) : Heads sig ν' (x.fill σ) (y.fill σ) := by
  induction h with
  | beta n t b a =>
    rw [Term.fill_instantiate]
    exact .single (.beta n _ _ _)
  | zeta n t v b =>
    rw [Term.fill_instantiate]
    exact .single (.zeta n _ _ _)
  | lookup hv =>
    rw [← hσ _ _ hv]
    exact .refl
  | delta hv =>
    rw [Term.fill_of_closed (hsig.headUnfolded? hv)]
    exact .single (.delta hv)
  | iota hq => exact .single (.iota (Parallel.component?_fill hq σ))
  | fn a _ ih => exact ih.fn _
  | target k _ ih => exact ih.target k

/-- Head steps are kept when the variables are filled, those with a value by their values. -/
theorem Heads.fill (hsig : sig.ClosedValues) {x y : Term} {σ : Nat → Term} (hσ : Settles ν σ)
    (h : Heads sig ν x y) : Heads sig ν' (x.fill σ) (y.fill σ) := by
  induction h with
  | refl => exact .refl
  | tail _ hstep ih => exact ih.trans (hstep.fill hsig hσ)

/-! ## Fillings of a context -/

/-- A closed filling that puts a member of its type for each variable. -/
structure Models (sig : Signature) (ρ : Name → Nat) (Γ : Context) (γ : Nat → Term) : Prop where
  closed : ∀ i, (γ i).looseRange ≤ 0
  settles : Settles Γ.values γ
  member : ∀ i entry, Γ[i]? = some entry →
    Member sig ρ ((entry.type.shift 0 (i + 1)).fill γ) (γ i)

namespace Models

variable {γ : Nat → Term} {t a v : Term} {n : Name}

theorem fill_closed (h : Models sig ρ Γ γ) (e : Term) : (e.fill γ).looseRange ≤ 0 :=
  Term.looseRange_fill_closed h.closed e

/-- Head steps in a context are head steps of the filled terms, where no context is left. -/
theorem heads (h : Models sig ρ Γ γ) (hsig : sig.ClosedValues) {e r : Term}
    (he : Heads sig Γ.values e r) : Heads sig [] (e.fill γ) (r.fill γ) :=
  he.fill hsig h.settles

/-- Joinable terms are joinable when they are filled, as their values are put in. -/
theorem joinable (h : Models sig ρ Γ γ) (hsig : sig.ClosedValues) {x y : Term}
    (hxy : Joinable Level.Same sig Γ.values x y) :
    Joinable Level.Same sig [] (x.fill γ) (y.fill γ) :=
  hxy.fill hsig (h.settles.fills Level.congruence_same)

/-- A filling is extended by a member of the type of the new entry, which is its value if it has
one. -/
theorem extend (h : Models sig ρ Γ γ) (hsig : sig.ClosedValues) {entry : Entry}
    (ha : Member sig ρ (entry.type.fill γ) a) (hvalue : ∀ v ∈ entry.value, a = v.fill γ) :
    Models sig ρ (entry :: Γ) (Term.extend a γ) where
  closed i := by
    cases i with
    | zero => exact (ha.tame hsig).1
    | succ i => exact h.closed i
  settles i v hv := by
    rw [Term.fill_shift]
    cases i with
    | zero => exact hvalue v (Option.some.inj hv)
    | succ i =>
      have hvi := h.settles i v hv
      rw [Term.fill_shift] at hvi
      exact hvi
  member i other hother := by
    rw [Term.fill_shift]
    cases i with
    | zero =>
      cases Option.some.inj hother
      exact ha
    | succ i =>
      have hi := h.member i other hother
      rw [Term.fill_shift] at hi
      exact hi

/-- Under a binder any member of the domain may be put for the new variable. -/
theorem push (h : Models sig ρ Γ γ) (hsig : sig.ClosedValues) (ha : Member sig ρ (t.fill γ) a) :
    Models sig ρ (Γ.push n t) (Term.extend a γ) :=
  h.extend hsig ha fun _ hv => by cases hv

theorem pushLet (h : Models sig ρ Γ γ) (hsig : sig.ClosedValues)
    (hv : Member sig ρ (t.fill γ) (v.fill γ)) :
    Models sig ρ (Γ.pushLet n t v) (Term.extend (v.fill γ) γ) := by
  refine h.extend hsig hv fun w hw => ?_
  cases hw
  rfl

end Models

/-! ## The rules -/

namespace Models

variable {γ : Nat → Term} {s t u a b : Term} {n : Name} {l r m : Level} (h : Models sig ρ Γ γ)
  (hsig : sig.ClosedValues)

include h hsig

/-- A term whose type is a sort is a type. -/
theorem sorted (hs : Heads sig Γ.values s (.sort l)) (ht : Member sig ρ (s.fill γ) (t.fill γ)) :
    Universe sig ρ (l.value ρ) (t.fill γ) ∧ IsType sig ρ (t.fill γ) :=
  ht.isType_of_sort hsig (h.heads hsig hs)

/-- A function is a member of its type if its body is a member of its own for every member of the
domain. -/
theorem member_lam (ht : IsType sig ρ (t.fill γ))
    (hb : ∀ a, Member sig ρ (t.fill γ) a →
      Member sig ρ (u.fill (Term.extend a γ)) (b.fill (Term.extend a γ))) :
    Member sig ρ ((Term.pi n t u).fill γ) ((Term.lam n t b).fill γ) := by
  have hbody (a : Term) (ha : Member sig ρ (t.fill γ) a) :
      Member sig ρ ((u.fill (Term.lift γ)).instantiate a)
        ((b.fill (Term.lift γ)).instantiate a) := by
    rw [Term.instantiate_fill_lift, Term.instantiate_fill_lift]
    exact hb a ha
  have hfamily : Family sig ρ (t.fill γ) (u.fill (Term.lift γ)) :=
    ⟨ht, fun a ha => (hbody a ha).isType⟩
  exact hfamily.member_lam hsig (hfamily.tame hsig (h.fill_closed (.pi n t u))) .refl ht
    (h.fill_closed (.lam n t b)) hbody

/-- A function type or a pair type is a member of the sort of the larger of its two parts. -/
theorem member_quantifier {k : Binder} (hk : k ≠ .lam) (hm : Level.Same m (.max l r))
    (ht : Universe sig ρ (l.value ρ) (t.fill γ) ∧ IsType sig ρ (t.fill γ))
    (hb : ∀ a, Member sig ρ (t.fill γ) a → Universe sig ρ (r.value ρ) (b.fill (Term.extend a γ)) ∧
      IsType sig ρ (b.fill (Term.extend a γ))) :
    Member sig ρ (.sort m) ((Term.bind k n t b).fill γ) := by
  have hbody (a : Term) (ha : Member sig ρ (t.fill γ) a) :
      Universe sig ρ (r.value ρ) ((b.fill (Term.lift γ)).instantiate a) ∧
        IsType sig ρ ((b.fill (Term.lift γ)).instantiate a) := by
    rw [Term.instantiate_fill_lift]
    exact hb a ha
  have hfamily : Family sig ρ (t.fill γ) (b.fill (Term.lift γ)) :=
    ⟨ht.2, fun a ha => (hbody a ha).2⟩
  have htame := hfamily.tame hsig (h.fill_closed (.bind k n t b))
  refine (congrFun ((isType_sort m).member_sort hsig .refl) _).mpr ⟨htame, ?_⟩
  rw [hm ρ]
  exact universe_bind hsig hk ht.1 (fun a ha => (hbody a ha).1) htame

/-- A pair of members is a member of the type of pairs whose second part does not depend on the
first. -/
theorem member_pair (ha : Member sig ρ (t.fill γ) (a.fill γ))
    (hb : Member sig ρ (u.fill γ) (b.fill γ)) :
    Member sig ρ ((t.prod u).fill γ) ((Term.pair a b).fill γ) := by
  have hconst (c : Term) : (((u.shift 0 1).fill (Term.lift γ)).instantiate c) = u.fill γ := by
    rw [Term.fill_lift_shift_one, Term.instantiate_shift_one]
  have hfamily : Family sig ρ (t.fill γ) ((u.shift 0 1).fill (Term.lift γ)) := by
    refine ⟨ha.isType, fun c _ => ?_⟩
    rw [hconst c]
    exact hb.isType
  refine hfamily.member_pair hsig (hfamily.tame hsig (h.fill_closed (.prod t u))) .refl ha ?_
  rw [hconst]
  exact hb

end Models

/-- Each constant of `known` is a member of its type, which is closed. -/
structure Signature.Sound (known sig : Signature) (ρ : Name → Nat) : Prop where
  values : sig.ClosedValues
  types : ∀ n d, known n = some d → d.type.looseRange ≤ 0
  member : ∀ n d ls, known n = some d → d.params.length = ls.length →
    Member sig ρ (d.type.substLevels (d.params.zip ls)) (.const n ls)

/-- The rules for terms over the constants of `known`, with types evaluated by head
steps, compared up to reduction, and levels compared by what they mean. -/
abbrev Derives (known sig : Signature) : Mode → Context → Term → Term → Prop :=
  Accepts known (fun Γ => Heads sig Γ.values) (fun Γ => Joinable Level.Same sig Γ.values) Level.Same

/-- **What the rules accept is a member of its type** in every filling of the context.
A type that a term is checked against has to be one. -/
theorem Accepts.member {known : Signature} (hsig : known.Sound sig ρ) {mode : Mode} {e t : Term}
    (h : Derives known sig mode Γ e t) {γ : Nat → Term} (hγ : Models sig ρ Γ γ)
    (ht : mode = .check → IsType sig ρ (t.fill γ)) : Member sig ρ (t.fill γ) (e.fill γ) := by
  have hvalues := hsig.values
  have hinfer {P : Prop} : Mode.infer = .check → P := fun h => by cases h
  induction h generalizing γ with
  | bvar hentry => exact hγ.member _ _ hentry
  | sort l => exact member_sort hvalues l
  | const hd hlength =>
    rw [Term.fill_of_closed (Term.looseRange_substLevels_le _ (hsig.types _ _ hd))]
    exact hsig.member _ _ _ hd hlength
  | app _ hs _ ihf iha =>
    have hf := ihf hγ hinfer
    have hpi := hγ.heads hvalues hs
    have hfamily := hf.isType.family hvalues hpi
    have ha := iha hγ fun _ => hfamily.domain
    rw [hfamily.member_pi hvalues hf.isType.tame hpi] at hf
    rw [Term.fill_instantiate]
    exact hf.2 _ ha
  | lam _ hs _ iht ihb =>
    exact hγ.member_lam hvalues (hγ.sorted hvalues hs (iht hγ hinfer)).2 fun a ha =>
      ihb (hγ.push hvalues ha) hinfer
  | @quantifier Γ k n s s' t b l r m hk _ hs _ hs' hm iht ihb =>
    refine hγ.member_quantifier hvalues hk hm (hγ.sorted hvalues hs (iht hγ hinfer)) fun a ha => ?_
    have hγ' := hγ.push (n := n) hvalues ha
    exact hγ'.sorted hvalues hs' (ihb hγ' hinfer)
  | @letE Γ n s t v b u l _ hs _ _ iht ihv ihb =>
    have ht := (hγ.sorted hvalues hs (iht hγ hinfer)).2
    have hv := ihv hγ fun _ => ht
    rw [Term.fill_instantiate_eq_extend]
    refine .letE hvalues ht.tame (hv.tame hvalues) (hγ.fill_closed (.letE n t v b)) ?_
    rw [Term.instantiate_fill_lift]
    exact ihb (hγ.pushLet hvalues hv) hinfer
  | pair _ _ iha ihb => exact hγ.member_pair hvalues (iha hγ hinfer) (ihb hγ hinfer)
  | fst _ hs ih =>
    have hp := ih hγ hinfer
    have hsigma := hγ.heads hvalues hs
    rw [(hp.isType.family hvalues hsigma).member_sigma hvalues hp.isType.tame hsigma] at hp
    exact hp.2.1
  | snd _ hs ih =>
    have hp := ih hγ hinfer
    have hsigma := hγ.heads hvalues hs
    rw [(hp.isType.family hvalues hsigma).member_sigma hvalues hp.isType.tame hsigma] at hp
    rw [Term.fill_instantiate]
    exact hp.2.2
  | @checkLam Γ n m s t t' b b' e l he _ hs htt' _ iht ihb =>
    have htype := ht rfl
    have hpi := hγ.heads hvalues he
    have hfamily := htype.family hvalues hpi
    have ht := (hγ.sorted hvalues hs (iht hγ hinfer)).2
    refine hfamily.member_lam hvalues htype.tame hpi ht (hγ.fill_closed (.lam n t b)) fun a ha => ?_
    have hbody := hfamily.body a ha
    rw [← ht.member_eq hvalues hfamily.domain (hγ.joinable hvalues htt')] at ha
    rw [Term.instantiate_fill_lift] at hbody ⊢
    rw [Term.instantiate_fill_lift]
    exact ihb (hγ.push hvalues ha) fun _ => hbody
  | @checkLet Γ n s t v b e l _ hs _ _ iht ihv ihb =>
    have htype := ht rfl
    have ht := (hγ.sorted hvalues hs (iht hγ hinfer)).2
    have hv := ihv hγ fun _ => ht
    refine .letE hvalues ht.tame (hv.tame hvalues) (hγ.fill_closed (.letE n t v b)) ?_
    have hb := ihb (hγ.pushLet hvalues hv)
    rw [Term.fill_extend_shift_one] at hb
    rw [Term.instantiate_fill_lift]
    exact hb fun _ => htype
  | checkPair he _ _ iha ihb =>
    have htype := ht rfl
    have hsigma := hγ.heads hvalues he
    have hfamily := htype.family hvalues hsigma
    have ha := iha hγ fun _ => hfamily.domain
    have hb := ihb hγ
    rw [Term.fill_instantiate] at hb
    exact hfamily.member_pair hvalues htype.tame hsigma ha (hb fun _ => hfamily.body _ ha)
  | compare _ hst ih =>
    have he := ih hγ hinfer
    rwa [he.isType.member_eq hvalues (ht rfl) (hγ.joinable hvalues hst)] at he

end TypeTheory
