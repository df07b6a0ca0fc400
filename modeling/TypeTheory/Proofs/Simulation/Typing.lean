import TypeTheory.Declaration.Check
import TypeTheory.Proofs.Checker.Forms
import TypeTheory.Proofs.Simulation.Conversion

/-!
# Typing keeps a correspondence

Related terms have related types or fail with related errors. As in the proof
that typing is sound, both directions of the checker are taken together, one
form of term after the other (`Correspondence.SimTyping`), by induction on the
left term.
-/

namespace TypeTheory

/-- A term of a declaration is tested for a loose index, then for a free variable, and last for a
parameter that is not declared. -/
theorem Declaration.requireClosed_eq (d : Declaration) (e : Term) : d.requireClosed e =
    if e.hasLoose then throw (.looseIndex (e.wordRange - 1))
    else match e.fvars with
      | x :: _ => throw (.freeVariable x)
      | [] => if e.paramsWithin d.params then pure () else throw (.undeclaredUniverse d.name) := by
  unfold requireClosed
  cases e.hasLoose with
  | true => rfl
  | false => rfl

/-- A term of the same form is checked in the same direction. -/
theorem Term.Alike.inferred {name : Name → Name → Prop} {part body : Term → Term → Prop}
    {e e' : Term} (h : e.Alike name part body e') (he : e.Inferred) : e'.Inferred := by
  cases h with
  | bind k =>
    cases k with
    | lam => exact he
    | pi | sigma => trivial
  | letE | pair => exact he
  | bvar | fvar | sort | const | app | proj => trivial

namespace Correspondence

variable {c c' : Checker} {R : Correspondence c c'} {w : R.World} {n n' : Nat}
  {Γ Γ' : Context} {e e' t t' : Term}

/-- Two binding forms with related parts. -/
def binding (R : Correspondence c c') (w : R.World) (b b' : Binding) : Prop :=
  R.name b.name b'.name ∧ R.term w b.domain b'.domain ∧ R.term (R.under w) b.body b'.body

/-- One level, whose sort is related to itself. -/
def level (R : Correspondence c c') (w : R.World) (l l' : Level) : Prop :=
  l = l' ∧ R.term w (.sort l) (.sort l)

/-- Whatever is related to `e` has related types, and is accepted for related
types. -/
def SimTyping (R : Correspondence c c') (e : Term) : Prop :=
  ∀ w Γ Γ' e', R.context w Γ Γ' → R.term w e e' →
    (∀ n n', R.Sim n n' (R.term w) (c.infer e Γ) (c'.infer e' Γ')) ∧
    ∀ t t', R.term w t t' → ∀ n n', R.Sim n n' Eq (c.check e t Γ) (c'.check e' t' Γ')

theorem SimTyping.infer (h : R.SimTyping e) (hΓ : R.context w Γ Γ') (he : R.term w e e') :
    R.Sim n n' (R.term w) (c.infer e Γ) (c'.infer e' Γ') :=
  (h w Γ Γ' e' hΓ he).1 n n'

theorem SimTyping.check (h : R.SimTyping e) (hΓ : R.context w Γ Γ') (he : R.term w e e')
    (ht : R.term w t t') : R.Sim n n' Eq (c.check e t Γ) (c'.check e' t' Γ') :=
  (h w Γ Γ' e' hΓ he).2 t t' ht n n'

namespace Lawful

variable (h : R.Lawful)

include h

/-! ## Expected shapes -/

theorem sim_ensureSort (hΓ : R.context w Γ Γ') (ht : R.term w t t') (he : R.term w e e') :
    R.Sim n n' (R.level w) (c.ensureSort t e Γ) (c'.ensureSort t' e' Γ') := by
  unfold Checker.ensureSort
  cases h.form ht with
  | sort l => exact .pure ⟨rfl, ht⟩
  | _ =>
    refine (h.sim_whnf hΓ ht).bind fun r r' hr => ?_
    cases h.form hr with
    | sort l => exact .pure ⟨rfl, hr⟩
    | _ => exact .throw (h.notASort he ht)

/-- A binder is found in one of two related terms just if it is found in the other, with related
parts. -/
theorem binding? (k : Binder) (ht : R.term w t t') :
    Option.Rel (R.binding w) (t.binding? k) (t'.binding? k) := by
  cases h.form ht with
  | bind k' hx hu hb =>
    by_cases hk : k' = k
    · simp only [Term.binding?, if_pos hk]
      exact .some ⟨hx, hu, hb⟩
    · simp only [Term.binding?, if_neg hk]
      exact .none
  | _ => exact .none

/-- A function type or a pair type is looked for alike in related types, with whatever related
errors. -/
theorem sim_ensureBinding {k : Binder} {error error' : KernelError} (herror : R.error error error')
    (hΓ : R.context w Γ Γ') (ht : R.term w t t') :
    R.Sim n n' (R.binding w) (c.ensureBinding k error t Γ) (c'.ensureBinding k error' t' Γ') := by
  have hbinding := h.binding? k ht
  unfold Checker.ensureBinding
  generalize t.binding? k = o at hbinding ⊢
  generalize t'.binding? k = o' at hbinding ⊢
  cases hbinding with
  | some hb => exact .pure hb
  | none =>
    refine (h.sim_whnf hΓ ht).bind fun r r' hr => ?_
    have hbinding := h.binding? k hr
    generalize r.binding? k = o at hbinding ⊢
    generalize r'.binding? k = o' at hbinding ⊢
    cases hbinding with
    | some hb => exact .pure hb
    | none => exact .throw herror

theorem sim_requireConv {found found' : Term} (hΓ : R.context w Γ Γ')
    (hfound : R.term w found found') (ht : R.term w t t') (he : R.term w e e') :
    R.Sim n n' Eq (c.requireConv found t e Γ) (c'.requireConv found' t' e' Γ') := by
  refine (h.sim_conv hΓ hfound ht).bind fun equal equal' hequal => ?_
  cases hequal
  split
  · exact .pure rfl
  · exact .throw (h.typeMismatch he ht hfound)

/-- A constant has related types on both sides, or is unknown, or wrongly applied, on both. -/
theorem sim_constType {x : Name} {levels : List Level}
    (hx : R.term w (.const x levels) (.const x levels)) :
    R.Sim n n' (R.term w) (c.constType x levels) (c'.constType x levels) := by
  unfold Checker.constType
  rw [← h.const? hx]
  cases hd : c.const? x with
  | none => exact .throw (h.unknownConstant hx hd)
  | some d =>
    dsimp only
    split
    · rename_i hlength
      exact .pure (h.declaredType hx hd hlength)
    · rename_i hlength
      exact .throw (h.universeArity hx hd hlength)

/-! ## From the rule of a form to both directions -/

/-- Inference goes side by side if its rule does, whatever both sides remember. -/
theorem sim_infer (hΓ : R.context w Γ Γ') (he : R.term w e e')
    (hnode : ∀ w, R.context w Γ Γ' → R.term w e e' → ∀ n n',
      R.Sim n n' (R.term w) (c.inferNode e Γ) (c'.inferNode e' Γ')) (n n' : Nat) :
    R.Sim n n' (R.term w) (c.infer e Γ) (c'.infer e' Γ') := by
  rw [Checker.infer, Checker.infer]
  refine h.remembered (q := .type) (fun w hΓ he k k' => ?_) w hΓ he n n'
  exact (Sim.modify (fun _ _ => h.calls 1 0 0) (fun _ => rfl) fun _ => rfl).bind
    fun _ _ _ => hnode w hΓ he k k'

/-- The sort of a term is found side by side with that of a related term. -/
theorem sim_sortOf (htyping : R.SimTyping e) (hΓ : R.context w Γ Γ') (he : R.term w e e') :
    R.Sim n n' (R.level w) (c.sortOf e Γ) (c'.sortOf e' Γ') := by
  rw [Checker.sortOf, Checker.sortOf]
  exact (htyping.infer hΓ he).bind fun _ _ ht => h.sim_ensureSort hΓ ht he

theorem sim_checkInferred (hΓ : R.context w Γ Γ') (he : R.term w e e') (ht : R.term w t t')
    (hinfer : R.Sim n n' (R.term w) (c.infer e Γ) (c'.infer e' Γ')) :
    R.Sim n n' Eq (c.checkInferred e t Γ) (c'.checkInferred e' t' Γ') := by
  rw [Checker.checkInferred, Checker.checkInferred]
  exact hinfer.bind fun _ _ hfound => h.sim_requireConv hΓ hfound ht he

/-- Most forms are checked by comparing the inferred type. -/
theorem simTyping_of_inferNode (hform : e.Inferred)
    (hnode : ∀ {w Γ Γ' e'}, R.context w Γ Γ' → R.term w e e' → ∀ n n',
      R.Sim n n' (R.term w) (c.inferNode e Γ) (c'.inferNode e' Γ')) : R.SimTyping e := by
  intro w Γ Γ' e' hΓ he
  have hinfer := h.sim_infer hΓ he fun _ => hnode
  refine ⟨hinfer, fun t t' ht n n' => ?_⟩
  have hform' := (h.form he).inferred hform
  rw [Checker.check_eq_checkInferred hform, Checker.check_eq_checkInferred hform']
  exact h.sim_checkInferred hΓ he ht (hinfer n n')

/-! ## One form after the other -/

/-- Related indices have related types, or are both outside of their contexts. -/
theorem simTyping_bvar (i : Nat) : R.SimTyping (.bvar i) := by
  refine h.simTyping_of_inferNode trivial fun hΓ he n n' => ?_
  cases h.form he with
  | bvar _ i' =>
    rw [Checker.inferNode, Checker.inferNode]
    obtain ⟨hnone, hnone', herror⟩ | ⟨entry, entry', hsome, hsome', htype, _⟩ := h.lookup hΓ he
    · rw [hnone, hnone']
      exact .throw herror
    · rw [hsome, hsome']
      exact .pure htype

theorem simTyping_fvar (x : Name) : R.SimTyping (.fvar x) := by
  refine h.simTyping_of_inferNode trivial fun hΓ he n n' => ?_
  cases h.form he
  rw [Checker.inferNode, Checker.inferNode]
  exact .throw (h.freeVariable he)

theorem simTyping_sort (l : Level) : R.SimTyping (.sort l) := by
  refine h.simTyping_of_inferNode trivial fun hΓ he n n' => ?_
  cases h.form he
  rw [Checker.inferNode, Checker.inferNode]
  exact .pure (h.sortSucc he)

theorem simTyping_const (x : Name) (levels : List Level) : R.SimTyping (.const x levels) := by
  refine h.simTyping_of_inferNode trivial fun hΓ he n n' => ?_
  cases h.form he
  rw [Checker.inferNode, Checker.inferNode]
  exact h.sim_constType he

/-- The parts of related applications are related, and so are the instances of the types of their
functions. -/
theorem simTyping_app {f a : Term} (hf : R.SimTyping f) (ha : R.SimTyping a) :
    R.SimTyping (.app f a) := by
  refine h.simTyping_of_inferNode trivial fun hΓ he n n' => ?_
  cases h.form he with
  | app hf' ha' =>
    rw [Checker.inferNode, Checker.inferNode]
    refine (hf.infer hΓ hf').bind fun t t' ht => ?_
    rw [Checker.ensurePi_eq, Checker.ensurePi_eq]
    refine (h.sim_ensureBinding (h.notAFunction hf' ht) hΓ ht).bind fun b b' hb => ?_
    refine (ha.check hΓ ha' hb.2.1).bind fun _ _ _ => ?_
    exact .pure (h.instantiate hb.2.2 ha')

/-- Related functions are related in the parameter's type, and in the body under one binder more. -/
theorem simTyping_lam {x : Name} {u b : Term} (hu : R.SimTyping u) (hb : R.SimTyping b) :
    R.SimTyping (.lam x u b) := by
  intro w Γ Γ' e' hΓ he
  cases h.form he with
  | @bind _ _ x' _ u' _ b' hx hu' hb' =>
    have hinfer := h.sim_infer hΓ he fun w hΓ he n n' => by
      cases h.form he with
      | bind _ hx hu' hb' =>
        rw [Checker.inferNode, Checker.inferNode]
        refine (h.sim_sortOf hu hΓ hu').bind fun _ _ _ => ?_
        refine (hb.infer (h.push hΓ hx hu') hb').bind fun v v' hv => ?_
        exact .pure (h.build rfl (.bind .pi hx hu' hv))
    refine ⟨hinfer, fun t t' ht n n' => ?_⟩
    have hfallback := h.sim_checkInferred hΓ he ht (hinfer n n')
    rw [Checker.check, Checker.check]
    refine (h.sim_whnf hΓ ht).bind fun r r' hr => ?_
    cases h.form hr with
    | bind k hy hv hbody =>
      cases k with
      | pi =>
        refine (h.sim_sortOf hu hΓ hu').bind fun _ _ _ => ?_
        refine (h.sim_conv hΓ hu' hv).bind fun equal equal' hequal => ?_
        cases hequal
        cases equal with
        | true => exact hb.check (h.push hΓ hx hu') hb' hbody
        | false => exact hfallback
      | _ => exact hfallback
    | _ => exact hfallback

/-- Related function types and pair types have related parts, whose sorts have one maximum. -/
theorem simTyping_pi_sigma {k : Binder} (hk : k ≠ .lam) {x : Name} {u b : Term}
    (hu : R.SimTyping u) (hb : R.SimTyping b) : R.SimTyping (.bind k x u b) := by
  have hform : (Term.bind k x u b).Inferred := by
    cases k with
    | lam => exact absurd rfl hk
    | pi | sigma => trivial
  refine h.simTyping_of_inferNode hform fun hΓ he n n' => ?_
  cases h.form he with
  | bind _ hx hu' hb' =>
    rw [Checker.inferNode, Checker.inferNode]
    · refine (h.sim_sortOf hu hΓ hu').bind fun l l' hl => ?_
      refine (h.sim_sortOf hb (h.push hΓ hx hu') hb').bind fun r r' hr => ?_
      obtain ⟨rfl, hl⟩ := hl
      obtain ⟨rfl, hr⟩ := hr
      exact .pure (h.sortMax hl hr)
    · exact hk
    · exact hk

/-- Related local definitions have related types and values, which the bodies find in related
contexts. -/
theorem simTyping_letE {x : Name} {u v b : Term} (hu : R.SimTyping u) (hv : R.SimTyping v)
    (hb : R.SimTyping b) : R.SimTyping (.letE x u v b) := by
  intro w Γ Γ' e' hΓ he
  cases h.form he with
  | letE hx hu' hv' hb' =>
    have hΔ := h.pushLet hΓ hx hu' hv'
    constructor
    · refine h.sim_infer hΓ he fun w hΓ he n n' => ?_
      cases h.form he with
      | letE hx hu' hv' hb' =>
        rw [Checker.inferNode, Checker.inferNode]
        refine (h.sim_sortOf hu hΓ hu').bind fun _ _ _ => ?_
        refine (hv.check hΓ hv' hu').bind fun _ _ _ => ?_
        refine (hb.infer (h.pushLet hΓ hx hu' hv') hb').bind fun t t' ht => ?_
        exact .pure (h.instantiate ht hv')
    · intro t t' ht n n'
      rw [Checker.check, Checker.check]
      refine (h.sim_sortOf hu hΓ hu').bind fun _ _ _ => ?_
      refine (hv.check hΓ hv' hu').bind fun _ _ _ => ?_
      exact hb.check hΔ hb' (h.weaken ht)

theorem simTyping_pair {a b : Term} (ha : R.SimTyping a) (hb : R.SimTyping b) :
    R.SimTyping (.pair a b) := by
  intro w Γ Γ' e' hΓ he
  cases h.form he with
  | pair ha' hb' =>
    have hinfer := h.sim_infer hΓ he fun w hΓ he n n' => by
      cases h.form he with
      | pair ha' hb' =>
        rw [Checker.inferNode, Checker.inferNode]
        refine (ha.infer hΓ ha').bind fun t t' ht => ?_
        refine (hb.infer hΓ hb').bind fun u u' hu => ?_
        exact .pure (h.build rfl (.bind .sigma (h.name_refl _) ht (h.weaken hu)))
    refine ⟨hinfer, fun t t' ht n n' => ?_⟩
    have hfallback := h.sim_checkInferred hΓ he ht (hinfer n n')
    rw [Checker.check, Checker.check]
    refine (h.sim_whnf hΓ ht).bind fun r r' hr => ?_
    cases h.form hr with
    | bind k _ hu hv =>
      cases k with
      | sigma =>
        refine (ha.check hΓ ha' hu).bind fun _ _ _ => ?_
        exact hb.check hΓ hb' (h.instantiate hv ha')
      | _ => exact hfallback
    | _ => exact hfallback

/-- Related projections have related targets, and take the same side of them. -/
theorem simTyping_proj {k : Side} {p : Term} (hp : R.SimTyping p) : R.SimTyping (.proj k p) := by
  refine h.simTyping_of_inferNode trivial fun hΓ he n n' => ?_
  cases h.form he with
  | proj _ hp' =>
    rw [Checker.inferNode, Checker.inferNode]
    refine (hp.infer hΓ hp').bind fun t t' ht => ?_
    rw [Checker.ensureSigma_eq, Checker.ensureSigma_eq]
    refine (h.sim_ensureBinding (h.notAPair hp' ht) hΓ ht).bind fun b b' hb => ?_
    cases k with
    | fst => exact .pure hb.2.1
    | snd => exact .pure (h.instantiate hb.2.2 (h.build rfl (.proj .fst hp')))

/-- **Related terms have related types**, and are accepted for related types. -/
theorem simTyping (e : Term) : R.SimTyping e := by
  induction e with
  | bvar i => exact h.simTyping_bvar i
  | fvar x => exact h.simTyping_fvar x
  | sort l => exact h.simTyping_sort l
  | const x levels => exact h.simTyping_const x levels
  | app f a ihf iha => exact h.simTyping_app ihf iha
  | bind k x u b ihu ihb =>
    cases k with
    | lam => exact h.simTyping_lam ihu ihb
    | pi => exact h.simTyping_pi_sigma (k := .pi) (by decide) ihu ihb
    | sigma => exact h.simTyping_pi_sigma (k := .sigma) (by decide) ihu ihb
  | letE x u v b ihu ihv ihb => exact h.simTyping_letE ihu ihv ihb
  | pair a b iha ihb => exact h.simTyping_pair iha ihb
  | proj k p ih => exact h.simTyping_proj ih

theorem sim_query (q : Query) (hΓ : R.context w Γ Γ') (he : R.term w e e') :
    R.Sim n n' (R.term w) (c.query q e Γ) (c'.query q e' Γ') := by
  cases q with
  | whnf => exact h.sim_whnf hΓ he
  | core => exact h.sim_whnfCore hΓ he
  | type => exact (h.simTyping e).infer hΓ he

/-! ## Declarations -/

section

-- an error that names no term is related to itself
variable (htermless : ∀ {e : KernelError}, e.Termless → R.error e e)

include htermless

omit h in
theorem sim_requireClosed (d : Declaration) (e : Term) :
    R.Sim n n' Eq (d.requireClosed e) (d.requireClosed e) := by
  rw [Declaration.requireClosed_eq]
  split
  · exact .throw (htermless trivial)
  · split
    · exact .throw (htermless trivial)
    · split
      · exact .pure rfl
      · exact .throw (htermless trivial)

/-- **A declaration related to itself is checked alike.** -/
theorem sim_checkDeclaration {d : Declaration} (hΓ : R.context w [] [])
    (htype : R.term w d.type d.type) (hvalue : ∀ v, d.value = some v → R.term w v v) :
    R.Sim n n' Eq (c.checkDeclaration d) (c'.checkDeclaration d) := by
  unfold Checker.checkDeclaration
  cases Declaration.repeated? [] d.params with
  | some x => exact .throw (htermless trivial)
  | none =>
    refine (sim_requireClosed htermless d d.type).bind fun _ _ _ => ?_
    refine (h.sim_sortOf (h.simTyping d.type) hΓ htype).bind fun _ _ _ => ?_
    cases hv : d.value with
    | none => exact .pure rfl
    | some v =>
      refine (sim_requireClosed htermless d v).bind fun _ _ _ => ?_
      exact (h.simTyping v).check hΓ (hvalue v hv) htype

end

end Lawful

end Correspondence

end TypeTheory
