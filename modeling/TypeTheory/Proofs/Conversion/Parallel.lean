import Mathlib.Logic.Relation
import TypeTheory.Proofs.Level.Congruence
import TypeTheory.Proofs.Reduction.Evaluation
import TypeTheory.Proofs.Term.Simultaneous

/-!
# Parallel reduction

`Parallel L sig ν` contracts any of the redexes of a term at once: functions that
are applied, local definitions, definitions, projections of pairs, and variables
that have a value in `ν`. On the way it may exchange display names, and levels that
are equal in the sense of `L`. The values of the variables around a term are given
as a list, since their types do not matter.

Every term has a development to which all its parallel reducts reduce in one more
step (`exists_development`), so parallel reduction is confluent, and two terms are
joinable (`Joinable`) once they are connected by reductions in any direction.
-/

namespace TypeTheory

open Relation

/-- The values of the variables of a context. -/
def Context.values (Γ : Context) : List (Option Term) :=
  Γ.map (·.value)

@[simp] theorem Context.values_push (Γ : Context) (n : Name) (t : Term) :
    (Γ.push n t).values = none :: Γ.values := rfl

@[simp] theorem Context.values_pushLet (Γ : Context) (n : Name) (t v : Term) :
    (Γ.pushLet n t v).values = some v :: Γ.values := rfl

/-- The value at a position is that of the entry there, if the context has one. -/
theorem Context.values_getElem? (Γ : Context) (i : Nat) :
    Γ.values[i]? = Γ[i]?.map (·.value) :=
  List.getElem?_map

/-- An entry with a value. -/
theorem Context.values_eq_some {Γ : Context} {i : Nat} {v : Term} :
    Γ.values[i]? = some (some v) ↔ ∃ entry, Γ[i]? = some entry ∧ entry.value = some v := by
  rw [values_getElem?, Option.map_eq_some_iff]

/-- The value of a definition at as many levels as it has parameters. -/
theorem Signature.headUnfolded?_const {sig : Signature} {n : Name} {ls : List Level} {v : Term} :
    sig.headUnfolded? (.const n ls) = some v ↔
      ∃ d u, sig n = some d ∧ d.params.length = ls.length ∧ d.value = some u ∧
        u.substLevels (d.params.zip ls) = v := by
  rw [headUnfolded?, Option.bind_eq_some_iff]
  constructor
  · rintro ⟨d, hd, h⟩
    split at h
    · rename_i hlength
      obtain ⟨u, hu, hv⟩ := Option.map_eq_some_iff.mp h
      exact ⟨d, u, hd, hlength, hu, hv⟩
    · cases h
  · rintro ⟨d, u, hd, hlength, hu, hv⟩
    exact ⟨d, hd, by rw [if_pos hlength, hu, Option.map_some, hv]⟩

/-- A definition at the head unfolds to a term within the bound on the values of the signature. -/
theorem Signature.ValuesWithin.headUnfolded? {sig : Signature} {m : Nat}
    (hsig : sig.ValuesWithin m) {n : Name} {ls : List Level} {v : Term}
    (h : sig.headUnfolded? (.const n ls) = some v) : v.looseRange ≤ m :=
  hsig.delta? (δ := true) h

/-- **Parallel reduction**, with levels exchanged for equal ones. -/
inductive Parallel (L : Level → Level → Prop) (sig : Signature) :
    List (Option Term) → Term → Term → Prop
  | bvar {ν : List (Option Term)} (i : Nat) : Parallel L sig ν (.bvar i) (.bvar i)
  | lookup {ν : List (Option Term)} {i : Nat} {v : Term} :
      ν[i]? = some (some v) → Parallel L sig ν (.bvar i) (v.shift 0 (i + 1))
  | fvar {ν : List (Option Term)} (x : Name) : Parallel L sig ν (.fvar x) (.fvar x)
  | sort {ν : List (Option Term)} {l r : Level} : L l r → Parallel L sig ν (.sort l) (.sort r)
  | const {ν : List (Option Term)} {n : Name} {ls rs : List Level} :
      List.Forall₂ L ls rs → Parallel L sig ν (.const n ls) (.const n rs)
  | delta {ν : List (Option Term)} {n : Name} {ls rs : List Level} {v : Term} :
      List.Forall₂ L ls rs → sig.headUnfolded? (.const n rs) = some v →
      Parallel L sig ν (.const n ls) v
  | app {ν : List (Option Term)} {f f' a a' : Term} :
      Parallel L sig ν f f' → Parallel L sig ν a a' → Parallel L sig ν (.app f a) (.app f' a')
  | beta {ν : List (Option Term)} {n : Name} {t b b' a a' : Term} :
      Parallel L sig (none :: ν) b b' → Parallel L sig ν a a' →
      Parallel L sig ν (.app (.lam n t b) a) (b'.instantiate a')
  | bind {ν : List (Option Term)} {k : Binder} {n m : Name} {t t' b b' : Term} :
      Parallel L sig ν t t' → Parallel L sig (none :: ν) b b' →
      Parallel L sig ν (.bind k n t b) (.bind k m t' b')
  | letE {ν : List (Option Term)} {n m : Name} {t t' v v' b b' : Term} :
      Parallel L sig ν t t' → Parallel L sig ν v v' → Parallel L sig (none :: ν) b b' →
      Parallel L sig ν (.letE n t v b) (.letE m t' v' b')
  | zeta {ν : List (Option Term)} {n : Name} {t v v' b b' : Term} :
      Parallel L sig ν v v' → Parallel L sig (none :: ν) b b' →
      Parallel L sig ν (.letE n t v b) (b'.instantiate v')
  | pair {ν : List (Option Term)} {a a' b b' : Term} :
      Parallel L sig ν a a' → Parallel L sig ν b b' → Parallel L sig ν (.pair a b) (.pair a' b')
  | proj {ν : List (Option Term)} {k : Side} {p p' : Term} :
      Parallel L sig ν p p' → Parallel L sig ν (.proj k p) (.proj k p')
  | iota {ν : List (Option Term)} {k : Side} {p q q' : Term} :
      p.component? k = some q → Parallel L sig ν q q' → Parallel L sig ν (.proj k p) q'

namespace Parallel

variable {L : Level → Level → Prop} {sig : Signature} {ν ν' : List (Option Term)} {x y : Term}

/-! ## Levels -/

theorem refl (hL : Level.Congruence L) (e : Term) : Parallel L sig ν e e := by
  induction e generalizing ν with
  | bvar i => exact .bvar i
  | fvar x => exact .fvar x
  | sort l => exact .sort (hL.refl l)
  | const n ls => exact .const (hL.forall₂_refl ls)
  | app f a ihf iha => exact .app ihf iha
  | bind k n t b iht ihb => exact .bind iht ihb
  | letE n t v b iht ihv ihb => exact .letE iht ihv ihb
  | pair a b iha ihb => exact .pair iha ihb
  | proj k p ih => exact .proj ih

/-- Equal levels for the universe parameters of a term. -/
theorem substLevels (hL : Level.Congruence L) {ls rs : List Level} (h : List.Forall₂ L ls rs)
    (params : List Name) (e : Term) :
    Parallel L sig ν (e.substLevels (params.zip ls)) (e.substLevels (params.zip rs)) := by
  induction e generalizing ν with
  | bvar i => simpa using .bvar i
  | fvar x => simpa using .fvar x
  | sort l => simpa using .sort (hL.subst params h l)
  | const n us =>
    have hall : List.Forall₂ L (us.map (·.subst (params.zip ls)))
        (us.map (·.subst (params.zip rs))) := by
      rw [List.forall₂_map_left_iff, List.forall₂_map_right_iff, List.forall₂_same]
      exact fun l _ => hL.subst params h l
    simpa using .const hall
  | app f a ihf iha => simpa using .app ihf iha
  | bind k n t b iht ihb => simpa using .bind iht ihb
  | letE n t v b iht ihv ihb => simpa using .letE iht ihv ihb
  | pair a b iha ihb => simpa using .pair iha ihb
  | proj k p ih => simpa using .proj ih

/-- A definition unfolds at equal levels too, to a term that differs in levels. -/
theorem exists_headUnfolded? (hL : Level.Congruence L) {n : Name} {ls rs : List Level} {v : Term}
    (h : List.Forall₂ L ls rs) (hv : sig.headUnfolded? (.const n ls) = some v) :
    ∃ w, sig.headUnfolded? (.const n rs) = some w ∧ Parallel L sig ν v w := by
  obtain ⟨d, u, hd, hlength, hu, rfl⟩ := Signature.headUnfolded?_const.mp hv
  exact ⟨_, Signature.headUnfolded?_const.mpr ⟨d, u, hd, hlength.trans h.length_eq, hu, rfl⟩,
    substLevels hL h d.params u⟩

/-! ## Renaming and filling -/

/-- A renaming that takes variables with a value to variables with that value. -/
def Renames (ξ : Nat → Nat) (ν ν' : List (Option Term)) : Prop :=
  ∀ i v, ν[i]? = some (some v) →
    ∃ w, ν'[ξ i]? = some (some w) ∧ w.rename (· + (ξ i + 1)) = v.rename fun j => ξ (j + (i + 1))

/-- Under a binder, which has no value, a renaming that respects values still does. -/
theorem Renames.lift {ξ : Nat → Nat} (h : Renames ξ ν ν') :
    Renames (Term.liftIndex ξ) (none :: ν) (none :: ν') := by
  intro i v hv
  cases i with
  | zero => cases hv
  | succ i =>
    obtain ⟨w, hw, heq⟩ := h i v hv
    refine ⟨w, hw, ?_⟩
    have hshift := congrArg (Term.rename (· + 1)) heq
    rw [Term.rename_rename, Term.rename_rename] at hshift
    exact hshift

/-- Renaming commutes with the instantiation of a bound variable, once it is lifted over the
binder. -/
theorem rename_instantiate (b a : Term) (ξ : Nat → Nat) :
    (b.instantiate a).rename ξ = (b.rename (Term.liftIndex ξ)).instantiate (a.rename ξ) := by
  rw [Term.rename_eq_fill, Term.fill_instantiate, ← Term.rename_eq_fill, Term.lift_bvar_comp,
    ← Term.rename_eq_fill]

theorem component?_rename {k : Side} {p q : Term} (h : p.component? k = some q) (ξ : Nat → Nat) :
    (p.rename ξ).component? k = some (q.rename ξ) := by
  cases p with
  | pair a b => cases k <;> cases h <;> rfl
  | _ => cases k <;> cases h

/-- **Reduction is stable under renaming**, for renamings that carry values to values. The induction
is on the step. -/
theorem rename (hsig : sig.ClosedValues) (h : Parallel L sig ν x y) {ξ : Nat → Nat}
    (hξ : Renames ξ ν ν') : Parallel L sig ν' (x.rename ξ) (y.rename ξ) := by
  induction h generalizing ν' ξ with
  | bvar i => exact .bvar _
  | lookup hv =>
    obtain ⟨w, hw, heq⟩ := hξ _ _ hv
    rw [Term.shift_succ_eq_rename, Term.rename_rename, ← heq, ← Term.shift_succ_eq_rename]
    exact .lookup hw
  | fvar x => exact .fvar x
  | sort hl => exact .sort hl
  | const hls => exact .const hls
  | delta hls hv =>
    rw [Term.rename_of_closed (hsig.headUnfolded? hv)]
    exact .delta hls hv
  | app _ _ ihf iha => exact .app (ihf hξ) (iha hξ)
  | beta _ _ ihb iha =>
    rw [rename_instantiate]
    exact .beta (ihb hξ.lift) (iha hξ)
  | bind _ _ iht ihb => exact .bind (iht hξ) (ihb hξ.lift)
  | letE _ _ _ iht ihv ihb => exact .letE (iht hξ) (ihv hξ) (ihb hξ.lift)
  | zeta _ _ ihv ihb =>
    rw [rename_instantiate]
    exact .zeta (ihv hξ) (ihb hξ.lift)
  | pair _ _ iha ihb => exact .pair (iha hξ) (ihb hξ)
  | proj _ ih => exact .proj (ih hξ)
  | iota hq _ ih => exact .iota (component?_rename hq ξ) (ih hξ)

/-- Making room for one more variable. -/
theorem shift (hsig : sig.ClosedValues) (h : Parallel L sig ν x y) (o : Option Term) :
    Parallel L sig (o :: ν) (x.rename (· + 1)) (y.rename (· + 1)) := by
  refine h.rename hsig fun i v hv => ⟨v, hv, ?_⟩
  congr 1

/-- Two fillings, where what is put for a variable reduces to what is put for it in
the other, and to what is put there for its value. -/
structure Fills (L : Level → Level → Prop) (sig : Signature) (ν ν' : List (Option Term))
    (σ τ : Nat → Term) : Prop where
  step : ∀ i, Parallel L sig ν' (σ i) (τ i)
  value : ∀ i v, ν[i]? = some (some v) → Parallel L sig ν' (σ i) ((v.shift 0 (i + 1)).fill τ)

/-- Fillings of variables that reduce to each other do so under a binder, too. -/
theorem Fills.lift (hsig : sig.ClosedValues) {σ τ : Nat → Term} (h : Fills L sig ν ν' σ τ) :
    Fills L sig (none :: ν) (none :: ν') (Term.lift σ) (Term.lift τ) where
  step i := by
    cases i with
    | zero => exact .bvar 0
    | succ i => exact (h.step i).shift hsig none
  value i v hv := by
    cases i with
    | zero => cases hv
    | succ i =>
      have hvalue := (h.value i v hv).shift hsig none
      rw [Term.fill_shift, Term.rename_fill] at hvalue
      rw [Term.fill_shift]
      exact hvalue

theorem component?_fill {k : Side} {p q : Term} (h : p.component? k = some q) (σ : Nat → Term) :
    (p.fill σ).component? k = some (q.fill σ) := by
  cases p with
  | pair a b => cases k <;> cases h <;> rfl
  | _ => cases k <;> cases h

/-- **Parallel reduction goes through fillings.** -/
theorem fill (hsig : sig.ClosedValues) (h : Parallel L sig ν x y) {σ τ : Nat → Term}
    (hσ : Fills L sig ν ν' σ τ) : Parallel L sig ν' (x.fill σ) (y.fill τ) := by
  induction h generalizing ν' σ τ with
  | bvar i => exact hσ.step i
  | lookup hv => exact hσ.value _ _ hv
  | fvar x => exact .fvar x
  | sort hl => exact .sort hl
  | const hls => exact .const hls
  | delta hls hv =>
    rw [Term.fill_of_closed (hsig.headUnfolded? hv)]
    exact .delta hls hv
  | app _ _ ihf iha => exact .app (ihf hσ) (iha hσ)
  | beta _ _ ihb iha =>
    rw [Term.fill_instantiate]
    exact .beta (ihb (hσ.lift hsig)) (iha hσ)
  | bind _ _ iht ihb => exact .bind (iht hσ) (ihb (hσ.lift hsig))
  | letE _ _ _ iht ihv ihb => exact .letE (iht hσ) (ihv hσ) (ihb (hσ.lift hsig))
  | zeta _ _ ihv ihb =>
    rw [Term.fill_instantiate]
    exact .zeta (ihv hσ) (ihb (hσ.lift hsig))
  | pair _ _ iha ihb => exact .pair (iha hσ) (ihb hσ)
  | proj _ ih => exact .proj (ih hσ)
  | iota hq _ ih => exact .iota (component?_fill hq σ) (ih hσ)

/-- A term for the variable of a binder, which is what the variable stands for if it
has a value. -/
theorem fills_extend (hL : Level.Congruence L) {a a' : Term} (h : Parallel L sig ν a a')
    {o : Option Term} (ho : ∀ v, o = some v → a' = v ∧ a = v) :
    Fills L sig (o :: ν) ν (Term.extend a Term.bvar) (Term.extend a' Term.bvar) where
  step i := by
    cases i with
    | zero => exact h
    | succ i => exact .bvar i
  value i v hv := by
    cases i with
    | zero =>
      obtain ⟨rfl, rfl⟩ := ho v (Option.some.inj hv)
      rw [Term.fill_shift]
      have hself : (a.fill fun j => Term.extend a Term.bvar (j + (0 + 1))) = a := by
        exact Term.fill_bvar_self a
      rw [hself]
      exact .refl hL a
    | succ i =>
      have hshift : (v.fill fun j => Term.extend a' Term.bvar (j + (i + 1 + 1))) =
          v.shift 0 ((i : Int) + 1) := by
        rw [Term.shift_succ_eq_rename, Term.rename_eq_fill]
        rfl
      rw [Term.fill_shift, hshift]
      exact .lookup hv

/-- Instantiating what has reduced with what has reduced is a reduct of the instantiated term: the
case of one variable. -/
theorem instantiate (hL : Level.Congruence L) (hsig : sig.ClosedValues) {b b' a a' : Term}
    (hb : Parallel L sig (none :: ν) b b') (ha : Parallel L sig ν a a') :
    Parallel L sig ν (b.instantiate a) (b'.instantiate a') := by
  rw [Term.instantiate_eq_fill, Term.instantiate_eq_fill]
  exact hb.fill hsig (fills_extend hL ha fun v hv => by cases hv)

/-! ## Developments -/

/-- All parallel reducts of the first term reduce to the second in one more step. -/
def Development (L : Level → Level → Prop) (sig : Signature) (ν : List (Option Term))
    (e d : Term) : Prop :=
  ∀ x, Parallel L sig ν e x → Parallel L sig ν x d

namespace Development

variable {d t b a p : Term} {n : Name} {k : Binder}

/-- A development of a binder has a development of its body. -/
theorem body (hL : Level.Congruence L) (h : Development L sig ν (.bind k n t b) d) :
    ∃ b', Development L sig (none :: ν) b b' := by
  cases h _ (.refl hL _) with
  | @bind _ _ _ _ _ _ _ b' =>
    refine ⟨b', fun y hy => ?_⟩
    cases h _ (.bind (m := n) (.refl hL t) hy) with
    | bind _ hy' => exact hy'

/-- A development of a pair has developments of its components. -/
theorem component (hL : Level.Congruence L) {k : Side} {q : Term} (h : Development L sig ν p d)
    (hq : p.component? k = some q) : ∃ q', Development L sig ν q q' := by
  cases p with
  | pair a b =>
    cases h _ (.refl hL _) with
    | @pair _ _ a' _ b' =>
      cases k with
      | fst =>
        cases hq
        refine ⟨a', fun y hy => ?_⟩
        cases h _ (.pair hy (.refl hL b)) with
        | pair hy' => exact hy'
      | snd =>
        cases hq
        refine ⟨b', fun y hy => ?_⟩
        cases h _ (.pair (.refl hL a) hy) with
        | pair _ hy' => exact hy'
  | _ => cases k <;> cases hq

/-- A function that is applied develops to its body. -/
theorem beta (hL : Level.Congruence L) (hsig : sig.ClosedValues) {a' b' : Term}
    (hb : Development L sig (none :: ν) b b') (ha : Development L sig ν a a') :
    Development L sig ν (.app (.lam n t b) a) (b'.instantiate a') := by
  intro x hx
  cases hx with
  | app hf hx =>
    cases hf with
    | bind _ hy => exact .beta (hb _ hy) (ha _ hx)
  | beta hy hx => exact (hb _ hy).instantiate hL hsig (ha _ hx)

/-- An application that is no redex is developed by developing its two parts. -/
theorem app {f f' a' : Term} (hlam : f.isLam = false) (hf : Development L sig ν f f')
    (ha : Development L sig ν a a') : Development L sig ν (.app f a) (.app f' a') := by
  intro x hx
  cases hx with
  | app hg hx => exact .app (hf _ hg) (ha _ hx)
  | beta => cases hlam

/-- A local definition is developed by substituting the developed value in the developed body. -/
theorem zeta (hL : Level.Congruence L) (hsig : sig.ClosedValues) {v v' b' : Term}
    (hv : Development L sig ν v v') (hb : Development L sig (none :: ν) b b') :
    Development L sig ν (.letE n t v b) (b'.instantiate v') := by
  intro x hx
  cases hx with
  | letE _ hw hy => exact .zeta (hv _ hw) (hb _ hy)
  | zeta hw hy => exact (hb _ hy).instantiate hL hsig (hv _ hw)

/-- A projection of a pair develops to the component. -/
theorem iota {k : Side} {q q' : Term} (hq : p.component? k = some q)
    (h : Development L sig ν q q') : Development L sig ν (.proj k p) q' := by
  intro x hx
  cases hx with
  | proj hp =>
    cases p with
    | pair a b =>
      cases hp with
      | pair ha hb =>
        cases k with
        | fst =>
          cases hq
          exact .iota rfl (h _ ha)
        | snd =>
          cases hq
          exact .iota rfl (h _ hb)
    | _ => cases k <;> cases hq
  | iota hq' hx =>
    cases hq.symm.trans hq'
    exact h _ hx

theorem proj {k : Side} {p' : Term} (hq : p.component? k = none) (h : Development L sig ν p p') :
    Development L sig ν (.proj k p) (.proj k p') := by
  intro x hx
  cases hx with
  | proj hp => exact .proj (h _ hp)
  | iota hq' => cases hq.symm.trans hq'

/-- A variable with a value is developed by putting its value in place of it. -/
theorem lookup (hL : Level.Congruence L) {i : Nat} {v : Term} (hv : ν[i]? = some (some v)) :
    Development L sig ν (.bvar i) (v.shift 0 (i + 1)) := by
  intro x hx
  cases hx with
  | bvar => exact .lookup hv
  | lookup hv' =>
    cases hv.symm.trans hv'
    exact .refl hL _

theorem bvar {i : Nat} (hv : ∀ v, ν[i]? ≠ some (some v)) :
    Development L sig ν (.bvar i) (.bvar i) := by
  intro x hx
  cases hx with
  | bvar => exact .bvar i
  | lookup hv' => exact absurd hv' (hv _)

theorem delta (hL : Level.Congruence L) {ls : List Level} {v : Term}
    (hv : sig.headUnfolded? (.const n ls) = some v) : Development L sig ν (.const n ls) v := by
  intro x hx
  cases hx with
  | const hls => exact .delta (hL.forall₂_symm hls) hv
  | delta hls hw =>
    obtain ⟨w, hw', hstep⟩ := exists_headUnfolded? (ν := ν) hL (hL.forall₂_symm hls) hw
    cases hv.symm.trans hw'
    exact hstep

/-- A constant without a definition to unfold reduces to itself with other levels only. -/
theorem const (hL : Level.Congruence L) {ls : List Level}
    (hv : sig.headUnfolded? (.const n ls) = none) :
    Development L sig ν (.const n ls) (.const n ls) := by
  intro x hx
  cases hx with
  | const hls => exact .const (hL.forall₂_symm hls)
  | delta hls hw =>
    obtain ⟨w, hw', -⟩ := exists_headUnfolded? (ν := ν) hL (hL.forall₂_symm hls) hw
    cases hv.symm.trans hw'

end Development

/-- **Every term has a development.** By induction on the term: a redex develops to
its contractum, with developed parts. -/
theorem exists_development (hL : Level.Congruence L) (hsig : sig.ClosedValues) (e : Term) :
    ∃ d, Development L sig ν e d := by
  induction e generalizing ν with
  | bvar i =>
    by_cases hv : ∃ v, ν[i]? = some (some v)
    · exact ⟨_, .lookup hL hv.choose_spec⟩
    · exact ⟨_, .bvar fun v h => hv ⟨v, h⟩⟩
  | fvar y =>
    refine ⟨.fvar y, fun x hx => ?_⟩
    cases hx
    exact .fvar y
  | sort l =>
    refine ⟨.sort l, fun x hx => ?_⟩
    cases hx with
    | sort hl => exact .sort (hL.symm hl)
  | const n ls =>
    cases hv : sig.headUnfolded? (.const n ls) with
    | none => exact ⟨_, .const hL hv⟩
    | some v => exact ⟨_, .delta hL hv⟩
  | app f a ihf iha =>
    obtain ⟨f', hf⟩ := ihf (ν := ν)
    obtain ⟨a', ha⟩ := iha (ν := ν)
    cases hlam : f.isLam with
    | false => exact ⟨_, .app hlam hf ha⟩
    | true =>
      cases f with
      | bind k n t b =>
        obtain ⟨b', hb⟩ := hf.body hL
        cases k with
        | lam => exact ⟨_, .beta hL hsig hb ha⟩
        | pi | sigma => cases hlam
      | _ => cases hlam
  | bind k n t b iht ihb =>
    obtain ⟨t', ht⟩ := iht (ν := ν)
    obtain ⟨b', hb⟩ := ihb (ν := none :: ν)
    refine ⟨.bind k n t' b', fun x hx => ?_⟩
    cases hx with
    | bind hu hy => exact .bind (ht _ hu) (hb _ hy)
  | letE n t v b _ ihv ihb =>
    obtain ⟨v', hv⟩ := ihv (ν := ν)
    obtain ⟨b', hb⟩ := ihb (ν := none :: ν)
    exact ⟨_, .zeta hL hsig hv hb⟩
  | pair a b iha ihb =>
    obtain ⟨a', ha⟩ := iha (ν := ν)
    obtain ⟨b', hb⟩ := ihb (ν := ν)
    refine ⟨.pair a' b', fun x hx => ?_⟩
    cases hx with
    | pair hx hy => exact .pair (ha _ hx) (hb _ hy)
  | proj k p ih =>
    obtain ⟨p', hp⟩ := ih (ν := ν)
    cases hq : p.component? k with
    | none => exact ⟨_, .proj hq hp⟩
    | some q =>
      obtain ⟨q', h⟩ := hp.component hL hq
      exact ⟨_, .iota hq h⟩

end Parallel

/-! ## Many steps -/

/-- Parallel reduction in any number of steps. -/
abbrev Parallels (L : Level → Level → Prop) (sig : Signature) (ν : List (Option Term)) :
    Term → Term → Prop :=
  ReflTransGen (Parallel L sig ν)

namespace Parallels

variable {L : Level → Level → Prop} {sig : Signature} {ν ν' : List (Option Term)}
  {x y z f g a b c t u : Term} {k : Binder} {n : Name}

/-- **Parallel reduction is confluent.** -/
theorem join (hL : Level.Congruence L) (hsig : sig.ClosedValues) (hy : Parallels L sig ν x y)
    (hz : Parallels L sig ν x z) : ∃ w, Parallels L sig ν y w ∧ Parallels L sig ν z w := by
  refine church_rosser (fun e y z hy hz => ?_) hy hz
  obtain ⟨d, hd⟩ := Parallel.exists_development hL hsig e
  exact ⟨d, .single (hd y hy), .single (hd z hz)⟩

/-- Reductions of the parts of an application make up a reduction of the whole, one part after the
other. -/
theorem app (hL : Level.Congruence L) (hf : Parallels L sig ν f g) (ha : Parallels L sig ν a b) :
    Parallels L sig ν (.app f a) (.app g b) :=
  (hf.lift (Term.app · a) fun _ _ h => .app h (.refl hL a)).trans
    (ha.lift (Term.app g) fun _ _ h => .app (.refl hL g) h)

/-- Reductions of a domain and of a body make up a reduction of the binder. -/
theorem bind (hL : Level.Congruence L) (ht : Parallels L sig ν t u)
    (hb : Parallels L sig (none :: ν) b c) : Parallels L sig ν (.bind k n t b) (.bind k n u c) :=
  (ht.lift (Term.bind k n · b) fun _ _ h => .bind h (.refl hL b)).trans
    (hb.lift (Term.bind k n u) fun _ _ h => .bind (.refl hL u) h)

theorem pair (hL : Level.Congruence L) (ha : Parallels L sig ν a b) (hc : Parallels L sig ν x y) :
    Parallels L sig ν (.pair a x) (.pair b y) :=
  (ha.lift (Term.pair · x) fun _ _ h => .pair h (.refl hL x)).trans
    (hc.lift (Term.pair b) fun _ _ h => .pair (.refl hL b) h)

theorem proj {k : Side} (h : Parallels L sig ν x y) :
    Parallels L sig ν (.proj k x) (.proj k y) :=
  h.lift (Term.proj k) fun _ _ h => .proj h

/-- Reductions are stable under a filling of the variables that respects their values. -/
theorem fill (hsig : sig.ClosedValues) {σ : Nat → Term} (hσ : Parallel.Fills L sig ν ν' σ σ)
    (h : Parallels L sig ν x y) : Parallels L sig ν' (x.fill σ) (y.fill σ) :=
  h.lift (Term.fill σ) fun _ _ h => h.fill hsig hσ

/-! ### What the introduction forms reduce to -/

theorem of_sort (hL : Level.Congruence L) {l : Level} (h : Parallels L sig ν (.sort l) x) :
    ∃ r, x = .sort r ∧ L l r := by
  induction h with
  | refl => exact ⟨l, rfl, hL.refl l⟩
  | tail _ hstep ih =>
    obtain ⟨r, rfl, hr⟩ := ih
    cases hstep with
    | sort hl => exact ⟨_, rfl, hL.trans hr hl⟩

/-- A binder reduces to binders of its kind only, with the parts reduced and perhaps another
name. -/
theorem of_bind (h : Parallels L sig ν (.bind k n t b) x) :
    ∃ m u c, x = .bind k m u c ∧ Parallels L sig ν t u ∧ Parallels L sig (none :: ν) b c := by
  induction h with
  | refl => exact ⟨n, t, b, rfl, .refl, .refl⟩
  | tail _ hstep ih =>
    obtain ⟨m, u, c, rfl, hu, hc⟩ := ih
    cases hstep with
    | bind hu' hc' => exact ⟨_, _, _, rfl, hu.tail hu', hc.tail hc'⟩

theorem of_pair (h : Parallels L sig ν (.pair a b) x) :
    ∃ a' b', x = .pair a' b' ∧ Parallels L sig ν a a' ∧ Parallels L sig ν b b' := by
  induction h with
  | refl => exact ⟨a, b, rfl, .refl, .refl⟩
  | tail _ hstep ih =>
    obtain ⟨a', b', rfl, ha, hb⟩ := ih
    cases hstep with
    | pair ha' hb' => exact ⟨_, _, rfl, ha.tail ha', hb.tail hb'⟩

end Parallels

/-! ## Joinable terms -/

/-- The terms have a common reduct. -/
def Joinable (L : Level → Level → Prop) (sig : Signature) (ν : List (Option Term))
    (x y : Term) : Prop :=
  ∃ z, Parallels L sig ν x z ∧ Parallels L sig ν y z

namespace Joinable

variable {L : Level → Level → Prop} {sig : Signature} {ν ν' : List (Option Term)}
  {x y z f g a b c t u : Term} {k : Binder} {n m : Name}

theorem refl (x : Term) : Joinable L sig ν x x := ⟨x, .refl, .refl⟩

theorem symm (h : Joinable L sig ν x y) : Joinable L sig ν y x := by
  obtain ⟨z, hx, hy⟩ := h
  exact ⟨z, hy, hx⟩

theorem of_parallels (h : Parallels L sig ν x y) : Joinable L sig ν x y := ⟨y, h, .refl⟩

theorem of_parallel (h : Parallel L sig ν x y) : Joinable L sig ν x y := of_parallels (.single h)

/-- By confluence, being joinable is transitive. -/
theorem trans (hL : Level.Congruence L) (hsig : sig.ClosedValues) (h : Joinable L sig ν x y)
    (h' : Joinable L sig ν y z) : Joinable L sig ν x z := by
  obtain ⟨v, hx, hy⟩ := h
  obtain ⟨w, hy', hz⟩ := h'
  obtain ⟨r, hv, hw⟩ := hy.join hL hsig hy'
  exact ⟨r, hx.trans hv, hz.trans hw⟩

theorem app (hL : Level.Congruence L) (hf : Joinable L sig ν f g) (ha : Joinable L sig ν a b) :
    Joinable L sig ν (.app f a) (.app g b) := by
  obtain ⟨f', hf, hg⟩ := hf
  obtain ⟨a', ha, hb⟩ := ha
  exact ⟨.app f' a', hf.app hL ha, hg.app hL hb⟩

/-- Binders of one kind are joinable if their domains are and their bodies are, under a variable
without a value. -/
theorem bind (hL : Level.Congruence L) (ht : Joinable L sig ν t u)
    (hb : Joinable L sig (none :: ν) b c) :
    Joinable L sig ν (.bind k n t b) (.bind k m u c) := by
  obtain ⟨t', ht, hu⟩ := ht
  obtain ⟨b', hb, hc⟩ := hb
  have hname : Parallel L sig ν (.bind k m t' b') (.bind k n t' b') :=
    .bind (.refl hL t') (.refl hL b')
  exact ⟨.bind k n t' b', ht.bind hL hb, (hu.bind hL hc).tail hname⟩

theorem pair (hL : Level.Congruence L) (ha : Joinable L sig ν a b) (hx : Joinable L sig ν x y) :
    Joinable L sig ν (.pair a x) (.pair b y) := by
  obtain ⟨a', ha, hb⟩ := ha
  obtain ⟨x', hx, hy⟩ := hx
  exact ⟨.pair a' x', ha.pair hL hx, hb.pair hL hy⟩

theorem proj {k : Side} (h : Joinable L sig ν x y) : Joinable L sig ν (.proj k x) (.proj k y) := by
  obtain ⟨z, hx, hy⟩ := h
  exact ⟨.proj k z, hx.proj, hy.proj⟩

/-- Joinable terms stay joinable if their variables are filled in a way that respects their
values. -/
theorem fill (hsig : sig.ClosedValues) {σ : Nat → Term} (hσ : Parallel.Fills L sig ν ν' σ σ)
    (h : Joinable L sig ν x y) : Joinable L sig ν' (x.fill σ) (y.fill σ) := by
  obtain ⟨z, hx, hy⟩ := h
  exact ⟨z.fill σ, hx.fill hsig hσ, hy.fill hsig hσ⟩

/-- Joinable bodies stay so for joinable arguments: they are what applied functions
contract to. -/
theorem instantiate (hL : Level.Congruence L) (hsig : sig.ClosedValues)
    (hb : Joinable L sig (none :: ν) b c) (ha : Joinable L sig ν x y) :
    Joinable L sig ν (b.instantiate x) (c.instantiate y) := by
  have hbeta (b x : Term) :
      Joinable L sig ν (.app (.lam .anonymous (.sort .zero) b) x) (b.instantiate x) :=
    of_parallel (.beta (.refl hL b) (.refl hL x))
  have happ := app hL (bind hL (k := .lam) (n := .anonymous) (m := .anonymous)
    (refl (.sort .zero)) hb) ha
  exact ((hbeta b x).symm.trans hL hsig happ).trans hL hsig (hbeta c y)

/-- A variable with a value may be replaced by it. -/
theorem instantiateLet (hL : Level.Congruence L) (hsig : sig.ClosedValues) {v : Term}
    (h : Joinable L sig (some v :: ν) b c) :
    Joinable L sig ν (b.instantiate v) (c.instantiate v) := by
  rw [Term.instantiate_eq_fill, Term.instantiate_eq_fill]
  refine h.fill hsig (Parallel.fills_extend hL (.refl hL v) fun w hw => ?_)
  exact ⟨Option.some.inj hw, Option.some.inj hw⟩

/-- A term is joinable with what it is once a variable is replaced by its value. -/
theorem instantiate_shift (hL : Level.Congruence L) (hsig : sig.ClosedValues) (b v : Term) :
    Joinable L sig (some v :: ν) b ((b.instantiate v).shift 0 1) := by
  have hfills : Parallel.Fills L sig [] (some v :: ν) Term.bvar
      fun i => (Term.extend v Term.bvar i).rename (· + 1) := by
    refine ⟨fun i => ?_, fun i w hw => by simp at hw⟩
    cases i with
    | zero =>
      rw [Term.extend_zero, ← Term.shift_one_eq_rename]
      exact .lookup rfl
    | succ i => exact .bvar (i + 1)
  have hstep := (Parallel.refl hL b).fill hsig hfills
  rw [Term.fill_bvar_self, ← Term.rename_fill, ← Term.instantiate_eq_fill,
    ← Term.shift_one_eq_rename] at hstep
  exact of_parallel hstep

/-- Making room for one more variable. -/
theorem shift (hsig : sig.ClosedValues) (h : Joinable L sig ν x y) (o : Option Term) :
    Joinable L sig (o :: ν) (x.shift 0 1) (y.shift 0 1) := by
  obtain ⟨z, hx, hy⟩ := h
  rw [Term.shift_one_eq_rename, Term.shift_one_eq_rename]
  exact ⟨z.rename (· + 1), hx.lift _ fun _ _ h => h.shift hsig o,
    hy.lift _ fun _ _ h => h.shift hsig o⟩

/-- Binders are joinable only if they are the same form with joinable parts. -/
theorem of_bind {k' : Binder} (h : Joinable L sig ν (.bind k n t b) (.bind k' m u c)) :
    k = k' ∧ Joinable L sig ν t u ∧ Joinable L sig (none :: ν) b c := by
  obtain ⟨z, hx, hy⟩ := h
  obtain ⟨_, t', b', rfl, ht, hb⟩ := hx.of_bind
  obtain ⟨_, u', c', heq, hu, hc⟩ := hy.of_bind
  cases heq
  exact ⟨rfl, ⟨t', ht, hu⟩, ⟨b', hb, hc⟩⟩

/-- Sorts are joinable only if their levels are equal: there is nothing in a sort to reduce. -/
theorem of_sort (hL : Level.Congruence L) {l r : Level}
    (h : Joinable L sig ν (.sort l) (.sort r)) : L l r := by
  obtain ⟨z, hx, hy⟩ := h
  obtain ⟨m, rfl, hl⟩ := hx.of_sort hL
  obtain ⟨m', heq, hr⟩ := hy.of_sort hL
  cases heq
  exact hL.trans hl (hL.symm hr)

end Joinable

/-- **Convertible terms are joinable.** By induction on the conversion. The body of a
local definition is compared with the value in place. -/
theorem Convertible.joinable {sig : Signature} (hsig : sig.ClosedValues) {Γ : Context}
    {x y : Term} (h : Convertible sig Γ x y) : Joinable Level.Same sig Γ.values x y := by
  have hL := Level.congruence_same
  induction h with
  | refl e => exact .refl e
  | symm _ ih => exact ih.symm
  | trans _ _ ih ih' => exact ih.trans hL hsig ih'
  | beta n t b a => exact .of_parallel (.beta (.refl hL b) (.refl hL a))
  | zeta n t v b => exact .of_parallel (.zeta (.refl hL v) (.refl hL b))
  | lookup hentry hvalue =>
    exact .of_parallel (.lookup (Context.values_eq_some.mpr ⟨_, hentry, hvalue⟩))
  | delta hd hv hlength =>
    exact .of_parallel (.delta (hL.forall₂_refl _)
      (Signature.headUnfolded?_const.mpr ⟨_, _, hd, hlength, hv, rfl⟩))
  | fst a b => exact .of_parallel (.iota rfl (.refl hL a))
  | snd a b => exact .of_parallel (.iota rfl (.refl hL b))
  | sort hl => exact .of_parallel (.sort hl)
  | const hls => exact .of_parallel (.const hls)
  | app _ _ ihf iha => exact ihf.app hL iha
  | bind _ _ iht ihb => exact iht.bind hL ihb
  | @letE Γ n m t u v w b c _ _ _ _ ihv ihb =>
    have hzeta (n : Name) (t v b : Term) : Joinable Level.Same sig Γ.values (.letE n t v b)
        (b.instantiate v) := .of_parallel (.zeta (.refl hL v) (.refl hL b))
    have hbody := (ihb.instantiateLet hL hsig).trans hL hsig
      ((Joinable.refl c).instantiate hL hsig ihv)
    exact ((hzeta n t v b).trans hL hsig hbody).trans hL hsig (hzeta m u w c).symm
  | pair _ _ iha ihb => exact iha.pair hL ihb
  | proj _ ih => exact ih.proj

end TypeTheory
