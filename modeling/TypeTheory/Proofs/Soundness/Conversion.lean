import TypeTheory.Church
import TypeTheory.Conversion
import TypeTheory.Proofs.Checker.Indices
import TypeTheory.Proofs.Soundness.Reduction

/-!
# Decided conversion is conversion

An answer of `true` from `Checker.conv` is a derivation of `Convertible`. What
the stack of equations means is `Equation.Holds`, and the invariant of the loop
is that the equations still on the stack, if they hold, make all equations that
were ever on it hold: `Checker.solve` and `Checker.unfoldHeads` are shown
together, by induction on the bound they share.
-/

namespace TypeTheory

open CheckM

/-- Both sides of an equation are convertible in its context. -/
def Equation.Holds (sig : Signature) (q : Equation) : Prop :=
  Convertible sig q.context q.lhs q.rhs

namespace Term

variable {sig : Signature} {Γ : Context} {x y : Term}

/-- A positive comparison without reduction is right. -/
theorem convertible_of_quickEq? (h : x.quickEq? y = some true) : Convertible sig Γ x y := by
  unfold quickEq? at h
  split at h
  · rename_i halpha
    exact .of_alphaEq halpha
  · split at h
    · injection h with h
      exact .sort (Level.same_of_equiv h)
    · cases h

/-- The same variable, or the same constant at equal levels. -/
theorem convertible_of_sameAtom (h : x.sameAtom y = true) : Convertible sig Γ x y := by
  unfold sameAtom at h
  split at h
  · rw [Bool.and_eq_true, decide_eq_true_eq] at h
    rw [h.1]
    exact .const (Level.forall₂_same_of_equivAll h.2)
  · rw [of_decide_eq_true h]
    exact .refl _
  · rw [of_decide_eq_true h]
    exact .refl _
  · cases h

/-- Equations between the arguments of two spines, read as a pointwise relation. -/
theorem forall₂_of_zipWith {as bs : List Term} (hlen : as.length = bs.length)
    (h : ∀ q ∈ List.zipWith (⟨·, ·, Γ⟩ : Term → Term → Equation) as bs, q.Holds sig) :
    List.Forall₂ (Convertible sig Γ) as bs := by
  induction as generalizing bs with
  | nil =>
    cases bs with
    | nil => exact .nil
    | cons => simp at hlen
  | cons a as ih =>
    cases bs with
    | nil => simp at hlen
    | cons b bs =>
      rw [List.zipWith_cons_cons, List.forall_mem_cons] at h
      exact .cons h.1 (ih (by simpa using hlen) h.2)

/-- **Equal parts make equal terms.** -/
theorem convertible_of_parts? {parts : List Equation} (h : x.parts? Γ y = some parts)
    (hparts : ∀ q ∈ parts, q.Holds sig) : Convertible sig Γ x y := by
  unfold parts? at h
  split at h
  · rename_i hatom
    exact convertible_of_sameAtom hatom
  · split at h
    · -- two spines: the head is the last equation of the list
      rename_i f a g b _
      dsimp only at h
      split at h
      · rename_i hlen
        cases h
        rw [List.forall_mem_append] at hparts
        have hargs := forall₂_of_zipWith hlen fun q hq => hparts.1 q (List.mem_reverse.mpr hq)
        have hheads : Convertible sig Γ (app f a).spine.1 (app g b).spine.1 :=
          hparts.2 _ (List.mem_singleton.mpr rfl)
        rw [← apps_spine (app f a), ← apps_spine (app g b)]
        exact hheads.apps hargs
      · cases h
    · -- two binders: the bodies are compared under the left one
      split at h
      · rename_i hk
        cases h
        subst hk
        rw [List.forall_mem_cons, List.forall_mem_singleton] at hparts
        exact .bind hparts.2 hparts.1
      · cases h
    · cases h
      rw [List.forall_mem_cons, List.forall_mem_singleton] at hparts
      exact .pair hparts.2 hparts.1
    · split at h
      · rename_i hk
        cases h
        subst hk
        rw [List.forall_mem_singleton] at hparts
        exact .proj hparts
      · cases h
    · cases h

end Term

namespace Checker

variable {c : Checker} {Γ : Context}

/-- Comparing two lists up to the first difference. -/
theorem yields_allEqual {equal : Term → Term → CheckM Bool}
    (hequal : ∀ a b, Yields (equal a b) fun r => r = true → Convertible c.const? Γ a b) :
    ∀ as bs : List Term, as.length = bs.length →
      Yields (allEqual equal as bs) fun r => r = true → List.Forall₂ (Convertible c.const? Γ) as bs
  | [], [], _ => .pure fun _ => .nil
  | [], _ :: _, h => by simp at h
  | _ :: _, [], h => by simp at h
  | a :: as, b :: bs, h => by
    rw [allEqual]
    refine (hequal a b).bind fun r hr => ?_
    split
    · rename_i htrue
      refine (yields_allEqual hequal as bs (by simpa using h)).mono fun s hs htail => ?_
      exact .cons (hr htrue) (hs htail)
    · exact .pure fun hfalse => by cases hfalse

/-- The same constant in front of equal arguments. -/
theorem yields_sameSpine {equal : Term → Term → CheckM Bool}
    (hequal : ∀ a b, Yields (equal a b) fun r => r = true → Convertible c.const? Γ a b)
    (x y : Term) :
    Yields (sameSpine equal x y) fun r => r = true → Convertible c.const? Γ x y := by
  simp only [sameSpine]
  split
  · rename_i h
    rw [Bool.and_eq_true, decide_eq_true_eq] at h
    refine (yields_allEqual hequal _ _ h.1).mono fun r hr htrue => ?_
    rw [← x.apps_spine, ← y.apps_spine]
    exact (Term.convertible_of_sameAtom h.2).apps (hr htrue)
  · exact .pure fun hfalse => by cases hfalse

/-- What unfolding the heads of `x` and `y` may come to. -/
def UnfoldingHolds (c : Checker) (Γ : Context) (x y : Term) : Unfolding → Prop
  | .decided equal => equal = true → Convertible c.const? Γ x y
  | .stuck x' y' => Convertible c.const? Γ x x' ∧ Convertible c.const? Γ y y'

section

variable (hc : c.memoize = false)

include hc

theorem yields_unfoldHead (e : Term) :
    Yields (c.unfoldHead e Γ) (Convertible c.const? Γ e) := by
  unfold unfoldHead
  split
  · rename_i next hnext
    exact (yields_whnfCore hc next).mono fun r hr => (convertible_of_unfolded? hnext).trans hr
  · exact .pure (.refl e)

/-- **One equation.** The equations it leaves make it hold. -/
theorem yields_reduceEquation {unfold : Term → Term → Context → CheckM Unfolding}
    (hunfold : ∀ x y Γ, Yields (unfold x y Γ) (UnfoldingHolds c Γ x y)) (q : Equation) :
    Yields (c.reduceEquation unfold q) fun o =>
      ∀ parts, o = some parts → (∀ r ∈ parts, r.Holds c.const?) → q.Holds c.const? := by
  unfold reduceEquation Equation.Holds
  split
  · -- decided as it stands
    rename_i equal hquick
    refine .pure fun parts hparts _ => ?_
    cases equal with
    | true => exact Term.convertible_of_quickEq? hquick
    | false => cases hparts
  · refine (yields_whnfCore hc q.lhs).bind fun x hx => ?_
    refine (yields_whnfCore hc q.rhs).bind fun y hy => ?_
    split
    · rename_i equal hquick
      refine .pure fun parts hparts _ => ?_
      cases equal with
      | true => exact hx.trans ((Term.convertible_of_quickEq? hquick).trans hy.symm)
      | false => cases hparts
    · refine (hunfold x y q.context).bind fun u hu => ?_
      cases u with
      | decided equal =>
        refine .pure fun parts hparts _ => ?_
        cases equal with
        | true => exact hx.trans ((hu rfl).trans hy.symm)
        | false => cases hparts
      | stuck x' y' =>
        refine .pure fun parts hparts hholds => ?_
        have hxy := Term.convertible_of_parts? hparts hholds
        exact (hx.trans hu.1).trans (hxy.trans (hy.trans hu.2).symm)

/-- **The loop invariant.** A stack found to hold holds, and heads unfold to
convertible terms. -/
theorem yields_solve_unfoldHeads (n : Nat) :
    (∀ stack, Yields (c.solve n stack) fun r => r = true → ∀ q ∈ stack, q.Holds c.const?) ∧
    ∀ x y Γ, Yields (c.unfoldHeads n x y Γ) (UnfoldingHolds c Γ x y) := by
  induction n with
  | zero =>
    refine ⟨fun stack => ?_, fun x y Γ => ?_⟩
    · cases stack with
      | nil => rw [solve]; exact .pure fun _ q hq => by cases hq
      | cons q rest => rw [solve]; exact yields_exhaust
    · rw [unfoldHeads]; exact yields_exhaust
  | succ n ih =>
    obtain ⟨ihsolve, ihunfold⟩ := ih
    refine ⟨fun stack => ?_, fun x y Γ => ?_⟩
    · cases stack with
      | nil => rw [solve]; exact .pure fun _ q hq => by cases hq
      | cons q rest =>
        rw [solve]
        refine yields_tick.andThen fun _ => ?_
        refine (yields_reduceEquation hc ihunfold q).bind fun o ho => ?_
        cases o with
        | none => exact .pure fun hfalse => by cases hfalse
        | some parts =>
          refine (ihsolve (parts ++ rest)).mono fun r hr htrue => ?_
          have hall := List.forall_mem_append.mp (hr htrue)
          exact List.forall_mem_cons.mpr ⟨ho parts rfl hall.1, hall.2⟩
    · rw [unfoldHeads]
      refine yields_tick.andThen fun _ => ?_
      cases c.turn? x y with
      | none => exact .pure ⟨.refl x, .refl y⟩
      | some turn =>
        -- the arguments are compared only where both heads are the same
        have hsame : Yields
            (if turn = .both then sameSpine (fun a b => c.solve n [⟨a, b, Γ⟩]) x y else pure false)
            fun r => r = true → Convertible c.const? Γ x y := by
          split
          · refine yields_sameSpine (fun a b => ?_) x y
            refine (ihsolve [⟨a, b, Γ⟩]).mono fun r hr htrue => ?_
            exact hr htrue _ (List.mem_singleton.mpr rfl)
          · exact .pure fun hfalse => by cases hfalse
        refine hsame.bind fun same hsame => ?_
        cases same with
        | true => exact .pure fun _ => hsame rfl
        | false =>
          have hleft : Yields (if turn = .right then pure x else c.unfoldHead x Γ)
              (Convertible c.const? Γ x) := by
            split
            · exact .pure (.refl x)
            · exact yields_unfoldHead hc x
          have hright : Yields (if turn = .left then pure y else c.unfoldHead y Γ)
              (Convertible c.const? Γ y) := by
            split
            · exact .pure (.refl y)
            · exact yields_unfoldHead hc y
          refine hleft.bind fun x' hx' => ?_
          refine hright.bind fun y' hy' => ?_
          split
          · rename_i equal hquick
            refine .pure fun htrue => ?_
            subst htrue
            exact hx'.trans ((Term.convertible_of_quickEq? hquick).trans hy'.symm)
          · refine (ihunfold x' y' Γ).mono fun u hu => ?_
            cases u with
            | decided equal => exact fun htrue => hx'.trans ((hu htrue).trans hy'.symm)
            | stuck x'' y'' => exact ⟨hx'.trans hu.1, hy'.trans hu.2⟩

/-- An answer of yes is a derivation, for a checker that keeps no results and starts without any. -/
theorem yields_conv (x y : Term) :
    Yields (c.conv x y Γ) fun r => r = true → Convertible c.const? Γ x y := by
  refine (yields_modify fun _ q => by cases q <;> rfl).andThen fun _ => ?_
  refine yields_remaining.andThen fun n => ?_
  refine ((yields_solve_unfoldHeads hc n).1 [⟨x, y, Γ⟩]).mono fun r hr htrue => ?_
  exact hr htrue _ (List.mem_singleton.mpr rfl)

end

/-- **An answer of `true` is a derivation**, for any two terms in range, typable or
not, in any context and within any budget. Whatever the terms reduce to has signed
words as its loose indices. -/
theorem convertible_of_conv (hc : c.memoize = false) {x y : Term} (hrange : c.InRange Γ [x, y])
    {p q : Progress} (hp : p.Blank) (h : c.conv x y Γ p = .ok true q) :
    Convertible c.const? Γ x y ∧ ∀ z, Rewrites c.const? Γ.values x z ∨
      Rewrites c.const? Γ.values y z → z.looseRange < 2 ^ 63 := by
  refine ⟨(yields_conv hc x y p true q hp h).2 rfl, fun z hz => ?_⟩
  rcases hz with hz | hz
  · exact hrange.looseRange_of_rewrites (by simp) hz
  · exact hrange.looseRange_of_rewrites (by simp) hz

/-- A checker of arithmetic that remembers nothing. -/
def arithmetic (limit : Nat) : Checker :=
  { env := ⟨Church.declarations.toArray⟩, visible := 4, limit, memoize := false }

/-- Two and one make the successor of two: both heads are definitions, and
neither is unfolded into the other. -/
theorem convertible_of_conv_two_add_one :
    let add := Term.const (Church.natName.str "add") []
    let succ := Term.const (Church.natName.str "succ") []
    let x := add.apps [Church.numeral 2, Church.numeral 1]
    let y := succ.apps [Church.numeral 2]
    ((arithmetic 1000).InRange [] [x, y] ∧ ∃ q, (arithmetic 1000).conv x y [] {} = .ok true q) ∧
      Convertible (arithmetic 1000).const? [] x y := by
  intro add succ x y
  have hrange : (arithmetic 1000).InRange [] [x, y] :=
    .of_forall (by decide +kernel) (by decide) (by decide) (by decide +kernel)
  have hrun : ∃ q, (arithmetic 1000).conv x y [] {} = .ok true q :=
    value?_eq_some.mp (by decide +kernel)
  obtain ⟨q, hq⟩ := hrun
  exact ⟨⟨hrange, q, hq⟩, (convertible_of_conv rfl hrange Progress.blank_empty hq).1⟩

end Checker

end TypeTheory
