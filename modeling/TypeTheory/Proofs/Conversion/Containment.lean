import TypeTheory.Proofs.Environment.Verification
import TypeTheory.Proofs.Reduction.Values

/-!
# Conversion and reduction

A term and its weak-head normal form should be convertible, but conversion does not
always find it. Reduction unfolds definitions wherever they stand in the way, in the
target of a projection too. Conversion reduces without unfolding and unfolds the
heads of spines alone, and so never sees a pair that is hidden by a definition in
the target of a projection: with `c := (a, b)` it refuses `c.1` and `a`
(`Checker.conv_whnf_hidden_pair`).

Nothing else stands in the way: where no pair is hidden, a term and its weak-head
normal form are found convertible as long as there are steps
(`Checker.conv_whnf_of_not_hidesPair`). The left side keeps the value that it started
with in every round, and is unfolded until it is that value.
-/

namespace TypeTheory

open CheckM

variable {sig : Signature} {δ : Bool} {Γ : Context} {e r x : Term}

/-! ## Comparison without reduction -/

/-- A term is never told apart from its value at once. -/
theorem quickEq?_of_evaluates (h : Evaluates sig δ Γ x r) {equal : Bool}
    (hquick : x.quickEq? r = some equal) : equal = true := by
  unfold Term.quickEq? at hquick
  split at hquick
  · cases hquick
    rfl
  · rename_i hne
    cases h with
    | sort l => exact absurd rfl hne
    | _ => split at hquick <;> simp_all

/-- Terms that are found equal at once include equal terms, so a comparison left open is between
different ones. -/
theorem ne_of_quickEq?_eq_none (h : x.quickEq? r = none) : r ≠ x := by
  rintro rfl
  have hquick : r.quickEq? r = some true := if_pos rfl
  rw [h] at hquick
  cases hquick

namespace Checker

variable {c : Checker}

/-! ## Unfolding the left side -/

/-- A round of a loop keeps right tables if its body does, and the only error it adds is the spent
budget. -/
theorem keeps_round {α : Type} {post : α → Prop} {body : Nat → CheckM α} {n : Nat}
    (hbody : ∀ k, n = k + 1 → Keeps (Progress.Right c.const?) post (· = .exhausted c.limit)
      (body k)) :
    Keeps (Progress.Right c.const?) post (· = .exhausted c.limit) (c.round n body) := by
  have htick : Keeps (Progress.Right c.const?) (fun _ => True) (· = .exhausted c.limit) c.tick :=
    keeps_tick (fun _ hp => hp.tick) rfl
  refine htick.bind fun _ _ => ?_
  cases n with
  | zero => exact .throw rfl
  | succ k => exact hbody k rfl

section

variable (hclosed : c.SeesClosed)

include hclosed

/-- A term with a value is reduced without unfolding, if there are steps. -/
theorem keeps_whnfCore_of_evaluates (h : Evaluates c.const? true Γ e r) :
    Keeps (Progress.Right c.const?) (Evaluates c.const? false Γ e) (· = .exhausted c.limit)
      (c.whnfCore e Γ) := by
  refine (keeps_whnfCore hclosed e Γ).mono (fun _ hx => hx) fun err herr => ?_
  obtain ⟨x, hx⟩ := h.exists_core
  exact herr.resolve_right fun hnone => hnone x hx

/-- **Unfolding goes on until the value is found.** By induction on the bound: each
round unfolds the head of the left side, which keeps its value, and the right side
has nothing to unfold. -/
theorem keeps_unfoldHeads (n : Nat) (hr : Evaluates c.const? true Γ x r)
    (hx : x.Normal c.const? false Γ) (hpair : ¬ HidesPair c.const? Γ x)
    (hquick : x.quickEq? r = none) :
    Keeps (Progress.Right c.const?) (· = .decided true) (· = .exhausted c.limit)
      (c.unfoldHeads n x r Γ) := by
  induction n generalizing x with
  | zero =>
    rw [unfoldHeads_eq]
    exact keeps_round fun k hk => absurd hk.symm k.succ_ne_zero
  | succ n ih =>
    rw [unfoldHeads_eq]
    refine keeps_round fun k hk => ?_
    cases hk
    have hright : c.definition? r = none := by
      rw [← Option.isNone_iff_eq_none, ← Option.not_isSome, isSome_definition?,
        hr.normal.headUnfolded?_eq_none]
      rfl
    cases hunfold : Signature.headUnfolded? c.const? x with
    | none =>
      -- nothing is left to unfold, so this is the value; but then it was found before
      have heq := eq_of_not_hidesPair hx hunfold hpair hr
      exact absurd heq (ne_of_quickEq?_eq_none hquick)
    | some next =>
      have hturn : c.turn? x r = some .left := by
        have hleft : (c.definition? x).isSome = true := by
          rw [isSome_definition?, hunfold]
          rfl
        obtain ⟨d, hd⟩ := Option.isSome_iff_exists.mp hleft
        simp only [turn?, hd, hright]
      have hnext : Evaluates c.const? true Γ next r := (sameValue_of_headUnfolded? hunfold r).mp hr
      have hhead : Keeps (Progress.Right c.const?) (Evaluates c.const? false Γ next)
          (· = .exhausted c.limit) (c.unfoldHead x Γ) := by
        rw [unfoldHead, unfolded?_eq, hunfold]
        exact keeps_whnfCore_of_evaluates hclosed hnext
      simp only [hturn, reduceCtorEq, reduceIte, pure_bind, Bool.false_eq_true]
      refine hhead.bind fun x' hx' => ?_
      have hvalue := (sameValue_of_core hx' r).mp hnext
      split
      · rename_i hquick'
        exact .pure (congrArg _ (quickEq?_of_evaluates hvalue hquick'))
      · rename_i hquick'
        exact ih hvalue hx'.normal (fun h => hpair (.unfold hunfold (.core hx' h))) hquick'

/-- The equation between a term and its value leaves nothing to be solved. -/
theorem keeps_reduceEquation (n : Nat) (hr : Evaluates c.const? true Γ e r)
    (hpair : ¬ HidesPair c.const? Γ e) :
    Keeps (Progress.Right c.const?) (· = some []) (· = .exhausted c.limit)
      (c.reduceEquation (c.unfoldHeads n) ⟨e, r, Γ⟩) := by
  unfold reduceEquation
  split
  · rename_i hquick
    rw [quickEq?_of_evaluates hr hquick]
    exact .pure rfl
  · refine (keeps_whnfCore_of_evaluates hclosed hr).bind fun x hx => ?_
    have hvalue := (sameValue_of_core hx r).mp hr
    refine (keeps_whnfCore_of_evaluates hclosed hr.normal.evaluates).bind fun y hy => ?_
    -- the right side is a normal form and does not move
    cases hr.normal.core.eq_of_evaluates hy
    split
    · rename_i hquick
      rw [quickEq?_of_evaluates hvalue hquick]
      exact .pure rfl
    · rename_i hquick
      refine (keeps_unfoldHeads hclosed n hvalue hx.normal (fun h => hpair (.core hx h))
        hquick).bind fun u hu => ?_
      cases hu
      exact .pure rfl

/-- **A term that hides no pair is found convertible with its value**, or the steps
run out. -/
theorem keeps_conv (hr : Evaluates c.const? true Γ e r) (hpair : ¬ HidesPair c.const? Γ e) :
    Keeps (Progress.Right c.const?) (· = true) (· = .exhausted c.limit) (c.conv e r Γ) := by
  refine (Keeps.modify fun _ hp => hp.addCalls 0 0 1).bind fun _ _ => ?_
  refine keeps_remaining.bind fun n _ => ?_
  rw [solve_cons]
  refine keeps_round fun k _ => (keeps_reduceEquation hclosed k hr hpair).bind fun o ho => ?_
  cases ho
  dsimp only [List.nil_append]
  rw [solve]
  exact .pure rfl

end

/-! ## Terms and their normal forms -/

/-- A type with two members, a definition of a member and one of a pair. -/
def twoMembers : Environment :=
  let A : Term := .const (.atom "A") []
  let a : Term := .const (.atom "a") []
  let b : Term := .const (.atom "b") []
  ⟨#[⟨.atom "A", [], .sort (.succ .zero), none⟩, ⟨.atom "a", [], A, none⟩,
    ⟨.atom "b", [], A, none⟩, ⟨.atom "c", [], .prod A A, some (.pair a b)⟩,
    ⟨.atom "d", [], A, some a⟩]⟩

theorem twoMembers_closed : twoMembers.Closed := by
  unfold Environment.Closed
  decide +kernel

/-- Verification finds nothing to object to in the environment of two members, so the example is
about valid declarations. -/
theorem twoMembers_verify : twoMembers.verify 1000 = [] := by
  refine Environment.verify_eq_nil_iff.mpr (Environment.verified_of_forgetful fun i d hd => ?_)
  have hall : ∀ i < 5, ∀ d ∈ twoMembers.at? i,
      failure? ⟨twoMembers, i, 1000, false⟩ d = none := by decide +kernel
  exact hall i (Environment.lt_size_of_at? hd) d hd

/-- **A term and its weak-head normal form are found convertible where no pair is
hidden**: whatever was asked of the two checkers before, with any budget, and
whether results are remembered or not, the answer is yes or the steps run out. The
environment needs closed declarations alone, and the term need not have a type. -/
theorem conv_whnf_of_not_hidesPair (c : Checker) (hclosed : c.env.Closed)
    (before before' : List Request) (e r : Term) (Γ : Context) (q : Progress)
    (hwhnf : c.whnf e Γ (c.after before {}) = .ok r q) (hpair : ¬ HidesPair c.const? Γ e)
    (limit : Nat) (memoize : Bool) :
    let c' := { c with limit := limit, memoize := memoize }
    (∃ s, c'.conv e r Γ (c'.after before' {}) = .ok true s) ∨
      ∃ s, c'.conv e r Γ (c'.after before' {}) = .error (.exhausted limit) s := by
  intro c'
  have hsees : c.SeesClosed := seesClosed_of_closed hclosed
  have hsees' : c'.SeesClosed := hsees
  have hvalue : Evaluates c.const? true Γ e r :=
    ((keeps_whnf hsees e Γ).of_ok (right_after hsees before (.of_blank Progress.blank_empty))
      hwhnf).1
  have hends := keeps_conv hsees' hvalue hpair (c'.after before' {})
    (right_after hsees' before' (.of_blank Progress.blank_empty))
  cases hrun : c'.conv e r Γ (c'.after before' {}) with
  | ok equal s =>
    rw [hrun] at hends
    obtain ⟨rfl, -⟩ := hends
    exact .inl ⟨s, rfl⟩
  | error err s =>
    rw [hrun] at hends
    obtain ⟨rfl, -⟩ := hends
    exact .inr ⟨s, rfl⟩

/-- A definition as a component of a pair that a function returns: the pair is not
hidden, and the definition is unfolded once it has become the head. -/
theorem conv_whnf_of_not_hidesPair_component :
    let c := ofEnvironment twoMembers 100
    let a : Term := .const (.atom "a") []
    let d : Term := .const (.atom "d") []
    let b : Term := .const (.atom "b") []
    let f : Term := .lam .anonymous (.const (.atom "A") []) (.pair d (.bvar 0))
    let e : Term := .proj1 (.app f b)
    (c.env.Closed ∧ (c.whnf e []).value? {} = some a ∧ ¬ HidesPair c.const? [] e) ∧
      ((∃ s, c.conv e a [] {} = .ok true s) ∨
        ∃ s, c.conv e a [] {} = .error (.exhausted 100) s) := by
  intro c a d b f e
  have hcore : Evaluates c.const? false [] (.app f b) (.pair d b) :=
    .beta (.bind _ _ _ _) (.pair d b)
  have hunfold : Signature.headUnfolded? c.const? d = some a := by decide +kernel
  have hnone : Signature.headUnfolded? c.const? a = none := by decide +kernel
  -- conversion comes upon the projection, the definition and the member
  have hpair : ¬ HidesPair c.const? [] e := by
    refine not_hidesPair_of_invariant (S := fun x => x = e ∨ x = d ∨ x = a) (fun f a h => ?_)
      (fun x y hx hy => ?_) (fun x y hx hy => ?_) (fun k p h => ?_) (.inl rfl)
    · rcases h with h | h | h <;> exact Term.noConfusion h
    · rcases hx with rfl | rfl | rfl
      · exact .inr (.inl (hy.unique (.iota hcore rfl (.const rfl))))
      · exact .inr (.inl (hy.unique (.const rfl)))
      · exact .inr (.inr (hy.unique (.const rfl)))
    · rcases hx with rfl | rfl | rfl
      · exact absurd hy.symm (Option.some_ne_none y)
      · exact .inr (.inr (Option.some.inj (hy.symm.trans hunfold)))
      · exact absurd (hy.symm.trans hnone) (Option.some_ne_none y)
    · rcases h with h | h | h
      · obtain ⟨rfl, rfl⟩ := Term.proj.inj h
        exact ⟨d, b, hcore⟩
      · exact Term.noConfusion h
      · exact Term.noConfusion h
  have hwhnf : (c.whnf e []).value? {} = some a := by decide +kernel
  obtain ⟨q, hrun⟩ := value?_eq_some.mp hwhnf
  exact ⟨⟨twoMembers_closed, hwhnf, hpair⟩,
    conv_whnf_of_not_hidesPair c twoMembers_closed [] [] e a [] q hrun hpair 100 true⟩

/-- **A hidden pair keeps conversion from finding the weak-head normal form.** In a
verified environment, the first component of a definition has a type and reduces to
a member, from which conversion tells it apart. -/
theorem conv_whnf_hidden_pair :
    let c := ofEnvironment twoMembers 1000
    let a : Term := .const (.atom "a") []
    let e : Term := .proj1 (.const (.atom "c") [])
    twoMembers.verify 1000 = [] ∧ (c.infer e []).value? {} = some (.const (.atom "A") []) ∧
      (c.whnf e []).value? {} = some a ∧ (c.conv e a []).value? {} = some false := by
  intro c a e
  have hclosed := twoMembers_closed
  have hview : SameView { c with memoize := false } c := ⟨fun _ => rfl, fun _ => rfl⟩
  have h := lawful_memoized hview (Nat.le_refl _) rfl (seesClosed_of_closed hclosed)
  have hstart : (memoized { c with memoize := false } c).state {} {} :=
    ⟨Progress.blank_empty, Nat.le_refl _, .of_blank Progress.blank_empty⟩
  -- tables do not compute by evaluation, so each run is decided without them
  refine ⟨twoMembers_verify, ?_, ?_, ?_⟩
  · refine Correspondence.Sim.value?_eq_some
      (fun _ _ => (h.simTyping e).infer (w := ()) rfl rfl) hstart ?_
    decide +kernel
  · refine Correspondence.Sim.value?_eq_some (fun _ _ => h.sim_whnf (w := ()) rfl rfl) hstart ?_
    decide +kernel
  · refine Correspondence.Sim.value?_eq_some (fun _ _ => h.sim_conv (w := ()) rfl rfl rfl) hstart ?_
    decide +kernel

end Checker

end TypeTheory
