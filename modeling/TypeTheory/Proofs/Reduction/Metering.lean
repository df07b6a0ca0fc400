import TypeTheory.Proofs.Checker.Calls
import TypeTheory.Proofs.Conversion.Parallel

/-!
# What a reduction depends on

Where nothing is kept, a reduction that succeeds pays for a number of steps and does nothing
else to the state. How many steps it pays for, and what it comes to, does not depend on the
steps spent before: from any other count that leaves enough of them, it does the same
(`Checker.metered_whnfCore`). So two reductions may change places (`Checker.Metered.swap`).

Of the context a reduction reads the values alone (`Checker.whnfCore_congr`).
-/

namespace TypeTheory

open CheckM

/-- The state after some more steps. -/
def Progress.spend (p : Progress) (k : Nat) : Progress :=
  { p with steps := p.steps + k }

namespace Checker

variable {c : Checker} {α β : Type} {p : Progress} {i : Nat}

/-- After `n` steps, the budget allows `k` more. -/
def Affords (c : Checker) (n k : Nat) : Prop :=
  k = 0 ∨ n + k ≤ c.limit

/-- What can be afforded in one go can be afforded in two, one after the other. -/
theorem affords_add {n j k : Nat} :
    c.Affords n (j + k) ↔ c.Affords n j ∧ c.Affords (n + j) k := by
  unfold Affords
  omega

/-- **The computation pays for what it does.** If it succeeds `i` steps after `p`, it spends
some steps, and after any number of steps that leaves enough of them it comes to the same. -/
def MeteredAt (c : Checker) (p : Progress) (i : Nat) (m : CheckM α) : Prop :=
  ∀ a q, m (p.spend i) = .ok a q → ∃ k, q = p.spend (i + k) ∧ c.Affords (p.steps + i) k ∧
    ∀ j, c.Affords (p.steps + j) k → m (p.spend j) = .ok a (p.spend (j + k))

namespace MeteredAt

theorem pure (a : α) : c.MeteredAt p i (pure a) := by
  intro b q hrun
  cases hrun
  exact ⟨0, rfl, .inl rfl, fun _ _ => rfl⟩

theorem throw (e : KernelError) : c.MeteredAt p i (throw e : CheckM α) := by
  intro b q hrun
  cases hrun

/-- **Costs add up.** -/
theorem bind {m : CheckM α} {f : α → CheckM β} (hm : c.MeteredAt p i m)
    (hf : ∀ a k, m (p.spend i) = .ok a (p.spend (i + k)) → c.MeteredAt p (i + k) (f a)) :
    c.MeteredAt p i (m >>= f) := by
  intro b r hrun
  obtain ⟨a, q, hma, hfa⟩ := EStateM.bind_eq_ok.mp hrun
  obtain ⟨k, rfl, hk, hshift⟩ := hm a q hma
  obtain ⟨k', rfl, hk', hshift'⟩ := hf a k hma b r hfa
  refine ⟨k + k', by rw [Nat.add_assoc], affords_add.mpr ⟨hk, ?_⟩, fun j hj => ?_⟩
  · rw [Nat.add_assoc]
    exact hk'
  · obtain ⟨hfirst, hsecond⟩ := affords_add.mp hj
    rw [Nat.add_assoc] at hsecond
    have hrest := hshift' (j + k) hsecond
    rw [Nat.add_assoc] at hrest
    exact EStateM.bind_eq_ok.mpr ⟨a, p.spend (j + k), hshift j hfirst, hrest⟩

/-- A step is metered: it pays for itself, from whatever count there is. -/
theorem tick : c.MeteredAt p i c.tick := by
  have htick (j : Nat) (hj : p.steps + j < c.limit) :
      c.tick (p.spend j) = .ok () (p.spend (j + 1)) := by
    unfold Checker.tick
    exact if_neg (by simp only [Progress.spend]; omega)
  intro u q hrun
  have hlt : p.steps + i < c.limit := (tick_eq_ok hrun).1
  rw [htick i hlt] at hrun
  cases hrun
  refine ⟨1, rfl, .inr (by omega), fun j hj => htick j ?_⟩
  unfold Affords at hj
  omega

end MeteredAt

/-- The computation pays for what it does, from every state. -/
def Metered (c : Checker) (m : CheckM α) : Prop :=
  ∀ p i, c.MeteredAt p i m

/-- **Computations that pay for what they do may change places.** -/
theorem Metered.swap {γ : Type} {m : CheckM α} {m' : CheckM β} {f : α → β → CheckM γ} {r : γ}
    {q : Progress} (hm : c.Metered m) (hm' : c.Metered m')
    (h : (m >>= fun a => m' >>= fun b => f a b) p = .ok r q) :
    (m' >>= fun b => m >>= fun a => f a b) p = .ok r q := by
  obtain ⟨a, s, hma, hrest⟩ := EStateM.bind_eq_ok.mp h
  obtain ⟨b, t, hmb, hf⟩ := EStateM.bind_eq_ok.mp hrest
  obtain ⟨k, rfl, hk, hshift⟩ := hm p 0 a s hma
  obtain ⟨k', rfl, hk', hshift'⟩ := hm' p (0 + k) b t hmb
  -- either cost alone, and one behind the other, is within what both cost together
  have hfirst : m' p = .ok b (p.spend (0 + k')) := by
    refine hshift' 0 ?_
    unfold Affords at hk'
    unfold Affords
    omega
  have hsecond : m (p.spend (0 + k')) = .ok a (p.spend (0 + k' + k)) := by
    refine hshift (0 + k') ?_
    unfold Affords at hk hk'
    unfold Affords
    omega
  have hstate : p.spend (0 + k' + k) = p.spend (0 + k + k') := by
    rw [Nat.add_right_comm]
  rw [hstate] at hsecond
  exact EStateM.bind_eq_ok.mpr ⟨b, _, hfirst, EStateM.bind_eq_ok.mpr ⟨a, _, hsecond, hf⟩⟩

/-! ## Reduction -/

variable {δ : Bool} {Γ Γ' : Context}

/-- Settling is metered if its step is and the next round is wherever fewer steps are left. -/
theorem metered_settle {reduce : Term → CheckM Term} {step : CheckM (Option Term)}
    (hstep : c.MeteredAt p i step)
    (hnext : ∀ next j, c.limit - (p.steps + j) < c.limit - (p.steps + i) →
      c.MeteredAt p j (reduce next)) (e : Term) : c.MeteredAt p i (c.settle reduce e step) := by
  refine hstep.bind fun o k _ => ?_
  cases o with
  | none => exact .pure e
  | some next =>
    refine MeteredAt.tick.bind fun _ j hrun => hnext next _ ?_
    obtain ⟨hlt, hsteps⟩ := tick_eq_ok hrun
    simp only [Progress.spend] at hlt hsteps
    omega

/-- A step at the head is metered if reduction is for smaller terms, which are all it calls it
for. -/
theorem metered_stepBy {reduce : Term → CheckM Term} {e : Term}
    (h : ∀ x : Term, x.size < e.size → c.MeteredAt p i (reduce x)) :
    c.MeteredAt p i (c.stepBy δ Γ reduce e) := by
  obtain ⟨o, ho⟩ | ⟨error, herror⟩ | ⟨x, f, hx, hf⟩ := c.stepBy_cases δ Γ e
  · rw [ho]
    exact .pure o
  · rw [herror]
    exact .throw error
  · rw [hf]
    exact (h x hx).bind fun r _ _ => .pure (f r)

/-- **Reductions pay for what they do.** -/
theorem metered_reduce (δ : Bool) (Γ : Context) (e : Term) : c.Metered (c.reduce δ Γ e) := by
  intro p i
  induction i, e using reduction_induction (fun i => c.limit - (p.steps + i)) with
  | step i e hnext hpart =>
    have hstep : c.MeteredAt p i (c.stepBy δ Γ (c.reduce δ Γ) e) := metered_stepBy hpart
    rw [reduce_eq, headStep_reduce]
    exact metered_settle hstep (fun next j hj => hnext j next hj) e

/-- And so does reduction without definitions, if a computed result is not kept. A remembered
one costs nothing. -/
theorem metered_whnfCore (hc : c.memoize = false) (e : Term) (Γ : Context) :
    c.Metered (c.whnfCore e Γ) := by
  intro p i a q hq
  have hmemo (j : Nat) : (p.spend j).memo .core = p.memo .core := rfl
  cases hfind : (p.memo .core).find? e with
  | some r =>
    have hrun (j : Nat) : c.whnfCore e Γ (p.spend j) = .ok r (p.spend j) := by
      rw [whnfCore, remembered_eq, hmemo, hfind]
    rw [hrun] at hq
    cases hq
    exact ⟨0, rfl, .inl rfl, fun j _ => hrun j⟩
  | none =>
    have hrun (j : Nat) : c.whnfCore e Γ (p.spend j) = c.reduce false Γ e (p.spend j) := by
      rw [whnfCore, remembered_eq, hmemo, hfind]
      cases c.reduce false Γ e (p.spend j) with
      | ok r s => simp only [adjust, keep_of_not_memoize hc]
      | error => rfl
    rw [hrun] at hq
    obtain ⟨k, hk, hafford, hshift⟩ := metered_reduce false Γ e p i a q hq
    refine ⟨k, hk, hafford, fun j hj => ?_⟩
    rw [hrun]
    exact hshift j hj

/-! ## Contexts -/

variable (hΓ : Γ.values = Γ'.values)

include hΓ

/-- A step at the head reads the values in the context and nothing else of it. -/
theorem headStep_congr (reduce : Term → CheckM Term) (e : Term) (args : List Term) :
    c.headStep δ Γ reduce e args = c.headStep δ Γ' reduce e args := by
  induction e generalizing args with
  | app f a ihf _ => exact ihf (a :: args)
  | proj k p ih => simp only [headStep, ih]
  | bvar i =>
    have hvalue := congrArg (·[i]?) hΓ
    simp only [Context.values_getElem?] at hvalue
    simp only [headStep]
    cases hentry : Γ[i]? with
    | none =>
      cases hentry' : Γ'[i]? with
      | none => rfl
      | some entry' =>
        rw [hentry, hentry'] at hvalue
        cases hvalue
    | some entry =>
      cases hentry' : Γ'[i]? with
      | none =>
        rw [hentry, hentry'] at hvalue
        cases hvalue
      | some entry' =>
        rw [hentry, hentry', Option.map_some, Option.map_some, Option.some.injEq] at hvalue
        dsimp only
        rw [hvalue]
  | letE | const | fvar | sort | bind | pair => rfl

theorem reduceHead_congr (n : Nat) (e : Term) :
    c.reduceHead δ Γ n e = c.reduceHead δ Γ' n e := by
  induction n generalizing e with
  | zero => rw [reduceHead, reduceHead, headStep_congr hΓ]
  | succ n ih =>
    have hloop : c.reduceHead δ Γ n = c.reduceHead δ Γ' n := funext ih
    rw [reduceHead, reduceHead, headStep_congr hΓ, hloop]

/-- **A reduction reads the values of a context**, and nothing else of it. -/
theorem whnfCore_congr (e : Term) : c.whnfCore e Γ = c.whnfCore e Γ' := by
  have hloop (n : Nat) : c.reduceHead false Γ n e = c.reduceHead false Γ' n e :=
    reduceHead_congr hΓ n e
  simp only [whnfCore, reduce, hloop]

end Checker

end TypeTheory
