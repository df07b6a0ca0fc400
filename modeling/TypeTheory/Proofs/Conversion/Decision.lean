import TypeTheory.Proofs.Conversion.Equations
import TypeTheory.Proofs.Reduction.Cost

/-!
# Conversion decides

Conversion comes to an answer on terms that terminate, at a cost. The answer is yes if the
terms are joinable and conversion misses no pair on the way (`Checker.pays_conv`). Together
with `Checker.ensures_conv` this makes `Checker.conv` a decision of `Joinable` on such terms.

Conversion unfolds the heads of both sides until it stops at terms that it cannot change
(`Checker.Stops`), and goes on with the equations between their parts (`Checker.Reaches`).
It misses a pair where one of these terms hides one (`Checker.MissesNoPair`). What it comes
upon elsewhere may hide pairs, and so may terms that are found equal before it stops.

The proof is by induction on the order of equations, for `Checker.solve` and
`Checker.unfoldHeads` together. What unfolding the heads comes to is either an answer, or
two terms that are stuck, whose parts make lower equations. Arguments of equal heads are compared
before they are unfolded; whatever comes of this, it comes to an end, since arguments make
lower equations as well.
-/

namespace TypeTheory

open CheckM Relation

namespace Checker

variable {c : Checker} {Γ : Context} {x y x' y' : Term} {q : Equation}

/-! ## Where conversion stops -/

/-- Conversion of the equation stops at two terms: the sides are not told apart at once, and
unfolding their heads ends with these terms. -/
def Stops (c : Checker) (q : Equation) (x y : Term) : Prop :=
  q.lhs.quickEq? q.rhs = none ∧ ∃ x' y', Evaluates c.const? false q.context q.lhs x' ∧
    Evaluates c.const? false q.context q.rhs y' ∧ x'.quickEq? y' = none ∧
    c.Pays (fun c n => c.unfoldHeads n x' y' q.context) (.stuck x y)

/-- The equations that conversion of an equation comes to. -/
inductive Reaches (c : Checker) (q₀ : Equation) : Equation → Prop
  | refl : Reaches c q₀ q₀
  | part {q r : Equation} {x y : Term} {parts : List Equation} : Reaches c q₀ q →
      c.Stops q x y → x.parts? q.context y = some parts → r ∈ parts → Reaches c q₀ r

/-- Wherever conversion of the equation stops, neither side hides a pair. -/
def MissesNoPair (c : Checker) (q₀ : Equation) : Prop :=
  ∀ q x y, c.Reaches q₀ q → c.Stops q x y →
    ¬ HidesPair c.const? q.context x ∧ ¬ HidesPair c.const? q.context y

/-- The equations that are reached from a reached equation are reached: conversion goes on from
parts to parts of parts. -/
theorem Reaches.trans {q₀ q₁ q₂ : Equation} (h : c.Reaches q₀ q₁) (h' : c.Reaches q₁ q₂) :
    c.Reaches q₀ q₂ := by
  induction h' with
  | refl => exact h
  | part _ hstops hparts hr ih => exact .part ih hstops hparts hr

/-- What is not missed for an equation is not missed for the equations it leaves. -/
theorem MissesNoPair.part {parts : List Equation} (h : c.MissesNoPair q) (hstops : c.Stops q x y)
    (hparts : x.parts? q.context y = some parts) : ∀ r ∈ parts, c.MissesNoPair r :=
  fun _ hr q' x' y' hreaches => h q' x' y' ((Reaches.part .refl hstops hparts hr).trans hreaches)

/-- Nothing is missed where the sides are told apart, or found equal, at once. -/
theorem missesNoPair_of_quickEq? {equal : Bool} (h : q.lhs.quickEq? q.rhs = some equal) :
    c.MissesNoPair q := by
  have hstops (x y : Term) : ¬ c.Stops q x y := by
    rintro ⟨hnone, -⟩
    rw [h] at hnone
    cases hnone
  have hreaches {r : Equation} (hr : c.Reaches q r) : r = q := by
    induction hr with
    | refl => rfl
    | part _ hq _ _ ih =>
      subst ih
      exact absurd hq (hstops _ _)
  intro r x y hr hq
  rw [hreaches hr] at hq
  exact absurd hq (hstops x y)

/-! ## Stacks -/

/-- The equation is solved with an answer: in front of other equations the answer is no,
or that of the others. -/
def Solves (c : Checker) (q : Equation) (answer : Bool) : Prop :=
  ∀ rest other, (answer = true → c.Pays (fun c n => c.solve n rest) other) →
    c.Pays (fun c n => c.solve n (q :: rest)) (answer && other)

theorem pays_solve_nil : c.Pays (fun c n => c.solve n []) true :=
  (Pays.pure true).congr fun limit n p _ => by rw [solve]

/-- An equation on top of a stack is solved before the rest of it; as a stack of its own it comes to
its answer. -/
theorem Solves.pays {answer : Bool} (h : c.Solves q answer) :
    c.Pays (fun c n => c.solve n [q]) answer := by
  have hpays := h [] true fun _ => pays_solve_nil
  rwa [Bool.and_true] at hpays

/-- The equation is solved, with the answer yes if its sides are joinable and no pair is
missed. -/
def Decides (c : Checker) (q : Equation) : Prop :=
  ∃ answer, c.Solves q answer ∧ (c.MissesNoPair q → q.Joins c.const? → answer = true)

/-- Equations are solved one after the other, up to the first that does not hold. -/
theorem pays_solve_append {parts : List Equation} (hparts : ∀ q ∈ parts, c.Decides q) :
    ∃ answer, ((∀ q ∈ parts, c.MissesNoPair q) → (∀ q ∈ parts, q.Joins c.const?) →
      answer = true) ∧ ∀ rest other,
      (answer = true → c.Pays (fun c n => c.solve n rest) other) →
        c.Pays (fun c n => c.solve n (parts ++ rest)) (answer && other) := by
  induction parts with
  | nil => exact ⟨true, fun _ _ => rfl, fun rest other h => h rfl⟩
  | cons q parts ih =>
    obtain ⟨hq, hparts⟩ := List.forall_mem_cons.mp hparts
    obtain ⟨first, hfirst, hjoins⟩ := hq
    obtain ⟨others, hothers, hpays⟩ := ih hparts
    refine ⟨first && others, fun hmisses hall => ?_, fun rest other h => ?_⟩
    · obtain ⟨hqmisses, hmisses⟩ := List.forall_mem_cons.mp hmisses
      obtain ⟨hq, hrest⟩ := List.forall_mem_cons.mp hall
      rw [hjoins hqmisses hq, hothers hmisses hrest]
      rfl
    · rw [Bool.and_assoc]
      refine hfirst (parts ++ rest) (others && other) fun htrue =>
        hpays rest other fun hrest => h ?_
      rw [htrue, hrest]
      rfl

/-- How a stack is solved once its first equation is taken apart. -/
def solveRest (c : Checker) (n : Nat) (rest : List Equation) : Option (List Equation) → CheckM Bool
  | none => pure false
  | some parts => c.solve n (parts ++ rest)

/-- One round on a stack reduces the equation on top, and goes on with the equations it leaves and
the rest. -/
theorem solve_cons_eq (n : Nat) (q : Equation) (rest : List Equation) :
    c.solve n (q :: rest) = c.round n fun k =>
      c.reduceEquation (c.unfoldHeads k) q >>= c.solveRest k rest := by
  rw [solve_cons]
  refine congrArg _ (funext fun k => congrArg _ (funext fun o => ?_))
  cases o <;> rfl

/-- An equation is solved by what it leaves. -/
theorem solves_of_reduceEquation {o : Option (List Equation)} {answer : Bool}
    (hreduce : c.Pays (fun c n => c.reduceEquation (c.unfoldHeads n) q) o)
    (hnone : o = none → answer = false)
    (hsome : ∀ parts, o = some parts → ∀ rest other,
      (answer = true → c.Pays (fun c n => c.solve n rest) other) →
        c.Pays (fun c n => c.solve n (parts ++ rest)) (answer && other)) : c.Solves q answer := by
  intro rest other hrest
  have hbody : c.Pays (fun c n => c.reduceEquation (c.unfoldHeads n) q >>= c.solveRest n rest)
      (answer && other) := by
    cases o with
    | none =>
      rw [hnone rfl]
      exact hreduce.bind (.pure false)
    | some parts => exact hreduce.bind (hsome parts rfl rest other hrest)
  exact hbody.round.congr fun limit n p _ => by rw [solve_cons_eq]

/-- An equation that is decided at once. -/
theorem solves_of_answer {equal : Bool}
    (hreduce : c.Pays (fun c n => c.reduceEquation (c.unfoldHeads n) q)
      (if equal then some [] else none)) : c.Solves q equal := by
  refine solves_of_reduceEquation hreduce (fun hnone => ?_) fun parts hparts rest other h => ?_
  · cases equal with
    | true => cases hnone
    | false => rfl
  · cases equal with
    | true =>
      cases hparts
      exact h rfl
    | false => cases hparts

/-- An equation that comes to an answer at once is decided, if the answer is yes for joinable
sides. -/
theorem decides_of_answer {equal : Bool}
    (hreduce : c.Pays (fun c n => c.reduceEquation (c.unfoldHeads n) q)
      (if equal then some [] else none)) (hjoins : q.Joins c.const? → equal = true) :
    c.Decides q :=
  ⟨equal, solves_of_answer hreduce, fun _ => hjoins⟩

/-! ## Heads -/

/-- What unfolding the heads of two terms comes to: an answer, which is yes if they are
joinable, or terms that they step to and that conversion cannot change. -/
def Settled (sig : Signature) (Γ : Context) (x y : Term) : Unfolding → Prop
  | .decided equal => Joinable Level.Equiv sig Γ.values x y → equal = true
  | .stuck x' y' => Rewrites sig Γ.values x x' ∧ Rewrites sig Γ.values y y' ∧ x'.Stuck sig Γ ∧
      y'.Stuck sig Γ ∧ x'.quickEq? y' = none

/-- Unfolding the heads comes to an end. -/
def Unfolds (c : Checker) (Γ : Context) (x y : Term) : Prop :=
  ∃ u, c.Pays (fun c n => c.unfoldHeads n x y Γ) u ∧ Settled c.const? Γ x y u

/-- Two lists of terms are compared at a cost if any member of one is compared with any of the other
at a cost. -/
theorem pays_allEqual {equal : Checker → Nat → Term → Term → CheckM Bool} {as bs : List Term}
    (hequal : ∀ a ∈ as, ∀ b ∈ bs, ∃ r, c.Pays (fun c n => equal c n a b) r) :
    ∃ r, c.Pays (fun c n => allEqual (equal c n) as bs) r := by
  induction as generalizing bs with
  | nil => exact ⟨true, .pure true⟩
  | cons a as ih =>
    cases bs with
    | nil => exact ⟨true, .pure true⟩
    | cons b bs =>
      obtain ⟨r, hr⟩ := hequal a List.mem_cons_self b List.mem_cons_self
      obtain ⟨s, hs⟩ := ih fun a' ha' b' hb' =>
        hequal a' (List.mem_cons_of_mem a ha') b' (List.mem_cons_of_mem b hb')
      cases r with
      | true => exact ⟨s, hr.bind hs⟩
      | false => exact ⟨false, hr.bind (.pure false)⟩

/-- Comparing the arguments of two spines comes to an end. -/
theorem pays_sameSpine
    (hargs : ∀ a ∈ x.spine.2, ∀ b ∈ y.spine.2, c.Decides ⟨a, b, Γ⟩) :
    ∃ r, c.Pays (fun c n => sameSpine (fun a b => c.solve n [⟨a, b, Γ⟩]) x y) r := by
  have hpays : ∃ r, c.Pays
      (fun c n => allEqual (fun a b => c.solve n [⟨a, b, Γ⟩]) x.spine.2 y.spine.2) r := by
    refine pays_allEqual fun a ha b hb => ?_
    obtain ⟨answer, hanswer, -⟩ := hargs a ha b hb
    exact ⟨answer, hanswer.pays⟩
  obtain ⟨r, hr⟩ := hpays
  by_cases h : (x.spine.2.length = y.spine.2.length && x.spine.1.sameAtom y.spine.1) = true
  · exact ⟨r, hr.congr fun limit n p _ => by simp only [sameSpine, if_pos h]⟩
  · exact ⟨false, (Pays.pure false).congr fun limit n p _ => by simp only [sameSpine, if_neg h]⟩

/-- Which heads unfold. -/
theorem turn?_eq_none (h : c.turn? x y = none) :
    Signature.headUnfolded? c.const? x = none ∧ Signature.headUnfolded? c.const? y = none := by
  have hdefinition {e : Term} (he : c.definition? e = none) :
      Signature.headUnfolded? c.const? e = none := by
    rw [← Option.isNone_iff_eq_none, ← Option.not_isSome, ← isSome_definition?, he]
    rfl
  unfold turn? at h
  split at h
  · exact ⟨hdefinition ‹_›, hdefinition ‹_›⟩
  · cases h
  · cases h
  · split at h
    · cases h
    · split at h <;> cases h

/-- A side whose turn it is has a definition at its head, which unfolds to something. -/
theorem exists_unfolded_of_turn? {turn : Turn} (h : c.turn? x y = some turn) :
    (turn ≠ .right → ∃ next, Signature.headUnfolded? c.const? x = some next) ∧
      (turn ≠ .left → ∃ next, Signature.headUnfolded? c.const? y = some next) := by
  have hdefinition {e : Term} {d : Declaration} (he : c.definition? e = some d) :
      ∃ next, Signature.headUnfolded? c.const? e = some next := by
    rw [← Option.isSome_iff_exists, ← isSome_definition?, he]
    rfl
  unfold turn? at h
  split at h
  · cases h
  · rename_i hx hy
    cases h
    exact ⟨fun _ => hdefinition hx, fun hleft => absurd rfl hleft⟩
  · rename_i hx hy
    cases h
    exact ⟨fun hright => absurd rfl hright, fun _ => hdefinition hy⟩
  · rename_i hx hy
    exact ⟨fun _ => hdefinition hx, fun _ => hdefinition hy⟩

/-- What becomes of one side in a round: it stays, or it steps to another term. -/
structure Moves (c : Checker) (Γ : Context) (x x' : Term) : Prop where
  rewrites : Rewrites c.const? Γ.values x x'
  normal : x'.Normal c.const? false Γ
  fit : x'.Fit c.const? Γ
  lower : x' = x ∨ TransGen (Below c.const?) (Γ.values, x') (Γ.values, x)

/-- How a round of unfolding ends once both sides have moved. -/
def goOn (c : Checker) (n : Nat) (Γ : Context) (x y : Term) : Option Bool → CheckM Unfolding
  | some equal => pure (.decided equal)
  | none => c.unfoldHeads n x y Γ

/-- How a round of unfolding goes on if the arguments are not the same. -/
def moveSides (c : Checker) (n : Nat) (Γ : Context) (turn : Turn) (x y : Term) :
    CheckM Unfolding := do
  let x ← (if turn = .right then pure x else c.unfoldHead x Γ)
  let y ← (if turn = .left then pure y else c.unfoldHead y Γ)
  c.goOn n Γ x y (x.quickEq? y)

/-- A round of unfolding, given the heads that unfold. -/
def unfoldRound (c : Checker) (n : Nat) (Γ : Context) (x y : Term) : Option Turn → CheckM Unfolding
  | none => pure (.stuck x y)
  | some turn => do
    let same ←
      (if turn = .both then sameSpine (fun a b => c.solve n [⟨a, b, Γ⟩]) x y else pure false)
    if same then pure (.decided true) else c.moveSides n Γ turn x y

/-- A round of unfolding looks whose turn it is, and moves these sides or stops. -/
theorem unfoldHeads_eq_round (n : Nat) (x y : Term) (Γ : Context) :
    c.unfoldHeads n x y Γ = c.round n fun k => c.unfoldRound k Γ x y (c.turn? x y) := by
  rw [unfoldHeads_eq]
  refine congrArg _ (funext fun k => ?_)
  cases c.turn? x y with
  | none => rfl
  | some turn =>
    dsimp only [unfoldRound, moveSides]
    refine bind_congr fun same => ?_
    cases same with
    | true => rfl
    | false =>
      simp only [Bool.false_eq_true, if_false]
      refine bind_congr fun x' => bind_congr fun y' => ?_
      cases x'.quickEq? y' <;> rfl

section

variable (hclosed : c.SeesClosed) (hΓ : Γ.InScope)

include hclosed hΓ

/-- A side that unfolds comes to a lower term. -/
theorem pays_unfoldHead (hc : c.memoize = false) {next : Term} (hx : x.Fit c.const? Γ)
    (hnext : Signature.headUnfolded? c.const? x = some next) :
    ∃ x', c.Pays (fun c _ => c.unfoldHead x Γ) x' ∧ c.Moves Γ x x' ∧
      TransGen (Below c.const?) (Γ.values, x') (Γ.values, x) := by
  have hstep : Step c.const? Γ.values x next := .of_headUnfolded? hnext
  have hnextFit := hx.step hclosed.values hΓ hstep
  obtain ⟨x', hx', hfit⟩ := hnextFit.exists_evaluates hclosed.values hΓ false
  have hlower := below_of_step hstep hx'.steps
  refine ⟨x', (pays_whnfCore hc hx').congr fun limit n p _ => ?_,
    ⟨.head hstep hx'.steps, hx'.normal, hfit, .inr hlower⟩, hlower⟩
  have hunfolded : unfolded? { c with limit := limit } x = some next := (unfolded?_eq x).trans hnext
  simp only [unfoldHead, hunfolded]

/-- A side that has its turn comes to a lower term, and any other stays. -/
theorem pays_side (hc : c.memoize = false) {turn other : Turn} (hx : x.Fit c.const? Γ)
    (hnormal : x.Normal c.const? false Γ)
    (hturn : turn ≠ other → ∃ next, Signature.headUnfolded? c.const? x = some next) :
    ∃ x', c.Pays (fun c _ => if turn = other then pure x else c.unfoldHead x Γ) x' ∧
      c.Moves Γ x x' ∧
      (turn ≠ other → TransGen (Below c.const?) (Γ.values, x') (Γ.values, x)) := by
  by_cases h : turn = other
  · exact ⟨x, (Pays.pure x).congr fun limit n p _ => by rw [if_pos h],
      ⟨.refl, hnormal, hx, .inl rfl⟩, fun hne => absurd h hne⟩
  · obtain ⟨next, hnext⟩ := hturn h
    obtain ⟨x', hpays, hmoves, hlower⟩ := pays_unfoldHead hclosed hΓ hc hx hnext
    exact ⟨x', hpays.congr fun limit n p _ => by rw [if_neg h], hmoves, fun _ => hlower⟩

omit hΓ in
/-- What both sides come to settles them. -/
theorem Settled.of_rewrites (hx : Rewrites c.const? Γ.values x x')
    (hy : Rewrites c.const? Γ.values y y') {u : Unfolding}
    (h : Settled c.const? Γ x' y' u) : Settled c.const? Γ x y u := by
  have hL := Level.congruence_equiv
  cases u with
  | decided equal =>
    refine fun hxy => h ?_
    exact (((Joinable.of_steps hL hx).symm.trans hL hclosed.values hxy).trans hL hclosed.values
      (.of_steps hL hy))
  | stuck x'' y'' => exact ⟨hx.trans h.1, hy.trans h.2.1, h.2.2⟩

/-- **Unfolding heads comes to an end**, if it does for lower terms, and comparing
arguments does. -/
theorem unfolds_of_lower (hc : c.memoize = false) (hx : x.Fit c.const? Γ)
    (hy : y.Fit c.const? Γ)
    (hxnormal : x.Normal c.const? false Γ) (hynormal : y.Normal c.const? false Γ)
    (hquick : x.quickEq? y = none)
    (hargs : ∀ a ∈ x.spine.2, ∀ b ∈ y.spine.2, c.Decides ⟨a, b, Γ⟩)
    (hlower : ∀ x' y', c.Moves Γ x x' → c.Moves Γ y y' → x'.quickEq? y' = none →
      Equation.Lower c.const? (Equation.sides ⟨x', y', Γ⟩) (Equation.sides ⟨x, y, Γ⟩) →
      c.Unfolds Γ x' y') : c.Unfolds Γ x y := by
  have hround {o : Option Turn} (ho : c.turn? x y = o) {u : Unfolding}
      (h : c.Pays (fun c n => c.unfoldRound n Γ x y o) u) :
      c.Pays (fun c n => c.unfoldHeads n x y Γ) u :=
    h.round.congr fun limit n p _ => by
      rw [unfoldHeads_eq_round, ← ho]
      rfl
  cases hturn : c.turn? x y with
  | none =>
    -- nothing is left to unfold
    obtain ⟨hxnone, hynone⟩ := turn?_eq_none hturn
    exact ⟨.stuck x y, hround hturn (.pure _), .refl, .refl, ⟨hxnormal, hxnone⟩,
      ⟨hynormal, hynone⟩, hquick⟩
  | some turn =>
    have hsame : ∃ same, c.Pays (fun c n => if turn = .both then
        sameSpine (fun a b => c.solve n [⟨a, b, Γ⟩]) x y else pure false) same := by
      by_cases h : turn = .both
      · obtain ⟨same, hsame⟩ := pays_sameSpine hargs
        exact ⟨same, hsame.congr fun limit n p _ => by rw [if_pos h]⟩
      · exact ⟨false, (Pays.pure false).congr fun limit n p _ => by rw [if_neg h]⟩
    obtain ⟨same, hsame⟩ := hsame
    cases same with
    | true => exact ⟨.decided true, hround hturn (hsame.bind (.pure _)), fun _ => rfl⟩
    | false =>
      obtain ⟨hxturn, hyturn⟩ := exists_unfolded_of_turn? hturn
      obtain ⟨x', hx', hxmoves, hxlower⟩ := pays_side hclosed hΓ hc hx hxnormal hxturn
      obtain ⟨y', hy', hymoves, hylower⟩ := pays_side hclosed hΓ hc hy hynormal hyturn
      have hrounds {u : Unfolding}
          (h : c.Pays (fun c n => c.goOn n Γ x' y' (x'.quickEq? y')) u) :
          c.Pays (fun c n => c.unfoldHeads n x y Γ) u :=
        hround hturn (hsame.bind (hx'.bind (hy'.bind h)))
      cases hquick' : x'.quickEq? y' with
      | some equal =>
        rw [hquick'] at hrounds
        refine ⟨.decided equal, hrounds (.pure _), ?_⟩
        exact Settled.of_rewrites hclosed hxmoves.rewrites hymoves.rewrites
          (quickEq?_of_joinable hquick')
      | none =>
        have hlow : Equation.Lower c.const? (Equation.sides ⟨x', y', Γ⟩)
            (Equation.sides ⟨x, y, Γ⟩) := by
          by_cases h : turn = .right
          · refine Equation.lower_right (hxmoves.lower.imp_left (congrArg _)) (hylower ?_)
            rw [h]
            decide
          · exact Equation.lower_left (hxlower h) (hymoves.lower.imp_left (congrArg _))
        obtain ⟨u, hu, hsettled⟩ := hlower x' y' hxmoves hymoves hquick' hlow
        rw [hquick'] at hrounds
        exact ⟨u, hrounds hu, Settled.of_rewrites hclosed hxmoves.rewrites hymoves.rewrites
          hsettled⟩

end

/-! ## Answers -/

/-- How an equation is taken apart once its sides are unfolded. -/
def takeApart (Γ : Context) : Unfolding → Option (List Equation)
  | .decided equal => if equal then some [] else none
  | .stuck x y => x.parts? Γ y

/-- How an equation is reduced if its sides are not told apart at once. -/
def compareSides (c : Checker) (n : Nat) (Γ : Context) (x y : Term) :
    Option Bool → CheckM (Option (List Equation))
  | some equal => pure (if equal then some [] else none)
  | none => c.unfoldHeads n x y Γ >>= fun u => pure (takeApart Γ u)

/-- How an equation is reduced. -/
def compareTerms (c : Checker) (n : Nat) (Γ : Context) (x y : Term) :
    Option Bool → CheckM (Option (List Equation))
  | some equal => pure (if equal then some [] else none)
  | none => do
    let x ← c.whnfCore x Γ
    let y ← c.whnfCore y Γ
    c.compareSides n Γ x y (x.quickEq? y)

/-- The reduction of an equation begins with the comparison that needs no reduction, and goes on
where that is undecided. -/
theorem reduceEquation_eq (n : Nat) (x y : Term) (Γ : Context) :
    c.reduceEquation (c.unfoldHeads n) ⟨x, y, Γ⟩ = c.compareTerms n Γ x y (x.quickEq? y) := by
  unfold reduceEquation
  dsimp only
  cases x.quickEq? y with
  | some equal => rfl
  | none =>
    refine bind_congr fun x' => bind_congr fun y' => ?_
    cases x'.quickEq? y' with
    | some equal => rfl
    | none =>
      refine bind_congr fun u => ?_
      cases u <;> rfl

/-- A term is convertible to itself. -/
theorem pays_conv_self (x : Term) (Γ : Context) : c.Pays (fun c _ => c.conv x x Γ) true := by
  have hreduce : c.Pays (fun c n => c.reduceEquation (c.unfoldHeads n) ⟨x, x, Γ⟩) (some []) := by
    have hquick : x.quickEq? x = some true := if_pos (.refl x)
    simp only [reduceEquation_eq, hquick]
    exact .pure _
  exact (@solves_of_answer c _ true hreduce).pays.remaining.addCalls 0 0 1

/-- An equation whose sides are stuck is decided if the equations between their parts are. -/
theorem decides_of_stuck (hclosed : c.SeesClosed) (hq : Equation.Fit c.const? ⟨x, y, Γ⟩)
    (hreduce : c.Pays (fun c n => c.reduceEquation (c.unfoldHeads n) ⟨x, y, Γ⟩) (x'.parts? Γ y'))
    (hstops : c.Stops ⟨x, y, Γ⟩ x' y') (hstuck : Settled c.const? Γ x y (.stuck x' y'))
    (hlower : ∀ q, q.Fit c.const? →
      Equation.Lower c.const? q.sides (Equation.sides ⟨x, y, Γ⟩) → c.Decides q) :
    c.Decides ⟨x, y, Γ⟩ := by
  obtain ⟨hxx', hyy', hxstuck, hystuck, hquick⟩ := hstuck
  have hL := Level.congruence_equiv
  have hfit : Equation.Fit c.const? ⟨x', y', Γ⟩ :=
    ⟨hq.context, hq.lhs.rewrites hclosed.values hq.context hxx',
      hq.rhs.rewrites hclosed.values hq.context hyy'⟩
  have hjoins (hmisses : c.MissesNoPair ⟨x, y, Γ⟩)
      (h : Joinable Level.Equiv c.const? Γ.values x y) :
      ∃ parts, x'.parts? Γ y' = some parts ∧ ∀ q ∈ parts, q.Joins c.const? := by
    obtain ⟨hxpair, hypair⟩ := hmisses ⟨x, y, Γ⟩ x' y' .refl hstops
    refine exists_parts_of_joinable (hfit.lhs.rigid hclosed.values hq.context hxstuck hxpair)
      (hfit.rhs.rigid hclosed.values hq.context hystuck hypair) hquick ?_
    exact ((Joinable.of_steps hL hxx').symm.trans hL hclosed.values h).trans hL hclosed.values
      (.of_steps hL hyy')
  cases hparts : x'.parts? Γ y' with
  | none =>
    rw [hparts] at hreduce hjoins
    refine ⟨false, solves_of_reduceEquation hreduce (fun _ => rfl) (fun _ h => by cases h),
      fun hmisses hxy => ?_⟩
    obtain ⟨parts, hsome, -⟩ := hjoins hmisses hxy
    cases hsome
  | some parts =>
    -- the equations between the parts are lower
    have hdecides : ∀ q ∈ parts, c.Decides q := by
      intro q hq
      obtain ⟨hqfit, hqlower⟩ := Equation.fit_of_parts? hfit hparts q hq
      exact hlower q hqfit (hqlower.of_rewrites hxx' hyy')
    obtain ⟨answer, hanswer, hpays⟩ := pays_solve_append hdecides
    rw [hparts] at hreduce hjoins
    refine ⟨answer, solves_of_reduceEquation hreduce (fun h => by cases h) (fun parts' h => ?_),
      fun hmisses hxy => hanswer (hmisses.part hstops hparts) ?_⟩
    · cases h
      exact hpays
    · obtain ⟨parts', hsome, hall⟩ := hjoins hmisses hxy
      cases hsome
      exact hall

/-- **An equation is decided** if its sides unfold, and the equations that it may leave
are decided. -/
theorem decides_of_unfolds (hc : c.memoize = false) (hclosed : c.SeesClosed)
    (hq : Equation.Fit c.const? ⟨x, y, Γ⟩)
    (hunfolds : ∀ x' y', c.Moves Γ x x' → c.Moves Γ y y' → x'.quickEq? y' = none →
      c.Unfolds Γ x' y')
    (hlower : ∀ q, q.Fit c.const? →
      Equation.Lower c.const? q.sides (Equation.sides ⟨x, y, Γ⟩) → c.Decides q) :
    c.Decides ⟨x, y, Γ⟩ := by
  obtain ⟨hΓ, hx, hy⟩ := hq
  dsimp only at hΓ hx hy
  have hreduce {o : Option Bool} (ho : x.quickEq? y = o) {parts : Option (List Equation)}
      (h : c.Pays (fun c n => c.compareTerms n Γ x y o) parts) :
      c.Pays (fun c n => c.reduceEquation (c.unfoldHeads n) ⟨x, y, Γ⟩) parts :=
    h.congr fun limit n p _ => by rw [reduceEquation_eq, ho]
  cases hquick : x.quickEq? y with
  | some equal => exact decides_of_answer (hreduce hquick (.pure _)) (quickEq?_of_joinable hquick)
  | none =>
    have hmoves {e : Term} (he : e.Fit c.const? Γ) :
        ∃ e', Evaluates c.const? false Γ e e' ∧ c.Moves Γ e e' := by
      obtain ⟨e', he', hfit⟩ := he.exists_evaluates hclosed.values hΓ false
      exact ⟨e', he', he'.steps, he'.normal, hfit, eq_or_below_of_rewrites he'.steps⟩
    obtain ⟨x', hx', hxmoves⟩ := hmoves hx
    obtain ⟨y', hy', hymoves⟩ := hmoves hy
    have hsides {parts : Option (List Equation)}
        (h : c.Pays (fun c n => c.compareSides n Γ x' y' (x'.quickEq? y')) parts) :
        c.Pays (fun c n => c.reduceEquation (c.unfoldHeads n) ⟨x, y, Γ⟩) parts :=
      hreduce hquick ((pays_whnfCore hc hx').bind ((pays_whnfCore hc hy').bind h))
    have hsettle {u : Unfolding} (h : Settled c.const? Γ x' y' u) :
        Settled c.const? Γ x y u :=
      Settled.of_rewrites hclosed hxmoves.rewrites hymoves.rewrites h
    cases hquick' : x'.quickEq? y' with
    | some equal =>
      rw [hquick'] at hsides
      exact decides_of_answer (hsides (.pure _))
        (hsettle (u := .decided equal) (quickEq?_of_joinable hquick'))
    | none =>
      rw [hquick'] at hsides
      obtain ⟨u, hunfold, hsettled⟩ := hunfolds x' y' hxmoves hymoves hquick'
      have hu : c.Pays (fun c n => c.compareSides n Γ x' y' none) (takeApart Γ u) :=
        hunfold.bind (.pure _)
      cases u with
      | decided equal => exact decides_of_answer (hsides hu) (hsettle hsettled)
      | stuck x'' y'' =>
        exact decides_of_stuck hclosed ⟨hΓ, hx, hy⟩ (hsides hu)
          ⟨hquick, x', y', hx', hy', hquick', hunfold⟩ (hsettle hsettled) hlower

/-- **Fit equations are decided.** By induction on the order of equations: first the heads
are unfolded, then what is left is taken apart. -/
theorem decides_and_unfolds (hc : c.memoize = false) (hclosed : c.SeesClosed)
    (hq : Equation.Fit c.const? ⟨x, y, Γ⟩) :
    c.Decides ⟨x, y, Γ⟩ ∧ (x.Normal c.const? false Γ → y.Normal c.const? false Γ →
      x.quickEq? y = none → c.Unfolds Γ x y) := by
  have hacc := hq.acc
  generalize hs : Equation.sides ⟨x, y, Γ⟩ = s at hacc
  induction hacc generalizing x y Γ with
  | intro s _ ih =>
    subst hs
    have hdecides (q : Equation) (hfit : q.Fit c.const?)
        (hlower : Equation.Lower c.const? q.sides (Equation.sides ⟨x, y, Γ⟩)) : c.Decides q :=
      (ih q.sides hlower hfit rfl).1
    have hlowerUnfolds {x' y' : Term} (hx' : c.Moves Γ x x') (hy' : c.Moves Γ y y')
        (hquick' : x'.quickEq? y' = none)
        (hlower : Equation.Lower c.const? (Equation.sides ⟨x', y', Γ⟩)
          (Equation.sides ⟨x, y, Γ⟩)) : c.Unfolds Γ x' y' := by
      have hfit : Equation.Fit c.const? ⟨x', y', Γ⟩ := ⟨hq.context, hx'.fit, hy'.fit⟩
      exact (ih _ hlower hfit rfl).2 hx'.normal hy'.normal hquick'
    have hunfolds : x.Normal c.const? false Γ → y.Normal c.const? false Γ →
        x.quickEq? y = none → c.Unfolds Γ x y := by
      intro hx hy hquick
      refine unfolds_of_lower hclosed hq.context hc hq.lhs hq.rhs hx hy hquick
        (fun a ha b hb => ?_) fun x' y' hx' hy' hquick' hlower => ?_
      · obtain ⟨hafit, halower⟩ := hq.lhs.spine_args a ha
        obtain ⟨hbfit, hblower⟩ := hq.rhs.spine_args b hb
        exact hdecides _ ⟨hq.context, hafit, hbfit⟩ (Equation.lower_left halower (.inr hblower))
      · exact hlowerUnfolds hx' hy' hquick' hlower
    refine ⟨decides_of_unfolds hc hclosed hq (fun x' y' hx' hy' hquick' => ?_) hdecides,
      hunfolds⟩
    rcases hx'.lower with rfl | hxlower
    · rcases hy'.lower with rfl | hylower
      · exact hunfolds hx'.normal hy'.normal hquick'
      · exact hlowerUnfolds hx' hy' hquick' (Equation.lower_right (.inl rfl) hylower)
    · exact hlowerUnfolds hx' hy' hquick'
        (Equation.lower_left hxlower (hy'.lower.imp_left (congrArg _)))

/-- **Conversion answers on terms that terminate**, with yes if they are joinable and no
pair is missed. -/
theorem pays_conv (hc : c.memoize = false) (hclosed : c.SeesClosed) (hΓ : Γ.InScope)
    (hx : x.Fit c.const? Γ) (hy : y.Fit c.const? Γ) :
    ∃ answer, c.Pays (fun c _ => c.conv x y Γ) answer ∧ (c.MissesNoPair ⟨x, y, Γ⟩ →
      Joinable Level.Equiv c.const? Γ.values x y → answer = true) := by
  obtain ⟨answer, hsolves, hjoins⟩ := (decides_and_unfolds hc hclosed ⟨hΓ, hx, hy⟩).1
  exact ⟨answer, hsolves.pays.remaining.addCalls 0 0 1, hjoins⟩

end Checker

end TypeTheory
