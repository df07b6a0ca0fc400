import TypeTheory.Declaration.Check
import TypeTheory.Proofs.Checker.Forms
import TypeTheory.Proofs.Reduction.Nesting
import TypeTheory.Proofs.Simulation.Conversion

/-!
# Which constants the checker looks up

Reduction and conversion come upon all kinds of constants, also upon some that are not
declared: an environment may hold anything. They leave such a constant as it is, and
fail for want of steps or for an index outside the context only
(`KernelError.OfReduction`).

Inference asks for the type of a constant, and fails if there is none. But it visits the
parts of the given term only, and never what has come of a reduction. So a term whose
constants are all visible is never refused for an unknown constant, whatever the context
and the declarations mention (`Checker.knows`).
-/

namespace TypeTheory

open CheckM

/-! ## Errors -/

/-- The errors of reduction and conversion. -/
def KernelError.OfReduction : KernelError → Prop
  | .exhausted _ | .looseIndex _ => True
  | _ => False

/-- The error is not about a constant that is missing. -/
def KernelError.OfKnown : KernelError → Prop
  | .unknownConstant _ => False
  | _ => True

/-- An error of reduction is one that a term of known constants may end in as well. -/
theorem KernelError.OfReduction.ofKnown {err : KernelError} (h : err.OfReduction) :
    err.OfKnown := by
  cases err with
  | unknownConstant => exact h
  | _ => trivial

/-- A run that fails does so with an error in `fail`. -/
abbrev CheckM.FailsBy {α : Type} (fail : KernelError → Prop) (m : CheckM α) : Prop :=
  Keeps (fun _ => True) (fun _ => True) fail m

namespace Checker

variable {c : Checker} {δ : Bool} {Γ : Context} {fail : KernelError → Prop}

/-- Remembering a result adds no error: a lookup in the tables does not fail, and a computation
fails as before. -/
theorem failsBy_remembered {q : Query} {e : Term} {compute : CheckM Term}
    (h : FailsBy fail compute) : FailsBy fail (c.remembered q e compute) :=
  keeps_remembered h (fun _ _ _ _ => trivial) fun _ _ _ _ => trivial

/-- A step fails for want of budget only, which is among the errors of reduction. -/
theorem failsBy_tick : FailsBy KernelError.OfReduction c.tick :=
  keeps_tick (fun _ _ => trivial) trivial

/-! ## Reduction -/

section

variable {reduce : Term → CheckM Term} {step : CheckM (Option Term)}
  (hreduce : ∀ x, FailsBy KernelError.OfReduction (reduce x))

include hreduce

/-- To settle on a term or to go on from it fails as the step before it does, if it fails at all. -/
theorem failsBy_settle (hstep : FailsBy KernelError.OfReduction step) (e : Term) :
    FailsBy KernelError.OfReduction (c.settle reduce e step) := by
  refine hstep.bind fun o _ => ?_
  cases o with
  | none => exact .pure trivial
  | some next => exact failsBy_tick.bind fun _ _ => hreduce next

/-- Under a spine of arguments a step of the head fails as it does alone. -/
theorem failsBy_stepSpine (hstep : FailsBy KernelError.OfReduction step) (head : Term)
    (args : List Term) : FailsBy KernelError.OfReduction (c.stepSpine reduce head args step) := by
  cases args with
  | nil => exact hstep
  | cons arg rest =>
    refine (failsBy_settle hreduce hstep head).bind fun reduced _ => ?_
    split
    · exact .pure trivial
    · exact .pure trivial

/-- One step at the head looks up indices, constants and local values, and an undeclared constant is
no failure. -/
theorem failsBy_headStep (e : Term) (args : List Term) :
    FailsBy KernelError.OfReduction (c.headStep δ Γ reduce e args) := by
  induction e generalizing args with
  | app f a ihf _ => exact ihf (a :: args)
  | proj k p ih =>
    refine failsBy_stepSpine hreduce ?_ (.proj k p) args
    exact (failsBy_settle hreduce (ih []) p).bind fun _ _ => .pure trivial
  | bvar i =>
    refine failsBy_stepSpine hreduce ?_ (.bvar i) args
    split
    · exact .throw trivial
    · exact .pure trivial
  | letE | const | fvar | sort | bind | pair =>
    exact failsBy_stepSpine hreduce (.pure trivial) _ args

end

/-- Rounds of reduction fail as one step does. The induction is on the rounds that are left. -/
theorem failsBy_reducer (n : Nat) (e : Term) :
    FailsBy KernelError.OfReduction (c.reducer δ Γ n e) := by
  induction n generalizing e with
  | zero => exact keeps_exhaust (fun _ _ => trivial) trivial
  | succ n ih =>
    rw [reducer, reduceHead_eq]
    exact failsBy_settle ih (failsBy_headStep ih e []) e

theorem failsBy_reduce (e : Term) : FailsBy KernelError.OfReduction (c.reduce δ Γ e) :=
  keeps_remaining.bind fun n _ => failsBy_reducer (n + 1) e

/-- Weak head reduction with definitions unfolded fails for want of steps or for an unbound index
only. -/
theorem failsBy_whnf (e : Term) (Γ : Context) : FailsBy KernelError.OfReduction (c.whnf e Γ) :=
  failsBy_remembered ((Keeps.modify fun _ _ => trivial).bind fun _ _ => failsBy_reduce e)

theorem failsBy_whnfCore (e : Term) (Γ : Context) :
    FailsBy KernelError.OfReduction (c.whnfCore e Γ) :=
  failsBy_remembered (failsBy_reduce e)

/-! ## Conversion -/

/-- Comparing two lists of terms fails as the comparison of one pair of terms does. -/
theorem failsBy_allEqual {equal : Term → Term → CheckM Bool}
    (hequal : ∀ x y, FailsBy fail (equal x y)) (as bs : List Term) :
    FailsBy fail (allEqual equal as bs) := by
  induction as generalizing bs with
  | nil => exact .pure trivial
  | cons a as ih =>
    cases bs with
    | nil => exact .pure trivial
    | cons b bs =>
      refine (hequal a b).bind fun r _ => ?_
      split
      · exact ih bs
      · exact .pure trivial

/-- Comparing two spines fails as the comparison of their heads or of two arguments does. -/
theorem failsBy_sameSpine {equal : Term → Term → CheckM Bool}
    (hequal : ∀ x y, FailsBy fail (equal x y)) (x y : Term) :
    FailsBy fail (sameSpine equal x y) := by
  unfold sameSpine
  dsimp only
  split
  · exact failsBy_allEqual hequal _ _
  · exact .pure trivial

/-- To unfold the definition at a head, and to reduce what it gives, fails as reduction does. -/
theorem failsBy_unfoldHead (e : Term) (Γ : Context) :
    FailsBy KernelError.OfReduction (c.unfoldHead e Γ) := by
  unfold unfoldHead
  split
  · exact failsBy_whnfCore _ Γ
  · exact .pure trivial

/-- An equation is reduced on both sides and unfolded, so it fails as those two do. -/
theorem failsBy_reduceEquation {unfold : Term → Term → Context → CheckM Unfolding}
    (hunfold : ∀ x y Γ, FailsBy KernelError.OfReduction (unfold x y Γ)) (q : Equation) :
    FailsBy KernelError.OfReduction (c.reduceEquation unfold q) := by
  unfold reduceEquation
  split
  · exact .pure trivial
  · refine (failsBy_whnfCore _ _).bind fun x _ => (failsBy_whnfCore _ _).bind fun y _ => ?_
    split
    · exact .pure trivial
    · refine (hunfold x y q.context).bind fun u _ => ?_
      split
      · exact .pure trivial
      · exact .pure trivial

/-- A round of a loop, if the loop that it goes on with fails by reduction only. -/
theorem failsBy_round {α : Type} {n : Nat} {body : Nat → CheckM α}
    (hbody : ∀ k < n, FailsBy KernelError.OfReduction (body k)) :
    FailsBy KernelError.OfReduction (c.round n body) := by
  refine failsBy_tick.bind fun _ _ => ?_
  cases n with
  | zero => exact .throw trivial
  | succ n => exact hbody n (Nat.lt_succ_self n)

/-- Both loops of conversion, by induction on the bound that they share. -/
theorem failsBy_loops (n : Nat) :
    (∀ stack, FailsBy KernelError.OfReduction (c.solve n stack)) ∧
      ∀ x y Γ, FailsBy KernelError.OfReduction (c.unfoldHeads n x y Γ) := by
  induction n using Nat.strongRecOn with
  | ind n ih =>
    refine ⟨fun stack => ?_, fun x y Γ => ?_⟩
    · cases stack with
      | nil =>
        rw [solve]
        exact .pure trivial
      | cons q rest =>
        rw [solve_cons]
        refine failsBy_round fun k hk => ?_
        refine (failsBy_reduceEquation (ih k hk).2 q).bind fun parts _ => ?_
        split
        · exact .pure trivial
        · exact (ih k hk).1 _
    · rw [unfoldHeads_eq]
      refine failsBy_round fun k hk => ?_
      split
      · exact .pure trivial
      · rename_i turn _
        have hsame : FailsBy KernelError.OfReduction (if turn = .both then
            sameSpine (fun a b => c.solve k [⟨a, b, Γ⟩]) x y else pure false) := by
          split
          · -- arguments are compared by the first loop, with what is left of the bound
            exact failsBy_sameSpine (fun _ _ => (ih k hk).1 _) x y
          · exact .pure trivial
        have hhead (side : Turn) (e : Term) : FailsBy KernelError.OfReduction
            (if turn = side then pure e else c.unfoldHead e Γ) := by
          split
          · exact .pure trivial
          · exact failsBy_unfoldHead e Γ
        refine hsame.bind fun same _ => ?_
        split
        · exact .pure trivial
        · refine (hhead .right x).bind fun x' _ => (hhead .left y).bind fun y' _ => ?_
          split
          · exact .pure trivial
          · exact (ih k hk).2 x' y' Γ

/-- Conversion never fails for a constant: with steps to spare and all indices bound it gives an
answer. -/
theorem failsBy_conv (x y : Term) (Γ : Context) :
    FailsBy KernelError.OfReduction (c.conv x y Γ) :=
  (Keeps.modify fun _ _ => trivial).bind fun _ _ =>
    keeps_remaining.bind fun n _ => (failsBy_loops n).1 _

/-! ## Normalization -/

/-- A sequence fails as its parts do, also where the first part may give up without an error. -/
theorem failsBy_run_bind {α β : Type} {m : OptionT CheckM α} {f : α → OptionT CheckM β}
    (hm : FailsBy fail m.run) (hf : ∀ a, FailsBy fail (f a).run) : FailsBy fail (m >>= f).run := by
  refine hm.bind fun o _ => ?_
  cases o with
  | none => exact .pure trivial
  | some a => exact hf a

/-- Going through a list fails as the work on one of its members does. -/
theorem failsBy_mapM {α β : Type} {f : α → OptionT CheckM β}
    (hf : ∀ a, FailsBy fail (f a).run) (as : List α) : FailsBy fail (as.mapM f).run := by
  induction as with
  | nil => exact .pure trivial
  | cons a as ih =>
    rw [List.mapM_cons]
    exact failsBy_run_bind (hf a) fun _ => failsBy_run_bind ih fun _ => .pure trivial

/-- Normalization is reduction, part by part. -/
theorem failsBy_normalizeWithin (d : Nat) (e : Term) (Γ : Context) :
    FailsBy KernelError.OfReduction (c.normalizeWithin d e Γ).run := by
  induction d generalizing e Γ with
  | zero => exact .pure trivial
  | succ d ih =>
    have hlift : FailsBy KernelError.OfReduction
        (liftM (c.whnf e Γ) : OptionT CheckM Term).run :=
      (failsBy_whnf e Γ).bind fun _ _ => .pure trivial
    rw [normalizeWithin_succ]
    refine failsBy_run_bind hlift fun w => ?_
    exact failsBy_run_bind (failsBy_mapM (fun x : Context × Term => ih x.2 x.1) _) fun _ =>
      .pure trivial

/-- Normalization fails as reduction does. Where it gives up for the nesting, that is no error. -/
theorem failsBy_normalize (e : Term) (Γ : Context) :
    FailsBy KernelError.OfReduction (c.normalize e Γ) :=
  failsBy_normalizeWithin nestingLimit e Γ

end Checker

/-! ## Constants of a term -/

/-- Every constant of the term satisfies `P`, whatever levels it is given. -/
def Term.ConstsIn (P : Name → Prop) : Term → Prop
  | .const n _ => P n
  | .app f a => f.ConstsIn P ∧ a.ConstsIn P
  | .bind _ _ t b => t.ConstsIn P ∧ b.ConstsIn P
  | .letE _ t v b => t.ConstsIn P ∧ v.ConstsIn P ∧ b.ConstsIn P
  | .pair a b => a.ConstsIn P ∧ b.ConstsIn P
  | .proj _ p => p.ConstsIn P
  | .bvar _ | .fvar _ | .sort _ => True

/-! ## Inference and checking -/

namespace Checker

variable {c : Checker} {Γ : Context}

/-- The term is not refused for an unknown constant, in either direction. -/
def Knows (c : Checker) (e : Term) : Prop :=
  ∀ Γ, FailsBy KernelError.OfKnown (c.infer e Γ) ∧
    ∀ t, FailsBy KernelError.OfKnown (c.check e t Γ)

/-- What reduces may be used in inference. -/
theorem ofKnown_of_ofReduction {α : Type} {m : CheckM α} (h : FailsBy KernelError.OfReduction m) :
    FailsBy KernelError.OfKnown m :=
  h.mono (fun _ _ => trivial) fun _ herr => herr.ofKnown

/-- A term that turns out not to be a type is refused for that, and not for a constant. -/
theorem knows_ensureSort (t e : Term) (Γ : Context) :
    FailsBy KernelError.OfKnown (c.ensureSort t e Γ) := by
  unfold ensureSort
  split
  · exact .pure trivial
  · refine (ofKnown_of_ofReduction (failsBy_whnf t Γ)).bind fun w _ => ?_
    split
    · exact .pure trivial
    · exact .throw trivial

/-- Where a function type or a pair type is wanted, the error is the given one or one of
reduction. -/
theorem knows_ensureBinding (k : Binder) (error : KernelError) (herror : error.OfKnown) (t : Term)
    (Γ : Context) : FailsBy KernelError.OfKnown (c.ensureBinding k error t Γ) := by
  unfold ensureBinding
  split
  · exact .pure trivial
  · refine (ofKnown_of_ofReduction (failsBy_whnf t Γ)).bind fun w _ => ?_
    split
    · exact .pure trivial
    · exact .throw herror

/-- The counters around inference, and the remembered types, add no error to those of the rule. -/
theorem knows_infer {e : Term} (h : FailsBy KernelError.OfKnown (c.inferNode e Γ)) :
    FailsBy KernelError.OfKnown (c.infer e Γ) := by
  rw [infer]
  exact failsBy_remembered ((Keeps.modify fun _ _ => trivial).bind fun _ _ => h)

theorem knows_sortOf {e : Term} (h : c.Knows e) (Γ : Context) :
    FailsBy KernelError.OfKnown (c.sortOf e Γ) := by
  rw [sortOf]
  exact (h Γ).1.bind fun t _ => knows_ensureSort t e Γ

/-- Checking by inference fails as inference and conversion do, or because the two types differ. -/
theorem knows_checkInferred {e : Term} (h : FailsBy KernelError.OfKnown (c.infer e Γ)) (t : Term) :
    FailsBy KernelError.OfKnown (c.checkInferred e t Γ) := by
  rw [checkInferred]
  refine h.bind fun found _ => (ofKnown_of_ofReduction (failsBy_conv found t Γ)).bind fun r _ => ?_
  split
  · exact .pure trivial
  · exact .throw trivial

/-- A form that is checked by inference needs its rule of inference shown only. -/
theorem knows_of_inferNode {e : Term} (he : e.Inferred)
    (hnode : ∀ Γ, FailsBy KernelError.OfKnown (c.inferNode e Γ)) : c.Knows e := by
  intro Γ
  have hinfer := knows_infer (hnode Γ)
  refine ⟨hinfer, fun t => ?_⟩
  rw [check_eq_checkInferred he]
  exact knows_checkInferred hinfer t

/-- The rule for a constant fails if the constant is unknown or has another number of levels, and it
is known here. -/
theorem knows_const {n : Name} (hn : c.const? n ≠ none) (levels : List Level) :
    c.Knows (.const n levels) := by
  refine knows_of_inferNode trivial fun Γ => ?_
  rw [inferNode, constType]
  split
  · rename_i hnone
    exact absurd hnone hn
  · split
    · exact .pure trivial
    · exact .throw trivial

/-- The function, the argument, and the function type between them are all there is to an
application. -/
theorem knows_app {f a : Term} (hf : c.Knows f) (ha : c.Knows a) : c.Knows (.app f a) := by
  refine knows_of_inferNode trivial fun Γ => ?_
  rw [inferNode]
  refine (hf Γ).1.bind fun fnType _ => ?_
  rw [ensurePi_eq]
  refine (knows_ensureBinding .pi (.notAFunction f fnType) trivial fnType Γ).bind fun fn _ => ?_
  exact ((ha Γ).2 fn.domain).bind fun _ _ => .pure trivial

/-- A function is inferred by its body, and checked against a function type with the parameter's
type compared. -/
theorem knows_lam {x : Name} {t b : Term} (ht : c.Knows t) (hb : c.Knows b) :
    c.Knows (.lam x t b) := by
  intro Γ
  have hinfer : FailsBy KernelError.OfKnown (c.infer (.lam x t b) Γ) := by
    refine knows_infer ?_
    rw [inferNode]
    refine (knows_sortOf ht Γ).bind fun _ _ => ?_
    exact (hb (Γ.push x t)).1.bind fun _ _ => .pure trivial
  refine ⟨hinfer, fun expected => ?_⟩
  have hfallback := knows_checkInferred hinfer expected
  rw [check]
  refine (ofKnown_of_ofReduction (failsBy_whnf expected Γ)).bind fun w _ => ?_
  split
  · refine (knows_sortOf ht Γ).bind fun _ _ => ?_
    refine (ofKnown_of_ofReduction (failsBy_conv t _ Γ)).bind fun r _ => ?_
    split
    · -- the type comes of a reduction, but it is only compared with
      exact (hb (Γ.push x t)).2 _
    · exact hfallback
  · exact hfallback

/-- The types of functions and of pairs have two parts, and each is shown to be a type. -/
theorem knows_pi_sigma {k : Binder} (hk : k ≠ .lam) {x : Name} {t b : Term} (ht : c.Knows t)
    (hb : c.Knows b) : c.Knows (.bind k x t b) := by
  have hform : (Term.bind k x t b).Inferred := by
    cases k with
    | lam => exact absurd rfl hk
    | pi | sigma => trivial
  refine knows_of_inferNode hform fun Γ => ?_
  rw [inferNode]
  · refine (knows_sortOf ht Γ).bind fun _ _ => ?_
    exact (knows_sortOf hb (Γ.push x t)).bind fun _ _ => .pure trivial
  · exact hk

/-- A local definition has its type and its value checked before its body, in both directions. -/
theorem knows_letE {x : Name} {t v b : Term} (ht : c.Knows t) (hv : c.Knows v) (hb : c.Knows b) :
    c.Knows (.letE x t v b) := by
  intro Γ
  constructor
  · refine knows_infer ?_
    rw [inferNode]
    refine (knows_sortOf ht Γ).bind fun _ _ => ((hv Γ).2 t).bind fun _ _ => ?_
    exact (hb (Γ.pushLet x t v)).1.bind fun _ _ => .pure trivial
  · intro expected
    rw [check]
    refine (knows_sortOf ht Γ).bind fun _ _ => ((hv Γ).2 t).bind fun _ _ => ?_
    exact (hb (Γ.pushLet x t v)).2 _

/-- A pair is inferred part by part, and checked part by part where a type of pairs is expected. -/
theorem knows_pair {a b : Term} (ha : c.Knows a) (hb : c.Knows b) : c.Knows (.pair a b) := by
  intro Γ
  have hinfer : FailsBy KernelError.OfKnown (c.infer (.pair a b) Γ) := by
    refine knows_infer ?_
    rw [inferNode]
    exact (ha Γ).1.bind fun _ _ => (hb Γ).1.bind fun _ _ => .pure trivial
  refine ⟨hinfer, fun expected => ?_⟩
  have hfallback := knows_checkInferred hinfer expected
  rw [check]
  refine (ofKnown_of_ofReduction (failsBy_whnf expected Γ)).bind fun w _ => ?_
  split
  · exact ((ha Γ).2 _).bind fun _ _ => (hb Γ).2 _
  · exact hfallback

/-- A projection needs the type of its pair only, in which the constants are not looked up. -/
theorem knows_proj {k : Side} {p : Term} (hp : c.Knows p) : c.Knows (.proj k p) := by
  refine knows_of_inferNode trivial fun Γ => ?_
  rw [inferNode]
  refine (hp Γ).1.bind fun t _ => ?_
  rw [ensureSigma_eq]
  refine (knows_ensureBinding .sigma (.notAPair p t) trivial t Γ).bind fun s _ => ?_
  cases k with
  | fst => exact .pure trivial
  | snd => exact .pure trivial

/-- **A term whose constants are visible is not refused for an unknown constant**, in any
context and whatever the declarations mention. -/
theorem knows {e : Term} (he : e.ConstsIn fun n => c.const? n ≠ none) : c.Knows e := by
  induction e with
  | bvar i =>
    refine knows_of_inferNode trivial fun Γ => ?_
    rw [inferNode]
    split
    · exact .pure trivial
    · exact .throw trivial
  | fvar n =>
    refine knows_of_inferNode trivial fun Γ => ?_
    rw [inferNode]
    exact .throw trivial
  | sort l =>
    refine knows_of_inferNode trivial fun Γ => ?_
    rw [inferNode]
    exact .pure trivial
  | const n levels => exact knows_const he levels
  | app f a ihf iha => exact knows_app (ihf he.1) (iha he.2)
  | bind k x t b iht ihb =>
    cases k with
    | lam => exact knows_lam (iht he.1) (ihb he.2)
    | pi => exact knows_pi_sigma (by decide) (iht he.1) (ihb he.2)
    | sigma => exact knows_pi_sigma (by decide) (iht he.1) (ihb he.2)
  | letE x t v b iht ihv ihb => exact knows_letE (iht he.1) (ihv he.2.1) (ihb he.2.2)
  | pair a b iha ihb => exact knows_pair (iha he.1) (ihb he.2)
  | proj k p ih => exact knows_proj (ih he)

/-! ## Declarations -/

theorem knows_requireClosed (d : Declaration) (e : Term) :
    FailsBy KernelError.OfKnown (d.requireClosed e) := by
  unfold Declaration.requireClosed
  dsimp only
  split
  · -- what comes after the error is not run
    exact fun _ _ => ⟨trivial, trivial⟩
  · split
    · exact .throw trivial
    · split
      · exact .pure trivial
      · exact .throw trivial

/-- **A declaration whose constants are visible is not refused for an unknown one.** -/
theorem knows_checkDeclaration {d : Declaration}
    (htype : d.type.ConstsIn fun n => c.const? n ≠ none)
    (hvalue : ∀ v ∈ d.value, v.ConstsIn fun n => c.const? n ≠ none) :
    FailsBy KernelError.OfKnown (c.checkDeclaration d) := by
  unfold checkDeclaration
  split
  · exact .throw trivial
  · refine (knows_requireClosed d d.type).bind fun _ _ => ?_
    refine (knows_sortOf (knows htype) []).bind fun _ _ => ?_
    split
    · exact .pure trivial
    · rename_i v hv
      refine (knows_requireClosed d v).bind fun _ _ => ?_
      exact (knows (hvalue v hv) []).2 d.type

end Checker

end TypeTheory
