import Mathlib.Algebra.Group.Nat.Defs
import TypeTheory.Proofs.Checker.Budget
import TypeTheory.Proofs.Checker.Calls

/-!
# Checking ends

Whatever the environment holds, every call of a function of the kernel ends: there is a depth
below which it calls nothing (`Checker.run_halts`). Nothing is asked of the declarations,
so a definition may unfold to itself. What ends the calls is the budget, and where nothing is
paid for, the size of the terms:

- a round of a loop comes behind a step that was paid for;
- the head of a spine and the target of a projection are smaller than the term;
- typing goes into the parts of a term.

`Checker.Halts` is said of a computation that leaves its calls to a handler. It also says
that the computation spends only steps that the budget allows, which is what the loops need
to know of the calls before their next round.
-/

namespace TypeTheory

open CheckM

namespace Checker

variable {c : Checker} {α β : Type} {δ : Bool} {Γ : Context} {p s t : Progress}

/-! ## Computations that halt -/

/-- Between the two states steps were paid for, and no more than the budget allows. -/
structure Paid (c : Checker) (p s : Progress) : Prop where
  le : p.steps ≤ s.steps
  bounded : s.steps ≤ max p.steps c.limit

theorem Paid.of_steps (h : s.steps = p.steps) : c.Paid p s :=
  ⟨Nat.le_of_eq h.symm, by omega⟩

/-- Payments add up: what is paid in two parts is within the budget as a whole. -/
theorem Paid.trans (hs : c.Paid p s) (ht : c.Paid s t) : c.Paid p t := by
  have hps := hs.bounded
  have hst := ht.bounded
  exact ⟨Nat.le_trans hs.le ht.le, by omega⟩

/-- What a run may have counted when it ends: steps that were paid for, and in a run that
fails also the one that could not be paid. -/
def Counted (c : Checker) (p : Progress) : EStateM.Result KernelError Progress α → Prop
  | .ok _ s => c.Paid p s
  | .error _ s => p.steps ≤ s.steps ∧ s.steps ≤ max p.steps c.limit + 1

/-- A step counts one, and is paid for where the budget has one left. -/
theorem counted_tick (p : Progress) : c.Counted p (c.tick p) := by
  unfold tick
  dsimp only
  split
  · exact ⟨Nat.le_succ _, by dsimp only; omega⟩
  · exact ⟨Nat.le_succ _, by dsimp only; omega⟩

theorem Paid.counted (hs : c.Paid p s) {r : EStateM.Result KernelError Progress α}
    (h : c.Counted s r) : c.Counted p r := by
  cases r with
  | ok a t => exact hs.trans h
  | error e t =>
    have hps := hs.bounded
    have hst := h.2
    exact ⟨Nat.le_trans hs.le h.1, by omega⟩

/-- The second part of a sequence counts on from where the first one ended. -/
theorem Counted.bind {m : CheckM α} {f : α → CheckM β} (hm : c.Counted p (m p))
    (hf : ∀ a s, m p = .ok a s → c.Counted s (f a s)) : c.Counted p ((m >>= f) p) := by
  change c.Counted p (EStateM.bind m f p)
  unfold EStateM.bind
  cases hrun : m p with
  | ok a s =>
    rw [hrun] at hm
    exact Paid.counted hm (hf a s hrun)
  | error e s =>
    rw [hrun] at hm
    exact hm

/-- **The computation halts**: calls nested to some depth give its result, whatever
handles the calls below, and its steps are paid for. -/
structure Halts (c : Checker) (m : Handler → CheckM α) (p : Progress) : Prop where
  depth : ∃ depth, ∀ d, depth ≤ d → ∀ beyond : Handler, m (c.within beyond d) p = m c.run p
  counted : c.Counted p (m c.run p)

namespace Halts

theorem paid {m : Handler → CheckM α} (h : c.Halts m p) {a : α} (hrun : m c.run p = .ok a s) :
    c.Paid p s := by
  have hcounted := h.counted
  rw [hrun] at hcounted
  exact hcounted

/-- A computation that makes no call. -/
theorem const {m : CheckM α} (h : c.Counted p (m p)) : c.Halts (fun _ => m) p :=
  ⟨⟨0, fun _ _ _ => rfl⟩, h⟩

theorem pure (a : α) : c.Halts (fun _ => pure a) p :=
  const (Paid.of_steps rfl)

theorem throw (e : KernelError) : c.Halts (fun _ => (throw e : CheckM α)) p :=
  const ⟨Nat.le_refl _, by omega⟩

/-- **A sequence halts** if its second part does in every state that the first one leaves. -/
theorem bind {m : Handler → CheckM α} {f : Handler → α → CheckM β} (hm : c.Halts m p)
    (hf : ∀ a s, m c.run p = .ok a s → c.Paid p s → c.Halts (fun call => f call a) s) :
    c.Halts (fun call => m call >>= f call) p := by
  obtain ⟨k, hk⟩ := hm.depth
  constructor
  · cases hrun : m c.run p with
    | ok a s =>
      obtain ⟨k', hk'⟩ := (hf a s hrun (hm.paid hrun)).depth
      refine ⟨max k k', fun d hd beyond => ?_⟩
      have hfirst := hk d (by omega) beyond
      change EStateM.bind (m (c.within beyond d)) (f (c.within beyond d)) p =
        EStateM.bind (m c.run) (f c.run) p
      unfold EStateM.bind
      rw [hfirst, hrun]
      exact hk' d (by omega) beyond
    | error e s =>
      refine ⟨k, fun d hd beyond => ?_⟩
      have hfirst := hk d hd beyond
      change EStateM.bind (m (c.within beyond d)) (f (c.within beyond d)) p =
        EStateM.bind (m c.run) (f c.run) p
      unfold EStateM.bind
      rw [hfirst, hrun]
  · exact hm.counted.bind fun a s hrun => (hf a s hrun (hm.paid hrun)).counted

/-- Behind a step that was paid for, fewer steps remain. -/
theorem tick {m : Handler → CheckM α}
    (h : ∀ s, c.limit - s.steps < c.limit - p.steps → c.Halts m s) :
    c.Halts (fun call => c.tick >>= fun _ => m call) p := by
  refine (const (counted_tick p)).bind fun _ s hrun _ => h s ?_
  obtain ⟨hlt, hsteps⟩ := tick_eq_ok hrun
  omega

/-- Counting a call costs nothing. -/
theorem count {m : Handler → CheckM α} {f : Progress → Progress}
    (hf : ∀ p, (f p).steps = p.steps) (h : c.Halts m (f p)) :
    c.Halts (fun call => (modify f : CheckM PUnit) >>= fun _ => m call) p := by
  have hcount : ∀ u s, (modify f : CheckM PUnit) p = .ok u s → s = f p := by
    intro u s hrun
    cases hrun
    rfl
  have hfree : c.Counted p ((modify f : CheckM PUnit) p) := Paid.of_steps (hf p)
  refine (const hfree).bind fun u s hrun _ => ?_
  rw [hcount u s hrun]
  exact h

/-- Remembering makes no call of its own, so it halts if the computation behind it does. -/
theorem remembered {k : Query} {e : Term} {compute : Handler → CheckM Term}
    (h : c.Halts compute p) : c.Halts (fun call => c.remembered k e (compute call)) p := by
  obtain ⟨depth, hdepth⟩ := h.depth
  constructor
  · refine ⟨depth, fun d hd beyond => ?_⟩
    have hcompute := hdepth d hd beyond
    rw [remembered_eq, remembered_eq, hcompute]
  · have hcounted := h.counted
    rw [remembered_eq]
    cases (p.memo k).find? e with
    | some r => exact Paid.of_steps rfl
    | none =>
      cases hcompute : compute c.run p with
      | error err s =>
        rw [hcompute] at hcounted
        exact hcounted
      | ok r s =>
        exact (h.paid hcompute).trans (.of_steps (steps_keep k e r s))

/-- **A call halts** if its body does. -/
theorem call {q : Invocation α} (h : c.Halts (fun call => c.body call α q) p) :
    c.Halts (fun call => call α q) p := by
  obtain ⟨depth, hdepth⟩ := h.depth
  constructor
  · refine ⟨depth + 1, fun d hd beyond => ?_⟩
    obtain ⟨d, rfl⟩ : ∃ k, d = k + 1 := ⟨d - 1, by omega⟩
    rw [run_eq_body q]
    exact hdepth d (by omega) beyond
  · rw [run_eq_body q]
    exact h.counted

end Halts

/-! ## Reduction -/

/-- Settling on a term halts if its step does and the next round halts wherever fewer steps are
left. -/
theorem halts_settle {step : Handler → CheckM (Option Term)} (hstep : c.Halts step p)
    (hnext : ∀ next s, c.limit - s.steps < c.limit - p.steps →
      c.Halts (fun call => call _ (.reduce δ next Γ)) s) (e : Term) :
    c.Halts (fun call => c.settle (fun x => call _ (.reduce δ x Γ)) e (step call)) p := by
  refine hstep.bind fun o s _ hs => ?_
  cases o with
  | none => exact .pure e
  | some next =>
    refine .tick fun t ht => hnext next t ?_
    have hle := hs.le
    omega

/-- A step at the head makes its calls on smaller terms: the head of a spine, the target of a
projection. -/
theorem halts_stepBy {e : Term} (h : ∀ x : Term, x.size < e.size →
      c.Halts (fun call => call _ (.reduce δ x Γ)) p) :
    c.Halts (fun call => c.stepBy δ Γ (fun x => call _ (.reduce δ x Γ)) e) p := by
  obtain ⟨o, ho⟩ | ⟨error, herror⟩ | ⟨x, f, hx, hf⟩ := c.stepBy_cases δ Γ e
  · simp only [ho]
    exact .pure o
  · simp only [herror]
    exact .throw error
  · simp only [hf]
    exact (h x hx).bind fun r _ _ _ => .pure (f r)

/-- **Reduction halts.** -/
theorem halts_reduce (δ : Bool) (Γ : Context) (e : Term) (p : Progress) :
    c.Halts (fun call => call _ (.reduce δ e Γ)) p := by
  induction p, e using reduction_induction (fun p : Progress => c.limit - p.steps) with
  | step p e hnext hpart =>
    have hstep : c.Halts (fun call => c.stepBy δ Γ (fun x => call _ (.reduce δ x Γ)) e) p :=
      halts_stepBy hpart
    exact .call (halts_settle hstep (fun next s hs => hnext s next hs) e)

/-- Weak head reduction halts from every state, since the rounds of reduction do. -/
theorem halts_whnf (e : Term) (Γ : Context) (p : Progress) :
    c.Halts (fun call => call _ (.whnf e Γ)) p :=
  .call (.remembered (.count (fun _ => rfl) (halts_reduce true Γ e _)))

theorem halts_whnfCore (e : Term) (Γ : Context) (p : Progress) :
    c.Halts (fun call => call _ (.whnfCore e Γ)) p :=
  .call (.remembered (halts_reduce false Γ e p))

/-! ## Conversion -/

/-- Arguments are compared one after the other, each behind those before it. -/
theorem halts_allEqual {equal : Handler → Term → Term → CheckM Bool}
    (h : ∀ a b s, c.Paid p s → c.Halts (fun call => equal call a b) s) (as bs : List Term) :
    c.Halts (fun call => allEqual (equal call) as bs) p := by
  induction as generalizing bs p with
  | nil => exact .pure true
  | cons a as ih =>
    cases bs with
    | nil => exact .pure true
    | cons b bs =>
      refine (h a b p (.of_steps rfl)).bind fun same s _ hs => ?_
      cases same with
      | true => exact ih (fun x y t ht => h x y t (hs.trans ht)) bs
      | false => exact .pure false

/-- Comparing two spines halts if comparing two arguments does, from every state that is paid up
to. -/
theorem halts_sameSpine {equal : Handler → Term → Term → CheckM Bool}
    (h : ∀ a b s, c.Paid p s → c.Halts (fun call => equal call a b) s) (x y : Term) :
    c.Halts (fun call => sameSpine (equal call) x y) p := by
  unfold sameSpine
  dsimp only
  split
  · exact halts_allEqual h _ _
  · exact .pure false

/-- Unfolding a definition looks it up, pays a step and reduces what comes of it. -/
theorem halts_unfoldBy (e : Term) (Γ : Context) (p : Progress) :
    c.Halts (fun call => c.unfoldBy (fun x => call _ (.whnfCore x Γ)) e) p := by
  unfold unfoldBy
  cases c.unfolded? e with
  | some next => exact halts_whnfCore next Γ p
  | none => exact .pure e

/-- One equation halts if unfolding of heads does. -/
theorem halts_reduceEquation (h : ∀ x y Γ s, c.Paid p s →
      c.Halts (fun call => call _ (.unfoldHeads x y Γ)) s) (q : Equation) :
    c.Halts (fun call => call _ (.reduceEquation q)) p := by
  refine .call ?_
  simp only [body]
  cases q.lhs.quickEq? q.rhs with
  | some equal => exact .pure _
  | none =>
    refine (halts_whnfCore q.lhs q.context p).bind fun x s _ hs => ?_
    refine (halts_whnfCore q.rhs q.context s).bind fun y t _ ht => ?_
    cases x.quickEq? y with
    | some equal => exact .pure _
    | none =>
      refine (h x y q.context t (hs.trans ht)).bind fun u _ _ _ => ?_
      cases u with
      | decided equal => exact .pure _
      | stuck x y => exact .pure _

/-- **The loops of conversion settle.** By induction on the steps that remain, for both loops
together: each round pays for a step before it calls anything. -/
theorem halts_loops (p : Progress) :
    (∀ stack, c.Halts (fun call => call _ (.solve stack)) p) ∧
      ∀ x y Γ, c.Halts (fun call => call _ (.unfoldHeads x y Γ)) p := by
  induction hk : c.limit - p.steps using Nat.strongRecOn generalizing p with
  | _ k ih =>
    subst hk
    have hsolve {s t : Progress} (hs : c.limit - s.steps < c.limit - p.steps) (ht : c.Paid s t)
        (stack : List Equation) : c.Halts (fun call => call _ (.solve stack)) t := by
      have hle := ht.le
      exact (ih _ (by omega) t rfl).1 stack
    have hunfold {s t : Progress} (hs : c.limit - s.steps < c.limit - p.steps) (ht : c.Paid s t)
        (x y : Term) (Γ : Context) : c.Halts (fun call => call _ (.unfoldHeads x y Γ)) t := by
      have hle := ht.le
      exact (ih _ (by omega) t rfl).2 x y Γ
    constructor
    · intro stack
      refine .call ?_
      cases stack with
      | nil => exact .pure true
      | cons q rest =>
        refine .tick fun s hs => ?_
        have hq := halts_reduceEquation (fun x y Γ t ht => hunfold hs ht x y Γ) q
        refine hq.bind fun o t _ ht => ?_
        cases o with
        | none => exact .pure false
        | some parts => exact hsolve hs ht (parts ++ rest)
    · intro x y Γ
      refine .call (.tick fun s hs => ?_)
      cases c.turn? x y with
      | none => exact .pure _
      | some turn =>
        have hsame : c.Halts (fun call => if turn = .both then
            sameSpine (fun a b => call _ (.solve [⟨a, b, Γ⟩])) x y else Pure.pure false) s := by
          split
          · exact halts_sameSpine (fun a b t ht => hsolve hs ht [⟨a, b, Γ⟩]) x y
          · exact .pure false
        have hside (side : Turn) (e : Term) (t : Progress) : c.Halts (fun call =>
            if turn = side then Pure.pure e
            else c.unfoldBy (fun z => call _ (.whnfCore z Γ)) e) t := by
          split
          · exact .pure e
          · exact halts_unfoldBy e Γ t
        refine hsame.bind fun same s₁ _ hs₁ => ?_
        cases same with
        | true => exact .pure _
        | false =>
          refine (hside .right x s₁).bind fun x₁ s₂ _ hs₂ => ?_
          refine (hside .left y s₂).bind fun y₁ s₃ _ hs₃ => ?_
          cases x₁.quickEq? y₁ with
          | some equal => exact .pure _
          | none => exact hunfold hs (hs₁.trans (hs₂.trans hs₃)) x₁ y₁ Γ

theorem halts_conv (x y : Term) (Γ : Context) (p : Progress) :
    c.Halts (fun call => call _ (.conv x y Γ)) p :=
  .call (.count (fun _ => rfl) ((halts_loops _).1 [⟨x, y, Γ⟩]))

/-! ## Typing -/

theorem halts_ensureSort (type e : Term) (Γ : Context) (p : Progress) :
    c.Halts (fun call => call _ (.ensureSort type e Γ)) p := by
  refine .call ?_
  cases type with
  | sort l => exact .pure l
  | _ =>
    refine (halts_whnf _ Γ p).bind fun r s _ _ => ?_
    cases r with
    | sort l => exact .pure l
    | _ => exact .throw _

/-- The search for a function type or a pair type makes one call, of weak head reduction. -/
theorem halts_bindingBy (k : Binder) (error : KernelError) (type : Term) (Γ : Context)
    (p : Progress) : c.Halts (fun call => bindingBy call k error type Γ) p := by
  unfold bindingBy
  cases type.binding? k with
  | some b => exact .pure b
  | none =>
    refine (halts_whnf type Γ p).bind fun r s _ _ => ?_
    cases r.binding? k with
    | some b => exact .pure b
    | none => exact .throw error

theorem halts_ensurePi (type e : Term) (Γ : Context) (p : Progress) :
    c.Halts (fun call => call _ (.ensurePi type e Γ)) p :=
  .call (halts_bindingBy .pi _ type Γ p)

theorem halts_ensureSigma (type e : Term) (Γ : Context) (p : Progress) :
    c.Halts (fun call => call _ (.ensureSigma type e Γ)) p :=
  .call (halts_bindingBy .sigma _ type Γ p)

theorem halts_requireConv (found expected e : Term) (Γ : Context) (p : Progress) :
    c.Halts (fun call => call _ (.requireConv found expected e Γ)) p := by
  refine .call ((halts_conv found expected Γ p).bind fun equal s _ _ => ?_)
  cases equal with
  | true => exact .pure ()
  | false => exact .throw _

theorem halts_constType (x : Name) (levels : List Level) (p : Progress) :
    c.Halts (fun _ => c.constType x levels) p := by
  unfold constType
  cases c.const? x with
  | none => exact .throw _
  | some d =>
    dsimp only
    split
    · exact .pure _
    · exact .throw _

/-- Inference and checking of the term halt, in every context and every state. -/
structure TypingHalts (c : Checker) (e : Term) : Prop where
  infer (Γ : Context) (p : Progress) : c.Halts (fun call => call _ (.infer e Γ)) p
  check (type : Term) (Γ : Context) (p : Progress) :
    c.Halts (fun call => call _ (.check e type Γ)) p

section

variable {e : Term}

/-- Inference halts for a term if its rule does: remembering and counting add nothing. -/
theorem halts_infer (h : ∀ Γ p, c.Halts (fun call => c.inferBody call e Γ) p) (Γ : Context)
    (p : Progress) : c.Halts (fun call => call _ (.infer e Γ)) p :=
  .call (.remembered (.count (fun _ => rfl) (h Γ _)))

theorem TypingHalts.sortOf (h : c.TypingHalts e) (Γ : Context) (p : Progress) :
    c.Halts (fun call => call _ (.sortOf e Γ)) p :=
  .call ((h.infer Γ p).bind fun type s _ _ => halts_ensureSort type e Γ s)

/-- Checking by inference halts if inference does, for conversion halts whatever is inferred. -/
theorem halts_checkInferred (h : ∀ Γ p, c.Halts (fun call => call _ (.infer e Γ)) p)
    (expected : Term) (Γ : Context) (p : Progress) :
    c.Halts (fun call => call _ (.checkInferred e expected Γ)) p :=
  .call ((h Γ p).bind fun found s _ _ => halts_requireConv found expected e Γ s)

/-- Most forms are checked by comparing the inferred type. -/
theorem typingHalts_of_inferBody (hcheck : ∀ call expected Γ,
      checkBody call e expected Γ = call _ (.checkInferred e expected Γ))
    (h : ∀ Γ p, c.Halts (fun call => c.inferBody call e Γ) p) : c.TypingHalts e := by
  refine ⟨halts_infer h, fun type Γ p => .call ?_⟩
  simp only [body, hcheck]
  exact halts_checkInferred (halts_infer h) type Γ p

end

section

variable {x : Name} {t u v b : Term}

/-- An application is typed by calls for its function and for its argument. -/
theorem typingHalts_app (ht : c.TypingHalts t) (hu : c.TypingHalts u) :
    c.TypingHalts (.app t u) := by
  refine typingHalts_of_inferBody (fun _ _ _ => rfl) fun Γ p => ?_
  refine (ht.infer Γ p).bind fun type s _ _ => ?_
  refine (halts_ensurePi type t Γ s).bind fun fn s₁ _ _ => ?_
  exact (hu.check fn.domain Γ s₁).bind fun _ _ _ _ => .pure _

/-- A function is typed by calls for the parameter's type and for the body, in either direction. -/
theorem typingHalts_lam (ht : c.TypingHalts t) (hb : c.TypingHalts b) :
    c.TypingHalts (.lam x t b) := by
  have hinfer := halts_infer (c := c) (e := .lam x t b) fun Γ p =>
    (ht.sortOf Γ p).bind fun _ s _ _ =>
      (hb.infer (Γ.push x t) s).bind fun _ _ _ _ => .pure _
  refine ⟨hinfer, fun type Γ p => .call ?_⟩
  refine (halts_whnf type Γ p).bind fun r s _ _ => ?_
  have hfallback (s : Progress) := halts_checkInferred hinfer type Γ s
  cases r with
  | bind k y t' b' =>
    cases k with
    | pi =>
      refine (ht.sortOf Γ s).bind fun _ s₁ _ _ => ?_
      refine (halts_conv t t' Γ s₁).bind fun equal s₂ _ _ => ?_
      cases equal with
      | true => exact hb.check b' (Γ.push x t) s₂
      | false => exact hfallback s₂
    | lam | sigma => exact hfallback s
  | _ => exact hfallback s

/-- A function type or a pair type is typed by calls for its two parts. -/
theorem typingHalts_pi_sigma {k : Binder} (hk : k ≠ .lam) (ht : c.TypingHalts t)
    (hb : c.TypingHalts b) : c.TypingHalts (.bind k x t b) := by
  have hinfer (Γ : Context) (p : Progress) :
      c.Halts (fun call => c.inferBody call (.bind .pi x t b) Γ) p :=
    (ht.sortOf Γ p).bind fun l s _ _ =>
      (hb.sortOf (Γ.push x t) s).bind fun _ _ _ _ => .pure _
  cases k with
  | lam => exact absurd rfl hk
  | pi | sigma => exact typingHalts_of_inferBody (fun _ _ _ => rfl) hinfer

/-- A local definition is typed by calls for its type, its value and its body. -/
theorem typingHalts_letE (ht : c.TypingHalts t) (hv : c.TypingHalts v) (hb : c.TypingHalts b) :
    c.TypingHalts (.letE x t v b) := by
  constructor
  · refine halts_infer fun Γ p => ?_
    refine (ht.sortOf Γ p).bind fun _ s _ _ => (hv.check t Γ s).bind fun _ s₁ _ _ => ?_
    exact (hb.infer (Γ.pushLet x t v) s₁).bind fun _ _ _ _ => .pure _
  · intro type Γ p
    refine .call ?_
    refine (ht.sortOf Γ p).bind fun _ s _ _ => (hv.check t Γ s).bind fun _ s₁ _ _ => ?_
    exact hb.check (type.shift 0 1) (Γ.pushLet x t v) s₁

theorem typingHalts_pair (ht : c.TypingHalts t) (hu : c.TypingHalts u) :
    c.TypingHalts (.pair t u) := by
  have hinfer := halts_infer (c := c) (e := .pair t u) fun Γ p =>
    (ht.infer Γ p).bind fun _ s _ _ => (hu.infer Γ s).bind fun _ _ _ _ => .pure _
  refine ⟨hinfer, fun type Γ p => .call ?_⟩
  refine (halts_whnf type Γ p).bind fun r s _ _ => ?_
  have hfallback := halts_checkInferred hinfer type Γ s
  cases r with
  | bind k y t' u' =>
    cases k with
    | sigma =>
      exact (ht.check t' Γ s).bind fun _ s₁ _ _ => hu.check (u'.instantiate t) Γ s₁
    | lam | pi => exact hfallback
  | _ => exact hfallback

theorem typingHalts_proj {k : Side} (ht : c.TypingHalts t) : c.TypingHalts (.proj k t) := by
  refine typingHalts_of_inferBody (fun _ _ _ => rfl) fun Γ p => ?_
  refine (ht.infer Γ p).bind fun type s _ _ => ?_
  refine (halts_ensureSigma type t Γ s).bind fun pair s₁ _ _ => ?_
  cases k with
  | fst => exact .pure _
  | snd => exact .pure _

end

/-- **Typing halts**, by induction on the term. -/
theorem typingHalts (e : Term) : c.TypingHalts e := by
  induction e with
  | bvar i =>
    refine typingHalts_of_inferBody (fun _ _ _ => rfl) fun Γ p => ?_
    simp only [inferBody]
    cases Γ[i]? with
    | some entry => exact .pure _
    | none => exact .throw _
  | fvar x => exact typingHalts_of_inferBody (fun _ _ _ => rfl) fun _ _ => .throw _
  | sort l => exact typingHalts_of_inferBody (fun _ _ _ => rfl) fun _ _ => .pure _
  | const x levels =>
    exact typingHalts_of_inferBody (fun _ _ _ => rfl) fun _ p => halts_constType x levels p
  | app f a ihf iha => exact typingHalts_app ihf iha
  | bind k x t b iht ihb =>
    by_cases hk : k = .lam
    · subst hk
      exact typingHalts_lam iht ihb
    · exact typingHalts_pi_sigma hk iht ihb
  | letE x t v b iht ihv ihb => exact typingHalts_letE iht ihv ihb
  | pair a b iha ihb => exact typingHalts_pair iha ihb
  | proj k t iht => exact typingHalts_proj iht

/-! ## Declarations -/

theorem halts_requireClosed (d : Declaration) (e : Term) (p : Progress) :
    c.Halts (fun _ => d.requireClosed e) p := by
  rw [Declaration.requireClosed_eq]
  split
  · exact .throw _
  · cases e.fvars with
    | cons x _ => exact .throw _
    | nil =>
      dsimp only
      split
      · exact .pure ()
      · exact .throw _

/-- A declaration is checked by calls for its type and for its value, once its levels and scopes are
seen to. -/
theorem halts_checkDeclaration (d : Declaration) (p : Progress) :
    c.Halts (fun call => call _ (.checkDeclaration d)) p := by
  refine .call ?_
  simp only [body]
  cases Declaration.repeated? [] d.params with
  | some x => exact .throw _
  | none =>
    refine (halts_requireClosed d d.type p).bind fun _ s _ _ => ?_
    refine ((typingHalts d.type).sortOf [] s).bind fun _ s₁ _ _ => ?_
    cases d.value with
    | none => exact .pure ()
    | some v =>
      refine (halts_requireClosed d v s₁).bind fun _ s₂ _ _ => ?_
      exact (typingHalts v).check d.type [] s₂

/-! ## Every call -/

/-- Every function of the kernel halts, whatever it is called with: one case for each function. -/
theorem halts_run (q : Invocation α) (p : Progress) : c.Halts (fun call => call α q) p := by
  have hunfold (x y : Term) (Γ : Context) (s : Progress) :
      c.Halts (fun call => call _ (.unfoldHeads x y Γ)) s := (halts_loops s).2 x y Γ
  cases q with
  | reduce δ e Γ => exact halts_reduce δ Γ e p
  | whnf e Γ => exact halts_whnf e Γ p
  | whnfCore e Γ => exact halts_whnfCore e Γ p
  | solve stack => exact (halts_loops p).1 stack
  | reduceEquation q => exact halts_reduceEquation (fun x y Γ s _ => hunfold x y Γ s) q
  | unfoldHeads x y Γ => exact hunfold x y Γ p
  | conv x y Γ => exact halts_conv x y Γ p
  | ensureSort type e Γ => exact halts_ensureSort type e Γ p
  | ensurePi type e Γ => exact halts_ensurePi type e Γ p
  | ensureSigma type e Γ => exact halts_ensureSigma type e Γ p
  | requireConv found expected e Γ => exact halts_requireConv found expected e Γ p
  | infer e Γ => exact (typingHalts e).infer Γ p
  | sortOf e Γ => exact (typingHalts e).sortOf Γ p
  | check e expected Γ => exact (typingHalts e).check expected Γ p
  | checkInferred e expected Γ => exact halts_checkInferred (typingHalts e).infer expected Γ p
  | checkDeclaration d => exact halts_checkDeclaration d p

/-- The counter goes up, and by one step beyond the budget at most. -/
theorem Counted.steps_leaves {m : CheckM α} (h : c.Counted p (m p)) :
    p.steps ≤ (m.leaves p).steps ∧ (m.leaves p).steps ≤ max p.steps c.limit + 1 := by
  unfold EStateM.leaves
  cases hrun : m p with
  | ok a s =>
    rw [hrun] at h
    exact ⟨h.le, Nat.le_succ_of_le h.bounded⟩
  | error e s =>
    rw [hrun] at h
    exact h

/-- **Every call ends, within the budget.** Over any environment and from any state there is a
depth to which a function of the kernel calls functions, or goes through the rounds of its
loops: with that depth, whatever handles what lies below, the result is the one that the
function has. Where the function gives a result, it has spent no step beyond the budget. A
counter of 64 bits is enough for all this: if one more step than the budget can be counted,
the counter never has to go back to zero, whether the call succeeds or fails. -/
theorem run_halts (c : Checker) (hlimit : c.limit < 2 ^ 64 - 1) {α : Type} (q : Invocation α)
    (p : Progress) (hp : p.steps < 2 ^ 64 - 1) :
    (∃ depth, ∀ d, depth ≤ d → ∀ beyond : Handler, c.within beyond d α q p = c.run α q p) ∧
      (∀ a s, c.run α q p = .ok a s → p.steps ≤ c.limit → s.steps ≤ c.limit) ∧
      p.steps ≤ ((c.run α q).leaves p).steps ∧ ((c.run α q).leaves p).steps < 2 ^ 64 := by
  obtain ⟨hle, hcounted⟩ := (halts_run (c := c) q p).counted.steps_leaves
  refine ⟨(halts_run q p).depth, fun a s hrun hbudget => ?_, hle, by omega⟩
  have hpaid := ((halts_run q p).paid hrun).bounded
  omega

/-- A definition that unfolds to itself. Its reduction ends for want of steps, and where it is
compared with itself behind a function, the comparison succeeds within the budget. -/
theorem run_halts_self_unfolding :
    let loop := Term.const (.atom "loop") []
    let c : Checker :=
      { env := ⟨#[⟨.atom "loop", [], .sort .zero, some loop⟩]⟩, visible := 1, limit := 3,
        memoize := false }
    let reduction : Invocation Term := .whnf loop []
    let equation : Invocation Bool :=
      .conv (.app (.lam .anonymous (.sort .zero) loop) (.sort .zero)) loop []
    (outOfSteps (c.run _ reduction {}) = true ∧ ∃ depth, ∀ d, depth ≤ d → ∀ beyond : Handler,
      c.within beyond d _ reduction {} = c.run _ reduction {}) ∧
    (∃ s, c.run _ equation {} = .ok true s ∧ ({} : Progress).steps ≤ c.limit ∧
      s.steps ≤ c.limit) ∧
    c.limit < 2 ^ 64 - 1 ∧ ((c.run _ reduction).leaves {}).steps < 2 ^ 64 := by
  intro loop c reduction equation
  have hspent : outOfSteps (c.run _ reduction {}) = true := by decide +kernel
  have hequal : CheckM.value? (c.run _ equation) {} = some true := by decide +kernel
  obtain ⟨s, hrun⟩ := value?_eq_some.mp hequal
  have hlimit : c.limit < 2 ^ 64 - 1 := by decide
  have hstart : ({} : Progress).steps < 2 ^ 64 - 1 := by decide
  obtain ⟨hdepth, -, -, hcounter⟩ := run_halts c hlimit reduction {} hstart
  obtain ⟨-, hbudget, -⟩ := run_halts c hlimit equation {} hstart
  exact ⟨⟨hspent, hdepth⟩, ⟨s, hrun, Nat.zero_le _, hbudget true s hrun (Nat.zero_le _)⟩, hlimit,
    hcounter⟩

end Checker

end TypeTheory
