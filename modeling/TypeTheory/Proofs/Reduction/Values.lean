import TypeTheory.Proofs.Checker.Transparency
import TypeTheory.Proofs.Reduction.Determinism
import TypeTheory.Proofs.Reduction.Evaluation

/-!
# Reduction computes values

A reduction ends in the weak-head normal form that the rules of `Evaluates` give.
It fails for want of steps, or because the rules give no value at all
(`Checker.keeps_reducer`). This holds of one head step first, for the head of
a spine in front of any arguments, and of a whole reduction by induction on its
bound.

What is remembered is right (`Progress.Right`): a result that stands in the table
of weak-head normal forms is the value of its term in every context. Requests of
every kind keep the tables right (`Checker.right_after`), so that `Checker.whnf`
and `Checker.whnfCore` give values whatever was asked before.
-/

namespace TypeTheory

open CheckM

/-- The state that requests leave, one after the other. -/
def Checker.after (c : Checker) (requests : List Request) (p : Progress) : Progress :=
  requests.foldl (fun p request => CheckM.state (c.serve request p)) p

/-- Requests keep what every run keeps, also those that fail. -/
theorem Checker.after_of_ownRuns {c : Checker} {inv : Progress → Prop}
    (h : (c.ownRuns inv).Lawful) (requests : List Request) {p : Progress} (hp : inv p) :
    inv (c.after requests p) := by
  induction requests generalizing p with
  | nil => exact hp
  | cons request rest ih => exact ih (keeps_of_ownRuns (sim_serve h request) p hp).state

/-! ## Tables -/

/-- What a remembered result has to be, in every context. -/
def Query.Right (sig : Signature) : Query → Term → Term → Prop
  | .whnf, e, r => ∀ Γ, Evaluates sig true Γ e r
  | .core, e, r => ∀ Γ, Evaluates sig false Γ e r
  | .type, _, _ => True

/-- Every remembered result is what it has to be. -/
def Progress.Right (sig : Signature) (p : Progress) : Prop :=
  ∀ q e r, (p.memo q).find? e = some r → q.Right sig e r

namespace Progress.Right

variable {sig : Signature} {p s : Progress}

theorem of_blank (h : p.Blank) : p.Right sig := by
  intro q e r hr
  rw [h q e] at hr
  cases hr

theorem of_memo (h : p.Right sig) (hmemo : ∀ q, s.memo q = p.memo q) : s.Right sig := by
  intro q e r hr
  rw [hmemo q] at hr
  exact h q e r hr

theorem tick (h : p.Right sig) : Progress.Right sig { p with steps := p.steps + 1 } :=
  h.of_memo fun q => by cases q <;> rfl

theorem addCalls (h : p.Right sig) (i j k : Nat) : (p.addCalls i j k).Right sig :=
  h.of_memo fun q => by cases q <;> rfl

/-- A result is kept for a closed term only. -/
theorem keep {c : Checker} {q : Query} {e r : Term} (h : p.Right sig)
    (hr : e.looseRange ≤ 0 → q.Right sig e r) : (c.keep q e r p).Right sig := by
  intro q' x y hxy
  rcases Checker.find?_keep hxy with ⟨rfl, rfl, rfl, hrange⟩ | hold
  · exact hr hrange
  · exact h q' x y hold

end Progress.Right

namespace Checker

variable {c : Checker} {δ : Bool} {Γ : Context} {e head : Term}

/-! ## Definitions -/

/-- A definition at the head of a spine unfolds under the arguments, which stay. -/
theorem headUnfolded?_apps (sig : Signature) (f : Term) (args : List Term) :
    sig.headUnfolded? (f.apps args) = (sig.headUnfolded? f).map (·.apps args) := by
  induction args generalizing f with
  | nil => simp
  | cons a args ih =>
    rw [Term.apps_cons, ih, Signature.headUnfolded?, Option.map_map]
    rfl

theorem head_ne_app (e f a : Term) : e.head ≠ .app f a := by
  induction e with
  | app g b ihg _ => exact ihg
  | bvar | fvar | sort | const | bind | letE | pair | proj => intro h; cases h

/-- **The checker unfolds the definitions of its signature.** -/
theorem unfolded?_eq (e : Term) : c.unfolded? e = Signature.headUnfolded? c.const? e := by
  rcases hspine : e.spine with ⟨f, args⟩
  have hhead : e.head = f := by rw [← Term.spine_fst, hspine]
  rw [unfolded?, hspine, Term.eq_apps_of_spine hspine, headUnfolded?_apps]
  cases f with
  | const n ls =>
    simp only [Signature.headUnfolded?]
    cases c.const? n with
    | none => rfl
    | some d =>
      obtain ⟨x, params, type, value⟩ := d
      cases value with
      | none => simp
      | some v => by_cases hlength : params.length = ls.length <;> simp [hlength]
  | app g a => exact absurd hhead (head_ne_app e g a)
  | bvar | fvar | sort | bind | letE | pair | proj => rfl

/-- The definition at the head of a spine, as the rules see it. -/
theorem isSome_definition? (e : Term) :
    (c.definition? e).isSome = (Signature.headUnfolded? c.const? e).isSome := by
  induction e with
  | const n ls =>
    simp only [definition?, Term.head, Signature.headUnfolded?]
    cases c.const? n with
    | none => rfl
    | some d =>
      by_cases hlength : d.params.length = ls.length <;> cases hv : d.value <;>
        simp [hlength, hv, Option.filter]
  | app f a ihf _ =>
    rw [Signature.headUnfolded?, Option.isSome_map]
    exact ihf
  | bvar | fvar | sort | bind | letE | pair | proj => rfl

/-! ## Head steps -/

/-- How a reduction of `e` may fail: for want of steps, or because `e` has no
value. -/
def Valueless (c : Checker) (δ : Bool) (Γ : Context) (e : Term) (err : KernelError) : Prop :=
  err = .exhausted c.limit ∨ ∀ r, ¬ Evaluates c.const? δ Γ e r

/-- What a head step of `e` says: `e` is a weak-head normal form, or it has the
value of the next term. -/
inductive Steps (c : Checker) (δ : Bool) (Γ : Context) (e : Term) : Option Term → Prop
  | none : Evaluates c.const? δ Γ e e → Steps c δ Γ e none
  | some {next : Term} : SameValue c.const? δ Γ e next → Steps c δ Γ e (some next)

/-- A term without a value passes this on to every term whose value would give it one. -/
theorem Valueless.imp {e' : Term} {err : KernelError} (h : c.Valueless δ Γ e err)
    (hvalue : ∀ r, Evaluates c.const? δ Γ e' r → ∃ s, Evaluates c.const? δ Γ e s) :
    c.Valueless δ Γ e' err := by
  rcases h with h | h
  · exact .inl h
  · refine .inr fun r hr => ?_
    obtain ⟨s, hs⟩ := hvalue r hr
    exact h s hs

section

-- A reduction does not look at the tables, so it keeps whatever spending steps keeps.
variable {inv : Progress → Prop} (htick : ∀ p, inv p → inv { p with steps := p.steps + 1 })

include htick

section

variable {reduce : Term → CheckM Term} {step : CheckM (Option Term)}
  (hreduce : ∀ x, Keeps inv (Evaluates c.const? δ Γ x) (c.Valueless δ Γ x) (reduce x))

include hreduce

/-- Going on after a step leads to the value. -/
theorem keeps_settle
    (hstep : Keeps inv (c.Steps δ Γ e) (c.Valueless δ Γ e) step) :
    Keeps inv (Evaluates c.const? δ Γ e) (c.Valueless δ Γ e)
      (c.settle reduce e step) := by
  refine hstep.bind fun o ho => ?_
  cases ho with
  | none hnormal => exact .pure hnormal
  | some hsame =>
    refine (keeps_tick htick (.inl rfl)).bind fun _ _ => ?_
    exact (hreduce _).mono (fun r hr => (hsame r).mpr hr)
      fun err herr => herr.imp fun r hr => ⟨r, (hsame r).mp hr⟩

/-- **A step of a spine**, given the step of its head: the head is evaluated first,
and the spine has the value of what becomes of it. -/
theorem keeps_stepSpine
    (hstep : Keeps inv (c.Steps δ Γ head) (c.Valueless δ Γ head) step)
    (args : List Term) :
    Keeps inv (c.Steps δ Γ (head.apps args))
      (c.Valueless δ Γ (head.apps args)) (c.stepSpine reduce head args step) := by
  cases args with
  | nil => exact hstep
  | cons arg rest =>
    have hhead : Keeps inv (Evaluates c.const? δ Γ head)
        (c.Valueless δ Γ (head.apps (arg :: rest))) (c.settle reduce head step) :=
      (keeps_settle htick hreduce hstep).mono (fun _ h => h)
        fun err herr => herr.imp fun r hr => hr.head_of_apps
    refine hhead.bind fun reduced hreduced => ?_
    split
    · exact .pure (.some ((SameValue.beta hreduced arg).apps rest))
    · rename_i hlam
      have hlam := Term.isLam_eq_false hlam
      refine .pure ?_
      split
      · -- the head has not moved: it is a normal form, and so is the spine
        rename_i heq
        rw [heq] at hreduced hlam
        exact .none (hreduced.normal.apps hlam (arg :: rest)).evaluates
      · exact .some ((SameValue.of_evaluates hreduced).apps (arg :: rest))

/-- **A head step keeps the value**, in front of any arguments. -/
theorem keeps_headStep (e : Term) (args : List Term) :
    Keeps inv (c.Steps δ Γ (e.apps args)) (c.Valueless δ Γ (e.apps args))
      (c.headStep δ Γ reduce e args) := by
  induction e generalizing args with
  | app f a ihf _ => exact ihf (a :: args)
  | proj k p ih =>
    refine keeps_stepSpine htick hreduce ?_ args
    have htarget : Keeps inv (Evaluates c.const? δ Γ p)
        (c.Valueless δ Γ (.proj k p)) (c.settle reduce p (c.headStep δ Γ reduce p [])) := by
      refine (keeps_settle htick hreduce (ih [])).mono (fun _ h => h) fun err herr => ?_
      refine herr.imp fun r hr => ?_
      cases hr with
      | iota hp => exact ⟨_, hp⟩
      | proj hp => exact ⟨_, hp⟩
    refine htarget.bind fun target hp => .pure ?_
    cases hcomponent : target.component? k with
    | none => exact .none (.proj hp hcomponent)
    | some q => exact .some (.iota hp hcomponent)
  | letE => exact keeps_stepSpine htick hreduce (.pure (.some .zeta)) args
  | bvar i =>
    refine keeps_stepSpine htick hreduce ?_ args
    split
    · -- an index outside the context has no value
      rename_i hnone
      refine .throw (.inr fun r hr => ?_)
      cases hr with
      | bvar hentry =>
        rw [hnone] at hentry
        cases hentry
      | lookup hentry =>
        rw [hnone] at hentry
        cases hentry
    · rename_i entry hentry
      refine .pure ?_
      cases hvalue : entry.value with
      | none => exact .none (.bvar hentry hvalue)
      | some v => exact .some (.lookup hentry hvalue)
  | const n ls =>
    refine keeps_stepSpine htick hreduce (.pure ?_) args
    have hdelta : (if δ = true then c.unfolded? (.const n ls) else none) =
        Signature.delta? c.const? δ n ls := by
      rw [unfolded?_eq, Signature.delta?]
    rw [hdelta]
    cases hvalue : Signature.delta? c.const? δ n ls with
    | none => exact .none (.const hvalue)
    | some v => exact .some (.delta hvalue)
  | fvar y => exact keeps_stepSpine htick hreduce (.pure (.none (.fvar y))) args
  | sort l => exact keeps_stepSpine htick hreduce (.pure (.none (.sort l))) args
  | bind k y t b => exact keeps_stepSpine htick hreduce (.pure (.none (.bind k y t b))) args
  | pair a b => exact keeps_stepSpine htick hreduce (.pure (.none (.pair a b))) args

end

/-! ## Whole reductions -/

/-- **A reduction ends in the value**, whatever its bound. -/
theorem keeps_reducer (n : Nat) (e : Term) :
    Keeps inv (Evaluates c.const? δ Γ e) (c.Valueless δ Γ e)
      (c.reducer δ Γ n e) := by
  induction n generalizing e with
  | zero => exact keeps_exhaust htick (.inl rfl)
  | succ n ih =>
    rw [reducer, reduceHead_eq]
    exact keeps_settle htick ih (keeps_headStep htick ih e [])

/-- Reduction gives the value of a term, or fails for want of steps, or because there is no
value. -/
theorem keeps_reduce (e : Term) :
    Keeps inv (Evaluates c.const? δ Γ e) (c.Valueless δ Γ e)
      (c.reduce δ Γ e) :=
  keeps_remaining.bind fun n _ => keeps_reducer htick (n + 1) e

end

theorem keeps_answer_core (e : Term) :
    Keeps (Progress.Right c.const?) (Evaluates c.const? false Γ e) (c.Valueless false Γ e)
      (c.answer .core e Γ) :=
  keeps_reduce (fun _ hp => hp.tick) e

theorem keeps_answer_whnf (e : Term) :
    Keeps (Progress.Right c.const?) (Evaluates c.const? true Γ e) (c.Valueless true Γ e)
      (c.answer .whnf e Γ) :=
  (Keeps.modify fun _ hp => hp.addCalls 0 1 0).bind fun _ _ => keeps_reduce (fun _ hp => hp.tick) e

section

variable (hclosed : c.SeesClosed)

include hclosed

/-- The value of a closed term may be remembered. -/
theorem evaluates_of_closed {r : Term} (h : Evaluates c.const? δ Γ e r) (he : e.looseRange ≤ 0)
    (Δ : Context) : Evaluates c.const? δ Δ e r :=
  (h.of_closed (fun n d hd v hv => (hclosed n d hd).2 v hv) he Δ).1

/-- **The weak-head normal form is the value**, whatever is remembered. -/
theorem keeps_whnf (e : Term) (Γ : Context) :
    Keeps (Progress.Right c.const?) (Evaluates c.const? true Γ e) (c.Valueless true Γ e)
      (c.whnf e Γ) := by
  refine keeps_remembered (keeps_answer_whnf e) (fun p r hp hr => hp .whnf e r hr Γ)
    fun p r hp hr => ?_
  exact hp.keep (evaluates_of_closed hclosed hr)

/-- **And so it is without unfolding.** -/
theorem keeps_whnfCore (e : Term) (Γ : Context) :
    Keeps (Progress.Right c.const?) (Evaluates c.const? false Γ e) (c.Valueless false Γ e)
      (c.whnfCore e Γ) := by
  refine keeps_remembered (keeps_answer_core e) (fun p r hp hr => hp .core e r hr Γ)
    fun p r hp hr => ?_
  exact hp.keep (evaluates_of_closed hclosed hr)

/-- What is computed for a closed term is right. -/
theorem right_of_answer {q : Query} {r : Term} {p s : Progress} (hp : p.Right c.const?)
    (hrun : c.answer q e Γ p = .ok r s) (he : e.looseRange ≤ 0) : q.Right c.const? e r := by
  cases q with
  | whnf => exact evaluates_of_closed hclosed ((keeps_answer_whnf e).of_ok hp hrun).1 he
  | core => exact evaluates_of_closed hclosed ((keeps_answer_core e).of_ok hp hrun).1 he
  | type => trivial

/-! ## Whatever was asked before -/

/-- **The kernel keeps its tables right** if constants are closed. -/
theorem lawful_rightRuns : (c.ownRuns (Progress.Right c.const?)).Lawful :=
  lawful_ownRuns (fun _ hp => hp.tick) (fun _ i j k hp => hp.addCalls i j k)
    fun _ _ _ _ _ _ hp hrun hs => hs.keep (right_of_answer hclosed hp hrun)

/-- **Requests leave the tables right.** -/
theorem right_after (requests : List Request) {p : Progress} (hp : p.Right c.const?) :
    (c.after requests p).Right c.const? :=
  after_of_ownRuns (lawful_rightRuns hclosed) requests hp

end

end Checker

end TypeTheory
