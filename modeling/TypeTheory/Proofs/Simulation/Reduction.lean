import TypeTheory.Proofs.Reduction.Determinism
import TypeTheory.Proofs.Simulation.Basic

/-!
# Reduction keeps a correspondence

Related terms in related contexts take related head steps, so their weak-head
normal forms and their normal forms are related. The loops are compared by
induction on their bounds, which are both at least the number of steps that
remain. A head that has moved differs from where it started on both sides,
whatever the correspondence is, since a reduction does not come back.
-/

namespace TypeTheory

namespace Correspondence

variable {c c' : Checker} {R : Correspondence c c'} {w : R.World} {n n' : Nat}
  {Γ Γ' : Context} {δ : Bool}

namespace Lawful

variable (h : R.Lawful)

include h

/-! ## Terms -/

theorem app {f f' a a' : Term} (hf : R.term w f f') (ha : R.term w a a') :
    R.term w (.app f a) (.app f' a') :=
  h.build rfl (.app hf ha)

theorem apps {f f' : Term} {args args' : List Term} (hf : R.term w f f')
    (hargs : List.Forall₂ (R.term w) args args') : R.term w (f.apps args) (f'.apps args') := by
  induction hargs generalizing f f' with
  | nil => exact hf
  | cons ha _ ih => exact ih (h.app hf ha)

theorem spineOnto {e e' : Term} {args args' : List Term} (he : R.term w e e')
    (hargs : List.Forall₂ (R.term w) args args') :
    R.term w (e.spineOnto args).1 (e'.spineOnto args').1 ∧
      List.Forall₂ (R.term w) (e.spineOnto args).2 (e'.spineOnto args').2 := by
  induction e generalizing e' args args' with
  | app f a ihf _ =>
    cases h.form he with
    | app hf ha =>
      have hspine := ihf hf (.cons ha hargs)
      exact hspine
  | _ =>
    cases h.form he
    exact ⟨he, hargs⟩

/-- Related terms have related heads and related arguments. -/
theorem spine {e e' : Term} (he : R.term w e e') :
    R.term w e.spine.1 e'.spine.1 ∧ List.Forall₂ (R.term w) e.spine.2 e'.spine.2 :=
  h.spineOnto he .nil

/-- A component is found in one of two related terms just if it is found in the other, and the
components are related. -/
theorem component? {e e' : Term} (k : Side) (he : R.term w e e') :
    Option.Rel (R.term w) (e.component? k) (e'.component? k) := by
  cases h.form he with
  | pair ha hb =>
    cases k with
    | fst => exact .some ha
    | snd => exact .some hb
  | _ => exact .none

/-- Related terms unfold to related terms. -/
theorem unfolded? {e e' : Term} (he : R.term w e e') :
    Option.Rel (R.term w) (c.unfolded? e) (c'.unfolded? e') := by
  obtain ⟨hhead, hargs⟩ := h.spine he
  unfold Checker.unfolded?
  rcases hs : e.spine with ⟨f, args⟩
  rcases hs' : e'.spine with ⟨f', args'⟩
  rw [hs, hs'] at hhead hargs
  cases h.form hhead with
  | const x levels =>
    simp only [← h.const? hhead]
    cases hx : c.const? x with
    | none => exact .none
    | some d =>
      obtain ⟨name, params, type, value⟩ := d
      cases value with
      | none => exact .none
      | some v =>
        dsimp only
        split
        · rename_i hlength
          exact .some (h.apps (h.declaredValue hhead hx hlength rfl) hargs)
        · exact .none
  | _ => exact .none

/-! ## Head steps -/

section

-- related terms reduce to related ones once a step has been paid for
variable (hreduce : ∀ k k', n = k + 1 → n' = k' + 1 → ∀ x x', R.term w x x' →
  R.Sim k k' (R.term w) (c.reduceHead δ Γ k x) (c'.reduceHead δ Γ' k' x'))

include hreduce

variable {step step' : CheckM (Option Term)}

/-- A step, after which the reduction goes on. The values have both moved away
from their starts, or neither has. -/
theorem sim_settle {e e' : Term} (he : R.term w e e')
    (hstep : R.Sim n n' (Option.Rel (R.term w)) step step')
    (hmoves : ∀ next r, step.Gives (some next) → (c.reducer δ Γ n next).Gives r → r ≠ e)
    (hmoves' : ∀ next r, step'.Gives (some next) → (c'.reducer δ Γ' n' next).Gives r → r ≠ e') :
    R.Sim n n' (fun r r' => R.term w r r' ∧ (r = e ↔ r' = e'))
      (c.settle (c.reducer δ Γ n) e step) (c'.settle (c'.reducer δ Γ' n') e' step') := by
  refine hstep.bind_gives fun o o' ho hgives hgives' => ?_
  cases ho with
  | none => exact .pure ⟨he, by simp⟩
  | @some next next' hnext =>
    -- a step was taken on both sides, so neither comes back to its start
    have hrest : R.Sim n n' (R.term w) (c.tick >>= fun _ => c.reducer δ Γ n next)
        (c'.tick >>= fun _ => c'.reducer δ Γ' n' next') := by
      refine h.tick_bind fun k k' hk hk' => ?_
      subst hk hk'
      exact hreduce k k' rfl rfl next next' hnext
    refine (hrest.and_gives (· ≠ e) (· ≠ e') ?_ ?_).mono
      fun r r' hr => ⟨hr.1, by simp [hr.2.1, hr.2.2]⟩
    · intro r hr
      obtain ⟨_, _, hr⟩ := CheckM.gives_bind hr
      exact hmoves next r hgives hr
    · intro r hr
      obtain ⟨_, _, hr⟩ := CheckM.gives_bind hr
      exact hmoves' next' r hgives' hr

/-- A step of a spine. -/
theorem sim_stepSpine {head head' : Term} {args args' : List Term} (hhead : R.term w head head')
    (hargs : List.Forall₂ (R.term w) args args')
    (hstep : R.Sim n n' (Option.Rel (R.term w)) step step')
    (hmoves : ∀ next r, step.Gives (some next) → (c.reducer δ Γ n next).Gives r → r ≠ head)
    (hmoves' : ∀ next r, step'.Gives (some next) → (c'.reducer δ Γ' n' next).Gives r → r ≠ head') :
    R.Sim n n' (Option.Rel (R.term w)) (c.stepSpine (c.reducer δ Γ n) head args step)
      (c'.stepSpine (c'.reducer δ Γ' n') head' args' step') := by
  cases hargs with
  | nil => exact hstep
  | @cons a a' rest rest' ha hrest =>
    refine (h.sim_settle hreduce hhead hstep hmoves hmoves').bind fun r r' ⟨hr, hmoved⟩ => ?_
    -- without a function at the head, the comparison with the old head decides
    have hstuck : R.Sim n n' (Option.Rel (R.term w))
        (pure (if r = head then none else some (r.apps (a :: rest))))
        (pure (if r' = head' then none else some (r'.apps (a' :: rest')))) := by
      refine .pure ?_
      by_cases heq : r = head
      · rw [if_pos heq, if_pos (hmoved.mp heq)]
        exact .none
      · rw [if_neg heq, if_neg fun heq' => heq (hmoved.mpr heq')]
        exact .some (h.apps hr (.cons ha hrest))
    cases h.form hr with
    | bind k _ _ hb =>
      cases k with
      | lam => exact .pure (.some (h.apps (h.instantiate hb ha) hrest))
      | _ => exact hstuck
    | _ => exact hstuck

/-- **Related terms take related head steps.** By induction on the left term. -/
theorem sim_headStep (hΓ : R.context w Γ Γ')
    {e e' : Term} {args args' : List Term} (he : R.term w e e')
    (hargs : List.Forall₂ (R.term w) args args') :
    R.Sim n n' (Option.Rel (R.term w)) (c.headStep δ Γ (c.reducer δ Γ n) e args)
      (c'.headStep δ Γ' (c'.reducer δ Γ' n') e' args') := by
  -- the step that `stepSpine` is given is the head step without arguments
  have hmoves : ∀ x next r, (c.headStep δ Γ (c.reducer δ Γ n) x []).Gives (some next) →
      (c.reducer δ Γ n next).Gives r → r ≠ x := fun _ _ _ => Checker.ne_of_gives_reducer
  have hmoves' : ∀ x next r, (c'.headStep δ Γ' (c'.reducer δ Γ' n') x []).Gives (some next) →
      (c'.reducer δ Γ' n' next).Gives r → r ≠ x := fun _ _ _ => Checker.ne_of_gives_reducer
  induction e generalizing e' args args' with
  | app f a ihf _ =>
    cases h.form he with
    | app hf ha =>
      have hstep := ihf hf (.cons ha hargs)
      exact hstep
  | proj k p ih =>
    cases h.form he with
    | @proj _ _ p' hp =>
      refine h.sim_stepSpine hreduce he hargs ?_ (hmoves (.proj k p)) (hmoves' (.proj k p'))
      refine (h.sim_settle hreduce hp (ih hp .nil) (hmoves p) (hmoves' p')).bind
        fun target target' htarget => ?_
      exact .pure (h.component? k htarget.1)
  | letE x t v b =>
    cases h.form he with
    | letE hx ht hv hb =>
      exact h.sim_stepSpine hreduce he hargs (.pure (.some (h.instantiate hb hv)))
        (hmoves (.letE x t v b)) (hmoves' (.letE _ _ _ _))
  | bvar i =>
    cases h.form he with
    | bvar _ i' =>
      refine h.sim_stepSpine hreduce he hargs ?_ (hmoves (.bvar i)) (hmoves' (.bvar i'))
      obtain ⟨hnone, hnone', herror⟩ | ⟨entry, entry', hsome, hsome', _, hvalue⟩ := h.lookup hΓ he
      · rw [hnone, hnone']
        exact .throw herror
      · rw [hsome, hsome']
        exact .pure hvalue
  | const x levels =>
    cases h.form he
    refine h.sim_stepSpine hreduce he hargs (.pure ?_) (hmoves (.const x levels))
      (hmoves' (.const x levels))
    cases δ with
    | true => exact h.unfolded? he
    | false => exact .none
  | fvar x =>
    cases h.form he
    exact h.sim_stepSpine hreduce he hargs (.pure .none) (hmoves (.fvar x)) (hmoves' (.fvar x))
  | sort l =>
    cases h.form he
    exact h.sim_stepSpine hreduce he hargs (.pure .none) (hmoves (.sort l)) (hmoves' (.sort l))
  | bind k x t b =>
    cases h.form he
    exact h.sim_stepSpine hreduce he hargs (.pure .none) (hmoves (.bind k x t b))
      (hmoves' (.bind k _ _ _))
  | pair a b =>
    cases h.form he
    exact h.sim_stepSpine hreduce he hargs (.pure .none) (hmoves (.pair a b)) (hmoves' (.pair _ _))

/-- One step of the loop: a head step, and then the rest of the reduction. -/
theorem sim_reduceHead_step (hΓ : R.context w Γ Γ') {e e' : Term} (he : R.term w e e') :
    R.Sim n n' (R.term w) (c.reduceHead δ Γ n e) (c'.reduceHead δ Γ' n' e') := by
  rw [Checker.reduceHead_eq, Checker.reduceHead_eq]
  have hstep := h.sim_headStep hreduce hΓ he .nil
  refine (h.sim_settle hreduce he hstep ?_ ?_).mono fun r r' hr => hr.1
  · exact fun _ _ => Checker.ne_of_gives_reducer
  · exact fun _ _ => Checker.ne_of_gives_reducer

end

/-! ## Normal forms -/

/-- **Related terms have related weak-head normal forms.** By induction on the
left bound, against every right one. -/
theorem sim_reduceHead (hΓ : R.context w Γ Γ') {e e' : Term} (he : R.term w e e') :
    R.Sim n n' (R.term w) (c.reduceHead δ Γ n e) (c'.reduceHead δ Γ' n' e') := by
  induction n generalizing n' e e' with
  | zero => exact h.sim_reduceHead_step (fun k _ hk => absurd hk.symm k.succ_ne_zero) hΓ he
  | succ n ih =>
    refine h.sim_reduceHead_step (fun k k' hk _ x x' hx => ?_) hΓ he
    cases hk
    exact ih hx

/-- Reduction goes side by side: the loops are given all the steps that are left. -/
theorem sim_reduce (hΓ : R.context w Γ Γ') {e e' : Term} (he : R.term w e e') :
    R.Sim n n' (R.term w) (c.reduce δ Γ e) (c'.reduce δ Γ' e') :=
  .remaining_bind fun _ _ => h.sim_reduceHead hΓ he

theorem sim_whnf (hΓ : R.context w Γ Γ') {e e' : Term} (he : R.term w e e') :
    R.Sim n n' (R.term w) (c.whnf e Γ) (c'.whnf e' Γ') := by
  refine h.remembered (q := .whnf) (fun w hΓ he k k' => ?_) w hΓ he n n'
  exact (Sim.modify (fun _ _ => h.calls 0 1 0) (fun _ => rfl) fun _ => rfl).bind
    fun _ _ _ => h.sim_reduce hΓ he

theorem sim_whnfCore (hΓ : R.context w Γ Γ') {e e' : Term} (he : R.term w e e') :
    R.Sim n n' (R.term w) (c.whnfCore e Γ) (c'.whnfCore e' Γ') :=
  h.remembered (q := .core) (fun _ hΓ he _ _ => h.sim_reduce hΓ he) w hΓ he n n'

end Lawful

/-! ## Full normal forms -/

section

variable {α α' β β' : Type} {value : α → α' → Prop} {value' : β → β' → Prop}

/-- A computation that is never cut short goes side by side as one that may be. -/
theorem Sim.lift {m : CheckM α} {m' : CheckM α'} (hm : R.Sim n n' value m m') :
    R.Sim n n' (Option.Rel value) (liftM m : OptionT CheckM α).run
      (liftM m' : OptionT CheckM α').run :=
  hm.bind fun _ _ ha => .pure (.some ha)

/-- Sequences of computations that may find nothing. -/
theorem Sim.bindOption {m : OptionT CheckM α} {m' : OptionT CheckM α'}
    {f : α → OptionT CheckM β} {f' : α' → OptionT CheckM β'}
    (hm : R.Sim n n' (Option.Rel value) m.run m'.run)
    (hf : ∀ a a', value a a' → R.Sim n n' (Option.Rel value') (f a).run (f' a').run) :
    R.Sim n n' (Option.Rel value') (m >>= f).run (m' >>= f').run := by
  refine hm.bind fun o o' ho => ?_
  cases ho with
  | none => exact .pure .none
  | some ha => exact hf _ _ ha

/-- Going through related lists goes side by side if the work on related members does. -/
theorem Sim.mapOption {f : α → OptionT CheckM β} {f' : α' → OptionT CheckM β'} {as : List α}
    {as' : List α'} (has : List.Forall₂ value as as')
    (hf : ∀ a a', value a a' → R.Sim n n' (Option.Rel value') (f a).run (f' a').run) :
    R.Sim n n' (Option.Rel (List.Forall₂ value')) (as.mapM f).run (as'.mapM f').run := by
  induction has with
  | nil => exact .pure (.some .nil)
  | cons ha _ ih =>
    rw [List.mapM_cons, List.mapM_cons]
    refine (hf _ _ ha).bindOption fun b b' hb => ?_
    exact ih.bindOption fun bs bs' hbs => .pure (.some (.cons hb hbs))

end

namespace Lawful

variable (h : R.Lawful)

include h

/-- Normalization goes side by side within any nesting, by induction on the nesting. -/
theorem sim_normalizeWithin (d : Nat) {e e' : Term} (hΓ : R.context w Γ Γ')
    (he : R.term w e e') : R.Sim n n' (Option.Rel (R.term w)) (c.normalizeWithin d e Γ).run
      (c'.normalizeWithin d e' Γ').run := by
  induction d generalizing w Γ Γ' e e' with
  | zero => exact .pure .none
  | succ d ih =>
    refine (h.sim_whnf hΓ he).lift.bindOption fun r r' hr => ?_
    cases h.form hr with
    | bind k hx ht hb =>
      refine (ih hΓ ht).bindOption fun t t' ht' => ?_
      refine (ih (h.push hΓ hx ht) hb).bindOption fun b b' hb' => ?_
      exact .pure (.some (h.build rfl (.bind k hx ht' hb')))
    | app =>
      obtain ⟨hhead, hargs⟩ := h.spine hr
      refine (ih hΓ hhead).bindOption fun f f' hf => ?_
      refine (Sim.mapOption hargs fun a a' ha => ih hΓ ha).bindOption fun as as' has => ?_
      exact .pure (.some (h.apps hf has))
    | pair ha hb =>
      refine (ih hΓ ha).bindOption fun a a' ha' => ?_
      refine (ih hΓ hb).bindOption fun b b' hb' => ?_
      exact .pure (.some (h.build rfl (.pair ha' hb')))
    | proj k hp =>
      refine (ih hΓ hp).bindOption fun p p' hp' => ?_
      exact .pure (.some (h.build rfl (.proj k hp')))
    | _ => exact .pure (.some hr)

/-- **Related terms have related normal forms.** -/
theorem sim_normalize {e e' : Term} (hΓ : R.context w Γ Γ') (he : R.term w e e') :
    R.Sim n n' (Option.Rel (R.term w)) (c.normalize e Γ) (c'.normalize e' Γ') :=
  h.sim_normalizeWithin _ hΓ he

end Lawful

end Correspondence

end TypeTheory
