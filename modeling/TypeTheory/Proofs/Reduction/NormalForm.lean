import TypeTheory.Proofs.Conversion.Joinability
import TypeTheory.Proofs.Reduction.Nesting
import TypeTheory.Proofs.Reduction.WeakHead

/-!
# Normal forms

`Normalizes sig d Γ e n` says by rules what normalization computes: the weak-head
normal form of `e`, with its parts normalized in turn, nested `d` deep at most. A run
that comes to a term has computed it in this way (`Checker.normalizes_of_run`).

Three facts about such a term, none of which implies another: it is reached by steps
(`Normalizes.rewrites`), no step leads away from it (`Term.NormalWithin.not_step`), and
the checker leaves it as it is without spending a step
(`Checker.run_of_normalWithin`). The last two rest on one: what is built of normalized
parts is in weak-head normal form again, because a normalized head is a function, and a
normalized target a pair, only if it was one before (`Normalizes.normalWithin`).
-/

namespace TypeTheory

open CheckM Relation

/-! ## Spines and parts -/

namespace Term

theorem spineOnto_apps (f : Term) (args rest : List Term) :
    (f.apps args).spineOnto rest = f.spineOnto (args ++ rest) := by
  induction args generalizing f with
  | nil => rfl
  | cons a args ih => exact ih (app f a)

/-- A spine is taken apart where it was put together. -/
theorem spine_apps {h : Term} (hhead : h.head = h) (args : List Term) :
    (h.apps args).spine = (h, args) := by
  rw [spine, spineOnto_apps, List.append_nil]
  cases h with
  | app f a => exact absurd hhead (Checker.head_ne_app _ f a)
  | _ => rfl

/-- An application is a head with at least one argument. -/
theorem exists_apps (f a : Term) :
    ∃ (h b : Term) (bs : List Term), app f a = h.apps (b :: bs) ∧ h.head = h := by
  induction f generalizing a with
  | app g c ihg _ =>
    obtain ⟨h, b, bs, heq, hhead⟩ := ihg c
    refine ⟨h, b, bs ++ [a], ?_, hhead⟩
    rw [heq]
    simp [apps]
  | _ => exact ⟨_, a, [], rfl, rfl⟩

/-- A head with arguments is an application. -/
theorem exists_app (h b : Term) (bs : List Term) : ∃ f a, h.apps (b :: bs) = app f a := by
  induction bs generalizing h b with
  | nil => exact ⟨h, b, rfl⟩
  | cons b' bs ih => exact ih (app h b) b'

/-- The parts of a spine are its head and its arguments, if the head is no spine itself. -/
theorem parts_apps {h : Term} (hhead : h.head = h) (Γ : Context) (b : Term) (bs : List Term) :
    (h.apps (b :: bs)).parts Γ = (Γ, h) :: (b :: bs).map (Γ, ·) := by
  have hspine := spine_apps hhead (b :: bs)
  obtain ⟨f, a, heq⟩ := exists_app h b bs
  rw [heq] at hspine ⊢
  rw [parts, hspine]

theorem rebuild_apps (h b : Term) (bs : List Term) (f : Term) (args : List Term) :
    (h.apps (b :: bs)).rebuild (f :: args) = f.apps args := by
  obtain ⟨g, a, heq⟩ := exists_app h b bs
  rw [heq]
  rfl

/-- A form is built of its parts. -/
theorem rebuild_parts (n : Term) (Γ : Context) : n.rebuild ((n.parts Γ).map (·.2)) = n := by
  cases n with
  | app f a =>
    obtain ⟨h, b, bs, heq, hhead⟩ := exists_apps f a
    rw [heq, parts_apps hhead, List.map_cons, rebuild_apps]
    simp
  | bvar | fvar | sort | const | bind | letE | pair | proj => rfl

/-- The first term is a form, and the second one is that form with other parts, each
related to the one before by `R` in its context. -/
inductive Rebuilt (R : Context → Term → Term → Prop) (Γ : Context) : Term → Term → Prop
  | leaf {w : Term} : w.parts Γ = [] → Rebuilt R Γ w w
  | bind {k : Binder} {x : Name} {t t' b b' : Term} : R Γ t t' → R (Γ.push x t) b b' →
      Rebuilt R Γ (.bind k x t b) (.bind k x t' b')
  | apps {h h' a a' : Term} {as as' : List Term} : h.head = h → R Γ h h' → R Γ a a' →
      List.Forall₂ (R Γ) as as' → Rebuilt R Γ (h.apps (a :: as)) (h'.apps (a' :: as'))
  | pair {a a' b b' : Term} : R Γ a a' → R Γ b b' → Rebuilt R Γ (.pair a b) (.pair a' b')
  | proj {k : Side} {p p' : Term} : R Γ p p' → Rebuilt R Γ (.proj k p) (.proj k p')

/-- **A form with its parts exchanged**, form by form. -/
theorem rebuilt_of_parts {R : Context → Term → Term → Prop} {Γ : Context} {w : Term}
    {ns : List Term} (h : List.Forall₂ (fun x m => R x.1 x.2 m) (w.parts Γ) ns) :
    w.Rebuilt R Γ (w.rebuild ns) := by
  cases w with
  | bind k x t b =>
    obtain _ | ⟨ht, _ | ⟨hb, _ | _⟩⟩ := h
    exact .bind ht hb
  | app f a =>
    obtain ⟨g, b, bs, heq, hhead⟩ := exists_apps f a
    rw [heq, parts_apps hhead, List.map_cons] at h
    obtain _ | ⟨hg, _ | ⟨hb, hbs⟩⟩ := h
    rw [List.forall₂_map_left_iff] at hbs
    rw [heq, rebuild_apps]
    exact .apps hhead hg hb hbs
  | pair a b =>
    obtain _ | ⟨ha, _ | ⟨hb, _ | _⟩⟩ := h
    exact .pair ha hb
  | proj k p =>
    obtain _ | ⟨hp, _ | _⟩ := h
    exact .proj hp
  | bvar | fvar | sort | const | letE =>
    cases h
    exact .leaf rfl

end Term

/-! ## Normalization by rules -/

/-- **The normal form of a term**, found within the given nesting. -/
def Normalizes (sig : Signature) : (depth : Nat) → Context → Term → Term → Prop
  | 0, _, _, _ => False
  | d + 1, Γ, e, n => ∃ w, Evaluates sig true Γ e w ∧ w.Rebuilt (Normalizes sig d) Γ n

/-- A weak-head normal form whose parts are normal forms, nested no deeper than
given. -/
def Term.NormalWithin (sig : Signature) : (depth : Nat) → Context → Term → Prop
  | 0, _, _ => False
  | d + 1, Γ, n => n.Normal sig true Γ ∧ ∀ x ∈ n.parts Γ, x.2.NormalWithin sig d x.1

variable {sig : Signature} {ν : List (Option Term)} {Γ Δ : Context} {d : Nat} {e n w : Term}

/-- A term that is normal to any depth is in weak-head normal form. -/
theorem Term.NormalWithin.normal (h : n.NormalWithin sig d Γ) : n.Normal sig true Γ := by
  cases d with
  | zero => exact h.elim
  | succ d => exact h.1

/-! ## Steps to the normal form -/

/-- Steps in the head and in the arguments of a spine are steps of the spine. -/
theorem Rewrites.apps {h h' : Term} {as as' : List Term} (hh : Rewrites sig ν h h')
    (has : List.Forall₂ (Rewrites sig ν) as as') :
    Rewrites sig ν (h.apps as) (h'.apps as') := by
  induction has generalizing h h' with
  | nil => exact hh
  | @cons a a' as as' ha _ ih =>
    refine ih ?_
    calc
      Rewrites sig ν (.app h a) (.app h' a) := hh.lift (Term.app · a) fun _ _ => .fn a
      Rewrites sig ν (.app h' a) (.app h' a') := ha.lift (Term.app h') fun _ _ => .arg h'

/-- **A normal form is reached by steps.** -/
theorem Normalizes.rewrites (h : Normalizes sig d Γ e n) : Rewrites sig Γ.values e n := by
  induction d generalizing Γ e n with
  | zero => exact h.elim
  | succ d ih =>
    obtain ⟨w, hw, hn⟩ := h
    refine hw.steps.trans ?_
    cases hn with
    | leaf => exact .refl
    | @bind k x t t' b b' ht hb =>
      exact ((ih ht).lift (Term.bind k x · b) fun _ _ => .domain k x b).trans
        ((ih hb).lift (Term.bind k x t') fun _ _ => .body k x t')
    | apps _ hh ha has => exact (ih hh).apps (.cons (ih ha) (has.imp fun _ _ => ih))
    | @pair a a' b b' ha hb =>
      exact ((ih ha).lift (Term.pair · b) fun _ _ => .left b).trans
        ((ih hb).lift (Term.pair a') fun _ _ => .right a')
    | @proj k p p' hp => exact (ih hp).lift (Term.proj k) fun _ _ => .target k

/-! ## Normal forms -/

theorem Context.values_eq_none {i : Nat} :
    Γ.values[i]? = some none ↔ ∃ entry, Γ[i]? = some entry ∧ entry.value = none := by
  rw [values_getElem?, Option.map_eq_some_iff]

/-- What is built of the parts of a form is of that form, as far as a head or a target
is looked at. -/
structure Term.SameForm (w n : Term) : Prop where
  isLam : n.isLam = w.isLam
  isPair : n.isPair = w.isPair
  head : w.head = w → n.head = n

/-- A term that is rebuilt from its parts keeps its form: a function, a pair, a head. -/
theorem Term.Rebuilt.sameForm {R : Context → Term → Term → Prop} (h : w.Rebuilt R Γ n) :
    w.SameForm n := by
  cases h with
  | leaf => exact ⟨rfl, rfl, id⟩
  | @bind k => exact ⟨by cases k <;> rfl, rfl, fun _ => rfl⟩
  | @apps h h' a a' as as' =>
    obtain ⟨f, b, heq⟩ := exists_app h a as
    obtain ⟨f', b', heq'⟩ := exists_app h' a' as'
    rw [heq, heq']
    exact ⟨rfl, rfl, fun hhead => absurd hhead (Checker.head_ne_app _ f b)⟩
  | pair | proj => exact ⟨rfl, rfl, fun _ => rfl⟩

/-- The head of a normal spine is a normal form and no function. -/
theorem Term.Normal.of_apps {δ : Bool} {h a : Term} {as : List Term}
    (hn : (h.apps (a :: as)).Normal sig δ Γ) : h.Normal sig δ Γ ∧ h.isLam = false := by
  induction as generalizing h a with
  | nil => exact hn
  | cons b as ih => exact (ih hn).1

/-- **Normalization comes to a normal form** of the form that the value has, in every
context with the same values. -/
theorem Normalizes.normalWithin (h : Normalizes sig d Γ e n) (hΔ : Δ.values = Γ.values) :
    n.NormalWithin sig d Δ ∧ ∀ w, Evaluates sig true Γ e w → w.SameForm n := by
  induction d generalizing Γ Δ e n with
  | zero => exact h.elim
  | succ d ih =>
    obtain ⟨w, hw, hn⟩ := h
    refine ⟨?_, fun w' hw' => hw.unique hw' ▸ hn.sameForm⟩
    have hnormal := hw.normal
    cases hn with
    | leaf hparts =>
      cases n with
      | bvar i =>
        obtain ⟨entry, hentry⟩ :=
          Context.values_eq_none.mp (hΔ ▸ Context.values_eq_none.mpr hnormal)
        exact ⟨⟨entry, hentry⟩, fun x hx => by cases hx⟩
      | letE => exact hnormal.elim
      | fvar | sort | const => exact ⟨hnormal, fun x hx => by cases hx⟩
      | app | bind | pair | proj => cases hparts
    | @bind k x t t' b b' ht hb =>
      -- the type of the variable is another one now, but it has no value either
      have hΔ' : (Δ.push x t').values = (Γ.push x t).values := by simp [hΔ]
      refine ⟨trivial, List.forall_mem_cons.mpr ⟨(ih ht hΔ).1, ?_⟩⟩
      exact List.forall_mem_singleton.mpr (ih hb hΔ').1
    | @apps h h' a a' as as' hhead hh ha has =>
      obtain ⟨hhnormal, hlam⟩ := hnormal.of_apps
      obtain ⟨hh', hform⟩ := ih hh hΔ
      -- the head was no function, so the normalized head is none
      have hform := hform h hhnormal.evaluates
      have hargs : List.Forall₂ (fun m a => m.NormalWithin sig d Δ ∧ Normalizes sig d Γ a m)
          (a' :: as') (a :: as) :=
        List.Forall₂.flip (.cons ⟨(ih ha hΔ).1, ha⟩ (has.imp fun _ _ hm => ⟨(ih hm hΔ).1, hm⟩))
      refine ⟨hh'.normal.apps (hform.isLam.trans hlam) _, ?_⟩
      rw [Term.parts_apps (hform.head hhead)]
      exact List.forall_mem_cons.mpr
        ⟨hh', List.forall_mem_map.mpr ((List.forall₂_and_left _ _).mp hargs).1⟩
    | pair ha hb =>
      refine ⟨trivial, List.forall_mem_cons.mpr ⟨(ih ha hΔ).1, ?_⟩⟩
      exact List.forall_mem_singleton.mpr (ih hb hΔ).1
    | @proj k p p' hp =>
      obtain ⟨q, hq, hnone⟩ := hnormal
      obtain ⟨hp', hform⟩ := ih hp hΔ
      refine ⟨⟨p', hp'.normal.evaluates, ?_⟩, List.forall_mem_singleton.mpr hp'⟩
      rw [Term.component?_eq_none_iff] at hnone ⊢
      rw [(hform q hq).isPair, hnone]

/-! ## No step leads on -/

/-- A spine without a redex at its head takes no step if neither its head nor an argument does. -/
theorem not_step_apps {h : Term} {as : List Term} (hlam : h.isLam = false)
    (hh : ∀ y, ¬ Step sig ν h y) (has : ∀ a ∈ as, ∀ y, ¬ Step sig ν a y) :
    ∀ y, ¬ Step sig ν (h.apps as) y := by
  induction as generalizing h with
  | nil => exact hh
  | cons a as ih =>
    obtain ⟨ha, has⟩ := List.forall_mem_cons.mp has
    refine ih rfl (fun y hy => ?_) has
    cases hy with
    | beta => cases hlam
    | fn _ hf => exact hh _ hf
    | arg _ hstep => exact ha _ hstep

/-- **A normal form contains no redex**, under binders and in arguments included. -/
theorem Term.NormalWithin.not_step (h : n.NormalWithin sig d Γ) (y : Term) :
    ¬ Step sig Γ.values n y := by
  induction d generalizing Γ n y with
  | zero => exact h.elim
  | succ d ih =>
    obtain ⟨hnormal, hparts⟩ := h
    have hpart (x : Context × Term) (hx : x ∈ n.parts Γ) (y : Term) :
        ¬ Step sig x.1.values x.2 y := ih (hparts x hx) y
    intro hstep
    cases n with
    | app f a =>
      obtain ⟨g, b, bs, heq, hhead⟩ := Term.exists_apps f a
      rw [heq] at hstep hnormal hpart
      rw [Term.parts_apps hhead] at hpart
      refine not_step_apps hnormal.of_apps.2 (hpart (Γ, g) List.mem_cons_self) ?_ y hstep
      intro m hm
      exact hpart (Γ, m) (List.mem_cons_of_mem _ (List.mem_map_of_mem hm))
    | bvar i =>
      cases hstep with
      | lookup hv =>
        rw [Context.values_eq_none.mpr hnormal] at hv
        cases hv
    | const m ls =>
      cases hstep with
      | delta hv =>
        have hnone : sig.headUnfolded? (.const m ls) = none := hnormal
        rw [hnone] at hv
        cases hv
    | bind k x t b =>
      cases hstep with
      | domain _ _ _ ht => exact hpart (Γ, t) List.mem_cons_self _ ht
      | body _ _ _ hb => exact hpart (Γ.push x t, b) (by simp [Term.parts]) _ hb
    | letE => exact hnormal
    | pair a b =>
      cases hstep with
      | left _ ha => exact hpart (Γ, a) List.mem_cons_self _ ha
      | right _ hb => exact hpart (Γ, b) (by simp [Term.parts]) _ hb
    | proj k p =>
      have htarget := hparts (Γ, p) List.mem_cons_self
      cases hstep with
      | iota hq =>
        obtain ⟨p', hp', hnone⟩ := hnormal
        rw [htarget.normal.eq_of_evaluates hp', hq] at hnone
        cases hnone
      | target _ hp => exact hpart (Γ, p) List.mem_cons_self _ hp
    | fvar | sort => cases hstep

/-! ## Nothing is left to pay -/

namespace Checker

variable {c : Checker} {p q : Progress}

theorem settle_pure_none (reduce : Term → CheckM Term) (e : Term) :
    c.settle reduce e (pure none) = pure e := rfl

/-- A head steps in front of arguments as the head of a spine. -/
theorem headStep_of_head {h : Term} (hhead : h.head = h) (reduce : Term → CheckM Term)
    (args : List Term) : c.headStep true Γ reduce h args =
      c.stepSpine reduce h args (c.headStep true Γ reduce h []) := by
  cases h with
  | app f a => exact absurd hhead (head_ne_app _ f a)
  | _ => rfl

/-- **No head step is taken on a normal form**, and none is paid for to see that. -/
theorem headStep_of_normalWithin (h : n.NormalWithin c.const? d Γ) (reduce : Term → CheckM Term) :
    c.headStep true Γ reduce n [] = pure none := by
  induction d generalizing Γ n with
  | zero => exact h.elim
  | succ d ih =>
    obtain ⟨hnormal, hparts⟩ := h
    cases n with
    | app f a =>
      obtain ⟨g, b, bs, heq, hhead⟩ := Term.exists_apps f a
      rw [heq] at hnormal hparts ⊢
      rw [Term.parts_apps hhead] at hparts
      have hg : c.headStep true Γ reduce g [] = pure none := ih (hparts (Γ, g) List.mem_cons_self)
      rw [headStep_apps, headStep_of_head hhead, stepSpine_cons, hg, settle_pure_none, pure_bind,
        spineStep_of_not_isLam hnormal.of_apps.2, if_pos rfl]
    | bvar i =>
      obtain ⟨entry, hentry, hvalue⟩ := hnormal
      simp [headStep, stepSpine, hentry, hvalue]
    | const m ls =>
      have hnone : Signature.headUnfolded? c.const? (.const m ls) = none := hnormal
      simp [headStep, stepSpine, unfolded?_eq, hnone]
    | letE => exact hnormal.elim
    | proj k p =>
      have htarget := hparts (Γ, p) List.mem_cons_self
      have hp : c.headStep true Γ reduce p [] = pure none := ih htarget
      obtain ⟨p', hp', hnone⟩ := hnormal
      -- the target comes to itself, so it is the target that is no pair
      rw [htarget.normal.eq_of_evaluates hp'] at hnone
      rw [headStep, stepSpine, hp, settle_pure_none, pure_bind, hnone]
    | fvar | sort | bind | pair => rfl

/-- Reduction leaves a normal form as it is, and the state too: no step is paid for. -/
theorem reduce_of_normalWithin (h : n.NormalWithin c.const? d Γ) (p : Progress) :
    c.reduce true Γ n p = .ok n p := by
  refine EStateM.bind_eq_ok.mpr ⟨_, p, rfl, ?_⟩
  rw [reduceHead_eq, headStep_of_normalWithin h]
  rfl

/-! ## Tables -/

/-- What is remembered holds in every context: nothing is remembered, or the values of
closed terms are those of closed terms. -/
def Reliable (c : Checker) : Prop :=
  c.memoize = true → c.SeesClosed

section

variable (hc : c.Reliable)

include hc

theorem Reliable.keep {r : Term} (hp : p.Right c.const?) (he : Evaluates c.const? true Γ e r) :
    (c.keep .whnf e r p).Right c.const? := by
  cases hmemoize : c.memoize with
  | true => exact hp.keep (evaluates_of_closed (hc hmemoize) he)
  | false =>
    rw [keep_of_not_memoize hmemoize]
    exact hp

/-- Weak head reduction gives the value of a term and keeps the tables right, for a checker whose
tables can be relied on. -/
theorem Reliable.keeps_whnf (e : Term) (Γ : Context) :
    Keeps (Progress.Right c.const?) (Evaluates c.const? true Γ e) (c.Valueless true Γ e)
      (c.whnf e Γ) :=
  keeps_remembered (keeps_answer_whnf e) (fun _ r hp hr => hp .whnf e r hr Γ)
    fun _ _ hp hr => hc.keep hp hr

/-- Requests leave the tables right. -/
theorem Reliable.right_after (requests : List Request) (hp : p.Right c.const?) :
    (c.after requests p).Right c.const? := by
  cases hmemoize : c.memoize with
  | true => exact Checker.right_after (hc hmemoize) requests hp
  | false =>
    refine after_of_ownRuns (lawful_ownRuns (fun _ hp => hp.tick)
      (fun _ i j k hp => hp.addCalls i j k) fun _ _ _ _ _ _ _ _ hs => ?_) requests hp
    rw [keep_of_not_memoize hmemoize]
    exact hs

end

end Checker

/-! ## Runs of parts -/

namespace CheckM

variable {α β : Type} {m : OptionT CheckM α} {f : α → OptionT CheckM β} {p q : Progress}

/-- A sequence that comes to a value has come to one in each of its parts. -/
theorem exists_of_run_bind {b : β} (h : (m >>= f).run p = .ok (some b) q) :
    ∃ a s, m.run p = .ok (some a) s ∧ (f a).run s = .ok (some b) q := by
  cases hm : m.run p with
  | error err s =>
    rw [run_bind_error hm] at h
    cases h
  | ok o s =>
    cases o with
    | none =>
      rw [run_bind_none hm] at h
      cases h
    | some a => exact ⟨a, s, rfl, run_bind_some hm ▸ h⟩

variable {inv : Progress → Prop}

/-- What each part comes to, if all of them come to something. -/
theorem forall₂_of_mapM {R : α → β → Prop}
    (hf : ∀ a b p q, inv p → (f a).run p = .ok (some b) q → R a b ∧ inv q) {as : List α}
    {bs : List β} (hp : inv p) (h : (as.mapM f).run p = .ok (some bs) q) :
    List.Forall₂ R as bs ∧ inv q := by
  induction as generalizing bs p q with
  | nil =>
    cases h
    exact ⟨.nil, hp⟩
  | cons a as ih =>
    rw [List.mapM_cons] at h
    obtain ⟨b, s, hb, h⟩ := exists_of_run_bind h
    obtain ⟨hab, hs⟩ := hf a b p s hp hb
    obtain ⟨bs', s', hbs, h⟩ := exists_of_run_bind h
    obtain ⟨habs, hs'⟩ := ih hs hbs
    cases h
    exact ⟨.cons hab habs, hs'⟩

theorem exists_run_mapM {g : α → β} {as : List α}
    (hf : ∀ a ∈ as, ∀ p, inv p → ∃ q, (f a).run p = .ok (some (g a)) q ∧ inv q) (hp : inv p) :
    ∃ q, (as.mapM f).run p = .ok (some (as.map g)) q ∧ inv q := by
  induction as generalizing p with
  | nil => exact ⟨p, rfl, hp⟩
  | cons a as ih =>
    obtain ⟨ha, has⟩ := List.forall_mem_cons.mp hf
    obtain ⟨s, hrun, hs⟩ := ha p hp
    obtain ⟨s', hrun', hs'⟩ := ih has hs
    refine ⟨s', ?_, hs'⟩
    rw [List.mapM_cons, run_bind_some hrun, run_bind_some hrun']
    rfl

end CheckM

namespace Checker

variable {c : Checker} {p q : Progress}

/-- **A run comes to the normal form that the rules give**, whatever is remembered. -/
theorem normalizes_of_run (hc : c.Reliable) (hp : p.Right c.const?)
    (hrun : (c.normalizeWithin d e Γ).run p = .ok (some n) q) :
    Normalizes c.const? d Γ e n ∧ q.Right c.const? := by
  induction d generalizing Γ e n p q with
  | zero => cases hrun
  | succ d ih =>
    rw [normalizeWithin_succ] at hrun
    obtain ⟨w, s, hlift, hrun⟩ := exists_of_run_bind hrun
    obtain ⟨w', s, hwhnf, hsome⟩ := EStateM.bind_eq_ok.mp hlift
    cases hsome
    obtain ⟨hw, hs⟩ := (hc.keeps_whnf e Γ).of_ok hp hwhnf
    obtain ⟨ns, s', hmap, hrun⟩ := exists_of_run_bind hrun
    obtain ⟨hparts, hs'⟩ := forall₂_of_mapM
      (fun (x : Context × Term) _ _ _ hp hpart => ih (e := x.2) (Γ := x.1) hp hpart) hs hmap
    cases hrun
    exact ⟨⟨w, hw, Term.rebuilt_of_parts hparts⟩, hs'⟩

/-- The weak-head normal form of a normal form is free. -/
theorem whnf_of_normalWithin (hc : c.Reliable) (h : n.NormalWithin c.const? d Γ)
    (hp : p.Right c.const?) :
    ∃ q, c.whnf n Γ p = .ok n q ∧ q.Right c.const? ∧ q.steps = p.steps := by
  rw [whnf, remembered_eq]
  cases hfind : (p.memo .whnf).find? n with
  | some r =>
    -- a table that is right holds the term itself
    have hr : r = n := h.normal.eq_of_evaluates (hp .whnf n r hfind Γ)
    exact ⟨p, by rw [hr], hp, rfl⟩
  | none =>
    have hcompute : c.answer .whnf n Γ p = .ok n (p.addCalls 0 1 0) :=
      EStateM.bind_eq_ok.mpr ⟨(), p.addCalls 0 1 0, rfl, reduce_of_normalWithin h _⟩
    refine ⟨c.keep .whnf n n (p.addCalls 0 1 0), ?_, hc.keep (hp.addCalls 0 1 0) h.normal.evaluates,
      steps_keep ..⟩
    exact congrArg (adjust (c.keep .whnf n)) hcompute

/-- **Normalizing a normal form changes nothing and costs nothing.** -/
theorem run_of_normalWithin (hc : c.Reliable) (h : n.NormalWithin c.const? d Γ)
    (hp : p.Right c.const?) :
    ∃ q, (c.normalizeWithin d n Γ).run p = .ok (some n) q ∧ q.Right c.const? ∧
      q.steps = p.steps := by
  induction d generalizing Γ n p with
  | zero => exact h.elim
  | succ d ih =>
    obtain ⟨s, hwhnf, hs, hsteps⟩ := whnf_of_normalWithin hc h hp
    have hpart (x : Context × Term) (hx : x ∈ n.parts Γ) (t : Progress)
        (ht : t.Right c.const? ∧ t.steps = p.steps) :
        ∃ t', (c.normalizeWithin d x.2 x.1).run t = .ok (some x.2) t' ∧
          t'.Right c.const? ∧ t'.steps = p.steps := by
      obtain ⟨t', hrun, ht', hsteps'⟩ := ih (h.2 x hx) ht.1
      exact ⟨t', hrun, ht', hsteps'.trans ht.2⟩
    obtain ⟨q, hmap, hq⟩ := exists_run_mapM hpart ⟨hs, hsteps⟩
    refine ⟨q, ?_, hq⟩
    rw [normalizeWithin_succ, run_bind_some (run_lift hwhnf), run_bind_some hmap]
    exact congrArg (fun m => EStateM.Result.ok (some m) q) (Term.rebuild_parts n Γ)

/-- **Normalization yields normal forms.** Whatever was asked before, the result for a term
in range is reached by steps anywhere in the term, and whatever the term steps to has signed
words as its loose indices. A result contains no redex, and is its own result: at any later
time, and within any budget, it is given back and nothing is spent. -/
theorem normalForm_of_normalize (hclosed : c.memoize = true → c.env.Closed)
    (requests : List Request)
    (hrun : c.normalize e Γ (c.after requests {}) = .ok (some n) q) :
    (c.InRange Γ [e] → Rewrites c.const? Γ.values e n ∧
      ∀ x, Rewrites c.const? Γ.values e x → x.looseRange < 2 ^ 63) ∧
    (∀ y, ¬ Step c.const? Γ.values n y) ∧
      ∀ (later : List Request) (limit : Nat), ∃ q',
        normalize { c with limit := limit } n Γ (c.after later q) = .ok (some n) q' ∧
          q'.steps = (c.after later q).steps := by
  have hc : c.Reliable := fun hmemoize => seesClosed_of_closed (hclosed hmemoize)
  have hstart : (c.after requests {}).Right c.const? :=
    hc.right_after requests (.of_blank Progress.blank_empty)
  obtain ⟨hn, hq⟩ := normalizes_of_run hc hstart hrun
  have hnormal := (hn.normalWithin rfl).1
  refine ⟨fun hrange => ⟨hn.rewrites, fun x hx => ?_⟩, hnormal.not_step, fun later limit => ?_⟩
  · exact hrange.looseRange_of_rewrites (by simp) hx
  obtain ⟨q', hrun', -, hsteps⟩ := run_of_normalWithin (c := { c with limit := limit }) hc hnormal
    (hc.right_after later hq)
  exact ⟨q', hrun', hsteps⟩

/-- A definition and a variable with a value below a binder, which together use up the
budget. The function that comes out is normalized again with no budget at all, after
another request. -/
theorem normalForm_of_normalize_binder :
    let name := fun x : String => Name.atom x
    let d : Declaration :=
      ⟨name "d", [], .sort .zero, some (.lam (name "x") (.sort .zero) (.bvar 0))⟩
    let c : Checker := { env := ⟨#[d]⟩, visible := 1, limit := 3, memoize := true }
    let Γ : Context := [⟨name "v", .bvar 0, some (.fvar (name "y"))⟩, ⟨name "A", .sort .zero, none⟩]
    let e := Term.lam (name "z") (.bvar 1) (.pair (.app (.const (name "d") []) (.bvar 0)) (.bvar 1))
    let n := Term.lam (name "z") (.bvar 1) (.pair (.bvar 0) (.fvar (name "y")))
    (c.memoize = true → c.env.Closed) ∧ c.InRange Γ [e] ∧
      ∃ q, c.normalize e Γ (c.after [] {}) = .ok (some n) q ∧
      Rewrites c.const? Γ.values e n ∧ (∀ y, ¬ Step c.const? Γ.values n y) ∧
      ∃ q', normalize { c with limit := 0 } n Γ (c.after [.normalize d.type Γ] q) =
        .ok (some n) q' ∧ q'.steps = (c.after [.normalize d.type Γ] q).steps := by
  intro name d c Γ e n
  have hclosed : c.memoize = true → c.env.Closed := fun _ => by
    unfold Environment.Closed
    decide
  obtain ⟨q, hrun⟩ : ∃ q, c.normalize e Γ (c.after [] {}) = .ok (some n) q :=
    value?_eq_some.mp (by decide +kernel)
  have hrange : c.InRange Γ [e] :=
    .of_forall (by decide +kernel) (by decide +kernel) (by decide +kernel) (by decide +kernel)
  obtain ⟨hreached, hnormal, hagain⟩ := normalForm_of_normalize hclosed [] hrun
  exact ⟨hclosed, hrange, q, hrun, (hreached hrange).1, hnormal,
    hagain [.normalize d.type Γ] 0⟩

end Checker

end TypeTheory
