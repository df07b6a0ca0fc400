import Mathlib.Tactic.Common
import TypeTheory.Checker.Basic
import TypeTheory.Computation

/-!
# Runs

`Gives m a` says that some run of `m` has the value `a`. For a checker that keeps
no results there is more to say of a run that succeeds: `Yields m post` says that
a run of `m` that starts without remembered results ends without them, and that
its value satisfies `post` if it has one. Computations are put together by
`Yields.bind`, and `yields_remembered` shows that remembering is then no more
than computing.

`Keeps inv post fail m` speaks of every run that starts in a state with `inv`, with
or without remembered results: it ends in one, with a value in `post` or an error
in `fail`.
-/

namespace TypeTheory

/-- Nothing is remembered. -/
def Progress.Blank (p : Progress) : Prop :=
  ∀ (q : Query) (e : Term), (p.memo q).find? e = none

/-- A fresh state remembers nothing. -/
theorem Progress.blank_empty : Progress.Blank {} := by
  intro q e
  cases q <;> rfl

/-- Counting calls does not touch the tables. -/
theorem Progress.Blank.congr {p p' : Progress} (h : p.Blank) (hm : ∀ q, p'.memo q = p.memo q) :
    p'.Blank := by
  intro q e
  rw [hm q]
  exact h q e

/-- Blankness looks at the three tables only, so a state with the same tables is as blank. -/
theorem Progress.Blank.of_tables {p p' : Progress} (h : p.Blank) (hwhnf : p'.whnf = p.whnf)
    (hcore : p'.core = p.core) (htype : p'.type = p.type) : p'.Blank :=
  h.congr fun q => by
    cases q with
    | whnf => exact hwhnf
    | core => exact hcore
    | type => exact htype

namespace CheckM

variable {α β : Type}

theorem get_bind (f : Progress → CheckM α) (p : Progress) : (get >>= f) p = f p p := rfl

/-- The value of a run, if it succeeds. -/
def value? (m : CheckM α) (p : Progress) : Option α :=
  match m p with
  | .ok a _ => some a
  | .error .. => none

/-- A computation has a value in a state just if it succeeds there, in whatever state it ends. -/
theorem value?_eq_some {m : CheckM α} {p : Progress} {a : α} :
    m.value? p = some a ↔ ∃ q, m p = .ok a q := by
  unfold value?
  cases m p <;> simp

/-- A result with another state in place of its own, if it has a value. -/
def adjust (f : α → Progress → Progress) :
    EStateM.Result KernelError Progress α → EStateM.Result KernelError Progress α
  | .ok a p => .ok a (f a p)
  | .error e p => .error e p

/-- The computation can give this value. -/
def Gives (m : CheckM α) (a : α) : Prop :=
  ∃ p q, m p = .ok a q

theorem gives_pure {a b : α} (h : Gives (pure a) b) : b = a := by
  obtain ⟨p, q, hrun⟩ := h
  cases hrun
  rfl

theorem not_gives_throw {e : KernelError} {a : α} : ¬ Gives (throw e) a := by
  rintro ⟨p, q, hrun⟩
  cases hrun

/-- A sequence has a value by way of a value of its first part. -/
theorem gives_bind {m : CheckM α} {f : α → CheckM β} {b : β} (h : Gives (m >>= f) b) :
    ∃ a, m.Gives a ∧ (f a).Gives b := by
  obtain ⟨p, q, hrun⟩ := h
  obtain ⟨a, s, hm, hf⟩ := EStateM.bind_eq_ok.mp hrun
  exact ⟨a, ⟨p, s, hm⟩, s, q, hf⟩

/-- A run from a blank state that succeeds ends in one, with a value in `post`. -/
def Yields (m : CheckM α) (post : α → Prop) : Prop :=
  ∀ p a q, p.Blank → m p = .ok a q → q.Blank ∧ post a

variable {m : CheckM α} {post : α → Prop}

theorem Yields.pure {a : α} (h : post a) : Yields (pure a) post := by
  intro p b q hp hrun
  cases hrun
  exact ⟨hp, h⟩

theorem Yields.throw {e : KernelError} : Yields (throw e) post := by
  intro p b q _ hrun
  cases hrun

/-- Computations are put together: what the first part yields is what the second may rely on. -/
theorem Yields.bind {f : α → CheckM β} {post' : β → Prop} (hm : Yields m post)
    (hf : ∀ a, post a → Yields (f a) post') : Yields (m >>= f) post' := by
  intro p b q hp hrun
  obtain ⟨a, s, hma, hfa⟩ := EStateM.bind_eq_ok.mp hrun
  obtain ⟨hs, ha⟩ := hm p a s hp hma
  exact hf a ha s b q hs hfa

/-- A sequence whose first part is run for its effect. -/
theorem Yields.andThen {f : α → CheckM β} {post' : β → Prop} (hm : Yields m fun _ => True)
    (hf : ∀ a, Yields (f a) post') : Yields (m >>= f) post' :=
  hm.bind fun a _ => hf a

theorem Yields.mono {post' : α → Prop} (hm : Yields m post) (h : ∀ a, post a → post' a) :
    Yields m post' := by
  intro p a q hp hrun
  obtain ⟨hq, ha⟩ := hm p a q hp hrun
  exact ⟨hq, h a ha⟩

/-- How a run has ended: with a value in `post` or an error in `fail`, and in a
state with `inv` either way. -/
def Ends (inv : Progress → Prop) (post : α → Prop) (fail : KernelError → Prop) :
    EStateM.Result KernelError Progress α → Prop
  | .ok a p => post a ∧ inv p
  | .error e p => fail e ∧ inv p

/-- The state in which a run has ended. -/
def state : EStateM.Result KernelError Progress α → Progress
  | .ok _ p => p
  | .error _ p => p

/-- Whether a run succeeds or fails, the state it ends in satisfies the invariant. -/
theorem Ends.state {inv : Progress → Prop} {fail : KernelError → Prop}
    {r : EStateM.Result KernelError Progress α} (h : Ends inv post fail r) : inv (state r) := by
  cases r with
  | ok => exact h.2
  | error => exact h.2

/-- Every run from a state with `inv` ends as it should. -/
def Keeps (inv : Progress → Prop) (post : α → Prop) (fail : KernelError → Prop) (m : CheckM α) :
    Prop :=
  ∀ p, inv p → Ends inv post fail (m p)

variable {inv : Progress → Prop} {fail : KernelError → Prop}

/-- The use of `Keeps`: a run that succeeds has a value as promised, in a state with the
invariant. -/
theorem Keeps.of_ok (h : Keeps inv post fail m) {p q : Progress} {a : α} (hp : inv p)
    (hrun : m p = .ok a q) : post a ∧ inv q := by
  have hends := h p hp
  rw [hrun] at hends
  exact hends

theorem Keeps.pure {a : α} (h : post a) : Keeps inv post fail (pure a) :=
  fun _ hp => ⟨h, hp⟩

theorem Keeps.throw {e : KernelError} (h : fail e) : Keeps inv post fail (throw e) :=
  fun _ hp => ⟨h, hp⟩

/-- In a sequence, the second part starts in a state that the first has kept. -/
theorem Keeps.bind {f : α → CheckM β} {post' : β → Prop} (hm : Keeps inv post fail m)
    (hf : ∀ a, post a → Keeps inv post' fail (f a)) : Keeps inv post' fail (m >>= f) := by
  intro p hp
  have hends := hm p hp
  change Ends inv post' fail (EStateM.bind m f p)
  unfold EStateM.bind
  cases hrun : m p with
  | ok a s =>
    rw [hrun] at hends
    exact hf a hends.1 s hends.2
  | error e s =>
    rw [hrun] at hends
    exact hends

theorem Keeps.mono {post' : α → Prop} {fail' : KernelError → Prop} (hm : Keeps inv post fail m)
    (h : ∀ a, post a → post' a) (h' : ∀ e, fail e → fail' e) : Keeps inv post' fail' m := by
  intro p hp
  have hends := hm p hp
  cases hrun : m p with
  | ok a s =>
    rw [hrun] at hends
    exact ⟨h a hends.1, hends.2⟩
  | error e s =>
    rw [hrun] at hends
    exact ⟨h' e hends.1, hends.2⟩

/-- A change of the state alone keeps every invariant that it respects, and does not fail. -/
theorem Keeps.modify {f : Progress → Progress} (hf : ∀ p, inv p → inv (f p)) :
    Keeps inv (fun _ => True) fail (modify f : CheckM PUnit) :=
  fun p hp => ⟨trivial, hf p hp⟩

end CheckM

open CheckM

namespace Checker

variable {c : Checker} {α : Type} {post : α → Prop}

theorem yields_tick : Yields c.tick fun _ => True := by
  intro p a q hp hrun
  simp only [tick] at hrun
  split at hrun
  · cases hrun
  · cases hrun
    exact ⟨hp.of_tables rfl rfl rfl, trivial⟩

/-- A run out of steps has no value. -/
theorem yields_exhaust : Yields (c.exhaust (α := α)) post :=
  yields_tick.andThen fun _ => .throw

theorem yields_remaining : Yields c.remaining fun _ => True := by
  intro p a q hp hrun
  cases hrun
  exact ⟨hp, trivial⟩

/-- Counting a call. -/
theorem yields_modify {f : Progress → Progress} (hf : ∀ p q, (f p).memo q = p.memo q) :
    Yields (modify f : CheckM PUnit) fun _ => True := by
  intro p a q hp hrun
  cases hrun
  exact ⟨hp.congr (hf p), trivial⟩

/-- The state once a result has been computed: it is remembered if it may be. -/
def keep (c : Checker) (q : Query) (e r : Term) (p : Progress) : Progress :=
  if c.remembers e then p.remember q e r else p

theorem steps_keep (q : Query) (e r : Term) (p : Progress) :
    (c.keep q e r p).steps = p.steps := by
  unfold keep
  split
  · cases q <;> rfl
  · rfl

/-- A checker that keeps no results leaves the state as it is when it is told to keep one. -/
theorem keep_of_not_memoize (hc : c.memoize = false) (q : Query) (e r : Term) (p : Progress) :
    c.keep q e r p = p := by
  simp [keep, remembers, hc]

/-- A remembered result is found, or computed and kept. -/
theorem remembered_eq (q : Query) (e : Term) (compute : CheckM Term) (p : Progress) :
    c.remembered q e compute p =
      match (p.memo q).find? e with
      | some r => .ok r p
      | none => adjust (c.keep q e) (compute p) := by
  unfold remembered
  rw [get_bind]
  cases (p.memo q).find? e with
  | some r => rfl
  | none =>
    change EStateM.bind compute _ p = _
    unfold EStateM.bind
    cases compute p with
    | error => rfl
    | ok r s =>
      unfold keep
      cases c.remembers e <;> rfl

/-- **Remembering is computing** where nothing is kept. -/
theorem remembered_of_blank {q : Query} {e : Term} {compute : CheckM Term} {p : Progress}
    (hc : c.memoize = false) (hp : p.Blank) : c.remembered q e compute p = compute p := by
  rw [remembered_eq, hp q e]
  cases compute p with
  | ok r s => simp only [adjust, keep_of_not_memoize hc]
  | error => rfl

/-- Remembering is no more than computing, for a checker that keeps no results and starts without
them. -/
theorem yields_remembered {q : Query} {e : Term} {compute : CheckM Term} {post : Term → Prop}
    (hc : c.memoize = false) (h : Yields compute post) :
    Yields (c.remembered q e compute) post := by
  intro p a s hp hrun
  rw [remembered_of_blank hc hp] at hrun
  exact h p a s hp hrun

section

variable {inv : Progress → Prop} {fail : KernelError → Prop}

/-- A step keeps what an increment of its counter keeps, and may fail for want of budget. -/
theorem keeps_tick (hinv : ∀ p, inv p → inv { p with steps := p.steps + 1 })
    (hfail : fail (.exhausted c.limit)) : Keeps inv (fun _ => True) fail c.tick := by
  intro p hp
  unfold tick
  dsimp only
  split
  · exact ⟨hfail, hinv p hp⟩
  · exact ⟨trivial, hinv p hp⟩

/-- Spending all of the budget fails in any case, and keeps what an increment of the counter
keeps. -/
theorem keeps_exhaust (hinv : ∀ p, inv p → inv { p with steps := p.steps + 1 })
    (hfail : fail (.exhausted c.limit)) : Keeps inv post fail (c.exhaust (α := α)) :=
  (keeps_tick hinv hfail).bind fun _ _ => .throw hfail

theorem keeps_remaining : Keeps inv (fun _ => True) fail c.remaining :=
  fun _ hp => ⟨trivial, hp⟩

/-- **Remembering keeps what computing keeps**, if the tables hold what is right
and what was computed may be added. -/
theorem keeps_remembered {q : Query} {e : Term} {compute : CheckM Term} {post : Term → Prop}
    (h : Keeps inv post fail compute)
    (hfound : ∀ p r, inv p → (p.memo q).find? e = some r → post r)
    (hkeep : ∀ p r, inv p → post r → inv (c.keep q e r p)) :
    Keeps inv post fail (c.remembered q e compute) := by
  intro p hp
  rw [remembered_eq]
  cases hfind : (p.memo q).find? e with
  | some r => exact ⟨hfound p r hp hfind, hp⟩
  | none =>
    have hends := h p hp
    cases hrun : compute p with
    | ok r s =>
      rw [hrun] at hends
      exact ⟨hends.1, hkeep s r hends.2 hends.1⟩
    | error err s =>
      rw [hrun] at hends
      exact hends

end

end Checker

end TypeTheory
