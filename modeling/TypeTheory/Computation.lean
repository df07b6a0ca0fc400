/-!
# Computations with a state

An operation that changes something and may be refused is a computation in `EStateM`.
Such a computation ends in a state also when it fails, so what a refused operation leaves
behind is part of what it does. `EStateM.leaves` is the state that a run ends in;
`EStateM.outcome` and `EStateM.final` show what comes of a run that succeeds.
-/

namespace EStateM

variable {ε ε' σ τ α β : Type}

/-- The state that a computation leaves behind, whether it succeeds or fails. -/
def leaves (m : EStateM ε σ α) (s : σ) : σ :=
  match m s with
  | .ok _ s' => s'
  | .error _ s' => s'

/-- The state that a computation leaves behind and its value, if it succeeds. -/
def outcome (m : EStateM ε σ α) (s : σ) : Except ε (σ × α) :=
  match m s with
  | .ok a s' => .ok (s', a)
  | .error e _ => .error e

/-- The state that a computation leaves behind, if it succeeds. -/
def final (m : EStateM ε σ α) (s : σ) : Except ε σ :=
  (m.outcome s).map (·.1)

/-- Fails unless a condition holds. -/
def require (p : Prop) [Decidable p] (e : ε) : EStateM ε σ Unit :=
  if p then pure () else throw e

/-- Runs a computation on a part of the state. What it makes of the part is put back,
also when it fails. -/
def onPart (part : σ → τ) (put : τ → σ → σ) (fail : ε → ε') (m : EStateM ε τ α) :
    EStateM ε' σ α := fun s =>
  match m (part s) with
  | .ok a t => .ok a (put t s)
  | .error e t => .error (fail e) (put t s)

/-! ## What comes of a sequence -/

/-- **A sequence succeeds** when both its parts do. -/
theorem bind_eq_ok {m : EStateM ε σ α} {f : α → EStateM ε σ β} {s t : σ} {b : β} :
    (m >>= f) s = .ok b t ↔ ∃ a u, m s = .ok a u ∧ f a u = .ok b t := by
  change EStateM.bind m f s = .ok b t ↔ _
  unfold EStateM.bind
  constructor
  · intro h
    cases hm : m s with
    | ok a u =>
      rw [hm] at h
      exact ⟨a, u, rfl, h⟩
    | error e u =>
      rw [hm] at h
      cases h
  · rintro ⟨a, u, hm, hf⟩
    rw [hm]
    exact hf

theorem outcome_get_bind (f : σ → EStateM ε σ α) (s : σ) :
    (get >>= f).outcome s = (f s).outcome s := rfl

theorem outcome_require_bind (p : Prop) [Decidable p] (e : ε) (f : Unit → EStateM ε σ α) (s : σ) :
    (require p e >>= f).outcome s = if p then (f ()).outcome s else .error e := by
  by_cases h : p
  · rw [require, if_pos h, if_pos h]
    rfl
  · rw [require, if_neg h, if_neg h]
    rfl

/-- An attempt that does not look at the state. -/
theorem outcome_ofExcept_bind (x : Except ε α) (f : α → EStateM ε σ β) (s : σ) :
    (ofExcept x >>= f).outcome s = x >>= fun a => (f a).outcome s := by
  cases x <;> rfl

theorem outcome_bind_pure (m : EStateM ε σ α) (f : α → β) (s : σ) :
    (m >>= fun a => pure (f a)).outcome s = (m.outcome s).map fun r => (r.1, f r.2) := by
  change (match EStateM.bind m (fun a => pure (f a)) s with
    | .ok b t => Except.ok (t, b)
    | .error e _ => Except.error e) = _
  unfold EStateM.bind outcome
  cases m s <;> rfl

theorem outcome_onPart (part : σ → τ) (put : τ → σ → σ) (fail : ε → ε') (m : EStateM ε τ α)
    (s : σ) : (m.onPart part put fail).outcome s =
      ((m.outcome (part s)).mapError fail).map fun r => (put r.1 s, r.2) := by
  unfold outcome onPart
  cases m (part s) <;> rfl

/-- A value that is dropped makes no difference to the state. -/
theorem final_bind_pure (m : EStateM ε σ α) (b : β) (s : σ) :
    (m >>= fun _ => pure b).final s = m.outcome s >>= fun r => pure r.1 := by
  unfold final
  rw [outcome_bind_pure]
  cases m.outcome s <;> rfl

theorem final_ofExcept_bind (x : Except ε α) (f : α → EStateM ε σ β) (s : σ) :
    (ofExcept x >>= f).final s = x >>= fun a => (f a).final s := by
  cases x <;> rfl

/-- An attempt that looks at the state and whose value is dropped. -/
theorem final_query (x : σ → Except ε α) (b : β) (s : σ) :
    (get >>= fun s => ofExcept (x s) >>= fun _ => pure b : EStateM ε σ β).final s =
      x s >>= fun _ => pure s :=
  final_ofExcept_bind (x s) (fun _ => pure b) s

theorem final_onPart (part : σ → τ) (put : τ → σ → σ) (fail : ε → ε') (m : EStateM ε τ α)
    (s : σ) : (m.onPart part put fail).final s =
      ((m.final (part s)).mapError fail).map (put · s) := by
  unfold final outcome onPart
  cases m (part s) <;> rfl

/-- The second part of a sequence goes on from where the first one ended. -/
theorem final_bind (m : EStateM ε σ Unit) (f : Unit → EStateM ε σ α) (s : σ) :
    (m >>= f).final s = m.final s >>= (f ()).final := by
  change Except.map _ (match EStateM.bind m f s with
    | .ok b t => Except.ok (t, b)
    | .error e _ => Except.error e) = _
  unfold EStateM.bind final outcome
  cases m s <;> rfl

end EStateM
