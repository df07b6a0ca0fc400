import TypeTheory.Computation

/-!
# Operations that are done whole or not at all

An operation is *atomic* if it leaves the state as it was whenever it fails
(`EStateM.Atomic`). A sequence is atomic if everything before its last chance to fail
only looks at the state: `EStateM.ReadOnly.bind` puts a part that changes nothing in
front of an atomic rest, and `EStateM.Atomic.bind_of_succeeds` puts a rest that cannot
fail behind an atomic part.
-/

namespace EStateM

variable {ε ε' σ τ α β : Type} {m : EStateM ε σ α} {f : α → EStateM ε σ β} {s s' : σ} {e : ε}
  {a : α}

/-! ## Views of a run -/

/-- A run that ends well has the state and the value as its outcome. -/
theorem outcome_eq_ok : m.outcome s = .ok (s', a) ↔ m s = .ok a s' := by
  unfold outcome
  constructor
  · intro h
    split at h
    · rename_i hrun
      cases h
      exact hrun
    · cases h
  · intro h
    rw [h]

/-- A run that fails has its error as its outcome, and the state it leaves is not part of it. -/
theorem outcome_eq_error : m.outcome s = .error e ↔ ∃ s', m s = .error e s' := by
  unfold outcome
  constructor
  · intro h
    split at h
    · cases h
    · rename_i hrun
      cases h
      exact ⟨_, hrun⟩
  · rintro ⟨s', h⟩
    rw [h]

/-- The final state is the one that a run ends well in, whatever its value. -/
theorem final_eq_ok : m.final s = .ok s' ↔ ∃ a, m s = .ok a s' := by
  unfold final
  cases hout : m.outcome s with
  | ok r =>
    obtain ⟨t, a⟩ := r
    have hrun := outcome_eq_ok.mp hout
    constructor
    · intro h
      cases h
      exact ⟨a, hrun⟩
    · rintro ⟨b, h⟩
      rw [hrun] at h
      cases h
      rfl
  | error e =>
    obtain ⟨t, hrun⟩ := outcome_eq_error.mp hout
    refine ⟨fun h => ?_, fun ⟨b, h⟩ => ?_⟩
    · cases h
    · rw [hrun] at h
      cases h

theorem final_eq_error : m.final s = .error e ↔ ∃ s', m s = .error e s' := by
  rw [← outcome_eq_error]
  unfold final
  cases m.outcome s with
  | ok r => exact ⟨fun h => (by cases h), fun h => (by cases h)⟩
  | error e' => exact ⟨fun h => (by cases h; rfl), fun h => (by cases h; rfl)⟩

/-- A run that succeeds leaves behind the state it shows. -/
theorem leaves_of_final (h : m.final s = .ok s') : m.leaves s = s' := by
  obtain ⟨a, hrun⟩ := final_eq_ok.mp h
  unfold leaves
  rw [hrun]

/-- An operation on a part succeeds as the operation itself does. -/
theorem final_onPart_eq_ok {part : σ → τ} {put : τ → σ → σ} {fail : ε → ε'} {m : EStateM ε τ α}
    (h : (m.onPart part put fail).final s = .ok s') :
    ∃ t, m.final (part s) = .ok t ∧ put t s = s' := by
  obtain ⟨a, hrun⟩ := final_eq_ok.mp h
  unfold onPart at hrun
  split at hrun
  · rename_i b t hpart
    cases hrun
    exact ⟨t, final_eq_ok.mpr ⟨_, hpart⟩, rfl⟩
  · cases hrun

/-- What an operation gives may be dropped. -/
theorem final_bind_pure_eq_ok {b : β} (h : (m >>= fun _ => pure b).final s = .ok s') :
    ∃ a, m.outcome s = .ok (s', a) := by
  obtain ⟨b', hrun⟩ := final_eq_ok.mp h
  obtain ⟨a, t, hm, hpure⟩ := bind_eq_ok.mp hrun
  cases hpure
  exact ⟨a, outcome_eq_ok.mpr hm⟩

/-! ## Looking and changing -/

/-- The computation leaves every state as it was. -/
def ReadOnly (m : EStateM ε σ α) : Prop :=
  ∀ s, m.leaves s = s

/-- A failure leaves the state as it was. -/
def Atomic (m : EStateM ε σ α) : Prop :=
  ∀ ⦃s e s'⦄, m s = .error e s' → s' = s

/-- **An atomic operation that fails changes nothing.** -/
theorem Atomic.leaves_eq (h : m.Atomic) (hfails : m.final s = .error e) : m.leaves s = s := by
  obtain ⟨s', hrun⟩ := final_eq_error.mp hfails
  unfold leaves
  rw [hrun]
  exact h hrun

/-- What only looks at the state leaves it as it was, also when it fails. -/
theorem ReadOnly.atomic (h : m.ReadOnly) : m.Atomic := by
  intro s e s' hrun
  have hs := h s
  unfold leaves at hs
  rw [hrun] at hs
  exact hs

theorem readOnly_get : (get : EStateM ε σ σ).ReadOnly :=
  fun _ => rfl

theorem readOnly_throw (e : ε) : (throw e : EStateM ε σ α).ReadOnly :=
  fun _ => rfl

theorem readOnly_require (p : Prop) [Decidable p] (e : ε) :
    (require p e : EStateM ε σ Unit).ReadOnly := by
  intro s
  unfold require
  split <;> rfl

theorem readOnly_ofExcept (x : Except ε α) : (ofExcept x : EStateM ε σ α).ReadOnly := by
  intro s
  cases x <;> rfl

/-- What never fails is atomic. -/
theorem atomic_of_succeeds (h : ∀ s, ∃ a s', m s = .ok a s') : m.Atomic := by
  intro s e s' hrun
  obtain ⟨a, t, hok⟩ := h s
  rw [hok] at hrun
  cases hrun

theorem atomic_modify (change : σ → σ) : (modify change : EStateM ε σ PUnit).Atomic :=
  atomic_of_succeeds fun s => ⟨_, change s, rfl⟩

/-- **Looking first** leaves an atomic rest atomic. -/
theorem ReadOnly.bind (hm : m.ReadOnly) (hf : ∀ a, (f a).Atomic) : (m >>= f).Atomic := by
  intro s e s' hrun
  have hs := hm s
  unfold leaves at hs
  change EStateM.bind m f s = _ at hrun
  unfold EStateM.bind at hrun
  cases hfirst : m s with
  | ok a t =>
    rw [hfirst] at hs hrun
    exact (hf a hrun).trans hs
  | error e t =>
    rw [hfirst] at hs hrun
    cases hrun
    exact hs

/-- **A rest that cannot fail** leaves an atomic beginning atomic. -/
theorem Atomic.bind_of_succeeds (hm : m.Atomic) (hf : ∀ a s, ∃ b s', f a s = .ok b s') :
    (m >>= f).Atomic := by
  intro s e s' hrun
  change EStateM.bind m f s = _ at hrun
  unfold EStateM.bind at hrun
  cases hfirst : m s with
  | ok a t =>
    obtain ⟨b, u, hok⟩ := hf a t
    rw [hfirst] at hrun
    rw [show f a t = .error e s' from hrun] at hok
    cases hok
  | error e t =>
    rw [hfirst] at hrun
    cases hrun
    exact hm hfirst

/-- An atomic operation on a part is atomic on the whole. -/
theorem Atomic.onPart {part : σ → τ} {put : τ → σ → σ} {fail : ε → ε'} {m : EStateM ε τ α}
    (hm : m.Atomic) (hput : ∀ s, put (part s) s = s) : (m.onPart part put fail).Atomic := by
  intro s e s' hrun
  unfold EStateM.onPart at hrun
  split at hrun
  · cases hrun
  · rename_i hfails
    cases hrun
    rw [hm hfails, hput]

end EStateM
