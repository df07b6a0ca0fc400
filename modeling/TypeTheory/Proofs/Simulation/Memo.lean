import TypeTheory.Proofs.Simulation.Scoped

/-!
# Remembered results are right

A run that remembers results against one that does not. The invariant of the
tables is `Checker.Recorded`: a remembered result belongs to a closed term, and
the run without tables has computed it too, in some context and with no more
steps spent than now. A closed term has one result in every context
(`Checker.sameScope`), so that run would compute the remembered result again, or
run out of steps.
-/

namespace TypeTheory

/-! ## Tables -/

theorem Memo.find?_eq (m : Memo) (e : Term) : m.find? e = m.results[e]? := by
  unfold find?
  split
  · rename_i hempty
    exact (Std.HashMap.getElem?_of_isEmpty hempty).symm
  · rfl

theorem Memo.find?_insert (m : Memo) (e r x : Term) :
    (m.insert e r).find? x = if e = x then some r else m.find? x := by
  rw [find?_eq, find?_eq]
  simp [insert, Std.HashMap.getElem?_insert]

/-- Remembering a result adds it to its table and changes no other. -/
theorem Progress.find?_remember {p : Progress} {q q' : Query} {e r x s : Term}
    (h : ((p.remember q e r).memo q').find? x = some s) :
    (q' = q ∧ x = e ∧ s = r) ∨ (p.memo q').find? x = some s := by
  have hinsert : ∀ m : Memo, (m.insert e r).find? x = some s →
      (x = e ∧ s = r) ∨ m.find? x = some s := by
    intro m hm
    rw [Memo.find?_insert] at hm
    split at hm
    · rename_i heq
      exact .inl ⟨heq.symm, (Option.some.inj hm).symm⟩
    · exact .inr hm
  cases q <;> cases q' <;> first | exact .inr h | exact (hinsert _ h).imp_left fun hs => ⟨rfl, hs⟩

namespace Checker

variable {c c' : Checker}

/-- What is found once a result is kept is that result, for a closed term, or was
there before. -/
theorem find?_keep {q q' : Query} {e r x s : Term} {p : Progress}
    (h : ((c.keep q e r p).memo q').find? x = some s) :
    (q' = q ∧ x = e ∧ s = r ∧ e.looseRange ≤ 0) ∨ (p.memo q').find? x = some s := by
  unfold Checker.keep at h
  split at h
  · rename_i hremembers
    have hclosed : e.hasLoose = false := by
      simpa using (Bool.and_eq_true_iff.mp hremembers).2
    rcases Progress.find?_remember h with ⟨rfl, rfl, rfl⟩ | hold
    · exact .inl ⟨rfl, rfl, rfl, Term.hasLoose_eq_false_iff.mp hclosed⟩
    · exact .inr hold
  · exact .inr h

/-! ## The invariant of the tables -/

/-- Every remembered result of `p'` belongs to a closed term, and a run of `c`
without tables has computed it within the steps that `p` has spent. -/
def Recorded (c : Checker) (p p' : Progress) : Prop :=
  ∀ q e r, (p'.memo q).find? e = some r → e.looseRange ≤ 0 ∧
    ∃ Γ s s', s.Blank ∧ s.steps ≤ p.steps ∧ c.query q e Γ s = .ok r s'

/-- Nothing is recorded where nothing is remembered. -/
theorem Recorded.of_blank {p p' : Progress} (h : p'.Blank) : c.Recorded p p' := by
  intro q e r hr
  rw [h q e] at hr
  cases hr

/-- Records stay when steps are spent and the tables stay. -/
theorem Recorded.mono {p p' s s' : Progress} (h : c.Recorded p p') (hsteps : p.steps ≤ s.steps)
    (hmemo : ∀ q, s'.memo q = p'.memo q) : c.Recorded s s' := by
  intro q e r hr
  rw [hmemo q] at hr
  obtain ⟨he, Γ, t, t', ht, hle, hrun⟩ := h q e r hr
  exact ⟨he, Γ, t, t', ht, Nat.le_trans hle hsteps, hrun⟩

/-- A result that was just computed may be recorded. -/
theorem Recorded.keep {q : Query} {e r : Term} {Γ : Context} {p s s' : Progress}
    (h : c.Recorded s s') (hp : p.Blank) (hsteps : p.steps ≤ s.steps)
    (hrun : c.query q e Γ p = .ok r s) : c.Recorded s (c'.keep q e r s') := by
  intro q' x y hxy
  rcases find?_keep hxy with ⟨rfl, rfl, rfl, hrange⟩ | hold
  · exact ⟨hrange, Γ, p, s, hp, hsteps, hrun⟩
  · exact h q' x y hold

/-- **A recorded result is what a run without tables computes**, in every
context, unless it runs out of steps. -/
theorem query_of_recorded (hc : c.memoize = false) (hclosed : c.SeesClosed) {q : Query}
    {e r : Term} {p p' : Progress} (hp : p.Blank) (h : c.Recorded p p')
    (hr : (p'.memo q).find? e = some r) (Γ : Context) :
    (∃ s, c.query q e Γ p = .ok r s ∧ s.Blank ∧ p.steps ≤ s.steps) ∨
      ∃ s, c.query q e Γ p = .error (.exhausted c.limit) s := by
  obtain ⟨he, Γ₀, s, s', hs, hle, hrun⟩ := h q e r hr
  have hout := outcome_query_of_closed hc hclosed q he hp hs hle Γ Γ₀
  rw [hrun] at hout
  cases hquery : c.query q e Γ p with
  | ok r' t =>
    rw [hquery] at hout
    obtain ⟨⟨rfl, -⟩, ⟨ht, -, -⟩, hsteps, -⟩ := hout
    exact .inl ⟨t, rfl, ht, hsteps⟩
  | error err t =>
    rw [hquery] at hout
    obtain ⟨-, rfl⟩ := hout
    exact .inr ⟨t, rfl⟩

/-! ## The correspondence -/

/-- A run without tables and one with tables on the same terms. The one with
tables has spent no more steps. -/
def memoized (c c' : Checker) : Correspondence c c' :=
  sameTerms c c' fun p p' => p.Blank ∧ p'.steps ≤ p.steps ∧ c.Recorded p p'

/-- **Remembering corresponds to computing** if constants are closed. -/
theorem lawful_memoized (hview : c.SameView c') (hlimit : c.limit ≤ c'.limit)
    (hc : c.memoize = false) (hclosed : c.SeesClosed) : (memoized c c').Lawful := by
  refine lawful_sameTerms hview (fun k k' => ?_) (fun p p' i j k hp => ?_) fun q e Γ hanswer => ?_
  · refine .tick trivial (fun p p' hp hlt => ?_) fun p p' hp => ?_
    · have := hp.2.1
      omega
    · exact ⟨hp.1.of_tables rfl rfl rfl, Nat.succ_le_succ hp.2.1,
        hp.2.2.mono (Nat.le_succ _) fun q => by cases q <;> rfl⟩
  · exact ⟨hp.1.of_tables rfl rfl rfl, hp.2.1,
      hp.2.2.mono (Nat.le_refl _) fun q => by cases q <;> rfl⟩
  · intro k k' p p' hstate hk hk'
    obtain ⟨hp, hsteps, hrecorded⟩ := hstate
    have hquery : ∀ p, p.Blank → c.query q e Γ p = c.answer q e Γ p := fun p hp => by
      rw [query_eq, remembered_of_blank hc hp]
    cases hfind : (p'.memo q).find? e with
    | some r =>
      -- the remembered result is what the left run computes
      rw [remembered_of_blank hc hp, ← hquery p hp, remembered_eq, hfind]
      rcases query_of_recorded hc hclosed hp hrecorded hfind Γ with
        ⟨s, hrun, hs, hle⟩ | ⟨s, hrun⟩
      · rw [hrun]
        exact ⟨rfl, ⟨hs, Nat.le_trans hsteps hle, hrecorded.mono hle fun _ => rfl⟩, hle,
          Nat.le_refl _⟩
      · rw [hrun]
        exact ⟨trivial, rfl⟩
    | none =>
      -- both runs compute the result; what is recorded is the left run itself
      rw [remembered_eq, remembered_eq, hp q e, hfind]
      refine (hanswer k k' p p' ⟨hp, hsteps, hrecorded⟩ hk hk').adjust (steps_keep q e)
        (steps_keep q e) ?_
      rintro r _ s s' hrun _ rfl ⟨⟨hs, hle, hrec⟩, hadvance, -⟩
      rw [keep_of_not_memoize hc]
      refine ⟨hs, ?_, hrec.keep hp hadvance ((hquery p hp).trans hrun)⟩
      rw [steps_keep]
      exact hle

end Checker

end TypeTheory
