import TypeTheory.Proofs.Environment.Extension
import TypeTheory.Proofs.Simulation.Memo

/-!
# Verified environments

An environment is verified when each of its declarations is accepted by a fresh
checker that sees the declarations before it, within the given budget. This is
what `Environment.verify` tests. An environment stays verified when a declaration
is added that was accepted, by a checker that remembers results or by one that
does not, and when declarations are added that pass the test in place.

The first needs that all constants are closed, which an accepted declaration is.
-/

namespace TypeTheory

namespace Checker

variable {c c' : Checker} {d : Declaration}

/-! ## Accepted declarations -/

/-- A declaration does not fail if its check from the empty state succeeds. -/
theorem failure?_eq_none_iff : c.failure? d = none ↔ ∃ p, c.checkDeclaration d {} = .ok () p := by
  unfold failure?
  cases c.checkDeclaration d {} with
  | ok _ p => exact ⟨fun _ => ⟨p, rfl⟩, fun _ => rfl⟩
  | error e p => exact ⟨nofun, nofun⟩

/-- What the left checker accepts the right one accepts. -/
theorem failure?_eq_none_of_lawful {state : Progress → Progress → Prop}
    (h : (sameTerms c c' state).Lawful) (hstart : state {} {}) (hd : c.failure? d = none) :
    c'.failure? d = none := by
  have hsim : ∀ n n', (sameTerms c c' state).Sim n n' Eq (c.checkDeclaration d)
      (c'.checkDeclaration d) := fun _ _ =>
    h.sim_checkDeclaration (w := ()) (fun _ => rfl) rfl rfl fun _ _ => rfl
  have hout := Correspondence.Sim.outcome hsim hstart
  obtain ⟨p, hp⟩ := failure?_eq_none_iff.mp hd
  rw [hp] at hout
  cases hrun : c'.checkDeclaration d {} with
  | ok _ p' => exact failure?_eq_none_iff.mpr ⟨p', hrun⟩
  | error e p' =>
    rw [hrun] at hout
    exact hout.elim

/-- A checker with the same view and no smaller budget accepts what was accepted. -/
theorem failure?_eq_none_of_sameView (hview : c.SameView c') (hlimit : c.limit ≤ c'.limit)
    (hmemoize : c.memoize = c'.memoize) (hd : c.failure? d = none) : c'.failure? d = none :=
  failure?_eq_none_of_lawful (lawful_sameRuns hview hlimit hmemoize) rfl hd

/-- Remembering results loses no accepted declaration. -/
theorem failure?_eq_none_of_memoize (hview : c.SameView c') (hlimit : c.limit ≤ c'.limit)
    (hc : c.memoize = false) (hclosed : c.SeesClosed) (hd : c.failure? d = none) :
    c'.failure? d = none :=
  failure?_eq_none_of_lawful (lawful_memoized hview hlimit hc hclosed)
    ⟨Progress.blank_empty, Nat.le_refl _, .of_blank Progress.blank_empty⟩ hd

theorem looseRange_of_requireClosed {e : Term} {p q : Progress}
    (h : d.requireClosed e p = .ok () q) : e.looseRange ≤ 0 := by
  rw [Declaration.requireClosed_eq] at h
  cases he : e.hasLoose with
  | false => exact Term.hasLoose_eq_false_iff.mp he
  | true =>
    rw [he] at h
    cases h

/-- **An accepted declaration is closed.** -/
theorem looseRange_of_failure? (h : c.failure? d = none) :
    d.type.looseRange ≤ 0 ∧ ∀ v ∈ d.value, v.looseRange ≤ 0 := by
  obtain ⟨p, hp⟩ := failure?_eq_none_iff.mp h
  unfold checkDeclaration at hp
  cases hrepeated : Declaration.repeated? [] d.params with
  | some x =>
    rw [hrepeated] at hp
    cases hp
  | none =>
    rw [hrepeated] at hp
    obtain ⟨_, p₁, htype, hp⟩ := EStateM.bind_eq_ok.mp hp
    obtain ⟨_, p₂, _, hp⟩ := EStateM.bind_eq_ok.mp hp
    refine ⟨looseRange_of_requireClosed htype, fun v hv => ?_⟩
    rw [Option.mem_def.mp hv] at hp
    obtain ⟨_, p₃, hvalue, _⟩ := EStateM.bind_eq_ok.mp hp
    exact looseRange_of_requireClosed hvalue

end Checker

namespace Environment

variable {env env' : Environment} {limit : Nat}

/-! ## Verified environments -/

/-- Every declaration is accepted by a fresh checker that sees those before it. -/
def Verified (env : Environment) (limit : Nat) : Prop :=
  ∀ i d, env.at? i = some d → Checker.failure? ⟨env, i, limit, true⟩ d = none

/-- A position has no failure if the declaration there, if any, is accepted by a fresh checker. -/
theorem failureAt?_eq_none_iff {i : Nat} : env.failureAt? limit i = none ↔
    ∀ d, env.at? i = some d → Checker.failure? ⟨env, i, limit, true⟩ d = none := by
  unfold failureAt?
  cases hd : env.at? i with
  | none => exact ⟨nofun, fun _ => rfl⟩
  | some d =>
    cases hfailure : Checker.failure? ⟨env, i, limit, true⟩ d with
    | none =>
      refine ⟨fun _ d' hd' => ?_, fun _ => ?_⟩
      · cases hd'
        exact hfailure
      · simp [hfailure]
    | some e =>
      refine ⟨fun h => ?_, fun h => ?_⟩
      · simp [hfailure] at h
      · rw [h d rfl] at hfailure
        cases hfailure

/-- A range of positions has no failure if no position in it has one. -/
theorem verifyRange_eq_nil_iff {start stop : Nat} : env.verifyRange start stop limit = [] ↔
    ∀ i d, start ≤ i → i < stop → env.at? i = some d →
      Checker.failure? ⟨env, i, limit, true⟩ d = none := by
  unfold verifyRange
  rw [List.filterMap_eq_nil_iff]
  constructor
  · intro h i d hstart hstop hd
    have hsize : i < env.size := lt_size_of_at? hd
    have hmin : i < Nat.min stop env.size := Nat.lt_min.mpr ⟨hstop, hsize⟩
    exact failureAt?_eq_none_iff.mp (h i (List.mem_range'_1.mpr ⟨hstart, by omega⟩)) d hd
  · intro h i hi
    obtain ⟨hstart, hstop⟩ := List.mem_range'_1.mp hi
    have hmin : i < Nat.min stop env.size := by omega
    exact failureAt?_eq_none_iff.mpr fun d hd => h i d hstart (Nat.lt_min.mp hmin).1 hd

/-- The test of an environment finds nothing just if the environment is verified. -/
theorem verify_eq_nil_iff : env.verify limit = [] ↔ env.Verified limit := by
  unfold verify
  rw [verifyRange_eq_nil_iff]
  constructor
  · exact fun h i d hd => h i d (Nat.zero_le i) (lt_size_of_at? hd) hd
  · exact fun h i d _ _ hd => h i d hd

/-- Constants of a verified environment are closed. -/
theorem Verified.seesClosed (h : env.Verified limit) (k limit' : Nat) (memoize : Bool) :
    Checker.SeesClosed ⟨env, k, limit', memoize⟩ := by
  intro x d hd
  obtain ⟨i, -, hi⟩ := Option.bind_eq_some_iff.mp hd
  exact Checker.looseRange_of_failure? (h i d hi)

/-- **Checkers that remember nothing verify an environment too.** -/
theorem verified_of_forgetful
    (h : ∀ i d, env.at? i = some d → Checker.failure? ⟨env, i, limit, false⟩ d = none) :
    env.Verified limit := by
  intro i d hd
  have hclosed : Checker.SeesClosed ⟨env, i, limit, false⟩ := by
    intro x d' hd'
    obtain ⟨j, -, hj⟩ := Option.bind_eq_some_iff.mp hd'
    exact Checker.looseRange_of_failure? (h j d' hj)
  have hview : Checker.SameView ⟨env, i, limit, false⟩ ⟨env, i, limit, true⟩ :=
    ⟨fun _ => rfl, fun _ => rfl⟩
  exact Checker.failure?_eq_none_of_memoize hview (Nat.le_refl _) rfl hclosed (h i d hd)

/-- A declaration is accepted in every extension if it is where it stands. -/
theorem Verified.failure? (h : env.Verified limit) (hext : env.Extends env') {i : Nat}
    {d : Declaration} (hi : i < env.size) (hd : env'.at? i = some d) :
    Checker.failure? ⟨env', i, limit, true⟩ d = none := by
  rw [hext.at? hi] at hd
  have hview := Checker.sameView hext (Nat.le_of_lt hi) limit limit true true
  exact Checker.failure?_eq_none_of_sameView hview (Nat.le_refl _) rfl (h i d hd)

/-- **Accepted declarations may be added**, whether the checker that accepted
them remembers results or not. -/
theorem Verified.insert (h : env.Verified limit) {d : Declaration} {memoize : Bool}
    (hd : Checker.failure? ⟨env, env.size, limit, memoize⟩ d = none)
    (hinsert : env.insert d = .ok env') : env'.Verified limit := by
  have hext := extends_of_insert hinsert
  intro i d' hd'
  by_cases hi : i < env.size
  · exact h.failure? hext hi hd'
  · -- the new declaration is the last one
    obtain ⟨rfl, rfl⟩ := eq_of_at?_insert hinsert (by omega) hd'
    have hview := Checker.sameView hext (Nat.le_refl _) limit limit memoize true
    cases memoize with
    | true => exact Checker.failure?_eq_none_of_sameView hview (Nat.le_refl _) rfl hd
    | false =>
      -- accepted without tables, and to be accepted with them
      have hclosed := h.seesClosed env.size limit false
      exact Checker.failure?_eq_none_of_memoize hview (Nat.le_refl _) rfl hclosed hd

/-- **Declarations that pass in place may be added.** -/
theorem Verified.extend (h : env.Verified limit) (hext : env.Extends env')
    (hnew : env'.verifyRange env.size env'.size limit = []) : env'.Verified limit := by
  intro i d hd
  by_cases hi : i < env.size
  · exact h.failure? hext hi hd
  · exact verifyRange_eq_nil_iff.mp hnew i d (by omega) (lt_size_of_at? hd) hd

end Environment

end TypeTheory
