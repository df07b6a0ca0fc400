import TypeTheory.Proofs.Normalization.Interpretation

/-!
# Types and their members

The interpretation of types in which all universes may be met. `IsType A` says that
`A` has an interpretation, `Member A e` that `e` belongs to it. The rules of typing
hold of these two: each lemma here is what one form of term needs.
-/

namespace TypeTheory

open Relation

variable {sig : Signature} {ρ : Name → Nat}

/-- The interpretation of a type, with all universes. -/
def Denotes (sig : Signature) (ρ : Name → Nat) : Term → (Term → Prop) → Prop :=
  Interprets sig ρ (fun _ => True) (Universe sig ρ)

/-- The term is a type. -/
def IsType (sig : Signature) (ρ : Name → Nat) (A : Term) : Prop :=
  ∃ R, Denotes sig ρ A R

/-- The members of a type. -/
def Member (sig : Signature) (ρ : Name → Nat) (A e : Term) : Prop :=
  ∃ R, Denotes sig ρ A R ∧ R e

variable {A B t b u e : Term} {n : Name} {R : Term → Prop}

theorem Member.isType (h : Member sig ρ A e) : IsType sig ρ A := by
  obtain ⟨R, hR, -⟩ := h
  exact ⟨R, hR⟩

theorem IsType.tame (h : IsType sig ρ A) : Tame sig A := by
  obtain ⟨R, hR⟩ := h
  exact Interprets.tame hR

section

variable (hsig : sig.ClosedValues)

include hsig

theorem Denotes.saturated (h : Denotes sig ρ A R) : Saturated sig R :=
  Interprets.saturated hsig h

/-- A type is interpreted by its members. -/
theorem Denotes.member (h : Denotes sig ρ A R) : Member sig ρ A = R := by
  funext e
  refine propext ⟨fun hmember => ?_, fun he => ⟨R, h, he⟩⟩
  obtain ⟨R', hR', he⟩ := hmember
  rw [Interprets.unique hsig h hR' (.refl A)]
  exact he

/-- A type is interpreted by its members. -/
theorem IsType.denotes (h : IsType sig ρ A) : Denotes sig ρ A (Member sig ρ A) := by
  obtain ⟨R, hR⟩ := h
  rw [hR.member hsig]
  exact hR

/-- **Joinable types have the same members.** -/
theorem IsType.member_eq (hA : IsType sig ρ A) (hB : IsType sig ρ B)
    (h : Joinable Level.Same sig [] A B) : Member sig ρ A = Member sig ρ B :=
  Interprets.unique hsig (hA.denotes hsig) (hB.denotes hsig) h

theorem IsType.saturated (h : IsType sig ρ A) : Saturated sig (Member sig ρ A) :=
  (h.denotes hsig).saturated hsig

/-- Members are closed and terminate, which is what all of this is for. -/
theorem Member.tame (h : Member sig ρ A e) : Tame sig e :=
  (h.isType.saturated hsig).tame h

theorem IsType.fvar (h : IsType sig ρ A) (x : Name) : Member sig ρ A (.fvar x) :=
  (h.saturated hsig).fvar x

/-- What comes to a member by a head step is a member. -/
theorem Member.of_head {e' : Term} (h : Member sig ρ A e') (he : Tame sig e)
    (hhead : Head sig [] e e') : Member sig ρ A e :=
  (h.isType.saturated hsig).head he hhead h

/-- A body terminates if it has a type for each member of a domain. -/
theorem terminates_body (ht : IsType sig ρ t)
    (h : ∀ a, Member sig ρ t a → Tame sig (b.instantiate a)) : Terminates sig [none] b :=
  (h _ (ht.fvar hsig .anonymous)).2.of_instantiate hsig

/-! ## Sorts -/

/-- The members of a sort are the types of its universe. -/
theorem IsType.member_sort {l : Level} (hA : IsType sig ρ A) (h : Heads sig [] A (.sort l)) :
    Member sig ρ A = fun t => Tame sig t ∧ Universe sig ρ (l.value ρ) t :=
  Denotes.member hsig (.sort hA.tame h trivial)

omit hsig in
theorem isType_sort (l : Level) : IsType sig ρ (.sort l) :=
  ⟨_, .sort ⟨Term.looseRange_sort_le, .sort l⟩ .refl trivial⟩

/-- A sort is a member of the next one: it mentions lower universes only. -/
theorem member_sort (l : Level) : Member sig ρ (.sort l.succ) (.sort l) := by
  have htame (l : Level) : Tame sig (.sort l) := ⟨Term.looseRange_sort_le, .sort l⟩
  rw [(isType_sort l.succ).member_sort hsig .refl]
  exact ⟨htame l, universe_iff.mpr ⟨_, .sort (htame l) .refl (Nat.lt_succ_self _)⟩⟩

/-- A member of a sort is a type. -/
theorem Member.isType_of_sort {l : Level} (h : Member sig ρ A t) (hA : Heads sig [] A (.sort l)) :
    Universe sig ρ (l.value ρ) t ∧ IsType sig ρ t := by
  rw [h.isType.member_sort hsig hA] at h
  obtain ⟨R, hR⟩ := universe_iff.mp h.2
  exact ⟨h.2, R, hR.mono (fun _ _ => trivial) fun _ _ => rfl⟩

/-! ## Dependent types -/

omit hsig in
theorem not_head_bind {ν : List (Option Term)} {k : Binder} (w : Term) :
    ¬ Head sig ν (.bind k n t b) w := by
  intro h
  cases h

omit hsig in
theorem not_head_sort {ν : List (Option Term)} {l : Level} (w : Term) :
    ¬ Head sig ν (.sort l) w := by
  intro h
  cases h

/-- A dependent type in the interpretation: a domain, and a body for each member of
it. -/
structure Family (sig : Signature) (ρ : Name → Nat) (t b : Term) : Prop where
  domain : IsType sig ρ t
  body : ∀ a, Member sig ρ t a → IsType sig ρ (b.instantiate a)

/-- A type that comes to a binder by head steps has a domain and a family of bodies over it. -/
theorem IsType.family {k : Binder} (hA : IsType sig ρ A) (h : Heads sig [] A (.bind k n t b)) :
    Family sig ρ t b := by
  obtain ⟨R, hR⟩ := hA
  cases hR with
  | neutral _ hN hneutral =>
    cases h.unique hN not_head_bind fun _ => hneutral.not_head
    cases hneutral
  | sort _ hl => cases h.unique hl not_head_bind not_head_sort
  | pi _ hpi ht hb =>
    cases h.unique hpi not_head_bind not_head_bind
    refine ⟨⟨_, ht⟩, fun a ha => ⟨_, hb a ?_⟩⟩
    rwa [Denotes.member hsig ht] at ha
  | sigma _ hsigma ht hb =>
    cases h.unique hsigma not_head_bind not_head_bind
    refine ⟨⟨_, ht⟩, fun a ha => ⟨_, hb a ?_⟩⟩
    rwa [Denotes.member hsig ht] at ha

/-- The binder over a family is closed and terminates, if it has no index left over. -/
theorem Family.tame {k : Binder} (h : Family sig ρ t b)
    (hrange : (Term.bind k n t b).looseRange ≤ 0) : Tame sig (.bind k n t b) :=
  ⟨hrange, .bind h.domain.tame.2
    (terminates_body hsig h.domain fun a ha => (h.body a ha).tame)⟩

/-- The members of a dependent function type. -/
theorem Family.member_pi (h : Family sig ρ t b) (hA : Tame sig A)
    (hpi : Heads sig [] A (.pi n t b)) : Member sig ρ A = fun f =>
      Tame sig f ∧ ∀ a, Member sig ρ t a → Member sig ρ (b.instantiate a) (.app f a) :=
  Denotes.member hsig (.pi hA hpi (h.domain.denotes hsig) fun a ha => (h.body a ha).denotes hsig)

/-- The members of a dependent pair type. -/
theorem Family.member_sigma (h : Family sig ρ t b) (hA : Tame sig A)
    (hsigma : Heads sig [] A (.sigma n t b)) : Member sig ρ A = fun p =>
      Tame sig p ∧ Member sig ρ t (.proj1 p) ∧
        Member sig ρ (b.instantiate (.proj1 p)) (.proj2 p) :=
  Denotes.member hsig
    (.sigma hA hsigma (h.domain.denotes hsig) fun a ha => (h.body a ha).denotes hsig)

/-- A dependent type lives in the larger of the universes of its parts. -/
theorem universe_bind {k : Binder} (hk : k ≠ .lam) {i j : Nat} (ht : Universe sig ρ i t)
    (hb : ∀ a, Member sig ρ t a → Universe sig ρ j (b.instantiate a))
    (htame : Tame sig (.bind k n t b)) : Universe sig ρ (max i j) (.bind k n t b) := by
  have hmono {i m : Nat} {t : Term} {R : Term → Prop}
      (h : Interprets sig ρ (· < i) (Universe sig ρ) t R) (him : i ≤ m) :
      Interprets sig ρ (· < m) (Universe sig ρ) t R :=
    h.mono (fun _ hk => Nat.lt_of_lt_of_le hk him) fun _ _ => rfl
  -- a type of a universe is interpreted by its members
  have hself {m : Nat} {t : Term} (h : Universe sig ρ m t) :
      Interprets sig ρ (· < m) (Universe sig ρ) t (Member sig ρ t) := by
    obtain ⟨R, hR⟩ := universe_iff.mp h
    rw [Denotes.member hsig (hR.mono (fun _ _ => trivial) fun _ _ => rfl)]
    exact hR
  have hdomain := hmono (hself ht) (Nat.le_max_left i j)
  have hbody (a : Term) (ha : Member sig ρ t a) := hmono (hself (hb a ha)) (Nat.le_max_right i j)
  refine universe_iff.mpr ?_
  cases k with
  | lam => exact absurd rfl hk
  | pi => exact ⟨_, .pi htame .refl hdomain hbody⟩
  | sigma => exact ⟨_, .sigma htame .refl hdomain hbody⟩

/-! ## Members -/

/-- A function is a member if its body is one for each member of the domain. The
domain may be written in another way. -/
theorem Family.member_lam {t' c : Term} {m : Name} (h : Family sig ρ t b) (hA : Tame sig A)
    (hpi : Heads sig [] A (.pi n t b)) (ht' : IsType sig ρ t')
    (hrange : (Term.lam m t' c).looseRange ≤ 0)
    (hc : ∀ a, Member sig ρ t a → Member sig ρ (b.instantiate a) (c.instantiate a)) :
    Member sig ρ A (.lam m t' c) := by
  have hbody := terminates_body hsig h.domain fun a ha => (hc a ha).tame hsig
  have hlam : Tame sig (.lam m t' c) := ⟨hrange, .bind ht'.tame.2 hbody⟩
  rw [h.member_pi hsig hA hpi]
  refine ⟨hlam, fun a ha => (hc a ha).of_head hsig ⟨?_, ?_⟩ (.beta m t' c a)⟩
  · exact Term.looseRange_app_le.mpr ⟨hrange, (ha.tame hsig).1⟩
  · exact .beta hsig hlam.2 (ha.tame hsig).2 ((hc a ha).tame hsig).2

/-- A pair is a member if its components are. -/
theorem Family.member_pair {a c : Term} (h : Family sig ρ t b) (hA : Tame sig A)
    (hsigma : Heads sig [] A (.sigma n t b)) (ha : Member sig ρ t a)
    (hc : Member sig ρ (b.instantiate a) c) : Member sig ρ A (.pair a c) := by
  have hL := Level.congruence_same
  have hrange : (Term.pair a c).looseRange ≤ 0 :=
    Term.looseRange_pair_le.mpr ⟨(ha.tame hsig).1, (hc.tame hsig).1⟩
  have hpair : Terminates sig [] (.pair a c) := .pair (ha.tame hsig).2 (hc.tame hsig).2
  have htame {k : Side} {q : Term} (hq : (Term.pair a c).component? k = some q) :
      Tame sig (.proj k (.pair a c)) := ⟨Term.looseRange_proj_le.mpr hrange, hpair.iota hq⟩
  have hfst : Member sig ρ t (.proj1 (.pair a c)) :=
    ha.of_head hsig (htame (k := .fst) rfl) (.iota rfl)
  have hjoin : Joinable Level.Same sig [] (b.instantiate (.proj1 (.pair a c))) (b.instantiate a) :=
    (Joinable.refl b).instantiate hL hsig (.of_parallel (.iota rfl (.refl hL a)))
  rw [h.member_sigma hsig hA hsigma]
  refine ⟨⟨hrange, hpair⟩, hfst, ?_⟩
  rw [(h.body _ hfst).member_eq hsig (h.body a ha) hjoin]
  exact hc.of_head hsig (htame (k := .snd) rfl) (.iota rfl)

/-- A local definition is a member if its body is one for the value. -/
theorem Member.letE {v : Term} (ht : Tame sig t) (hv : Tame sig v)
    (hrange : (Term.letE n t v b).looseRange ≤ 0) (h : Member sig ρ A (b.instantiate v)) :
    Member sig ρ A (.letE n t v b) :=
  h.of_head hsig ⟨hrange, .zeta hsig ht.2 hv.2 (h.tame hsig).2⟩ (.zeta n t v b)

end

end TypeTheory
