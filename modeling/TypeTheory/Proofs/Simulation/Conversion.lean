import Mathlib.Data.List.Forall2
import TypeTheory.Conversion
import TypeTheory.Proofs.Simulation.Reduction

/-!
# Conversion keeps a correspondence

Related equations get the same answer. The comparisons that need no reduction
give the same answer by the laws of the correspondence, and take related terms
apart into related equations. The loops over the stack and over the heads are
compared together, by induction on the left bound.
-/

namespace TypeTheory

namespace Checker

variable {c : Checker}

/-- A round of a loop with the given bound: one step is paid for, and the bound
goes down by one. -/
def round {α : Type} (c : Checker) (bound : Nat) (body : Nat → CheckM α) : CheckM α := do
  c.tick
  match bound with
  | 0 => throw (.exhausted c.limit)
  | n + 1 => body n

/-- A round of the loop over the stack, in the form that all rounds have: a payment, and then the
body. -/
theorem solve_cons (n : Nat) (q : Equation) (rest : List Equation) :
    c.solve n (q :: rest) = c.round n (fun k => do
      match ← c.reduceEquation (c.unfoldHeads k) q with
      | none => pure false
      | some parts => c.solve k (parts ++ rest)) := by
  cases n with
  | zero => rw [solve]; rfl
  | succ n => rw [solve]; rfl

theorem unfoldHeads_eq (n : Nat) (x y : Term) (Γ : Context) :
    c.unfoldHeads n x y Γ = c.round n (fun k => do
      match c.turn? x y with
      | none => pure (.stuck x y)
      | some turn => do
        let same ←
          (if turn = .both then sameSpine (fun a b => c.solve k [⟨a, b, Γ⟩]) x y else pure false)
        if same then pure (.decided true)
        else do
          let x ← (if turn = .right then pure x else c.unfoldHead x Γ)
          let y ← (if turn = .left then pure y else c.unfoldHead y Γ)
          match x.quickEq? y with
          | some equal => pure (.decided equal)
          | none => c.unfoldHeads k x y Γ) := by
  cases n with
  | zero => rw [unfoldHeads]; rfl
  | succ n => rw [unfoldHeads]; rfl

end Checker

namespace Correspondence

variable {c c' : Checker} {R : Correspondence c c'} {w : R.World} {n n' : Nat}
  {Γ Γ' : Context} {x x' y y' : Term}

/-- Two equations with related sides in related contexts. -/
def equation (R : Correspondence c c') (q q' : Equation) : Prop :=
  ∃ w, R.context w q.context q'.context ∧ R.term w q.lhs q'.lhs ∧ R.term w q.rhs q'.rhs

/-- What unfolding two pairs of related heads comes to. -/
def unfolding (R : Correspondence c c') (w : R.World) : Unfolding → Unfolding → Prop
  | .decided equal, .decided equal' => equal = equal'
  | .stuck x y, .stuck x' y' => R.term w x x' ∧ R.term w y y'
  | _, _ => False

namespace Lawful

variable (h : R.Lawful)

include h

/-! ## Comparisons without reduction -/

theorem quickEq? (hx : R.term w x x') (hy : R.term w y y') :
    x.quickEq? y = x'.quickEq? y' := by
  unfold Term.quickEq?
  simp only [h.alphaEq hx hy]
  split
  · rfl
  · cases h.form hx <;> cases h.form hy <;> rfl

/-- Related atoms are the same atom on one side just if they are on the other. -/
theorem sameAtom (hx : R.term w x x') (hy : R.term w y y') :
    x.sameAtom y = x'.sameAtom y' := by
  have halpha := h.alphaEq hx hy
  cases h.form hx with
  | bvar i i' =>
    cases h.form hy with
    | bvar j j' =>
      have hindex : i = j ↔ i' = j' := by
        simpa [Term.AlphaEq, Term.nameless] using halpha
      simp [Term.sameAtom, hindex]
    | _ => rfl
  | _ => cases h.form hy <;> rfl

/-- Related terms have related heads, as the forms of related terms are alike. -/
theorem head (hx : R.term w x x') : R.term w x.head x'.head := by
  rw [← Term.spine_fst, ← Term.spine_fst]
  exact (h.spine hx).1

/-- Related heads name one definition. -/
theorem definition? (hx : R.term w x x') : c.definition? x = c'.definition? x' := by
  have hhead := h.head hx
  unfold Checker.definition?
  generalize x.head = f at hhead ⊢
  generalize x'.head = f' at hhead ⊢
  cases h.form hhead with
  | const m levels => simp only [h.const? hhead]
  | _ => rfl

/-- And the definition has one position. -/
theorem definition?_position {d : Declaration} (hx : R.term w x x')
    (hd : c.definition? x = some d) : c.constPosition? d.name = c'.constPosition? d.name := by
  have hhead := h.head hx
  unfold Checker.definition? at hd
  generalize x.head = f at hhead hd
  generalize x'.head = f' at hhead
  cases h.form hhead with
  | const m levels => exact h.constPosition? hhead (Option.filter_eq_some_iff.mp hd).1
  | _ => cases hd

/-- Of two related pairs of terms the same sides have a definition to unfold next. -/
theorem turn? (hx : R.term w x x') (hy : R.term w y y') : c.turn? x y = c'.turn? x' y' := by
  simp only [Checker.turn?, ← h.definition? hx, ← h.definition? hy]
  cases hd : c.definition? x with
  | none => cases c.definition? y <;> rfl
  | some d =>
    cases hd' : c.definition? y with
    | none => rfl
    | some d' => simp only [h.definition?_position hx hd, h.definition?_position hy hd']

omit h in
theorem zipWith_equation (hΓ : R.context w Γ Γ') {as as' bs bs' : List Term}
    (has : List.Forall₂ (R.term w) as as') (hbs : List.Forall₂ (R.term w) bs bs') :
    List.Forall₂ R.equation (List.zipWith (⟨·, ·, Γ⟩) as bs)
      (List.zipWith (⟨·, ·, Γ'⟩) as' bs') := by
  induction has generalizing bs bs' with
  | nil => exact .nil
  | cons ha _ ih =>
    cases hbs with
    | nil => exact .nil
    | cons hb hbs => exact .cons ⟨w, hΓ, ha, hb⟩ (ih hbs)

/-- **Related terms have related parts.** -/
theorem parts? (hΓ : R.context w Γ Γ') (hx : R.term w x x') (hy : R.term w y y') :
    Option.Rel (List.Forall₂ R.equation) (x.parts? Γ y) (x'.parts? Γ' y') := by
  unfold Term.parts?
  rw [h.sameAtom hx hy]
  split
  · exact .some .nil
  · have hspine := h.spine hx
    have hspine' := h.spine hy
    cases h.form hx with
    | app =>
      cases h.form hy with
      | app =>
        dsimp only
        rw [hspine.2.length_eq, hspine'.2.length_eq]
        split
        · have hargs := zipWith_equation hΓ hspine.2 hspine'.2
          refine .some (List.rel_append (List.forall₂_reverse_iff.mpr hargs) (.cons ?_ .nil))
          exact ⟨w, hΓ, hspine.1, hspine'.1⟩
        · exact .none
      | _ => exact .none
    | bind k hm ht hb =>
      cases h.form hy with
      | bind k' _ hu hb' =>
        dsimp only
        split
        · exact .some (.cons ⟨_, h.push hΓ hm ht, hb, hb'⟩ (.cons ⟨w, hΓ, ht, hu⟩ .nil))
        · exact .none
      | _ => exact .none
    | pair ha hb =>
      cases h.form hy with
      | pair ha' hb' => exact .some (.cons ⟨w, hΓ, hb, hb'⟩ (.cons ⟨w, hΓ, ha, ha'⟩ .nil))
      | _ => exact .none
    | proj k hp =>
      cases h.form hy with
      | proj k' hp' =>
        dsimp only
        split
        · exact .some (.cons ⟨w, hΓ, hp, hp'⟩ .nil)
        · exact .none
      | _ => exact .none
    | _ => cases h.form hy <;> exact .none

/-! ## The loops -/

omit h in
/-- Related lists of terms are compared with the same answer if related terms are. -/
theorem sim_allEqual {equal equal' : Term → Term → CheckM Bool}
    (hequal : ∀ a a' b b', R.term w a a' → R.term w b b' →
      R.Sim n n' Eq (equal a b) (equal' a' b')) {as as' bs bs' : List Term}
    (has : List.Forall₂ (R.term w) as as') (hbs : List.Forall₂ (R.term w) bs bs') :
    R.Sim n n' Eq (Checker.allEqual equal as bs) (Checker.allEqual equal' as' bs') := by
  induction has generalizing bs bs' with
  | nil => exact .pure rfl
  | cons ha _ ih =>
    cases hbs with
    | nil => exact .pure rfl
    | cons hb hbs =>
      refine (hequal _ _ _ _ ha hb).bind fun r r' hr => ?_
      cases hr
      split
      · exact ih hbs
      · exact .pure rfl

/-- Related spines are compared with the same answer: their heads are alike and their arguments
related. -/
theorem sim_sameSpine {equal equal' : Term → Term → CheckM Bool}
    (hequal : ∀ a a' b b', R.term w a a' → R.term w b b' →
      R.Sim n n' Eq (equal a b) (equal' a' b')) (hx : R.term w x x') (hy : R.term w y y') :
    R.Sim n n' Eq (Checker.sameSpine equal x y) (Checker.sameSpine equal' x' y') := by
  obtain ⟨hf, has⟩ := h.spine hx
  obtain ⟨hg, hbs⟩ := h.spine hy
  simp only [Checker.sameSpine, has.length_eq, hbs.length_eq, h.sameAtom hf hg]
  split
  · exact sim_allEqual hequal has hbs
  · exact .pure rfl

/-- Unfolding at the head goes side by side, and leads to related terms. -/
theorem sim_unfoldHead (hΓ : R.context w Γ Γ') (hx : R.term w x x') :
    R.Sim n n' (R.term w) (c.unfoldHead x Γ) (c'.unfoldHead x' Γ') := by
  have hunfolded := h.unfolded? hx
  unfold Checker.unfoldHead
  generalize c.unfolded? x = o at hunfolded ⊢
  generalize c'.unfolded? x' = o' at hunfolded ⊢
  cases hunfolded with
  | none => exact .pure hx
  | some hnext => exact h.sim_whnfCore hΓ hnext

/-- Related equations are reduced alike: to the answer no, or to related equations that are left. -/
theorem sim_reduceEquation {unfold unfold' : Term → Term → Context → CheckM Unfolding}
    (hunfold : ∀ w Γ Γ' x x' y y', R.context w Γ Γ' → R.term w x x' → R.term w y y' →
      R.Sim n n' (R.unfolding w) (unfold x y Γ) (unfold' x' y' Γ')) {q q' : Equation}
    (hq : R.equation q q') : R.Sim n n' (Option.Rel (List.Forall₂ R.equation))
      (c.reduceEquation unfold q) (c'.reduceEquation unfold' q') := by
  -- an answer without parts
  have hdecided : ∀ equal : Bool, R.Sim n n' (Option.Rel (List.Forall₂ R.equation))
      (pure (if equal then some [] else none)) (pure (if equal then some [] else none)) := by
    intro equal
    cases equal with
    | true => exact .pure (.some .nil)
    | false => exact .pure .none
  obtain ⟨w, hΓ, hl, hr⟩ := hq
  unfold Checker.reduceEquation
  rw [h.quickEq? hl hr]
  split
  · exact hdecided _
  · refine (h.sim_whnfCore hΓ hl).bind fun x x' hx => ?_
    refine (h.sim_whnfCore hΓ hr).bind fun y y' hy => ?_
    rw [h.quickEq? hx hy]
    split
    · exact hdecided _
    · refine (hunfold w _ _ _ _ _ _ hΓ hx hy).bind fun u u' hu => ?_
      match u, u', hu with
      | .decided _, .decided _, rfl => exact hdecided _
      | .stuck _ _, .stuck _ _, ⟨hx, hy⟩ => exact .pure (h.parts? hΓ hx hy)

end Lawful

/-- The loops of conversion keep the correspondence within these bounds. -/
structure SimLoops (R : Correspondence c c') (n n' : Nat) : Prop where
  solve {stack stack'} : List.Forall₂ R.equation stack stack' →
    R.Sim n n' Eq (c.solve n stack) (c'.solve n' stack')
  unfoldHeads {v : R.World} {Δ Δ' : Context} {a a' b b' : Term} :
    R.context v Δ Δ' → R.term v a a' → R.term v b b' →
    R.Sim n n' (R.unfolding v) (c.unfoldHeads n a b Δ) (c'.unfoldHeads n' a' b' Δ')

namespace Lawful

variable (h : R.Lawful)

include h

/-- One round of either loop, which pays for a step first. -/
theorem sim_round {α : Type} {value : α → α → Prop} {body body' : Nat → CheckM α}
    (hbody : ∀ k k', n = k + 1 → n' = k' + 1 → R.Sim k k' value (body k) (body' k')) :
    R.Sim n n' value (c.round n body) (c'.round n' body') := by
  refine h.tick_bind fun k k' hk hk' => ?_
  subst hk hk'
  exact hbody k k' rfl rfl

/-- One round of both loops goes side by side if all rounds with smaller bounds do. -/
theorem simLoops_step (ih : ∀ k k', n = k + 1 → n' = k' + 1 → R.SimLoops k k') :
    R.SimLoops n n' := by
  refine ⟨fun hstack => ?_, fun {w Γ Γ' x x' y y'} hΓ hx hy => ?_⟩
  · cases hstack with
    | nil =>
      rw [Checker.solve, Checker.solve]
      exact .pure rfl
    | cons hq hrest =>
      rw [Checker.solve_cons, Checker.solve_cons]
      refine h.sim_round fun k k' hk hk' => ?_
      have hloops := ih k k' hk hk'
      refine (h.sim_reduceEquation (fun _ _ _ _ _ _ _ => hloops.unfoldHeads) hq).bind
        fun o o' ho => ?_
      cases ho with
      | none => exact .pure rfl
      | some hparts => exact hloops.solve (List.rel_append hparts hrest)
  · rw [Checker.unfoldHeads_eq, Checker.unfoldHeads_eq]
    refine h.sim_round fun k k' hk hk' => ?_
    have hloops := ih k k' hk hk'
    rw [h.turn? hx hy]
    cases c'.turn? x' y' with
    | none => exact .pure ⟨hx, hy⟩
    | some turn =>
      have hsame : R.Sim k k' Eq
          (if turn = .both then Checker.sameSpine (fun a b => c.solve k [⟨a, b, Γ⟩]) x y
            else pure false)
          (if turn = .both then Checker.sameSpine (fun a b => c'.solve k' [⟨a, b, Γ'⟩]) x' y'
            else pure false) := by
        split
        · refine h.sim_sameSpine (fun a a' b b' ha hb => ?_) hx hy
          exact hloops.solve (.cons ⟨w, hΓ, ha, hb⟩ .nil)
        · exact .pure rfl
      refine hsame.bind fun same same' hsame => ?_
      cases hsame
      cases same with
      | true => exact .pure rfl
      | false =>
        have hleft : R.Sim k k' (R.term w) (if turn = .right then pure x else c.unfoldHead x Γ)
            (if turn = .right then pure x' else c'.unfoldHead x' Γ') := by
          split
          · exact .pure hx
          · exact h.sim_unfoldHead hΓ hx
        have hright : R.Sim k k' (R.term w) (if turn = .left then pure y else c.unfoldHead y Γ)
            (if turn = .left then pure y' else c'.unfoldHead y' Γ') := by
          split
          · exact .pure hy
          · exact h.sim_unfoldHead hΓ hy
        refine hleft.bind fun x₁ x₁' hx₁ => ?_
        refine hright.bind fun y₁ y₁' hy₁ => ?_
        rw [h.quickEq? hx₁ hy₁]
        split
        · exact .pure rfl
        · exact hloops.unfoldHeads hΓ hx₁ hy₁

/-- **The loops of conversion keep the correspondence.** -/
theorem simLoops (n n' : Nat) : R.SimLoops n n' := by
  induction n generalizing n' with
  | zero => exact h.simLoops_step fun k _ hk => absurd hk.symm k.succ_ne_zero
  | succ n ih =>
    refine h.simLoops_step fun k k' hk _ => ?_
    cases hk
    exact ih k'

/-- **Related terms are compared alike.** -/
theorem sim_conv (hΓ : R.context w Γ Γ') (hx : R.term w x x') (hy : R.term w y y') :
    R.Sim n n' Eq (c.conv x y Γ) (c'.conv x' y' Γ') := by
  refine (Sim.modify (fun _ _ => h.calls 0 0 1) (fun _ => rfl) fun _ => rfl).bind fun _ _ _ => ?_
  exact .remaining_bind fun k k' => (h.simLoops k k').solve (.cons ⟨w, hΓ, hx, hy⟩ .nil)

end Lawful

end Correspondence

end TypeTheory
