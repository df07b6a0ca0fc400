import TypeTheory.Proofs.Checker.Forms
import TypeTheory.Proofs.Simulation.Memo

/-!
# The checker accepts well-scoped terms only

A term that `Checker.infer` finds a type for, or that `Checker.check` accepts, has
no index beyond the context, over any environment and whatever is remembered. The
rule for an index looks it up, and every other rule visits all parts of its form.
A rule is skipped only where a type is remembered, and results are remembered for
closed terms only (`Progress.ClosedKeys`).

As in soundness, both directions of the checker are shown together, one form of
term after the other.
-/

namespace TypeTheory

open CheckM

/-! ## Tables -/

/-- Results are remembered for closed terms only. -/
def Progress.ClosedKeys (p : Progress) : Prop :=
  ∀ q e r, (p.memo q).find? e = some r → e.looseRange ≤ 0

namespace Progress.ClosedKeys

variable {p s : Progress}

theorem of_blank (h : p.Blank) : p.ClosedKeys := by
  intro q e r hr
  rw [h q e] at hr
  cases hr

theorem of_memo (h : p.ClosedKeys) (hmemo : ∀ q, s.memo q = p.memo q) : s.ClosedKeys := by
  intro q e r hr
  rw [hmemo q] at hr
  exact h q e r hr

theorem tick (h : p.ClosedKeys) : Progress.ClosedKeys { p with steps := p.steps + 1 } :=
  h.of_memo fun q => by cases q <;> rfl

theorem addCalls (h : p.ClosedKeys) (i j k : Nat) : (p.addCalls i j k).ClosedKeys :=
  h.of_memo fun q => by cases q <;> rfl

/-- A kept result has a closed key, since results are kept for closed terms only. -/
theorem keep (h : p.ClosedKeys) (c : Checker) (q : Query) (e r : Term) :
    (c.keep q e r p).ClosedKeys := by
  intro q' x y hxy
  rcases Checker.find?_keep hxy with ⟨-, rfl, -, hrange⟩ | hold
  · exact hrange
  · exact h q' x y hold

end Progress.ClosedKeys

namespace Checker

variable {c : Checker} {Γ : Context}

/-- Every run keeps the keys closed, as it goes beside itself in one state. -/
theorem lawful_closedKeys : (c.ownRuns Progress.ClosedKeys).Lawful :=
  lawful_ownRuns (fun _ hp => hp.tick) (fun _ i j k hp => hp.addCalls i j k)
    fun q e _ r _ _ _ _ hs => hs.keep c q e r

/-! ## Reduction and conversion -/

/-- A run from closed keys ends in closed keys, with a value in `post` if it has
one. -/
abbrev Scopes {α : Type} (post : Prop) (m : CheckM α) : Prop :=
  Keeps Progress.ClosedKeys (fun _ => post) (fun _ => True) m

theorem scopes_whnf (e : Term) (Γ : Context) : Scopes True (c.whnf e Γ) :=
  keeps_of_ownRuns fun _ _ => lawful_closedKeys.sim_whnf (w := ()) rfl rfl

theorem scopes_conv (a b : Term) (Γ : Context) : Scopes True (c.conv a b Γ) :=
  keeps_of_ownRuns fun _ _ => lawful_closedKeys.sim_conv (w := ()) rfl rfl rfl

/-- To look for a sort says nothing about scope, and leaves the keys closed. -/
theorem scopes_ensureSort (t e : Term) (Γ : Context) : Scopes True (c.ensureSort t e Γ) := by
  unfold ensureSort
  split
  · exact .pure trivial
  · refine (scopes_whnf t Γ).bind fun w _ => ?_
    split
    · exact .pure trivial
    · exact .throw trivial

theorem scopes_ensureBinding (k : Binder) (error : KernelError) (t : Term) (Γ : Context) :
    Scopes True (c.ensureBinding k error t Γ) := by
  unfold ensureBinding
  split
  · exact .pure trivial
  · refine (scopes_whnf t Γ).bind fun w _ => ?_
    split
    · exact .pure trivial
    · exact .throw trivial

/-! ## From the rule of a form to both directions -/

/-- The term is refused in both directions unless its indices lie in the context. -/
def Guards (c : Checker) (e : Term) : Prop :=
  ∀ Γ, Scopes (e.looseRange ≤ Γ.length) (c.infer e Γ) ∧
    ∀ t, Scopes (e.looseRange ≤ Γ.length) (c.check e t Γ)

/-- A type is found by the rule, or it is remembered and the term is closed. -/
theorem scopes_infer {e : Term} (h : Scopes (e.looseRange ≤ Γ.length) (c.inferNode e Γ)) :
    Scopes (e.looseRange ≤ Γ.length) (c.infer e Γ) := by
  rw [infer]
  refine keeps_remembered ?_ (fun p r hp hr => ?_) fun p r hp _ => hp.keep c _ e r
  · exact (Keeps.modify fun _ hp => hp.addCalls 1 0 0).bind fun _ _ => h
  · exact Nat.le_trans (hp .type e r hr) (Nat.zero_le _)

/-- The sort of a term is found by inference, so it guards the scope as inference does. -/
theorem scopes_sortOf {e : Term} (h : c.Guards e) (Γ : Context) :
    Scopes (e.looseRange ≤ Γ.length) (c.sortOf e Γ) := by
  rw [sortOf]
  refine (h Γ).1.bind fun t he => ?_
  exact (scopes_ensureSort t e Γ).mono (fun _ _ => he) fun _ _ => trivial

/-- Checking by inference guards the scope as inference does, before it compares the types. -/
theorem scopes_checkInferred {e : Term} (h : Scopes (e.looseRange ≤ Γ.length) (c.infer e Γ))
    (t : Term) : Scopes (e.looseRange ≤ Γ.length) (c.checkInferred e t Γ) := by
  rw [checkInferred]
  refine h.bind fun found he => (scopes_conv found t Γ).bind fun r _ => ?_
  split
  · exact .pure he
  · exact .throw trivial

/-- A form that is checked by inference guards its scope if its rule of inference does. -/
theorem guards_of_inferNode {e : Term} (he : e.Inferred)
    (hnode : ∀ Γ, Scopes (e.looseRange ≤ Γ.length) (c.inferNode e Γ)) : c.Guards e := by
  intro Γ
  have hinfer := scopes_infer (hnode Γ)
  refine ⟨hinfer, fun t => ?_⟩
  rw [check_eq_checkInferred he]
  exact scopes_checkInferred hinfer t

/-! ## One form after the other -/

theorem guards_bvar (i : Nat) : c.Guards (.bvar i) := by
  refine guards_of_inferNode trivial fun Γ => ?_
  rw [inferNode]
  split
  · rename_i entry hentry
    obtain ⟨hlt, -⟩ := List.getElem?_eq_some_iff.mp hentry
    exact .pure (Term.looseRange_bvar_le.mpr hlt)
  · exact .throw trivial

/-- The other leaves have no index. -/
theorem guards_leaf {e : Term} (he : e.Inferred) (hclosed : e.looseRange ≤ 0)
    (hnode : ∀ Γ, Scopes True (c.inferNode e Γ)) : c.Guards e :=
  guards_of_inferNode he fun Γ => (hnode Γ).mono
    (fun _ _ => Nat.le_trans hclosed (Nat.zero_le _)) fun _ _ => trivial

theorem guards_const (n : Name) (levels : List Level) : c.Guards (.const n levels) := by
  refine guards_leaf trivial Term.looseRange_const_le fun Γ => ?_
  rw [inferNode, constType]
  split
  · exact .throw trivial
  · split
    · exact .pure trivial
    · exact .throw trivial

/-- An application is in scope as its function and its argument are, which are both visited. -/
theorem guards_app {f a : Term} (hf : c.Guards f) (ha : c.Guards a) : c.Guards (.app f a) := by
  refine guards_of_inferNode trivial fun Γ => ?_
  rw [inferNode]
  refine (hf Γ).1.bind fun fnType hfrange => ?_
  rw [ensurePi_eq]
  refine (scopes_ensureBinding _ _ fnType Γ).bind fun fn _ => ?_
  refine ((ha Γ).2 fn.domain).bind fun _ harange => ?_
  exact .pure (Term.looseRange_app_le.mpr ⟨hfrange, harange⟩)

/-- A function's body is visited in the context with the parameter, which its own range counts. -/
theorem guards_lam {n : Name} {t b : Term} (ht : c.Guards t) (hb : c.Guards b) :
    c.Guards (.lam n t b) := by
  intro Γ
  have hinfer : Scopes ((Term.lam n t b).looseRange ≤ Γ.length) (c.infer (.lam n t b) Γ) := by
    refine scopes_infer ?_
    rw [inferNode]
    refine (scopes_sortOf ht Γ).bind fun _ htrange => ?_
    refine (hb (Γ.push n t)).1.bind fun u hbrange => ?_
    exact .pure (Term.looseRange_bind_le.mpr ⟨htrange, hbrange⟩)
  refine ⟨hinfer, fun expected => ?_⟩
  -- a function is checked against a function type with its own domain, else inferred
  have hfallback := scopes_checkInferred hinfer expected
  rw [check]
  refine (scopes_whnf expected Γ).bind fun w _ => ?_
  split
  · refine (scopes_sortOf ht Γ).bind fun _ htrange => ?_
    refine (scopes_conv t _ Γ).bind fun r _ => ?_
    split
    · refine ((hb (Γ.push n t)).2 _).mono (fun _ hbrange => ?_) fun _ _ => trivial
      exact Term.looseRange_bind_le.mpr ⟨htrange, hbrange⟩
    · exact hfallback
  · exact hfallback

/-- The second part of a function type or pair type is visited in the context with the first. -/
theorem guards_pi_sigma {k : Binder} (hk : k ≠ .lam) {n : Name} {t b : Term} (ht : c.Guards t)
    (hb : c.Guards b) : c.Guards (.bind k n t b) := by
  have hform : (Term.bind k n t b).Inferred := by
    cases k with
    | lam => exact absurd rfl hk
    | pi | sigma => trivial
  refine guards_of_inferNode hform fun Γ => ?_
  rw [inferNode]
  · refine (scopes_sortOf ht Γ).bind fun _ htrange => ?_
    refine (scopes_sortOf hb (Γ.push n t)).bind fun _ hbrange => ?_
    exact .pure (Term.looseRange_bind_le.mpr ⟨htrange, hbrange⟩)
  · exact hk

/-- The body of a local definition is visited with its value in the context, which the range counts
as a binder. -/
theorem guards_letE {n : Name} {t v b : Term} (ht : c.Guards t) (hv : c.Guards v)
    (hb : c.Guards b) : c.Guards (.letE n t v b) := by
  intro Γ
  constructor
  · refine scopes_infer ?_
    rw [inferNode]
    refine (scopes_sortOf ht Γ).bind fun _ htrange => ?_
    refine ((hv Γ).2 t).bind fun _ hvrange => ?_
    refine (hb (Γ.pushLet n t v)).1.bind fun u hbrange => ?_
    exact .pure (Term.looseRange_letE_le.mpr ⟨htrange, hvrange, hbrange⟩)
  · intro expected
    rw [check]
    refine (scopes_sortOf ht Γ).bind fun _ htrange => ?_
    refine ((hv Γ).2 t).bind fun _ hvrange => ?_
    refine ((hb (Γ.pushLet n t v)).2 _).mono (fun _ hbrange => ?_) fun _ _ => trivial
    exact Term.looseRange_letE_le.mpr ⟨htrange, hvrange, hbrange⟩

/-- Both parts of a pair are visited, whether the pair is inferred or checked against a type of
pairs. -/
theorem guards_pair {a b : Term} (ha : c.Guards a) (hb : c.Guards b) : c.Guards (.pair a b) := by
  intro Γ
  have hinfer : Scopes ((Term.pair a b).looseRange ≤ Γ.length) (c.infer (.pair a b) Γ) := by
    refine scopes_infer ?_
    rw [inferNode]
    refine (ha Γ).1.bind fun t harange => (hb Γ).1.bind fun u hbrange => ?_
    exact .pure (Term.looseRange_pair_le.mpr ⟨harange, hbrange⟩)
  refine ⟨hinfer, fun expected => ?_⟩
  have hfallback := scopes_checkInferred hinfer expected
  rw [check]
  refine (scopes_whnf expected Γ).bind fun w _ => ?_
  split
  · refine ((ha Γ).2 _).bind fun _ harange => ?_
    refine ((hb Γ).2 _).mono (fun _ hbrange => ?_) fun _ _ => trivial
    exact Term.looseRange_pair_le.mpr ⟨harange, hbrange⟩
  · exact hfallback

/-- A projection is in scope as its pair is, whose type is inferred. -/
theorem guards_proj {k : Side} {p : Term} (hp : c.Guards p) : c.Guards (.proj k p) := by
  refine guards_of_inferNode trivial fun Γ => ?_
  rw [inferNode]
  refine (hp Γ).1.bind fun t hrange => ?_
  rw [ensureSigma_eq]
  refine (scopes_ensureBinding _ _ t Γ).bind fun s _ => ?_
  have hproj := Term.looseRange_proj_le (k := k).mpr hrange
  cases k with
  | fst => exact .pure hproj
  | snd => exact .pure hproj

/-- **No term is accepted with an index beyond the context.** -/
theorem guards (e : Term) : c.Guards e := by
  induction e with
  | bvar i => exact guards_bvar i
  | fvar n =>
    refine guards_leaf trivial Term.looseRange_fvar_le fun Γ => ?_
    rw [inferNode]
    exact .throw trivial
  | sort l =>
    refine guards_leaf trivial Term.looseRange_sort_le fun Γ => ?_
    rw [inferNode]
    exact .pure trivial
  | const n levels => exact guards_const n levels
  | app f a ihf iha => exact guards_app ihf iha
  | bind k n t b iht ihb =>
    cases k with
    | lam => exact guards_lam iht ihb
    | pi => exact guards_pi_sigma (by decide) iht ihb
    | sigma => exact guards_pi_sigma (by decide) iht ihb
  | letE n t v b iht ihv ihb => exact guards_letE iht ihv ihb
  | pair a b iha ihb => exact guards_pair iha ihb
  | proj k p ih => exact guards_proj ih

end Checker

end TypeTheory
