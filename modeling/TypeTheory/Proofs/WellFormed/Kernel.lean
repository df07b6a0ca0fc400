import TypeTheory.Proofs.Simulation.Memo
import TypeTheory.Proofs.WellFormed.Basic

/-!
# The kernel keeps terms well-formed

Over a well-formed environment and in a well-formed context, every operation of
the kernel turns well-formed terms into well-formed terms, and never complains of
an escaping index, a free variable, an unknown constant or a wrong number of
levels (`Checker.safe_of_wellFormed`).

A run beside itself is a correspondence: terms are related when they are the same
and well-formed, so that every function of the kernel keeps it once the laws are
shown (`Checker.lawful_wellFormed`). A world is a list of universe parameters and
a number of binders. A closed term is well-formed in the world without binders
too, whatever context it is met in, so what is remembered for it is closed.
-/

namespace TypeTheory

/-- Whether the error says that a term is ill-formed. -/
def KernelError.IllFormed : KernelError → Prop
  | .looseIndex _ | .freeVariable _ | .unknownConstant _ | .universeArity .. => True
  | .duplicateName _ | .notAFunction .. | .notAPair .. | .notASort .. | .typeMismatch ..
  | .duplicateUniverse _ | .undeclaredUniverse _ | .exhausted _ => False

namespace Term.WellFormed

variable {v : Vocabulary} {n : Nat} {e e' : Term}

theorem parts (h : e.WellFormed v n) : e.Parts (WellFormed v n) (WellFormed v (n + 1)) := by
  cases e <;> simp_all [Parts]

theorem of_parts (hleaf : e.isLeaf = false)
    (h : e.Parts (WellFormed v n) (WellFormed v (n + 1))) : e.WellFormed v n := by
  cases e <;> simp_all [Parts, isLeaf]

end Term.WellFormed

namespace Checker

variable {c : Checker}

/-- What a checker lets terms mention, with the given universe parameters. -/
def vocabulary (c : Checker) (ps : List Name) : Vocabulary :=
  ⟨c.env, c.visible, ps⟩

/-! ## Tables -/

/-- Remembered results belong to closed terms, and to a well-formed term a
well-formed result, whatever its universe parameters are. -/
def TablesWellFormed (c : Checker) (p : Progress) : Prop :=
  ∀ q e r, (p.memo q).find? e = some r → e.looseRange ≤ 0 ∧
    ∀ ps, e.WellFormed (c.vocabulary ps) 0 → r.WellFormed (c.vocabulary ps) 0

namespace TablesWellFormed

variable {p s : Progress}

/-- A fresh state has well-formed tables. -/
theorem of_blank (h : p.Blank) : c.TablesWellFormed p := by
  intro q e r hr
  rw [h q e] at hr
  cases hr

theorem of_memo (h : c.TablesWellFormed p) (hmemo : ∀ q, s.memo q = p.memo q) :
    c.TablesWellFormed s := by
  intro q e r hr
  rw [hmemo q] at hr
  exact h q e r hr

/-- A result may be remembered if it is well-formed wherever its term is. -/
theorem keep {q : Query} {e r : Term} (h : c.TablesWellFormed p)
    (hr : e.looseRange ≤ 0 → ∀ ps, e.WellFormed (c.vocabulary ps) 0 →
      r.WellFormed (c.vocabulary ps) 0) : c.TablesWellFormed (c.keep q e r p) := by
  intro q' x y hxy
  rcases find?_keep hxy with ⟨rfl, rfl, rfl, hrange⟩ | hold
  · exact ⟨hrange, hr hrange⟩
  · exact h q' x y hold

end TablesWellFormed

/-! ## The correspondence -/

/-- A run beside itself, on well-formed terms. -/
def wellFormed (c : Checker) : Correspondence c c where
  World := List Name × Nat
  under w := (w.1, w.2 + 1)
  name := Eq
  term w e e' := e = e' ∧ e.WellFormed (c.vocabulary w.1) w.2
  context w Γ Γ' := Γ = Γ' ∧ Γ.WellFormedTo (c.vocabulary w.1) w.2
  state p p' := p = p' ∧ c.TablesWellFormed p
  error e e' := e = e' ∧ ¬e.IllFormed
  lenient := False

/-- The declaration of a constant at well-formed levels is well-formed. -/
theorem wellFormed_declared (henv : c.env.WellFormed) {ps : List Name} {n : Nat} {x : Name}
    {ls : List Level} {d : Declaration} (hx : (Term.const x ls).WellFormed (c.vocabulary ps) n)
    (hd : c.const? x = some d) (hlength : d.params.length = ls.length) {e : Term}
    (he : e = d.type ∨ e ∈ d.value) :
    (e.substLevels (d.params.zip ls)).WellFormed (c.vocabulary ps) n := by
  have hdeclared := henv.declared hd
  have hwell : e.WellFormed (c.vocabulary d.params) 0 := by
    rcases he with rfl | he
    · exact hdeclared.1
    · exact hdeclared.2 e he
  have hmaps := Level.Assignment.maps_zip hlength (Term.wellFormed_const.mp hx).1
  exact (hwell.substLevels hmaps).mono (Nat.zero_le n)

/-- **What is remembered is well-formed.** A result is stored for a closed term
only, and then it was computed in the world without binders as well. -/
theorem sim_remembered_wellFormed {q : Query} {Γ Γ' : Context} {e e' : Term}
    (hanswer : ∀ w, c.wellFormed.context w Γ Γ' → c.wellFormed.term w e e' → ∀ k k',
      c.wellFormed.Sim k k' (c.wellFormed.term w) (c.answer q e Γ) (c.answer q e' Γ'))
    (w : c.wellFormed.World) (hΓ : c.wellFormed.context w Γ Γ') (he : c.wellFormed.term w e e')
    (k k' : Nat) : c.wellFormed.Sim k k' (c.wellFormed.term w)
      (c.remembered q e (c.answer q e Γ)) (c.remembered q e' (c.answer q e' Γ')) := by
  rintro p _ ⟨rfl, hp⟩ hk hk'
  have hcomputed := hanswer w hΓ he k k' p p ⟨rfl, hp⟩ hk hk'
  obtain ⟨rfl, -⟩ := hΓ
  obtain ⟨rfl, hwell⟩ := he
  rw [remembered_eq]
  cases hfind : (p.memo q).find? e with
  | some r =>
    obtain ⟨hclosed, hresult⟩ := hp q e r hfind
    have hr := (hresult w.1 (hwell.of_closed hclosed)).mono (Nat.zero_le w.2)
    exact ⟨⟨rfl, hr⟩, ⟨rfl, hp⟩, Nat.le_refl _, Nat.le_refl _⟩
  | none =>
    refine hcomputed.adjust (steps_keep q e) (steps_keep q e) ?_
    rintro r _ s _ hrun - ⟨rfl, -⟩ ⟨⟨rfl, hs⟩, -⟩
    refine ⟨rfl, hs.keep fun _ ps hps => ?_⟩
    have hclosed := hanswer (ps, 0) ⟨rfl, .zero⟩ ⟨rfl, hps⟩ k k' p p ⟨rfl, hp⟩ hk hk'
    rw [hrun] at hclosed
    exact hclosed.1.2

/-- **The kernel keeps terms well-formed** over a well-formed environment. -/
theorem lawful_wellFormed (henv : c.env.WellFormed) : c.wellFormed.Lawful where
  name_refl _ := rfl
  form := by
    rintro w e _ ⟨rfl, he⟩
    exact Term.alike_of_parts he.parts
  build hleaf h := by
    obtain ⟨rfl, hparts⟩ := Term.parts_of_alike hleaf h
    exact ⟨rfl, .of_parts hleaf hparts⟩
  sortSucc h := by
    have hl := Term.wellFormed_sort.mp h.2
    exact ⟨rfl, Term.wellFormed_sort.mpr hl⟩
  sortMax hl hr := by
    refine ⟨rfl, Term.wellFormed_sort.mpr (Level.paramsWithin_normalize ?_)⟩
    exact Level.paramsWithin_max.mpr
      ⟨Term.wellFormed_sort.mp hl.2, Term.wellFormed_sort.mp hr.2⟩
  instantiate := by
    rintro w b _ a _ ⟨rfl, hb⟩ ⟨rfl, ha⟩
    exact ⟨rfl, hb.instantiate ha⟩
  weaken := by
    rintro w e _ ⟨rfl, he⟩
    exact ⟨rfl, he.shift 0⟩
  alphaEq := by
    rintro w x _ y _ ⟨rfl, -⟩ ⟨rfl, -⟩
    exact Iff.rfl
  push := by
    rintro w Γ _ t _ x _ ⟨rfl, hΓ⟩ rfl ⟨rfl, ht⟩
    refine ⟨rfl, hΓ.cons ht fun u hu => ?_⟩
    cases hu
  pushLet := by
    rintro w Γ _ t _ u _ x _ ⟨rfl, hΓ⟩ rfl ⟨rfl, ht⟩ ⟨rfl, hu⟩
    refine ⟨rfl, hΓ.cons ht fun u' hu' => ?_⟩
    cases hu'
    exact hu
  lookup := by
    rintro w Γ _ i i' ⟨rfl, hΓ⟩ ⟨hi, hwell⟩
    cases hi
    obtain ⟨entry, hentry, htype, hvalue⟩ := hΓ.lookup (Term.wellFormed_bvar.mp hwell)
    refine .inr ⟨entry, entry, hentry, hentry, ⟨rfl, htype⟩, ?_⟩
    cases hv : entry.value with
    | none => exact .none
    | some u => exact .some ⟨rfl, hvalue u hv⟩
  const? _ := rfl
  constPosition? _ _ := rfl
  declaredType hx hd hlength := ⟨rfl, wellFormed_declared henv hx.2 hd hlength (.inl rfl)⟩
  declaredValue hx hd hlength hv := ⟨rfl, wellFormed_declared henv hx.2 hd hlength (.inr hv)⟩
  freeVariable h := absurd h.2 Term.not_wellFormed_fvar
  unknownConstant {w x ls} h hd := by
    obtain ⟨-, d, hd', -⟩ := Term.wellFormed_const.mp h.2
    have hsome : c.const? x = some d := hd'
    rw [hd] at hsome
    cases hsome
  universeArity {w x ls d} h hd hlength := by
    obtain ⟨-, d', hd', hlength'⟩ := Term.wellFormed_const.mp h.2
    have hsome : c.const? x = some d' := hd'
    rw [hd] at hsome
    cases hsome
    exact absurd hlength' hlength
  notAFunction := by
    rintro w e _ t _ ⟨rfl, -⟩ ⟨rfl, -⟩
    exact ⟨rfl, id⟩
  notAPair := by
    rintro w e _ t _ ⟨rfl, -⟩ ⟨rfl, -⟩
    exact ⟨rfl, id⟩
  notASort := by
    rintro w e _ t _ ⟨rfl, -⟩ ⟨rfl, -⟩
    exact ⟨rfl, id⟩
  typeMismatch := by
    rintro w e _ t _ u _ ⟨rfl, -⟩ ⟨rfl, -⟩ ⟨rfl, -⟩
    exact ⟨rfl, id⟩
  tick _ _ := .tick_self (fun _ _ => Iff.rfl) (fun _ hp => hp.of_memo fun q => by cases q <;> rfl)
    ⟨rfl, id⟩
  calls := by
    rintro p _ i j k ⟨rfl, hp⟩
    exact ⟨rfl, hp.of_memo fun q => by cases q <;> rfl⟩
  remembered := sim_remembered_wellFormed

/-! ## Runs -/

/-- The run has not found its input ill-formed: it ends with a value in `post`, or
with an error that says something else. Either way its tables are well-formed. -/
def Safe {α : Type} (c : Checker) (post : α → Prop) :
    EStateM.Result KernelError Progress α → Prop
  | .ok a p => post a ∧ c.TablesWellFormed p
  | .error e p => ¬e.IllFormed ∧ c.TablesWellFormed p

theorem safe_of_sim {α : Type} {value : α → α → Prop} {post : α → Prop} {m : CheckM α}
    (h : ∀ n n', c.wellFormed.Sim n n' value m m) (hpost : ∀ a, value a a → post a)
    {p : Progress} (hp : c.TablesWellFormed p) : c.Safe post (m p) := by
  have hends := Correspondence.Sim.ends_self h (fun _ _ => Iff.rfl) id hp
  cases hm : m p with
  | ok a q =>
    rw [hm] at hends
    exact ⟨hpost a hends.1, hends.2⟩
  | error e q =>
    rw [hm] at hends
    exact ⟨hends.1.2, hends.2⟩

/-- **Well-formedness is kept by every operation of the kernel.** Over a
well-formed environment, in a well-formed context and on well-formed terms, no
operation complains of an index, a free variable, a constant or a number of
levels; the terms that are returned are well-formed in the context, the levels
have their parameters in the list, and the tables are left as the next operation
needs them. Universe parameters of a declaration need not be distinct for this. -/
theorem safe_of_wellFormed (c : Checker) (ps : List Name) (Γ : Context) (e t : Term)
    (p : Progress) (henv : c.env.WellFormed) (hΓ : Γ.WellFormed (c.vocabulary ps))
    (he : e.WellFormed (c.vocabulary ps) Γ.length) (ht : t.WellFormed (c.vocabulary ps) Γ.length)
    (hp : c.TablesWellFormed p) :
    c.Safe (·.WellFormed (c.vocabulary ps) Γ.length) (c.infer e Γ p) ∧
      c.Safe (·.paramsWithin ps = true) (c.sortOf e Γ p) ∧
      c.Safe (fun _ => True) (c.check e t Γ p) ∧
      c.Safe (·.WellFormed (c.vocabulary ps) Γ.length) (c.whnf e Γ p) ∧
      c.Safe (·.WellFormed (c.vocabulary ps) Γ.length) (c.whnfCore e Γ p) ∧
      c.Safe (fun r => ∀ x ∈ r, x.WellFormed (c.vocabulary ps) Γ.length) (c.normalize e Γ p) ∧
      c.Safe (fun _ => True) (c.conv e t Γ p) := by
  have h := lawful_wellFormed henv
  have hcontext : c.wellFormed.context (ps, Γ.length) Γ Γ := ⟨rfl, hΓ.toEnd⟩
  have hterm : c.wellFormed.term (ps, Γ.length) e e := ⟨rfl, he⟩
  have htype : c.wellFormed.term (ps, Γ.length) t t := ⟨rfl, ht⟩
  refine ⟨?_, ?_, ?_, ?_, ?_, ?_, ?_⟩
  · exact safe_of_sim (fun _ _ => (h.simTyping e).infer hcontext hterm) (fun _ hr => hr.2) hp
  · exact safe_of_sim (fun _ _ => h.sim_sortOf (h.simTyping e) hcontext hterm)
      (fun _ hl => Term.wellFormed_sort.mp hl.2.2) hp
  · exact safe_of_sim (fun _ _ => (h.simTyping e).check hcontext hterm htype)
      (fun _ _ => trivial) hp
  · exact safe_of_sim (fun _ _ => h.sim_whnf hcontext hterm) (fun _ hr => hr.2) hp
  · exact safe_of_sim (fun _ _ => h.sim_whnfCore hcontext hterm) (fun _ hr => hr.2) hp
  · refine safe_of_sim (fun _ _ => h.sim_normalize hcontext hterm) (fun r hr x hx => ?_) hp
    cases hx
    cases hr with
    | some hx => exact hx.2
  · exact safe_of_sim (fun _ _ => h.sim_conv hcontext hterm htype) (fun _ _ => trivial) hp

/-- The identity at a universe parameter, applied to a local definition: its
weak-head normal form lies behind the definition in the context. -/
theorem safe_of_wellFormed_identity :
    let u := Name.atom "u"
    let type : Term := .pi .anonymous (.sort (.param u)) (.pi .anonymous (.bvar 0) (.bvar 1))
    let value : Term := .lam .anonymous (.sort (.param u)) (.lam .anonymous (.bvar 0) (.bvar 0))
    let c := ofEnvironment ⟨#[⟨.atom "id", [u], type, some value⟩]⟩ 100
    let Γ : Context := [⟨.atom "y", .bvar 1, some (.bvar 0)⟩, ⟨.atom "x", .bvar 0, none⟩,
      ⟨.atom "A", .sort (.param (.atom "w")), none⟩]
    let e := (Term.const (.atom "id") [.param (.atom "w")]).apps [.bvar 2, .bvar 0]
    let v := c.vocabulary [.atom "w"]
    (c.env.WellFormed ∧ Γ.WellFormed v ∧ e.WellFormed v 3 ∧ (Term.bvar 2).WellFormed v 3) ∧
      c.Safe (·.WellFormed v 3) (c.infer e Γ {}) ∧ c.Safe (·.WellFormed v 3) (c.whnf e Γ {}) ∧
      (c.whnf e Γ).value? {} = some (.bvar 1) := by
  intro u type value c Γ e v
  have henv : c.env.WellFormed := by decide +kernel
  have hΓ : Γ.WellFormed v := by decide +kernel
  have he : e.WellFormed v 3 := by decide +kernel
  have ht : (Term.bvar 2).WellFormed v 3 := by decide +kernel
  obtain ⟨hinfer, -, -, hwhnf, -⟩ := safe_of_wellFormed c [.atom "w"] Γ e (.bvar 2) {} henv hΓ he ht
    (.of_blank Progress.blank_empty)
  exact ⟨⟨henv, hΓ, he, ht⟩, hinfer, hwhnf, by decide +kernel⟩

end Checker

end TypeTheory
