import TypeTheory.Proofs.Scope.Thinning
import TypeTheory.Proofs.Typing.Contraction
import TypeTheory.Proofs.Typing.Recomputation

/-!
# Terms inside the binders of a telescope

A term over a telescope can be looked at in two ways: as it is, in the context of the
telescope, or as a function of the variables, in no context at all. If every variable has
a type that is found to be one, then a type is found in the one way exactly if it is in
the other, and the two types differ by the binders of the telescope
(`Checker.infer_around_iff`).

What is found is compared at the level of costs. A budget that is large enough for the
one run need not be so for the other, and a run that fails may do so for lack of steps.
-/

namespace TypeTheory

open CheckM

/-- A term over the telescope, inside binders of the given kind. -/
def Telescope.around (t : Telescope) (k : Binder) (body : Term) : Term :=
  t.binders.foldr (fun b body => .bind k b.name b.type body) body

theorem Telescope.wrap_eq_around (t : Telescope) (k : Binder) (e : Term) :
    t.wrap k e = t.around k (t.close e) :=
  rfl

namespace Checker

variable {c : Checker} {Γ : Context} {e t b u : Term} {x : Name}

/-- Steps of a run on a function: the sort of the domain, then the type of the body. -/
theorem infer_lam_eq_ok (hc : c.memoize = false) {p q : Progress} (hp : p.Blank)
    (h : c.infer (.lam x t b) Γ p = .ok u q) :
    ∃ l r s, c.sortOf t Γ (p.addCalls 1 0 0) = .ok l s ∧
      c.infer b (Γ.push x t) s = .ok r q ∧ u = .pi x t r := by
  rw [infer, remembered_of_blank hc hp] at h
  obtain ⟨_, p', hcount, h⟩ := EStateM.bind_eq_ok.mp h
  cases hcount
  rw [inferNode] at h
  obtain ⟨l, s, hsort, h⟩ := EStateM.bind_eq_ok.mp h
  obtain ⟨r, q', hbody, h⟩ := EStateM.bind_eq_ok.mp h
  cases h
  exact ⟨l, r, s, hsort, hbody, rfl⟩

section

variable (hclosed : c.SeesClosed)

include hclosed

/-- **A function has a type if its body has one**, once its domain is a type. -/
theorem pays_infer_lam_iff {l : Level} (ht : c.forgetful.Pays (fun c _ => c.sortOf t Γ) l) :
    c.forgetful.Pays (fun c _ => c.infer (.lam x t b) Γ) u ↔
      ∃ r, c.forgetful.Pays (fun c _ => c.infer b (Γ.push x t)) r ∧ u = .pi x t r := by
  constructor
  · rintro ⟨cost, hpays⟩
    obtain ⟨q, hrun, -⟩ := hpays cost cost {} Progress.blank_empty (by simp) (by simp)
    obtain ⟨l, r, s, hsort, hbody, rfl⟩ := infer_lam_eq_ok rfl Progress.blank_empty hrun
    -- the run on the body starts where the run on the domain has ended
    have hstart : Progress.Blank (Progress.addCalls {} 1 0 0) :=
      Progress.blank_empty.of_tables rfl rfl rfl
    have hclosed' : SeesClosed { c.forgetful with limit := cost } := hclosed
    have hs := (Keeps.of_ok ((recomputesTyping hclosed' t).sortOf hclosed' Γ)
      (.of_blank hstart) hsort).2
    exact ⟨r, (Keeps.of_ok (recomputesTyping hclosed' b (Γ.push x t)).1 hs hbody).1, rfl⟩
  · rintro ⟨r, hr, rfl⟩
    refine pays_infer rfl ?_
    simp only [inferNode]
    exact ht.bind (hr.bind (.pure _))

/-- **And so for all variables of a telescope.** By induction on the variables that are
still to be bound, inside the `early` ones. -/
theorem pays_infer_binders_iff {vars : List SectionVar} (early : List SectionVar)
    (htypes : ∀ mid v late, vars = mid ++ v :: late →
      ∃ l, c.forgetful.Pays (fun c _ => c.sortOf ((Telescope.mk (early ++ mid)).close v.type)
        (Telescope.mk (early ++ mid)).context) l) {body : Term} :
    c.forgetful.Pays (fun c _ => c.infer
        ((Telescope.bindersWithin (early.map (·.name)) vars).foldr
          (fun b body => .bind .lam b.name b.type body) body) (Telescope.mk early).context) u ↔
      ∃ r, c.forgetful.Pays (fun c _ => c.infer body (Telescope.mk (early ++ vars)).context) r ∧
        u = (Telescope.bindersWithin (early.map (·.name)) vars).foldr
          (fun b body => .bind .pi b.name b.type body) r := by
  induction vars generalizing early u with
  | nil =>
    rw [List.append_nil]
    constructor
    · exact fun h => ⟨u, h, rfl⟩
    · rintro ⟨r, hr, rfl⟩
      exact hr
  | cons v rest ih =>
    obtain ⟨l, hl⟩ := htypes [] v rest rfl
    rw [List.append_nil] at hl
    have hrest (s : Term) := ih (u := s) (early ++ [v]) fun mid w late hsplit => by
      have hw := htypes (v :: mid) w late (by rw [hsplit, List.cons_append])
      rwa [List.append_cons] at hw
    simp only [Telescope.context_concat, List.map_append, List.append_assoc] at hrest
    refine (pays_infer_lam_iff hclosed hl).trans ?_
    constructor
    · rintro ⟨s, hs, rfl⟩
      obtain ⟨r, hr, rfl⟩ := (hrest s).mp hs
      exact ⟨r, hr, rfl⟩
    · rintro ⟨r, hr, rfl⟩
      exact ⟨_, (hrest _).mpr ⟨r, hr, rfl⟩, rfl⟩

/-- A function of the variables of a telescope has a type just if its body has one over the
telescope, at a cost. -/
theorem pays_infer_around_iff {t : Telescope}
    (htypes : ∀ early v late, t.vars = early ++ v :: late →
      ∃ l, c.forgetful.Pays (fun c _ => c.sortOf ((Telescope.mk early).close v.type)
        (Telescope.mk early).context) l) {body : Term} :
    c.forgetful.Pays (fun c _ => c.infer (t.around .lam body) []) u ↔
      ∃ r, c.forgetful.Pays (fun c _ => c.infer body t.context) r ∧ u = t.around .pi r :=
  pays_infer_binders_iff hclosed [] htypes

/-! ## Budgets -/

/-- An answer within some budget, with or without tables, is an answer at a cost. -/
theorem pays_of_value?_infer {limit : Nat} {memoize : Bool}
    (h : ({ c with limit := limit, memoize := memoize }.infer e Γ).value? {} = some u) :
    c.forgetful.Pays (fun c _ => c.infer e Γ) u := by
  obtain ⟨p, hrun⟩ := value?_eq_some.mp h
  exact pays_infer_of_ok (c := { c with limit := limit, memoize := memoize }) hclosed
    Progress.blank_empty hrun

/-- An answer at a cost is found with every budget that is large enough, with or without tables. -/
theorem exists_value?_infer (h : c.forgetful.Pays (fun c _ => c.infer e Γ) u) :
    ∃ N, ∀ limit memoize, N ≤ limit →
      ({ c with limit := limit, memoize := memoize }.infer e Γ).value? {} = some u := by
  obtain ⟨N, hN⟩ := h.exists_value?
  refine ⟨N, fun limit memoize hle => ?_⟩
  exact value?_infer_of_forgetful (c := { c with limit := limit }) hclosed (Nat.le_refl limit)
    memoize (hN limit hle)

/-- **What is found inside the binders of a telescope is what is found in its context**,
inside the binders, for all budgets that are large enough. -/
theorem infer_around_iff {t : Telescope}
    (htypes : ∀ early v late, t.vars = early ++ v :: late →
      ∃ l, c.forgetful.Pays (fun c _ => c.sortOf ((Telescope.mk early).close v.type)
        (Telescope.mk early).context) l) (body : Term) :
    ∃ N, ∀ limit memoize, N ≤ limit →
      let c' := { c with limit := limit, memoize := memoize }
      ∀ u, (c'.infer (t.around .lam body) []).value? {} = some u ↔
        ∃ r, (c'.infer body t.context).value? {} = some r ∧ u = t.around .pi r := by
  by_cases hfound : ∃ r, c.forgetful.Pays (fun c _ => c.infer body t.context) r
  · obtain ⟨r, hr⟩ := hfound
    obtain ⟨N, hN⟩ := exists_value?_infer hclosed hr
    obtain ⟨M, hM⟩ := exists_value?_infer hclosed
      ((pays_infer_around_iff hclosed htypes).mpr ⟨r, hr, rfl⟩)
    refine ⟨max N M, fun limit memoize hle u => ?_⟩
    rw [hN limit memoize (by omega), hM limit memoize (by omega)]
    constructor
    · intro hu
      exact ⟨r, rfl, (Option.some.inj hu).symm⟩
    · rintro ⟨s, hs, rfl⟩
      rw [Option.some.inj hs]
  · -- whatever the budget, neither run succeeds
    refine ⟨0, fun limit memoize _ u => ⟨fun hu => ?_, fun hr => ?_⟩⟩
    · obtain ⟨r, hr, -⟩ := (pays_infer_around_iff hclosed htypes).mp
        (pays_of_value?_infer hclosed hu)
      exact absurd ⟨r, hr⟩ hfound
    · obtain ⟨r, hr, -⟩ := hr
      exact absurd ⟨r, pays_of_value?_infer hclosed hr⟩ hfound

end

end Checker

end TypeTheory
