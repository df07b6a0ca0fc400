import TypeTheory.Proofs.Simulation.Typing

/-!
# Runs with one view

Two checkers that look up the same constants do the same on the same terms, also
where one of them has a larger environment behind its view. What may differ is
how their states belong together; `Checker.lawful_sameTerms` asks for that alone.
The first use is `Checker.sameRuns`: checkers that differ in nothing else run in
step. The second is `Checker.ownRuns`, a run beside itself: it shows that every
function of the kernel keeps an invariant of the state.
-/

namespace TypeTheory

namespace Correspondence

variable {c c' : Checker} {R : Correspondence c c'} {n n' : Nat}

/-- What a correspondence of a run beside itself says about the run. -/
theorem Sim.ends_self {R : Correspondence c c} {α : Type} {value : α → α → Prop} {m : CheckM α}
    {inv : Progress → Prop} (h : ∀ n n', R.Sim n n' value m m)
    (hstate : ∀ p p', R.state p p' ↔ p = p' ∧ inv p) (hlenient : ¬ R.lenient) {p : Progress}
    (hp : inv p) : CheckM.Ends inv (fun a => value a a) (fun e => R.error e e) (m p) := by
  have hout := Sim.outcome h ((hstate p p).mpr ⟨rfl, hp⟩)
  cases hrun : m p with
  | ok a q =>
    rw [hrun] at hout
    exact ⟨hout.1, ((hstate q q).mp hout.2.1).2⟩
  | error e q =>
    rw [hrun] at hout
    obtain ⟨herror, hq, -⟩ := hout.resolve_left fun hspent => hlenient hspent.1
    exact ⟨herror, ((hstate q q).mp hq).2⟩

/-- The budget keeps a correspondence of a run beside itself. -/
theorem Sim.tick_self {R : Correspondence c c} {inv : Progress → Prop}
    (hstate : ∀ p p', R.state p p' ↔ p = p' ∧ inv p)
    (hinv : ∀ p, inv p → inv { p with steps := p.steps + 1 })
    (herror : R.error (.exhausted c.limit) (.exhausted c.limit)) :
    R.Sim n n' (fun _ _ => True) c.tick c.tick := by
  intro p p' hpp' _ _
  obtain ⟨rfl, hp⟩ := (hstate p p').mp hpp'
  have hnext := (hstate _ _).mpr ⟨rfl, hinv p hp⟩
  unfold Checker.tick
  dsimp only
  split
  · exact .inr ⟨herror, hnext, Nat.le_succ _, Nat.le_succ _⟩
  · exact ⟨trivial, hnext, Nat.le_succ _, Nat.le_succ _⟩

/-- The budget keeps a lenient correspondence, if the right run has at least as
many steps left. -/
theorem Sim.tick (hlenient : R.lenient)
    (hleft : ∀ p p', R.state p p' → p.steps < c.limit → p'.steps < c'.limit)
    (hstate : ∀ p p', R.state p p' →
      R.state { p with steps := p.steps + 1 } { p' with steps := p'.steps + 1 }) :
    R.Sim n n' (fun _ _ => True) c.tick c'.tick := by
  intro p p' hp _ _
  unfold Checker.tick
  dsimp only
  by_cases hlt : c.limit < p.steps + 1
  · rw [if_pos hlt]
    exact .of_spent ⟨hlenient, rfl⟩
  · have hlt' := hleft p p' hp (by omega)
    rw [if_neg hlt, if_neg (by omega)]
    exact ⟨trivial, hstate p p' hp, Nat.le_succ _, Nat.le_succ _⟩

end Correspondence

namespace Term

/-- A term is of its own form. -/
theorem alike_refl (e : Term) : e.Alike Eq Eq Eq e := by
  cases e <;> constructor <;> rfl

/-- Equal parts make equal terms. -/
theorem eq_of_alike {e e' : Term} (hleaf : e.isLeaf = false) (h : e.Alike Eq Eq Eq e') :
    e = e' := by
  cases h with
  | bvar i => cases hleaf
  | _ => simp_all

/-- The parts of the term satisfy a predicate: the body of a binder `body`, and all
other parts `part`. -/
def Parts (part body : Term → Prop) : Term → Prop
  | .app f a => part f ∧ part a
  | .bind _ _ t b => part t ∧ body b
  | .letE _ t v b => part t ∧ part v ∧ body b
  | .pair a b => part a ∧ part b
  | .proj _ p => part p
  | .bvar _ | .fvar _ | .sort _ | .const .. => True

variable {part body : Term → Prop} {e e' : Term}

/-- A term is of its own form, and what holds of its parts comes with them. -/
theorem alike_of_parts (h : e.Parts part body) :
    e.Alike Eq (fun x y => x = y ∧ part x) (fun x y => x = y ∧ body x) e := by
  cases e with
  | bvar i => exact .bvar i i
  | fvar x => exact .fvar x
  | sort l => exact .sort l
  | const x ls => exact .const x ls
  | app f a => exact .app ⟨rfl, h.1⟩ ⟨rfl, h.2⟩
  | bind k x t b => exact .bind k rfl ⟨rfl, h.1⟩ ⟨rfl, h.2⟩
  | letE x t v b => exact .letE rfl ⟨rfl, h.1⟩ ⟨rfl, h.2.1⟩ ⟨rfl, h.2.2⟩
  | pair a b => exact .pair ⟨rfl, h.1⟩ ⟨rfl, h.2⟩
  | proj k p => exact .proj k ⟨rfl, h⟩

theorem parts_of_alike (hleaf : e.isLeaf = false)
    (h : e.Alike Eq (fun x y => x = y ∧ part x) (fun x y => x = y ∧ body x) e') :
    e = e' ∧ e.Parts part body := by
  cases h with
  | bvar | fvar | sort | const => cases hleaf
  | app hf ha => exact ⟨by rw [hf.1, ha.1], hf.2, ha.2⟩
  | bind k hx ht hb => exact ⟨by rw [hx, ht.1, hb.1], ht.2, hb.2⟩
  | letE hx ht hv hb => exact ⟨by rw [hx, ht.1, hv.1, hb.1], ht.2, hv.2, hb.2⟩
  | pair ha hb => exact ⟨by rw [ha.1, hb.1], ha.2, hb.2⟩
  | proj k hp => exact ⟨by rw [hp.1], hp.2⟩

end Term

namespace Checker

variable {c c' : Checker}

/-- Both checkers look up the same constants at the same positions. -/
structure SameView (c c' : Checker) : Prop where
  const? (x : Name) : c.const? x = c'.const? x
  constPosition? (x : Name) : c.constPosition? x = c'.constPosition? x

/-- Runs on the same terms in the same contexts, with related states. Unless told
otherwise, the left one is excused once it is out of steps. -/
def sameTerms (c c' : Checker) (state : Progress → Progress → Prop) (lenient : Prop := True) :
    Correspondence c c' where
  World := Unit
  under := id
  name := Eq
  term _ := Eq
  context _ := Eq
  state := state
  error := Eq
  lenient := lenient

/-- **Runs on the same terms correspond** if the checkers have one view, and the
budget, the counters and the tables keep the states related. -/
theorem lawful_sameTerms {state : Progress → Progress → Prop} {lenient : Prop}
    (hview : c.SameView c')
    (htick : ∀ k k', (sameTerms c c' state lenient).Sim k k' (fun _ _ => True) c.tick c'.tick)
    (hcalls : ∀ p p' i j k, state p p' → state (p.addCalls i j k) (p'.addCalls i j k))
    (hremembered : ∀ q e Γ,
      (∀ k k', (sameTerms c c' state lenient).Sim k k' Eq (c.answer q e Γ) (c'.answer q e Γ)) →
      ∀ k k', (sameTerms c c' state lenient).Sim k k' Eq (c.remembered q e (c.answer q e Γ))
        (c'.remembered q e (c'.answer q e Γ))) :
    (sameTerms c c' state lenient).Lawful where
  name_refl _ := rfl
  form {w e e'} he := by
    cases he
    exact e.alike_refl
  build hleaf he := Term.eq_of_alike hleaf he
  sortSucc _ := rfl
  sortMax _ _ := rfl
  instantiate hb ha := by
    cases hb
    cases ha
    rfl
  weaken he := by
    cases he
    rfl
  alphaEq hx hy := by
    cases hx
    cases hy
    exact Iff.rfl
  push hΓ hx ht := by
    cases hΓ
    cases hx
    cases ht
    rfl
  pushLet hΓ hx ht hv := by
    cases hΓ
    cases hx
    cases ht
    cases hv
    rfl
  lookup {w Γ Γ' i i'} hΓ hi := by
    cases hΓ
    cases hi
    cases hentry : Γ[i]? with
    | none => exact .inl ⟨rfl, rfl, rfl⟩
    | some entry =>
      refine .inr ⟨entry, entry, rfl, rfl, rfl, ?_⟩
      cases entry.value with
      | none => exact .none
      | some v => exact .some rfl
  const? _ := hview.const? _
  constPosition? _ _ := hview.constPosition? _
  declaredType _ _ _ := rfl
  declaredValue _ _ _ _ := rfl
  freeVariable _ := rfl
  unknownConstant _ _ := rfl
  universeArity _ _ _ := rfl
  notAFunction he ht := by
    cases he
    cases ht
    rfl
  notAPair he ht := by
    cases he
    cases ht
    rfl
  notASort he ht := by
    cases he
    cases ht
    rfl
  typeMismatch he ht hu := by
    cases he
    cases ht
    cases hu
    rfl
  tick := htick
  calls i j k hp := hcalls _ _ i j k hp
  remembered {q Γ Γ' e e'} hanswer w hΓ he := by
    have hsim := hanswer w hΓ he
    cases hΓ
    cases he
    exact hremembered q e Γ hsim

/-! ## The same runs -/

/-- From one state, remembering keeps the runs together. -/
theorem sim_remembered_same {lenient : Prop} (hmemoize : c.memoize = c'.memoize) {q : Query}
    {e : Term} {Γ : Context}
    (hanswer : ∀ k k',
      (sameTerms c c' Eq lenient).Sim k k' Eq (c.answer q e Γ) (c'.answer q e Γ)) (k k' : Nat) :
    (sameTerms c c' Eq lenient).Sim k k' Eq (c.remembered q e (c.answer q e Γ))
      (c'.remembered q e (c'.answer q e Γ)) := by
  intro p p' hp hk hk'
  cases hp
  rw [remembered_eq, remembered_eq]
  cases (p.memo q).find? e with
  | some r => exact ⟨rfl, rfl, Nat.le_refl _, Nat.le_refl _⟩
  | none =>
    refine (hanswer k k' p p rfl hk hk').adjust (steps_keep q e) (steps_keep q e) ?_
    rintro r _ s _ _ _ rfl ⟨rfl, -, -⟩
    have hremembers : c.remembers e = c'.remembers e := by simp only [remembers, hmemoize]
    change c.keep q e r s = c'.keep q e r s
    rw [keep, keep, hremembers]

/-- **Runs from one state have one result**, unless the left one is excused. -/
theorem eq_of_sameTerms {lenient : Prop} {α : Type} {m m' : CheckM α} {p : Progress}
    (h : ∀ n n', (sameTerms c c' Eq lenient).Sim n n' Eq m m')
    (hspent : ∀ e q, m p = .error e q → ¬ (sameTerms c c' Eq lenient).Spent e) : m' p = m p := by
  have hstate : (sameTerms c c' Eq lenient).state p p := rfl
  have hout := Correspondence.Sim.outcome h hstate
  cases hrun : m p with
  | ok a q =>
    rw [hrun] at hout
    cases hrun' : m' p with
    | ok a' q' =>
      rw [hrun'] at hout
      obtain ⟨rfl, rfl, -⟩ := hout
      rfl
    | error e' q' =>
      rw [hrun'] at hout
      exact hout.elim
  | error e q =>
    rw [hrun] at hout
    have hspent := hspent e q hrun
    cases hrun' : m' p with
    | ok a' q' =>
      rw [hrun'] at hout
      exact absurd hout hspent
    | error e' q' =>
      rw [hrun'] at hout
      obtain ⟨rfl, rfl, -⟩ := hout.resolve_left hspent
      rfl

/-- Runs in step, from one state. -/
def sameRuns (c c' : Checker) : Correspondence c c' :=
  sameTerms c c' Eq

/-- **A larger environment behind the view makes no difference**, and a larger
budget none until the smaller one is spent. -/
theorem lawful_sameRuns (hview : c.SameView c') (hlimit : c.limit ≤ c'.limit)
    (hmemoize : c.memoize = c'.memoize) : (sameRuns c c').Lawful := by
  refine lawful_sameTerms hview (fun k k' => ?_) (fun p p' i j k hp => ?_) fun q e Γ hanswer => ?_
  · refine .tick trivial (fun p p' hp hlt => ?_) fun p p' hp => ?_
    · cases hp
      exact Nat.lt_of_lt_of_le hlt hlimit
    · cases hp
      rfl
  · cases hp
    rfl
  · exact sim_remembered_same hmemoize hanswer

/-! ## A run beside itself -/

/-- A run beside itself, in states with `inv`. -/
def ownRuns (c : Checker) (inv : Progress → Prop) : Correspondence c c :=
  sameTerms c c (fun p p' => p = p' ∧ inv p) False

/-- **The kernel keeps every invariant** that the budget, the counters and the
keeping of computed results keep. -/
theorem lawful_ownRuns {inv : Progress → Prop}
    (htick : ∀ p, inv p → inv { p with steps := p.steps + 1 })
    (hcalls : ∀ p i j k, inv p → inv (p.addCalls i j k))
    (hkeep : ∀ q e Γ r p s, inv p → c.answer q e Γ p = .ok r s → inv s → inv (c.keep q e r s)) :
    (c.ownRuns inv).Lawful := by
  refine lawful_sameTerms ⟨fun _ => rfl, fun _ => rfl⟩ (fun k k' => ?_) ?_ fun q e Γ hanswer => ?_
  · exact .tick_self (fun _ _ => Iff.rfl) htick rfl
  · rintro p _ i j k ⟨rfl, hp⟩
    exact ⟨rfl, hcalls p i j k hp⟩
  · rintro k k' p _ ⟨rfl, hp⟩ hk hk'
    rw [remembered_eq]
    cases (p.memo q).find? e with
    | some r => exact ⟨rfl, ⟨rfl, hp⟩, Nat.le_refl _, Nat.le_refl _⟩
    | none =>
      refine (hanswer k k' p p ⟨rfl, hp⟩ hk hk').adjust (steps_keep q e) (steps_keep q e) ?_
      rintro r _ s _ hrun - rfl ⟨⟨rfl, hs⟩, -⟩
      exact ⟨rfl, hkeep q e Γ r p s hp hrun hs⟩

/-- What is kept by every run beside itself is kept by the run. -/
theorem keeps_of_ownRuns {inv : Progress → Prop} {α : Type} {value : α → α → Prop} {m : CheckM α}
    (h : ∀ n n', (c.ownRuns inv).Sim n n' value m m) :
    CheckM.Keeps inv (fun _ => True) (fun _ => True) m := by
  intro p hp
  have hends := Correspondence.Sim.ends_self h (fun _ _ => Iff.rfl) id hp
  cases hrun : m p with
  | ok a q =>
    rw [hrun] at hends
    exact ⟨trivial, hends.2⟩
  | error e q =>
    rw [hrun] at hends
    exact ⟨trivial, hends.2⟩

end Checker

end TypeTheory
