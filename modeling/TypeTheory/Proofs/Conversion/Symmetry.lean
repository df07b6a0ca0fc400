import TypeTheory.Church
import TypeTheory.Proofs.Reduction.Metering
import TypeTheory.Proofs.WellFormed.Basic

/-!
# Conversion is symmetric

Conversion does not treat its two sides alike: the left one is reduced first, a body is
compared under the domain of the left side, and of two definitions the later one is unfolded.
It is symmetric all the same, to the step (`Checker.conv_comm`): with its sides exchanged it
gives the same answer from the same state and leaves the same state.

The run with exchanged sides is the mirror image of the run (`CheckM.Mirrors`). Reductions
that have changed places cost the same, a domain in the context is not read, and two different
definitions never have one position.
-/

namespace TypeTheory

/-! ## Comparisons without reduction -/

namespace Level

theorem equiv_comm (l r : Level) : l.equiv r = r.equiv l := by
  simp only [equiv, eq_comm]

/-- Lists of levels are compared position by position, and each comparison is symmetric. -/
theorem equivAll_comm (ls rs : List Level) : equivAll ls rs = equivAll rs ls := by
  induction ls generalizing rs with
  | nil => cases rs <;> rfl
  | cons l ls ih =>
    cases rs with
    | nil => rfl
    | cons r rs => rw [equivAll, equivAll, equiv_comm, ih]

end Level

namespace Term

/-- The comparison that needs no reduction is symmetric, also in leaving the question open. -/
theorem quickEq?_comm (x y : Term) : x.quickEq? y = y.quickEq? x := by
  have halpha : x.AlphaEq y ↔ y.AlphaEq x := ⟨Eq.symm, Eq.symm⟩
  unfold quickEq?
  simp only [halpha]
  split
  · rfl
  · cases x with
    | sort l =>
      cases y with
      | sort r => exact congrArg some (Level.equiv_comm l r)
      | _ => rfl
    | _ => cases y <;> rfl

/-- Atoms are the same in either order, since their levels are equal in either order. -/
theorem sameAtom_comm (x y : Term) : x.sameAtom y = y.sameAtom x := by
  cases x with
  | const m ls =>
    cases y with
    | const n rs => simp only [sameAtom, Level.equivAll_comm ls rs, eq_comm]
    | _ => rfl
  | bvar i =>
    cases y with
    | bvar j => simp only [sameAtom, eq_comm]
    | _ => rfl
  | fvar m =>
    cases y with
    | fvar n => simp only [sameAtom, eq_comm]
    | _ => rfl
  | _ => cases y <;> rfl

end Term

/-- The equation with its sides exchanged, in a context with the same values. -/
structure Equation.Mirrored (q q' : Equation) : Prop where
  lhs : q.lhs = q'.rhs
  rhs : q.rhs = q'.lhs
  values : q.context.values = q'.context.values

/-- The equations between two lists of arguments are mirrored by those between the lists
exchanged. -/
theorem forall₂_mirrored_zipWith {Γ Γ' : Context} (hΓ : Γ.values = Γ'.values)
    (as bs : List Term) :
    List.Forall₂ Equation.Mirrored (List.zipWith (⟨·, ·, Γ⟩) as bs)
      (List.zipWith (⟨·, ·, Γ'⟩) bs as) := by
  induction as generalizing bs with
  | nil =>
    rw [List.zipWith_nil_right]
    exact .nil
  | cons a as ih =>
    cases bs with
    | nil => exact .nil
    | cons b bs => exact .cons ⟨rfl, rfl, hΓ⟩ (ih bs)

/-- **The parts of a term and of its mirror image.** A body is compared under the domain of
either side. -/
theorem Term.parts?_mirrored {Γ Γ' : Context} (hΓ : Γ.values = Γ'.values) (x y : Term) :
    Option.Rel (List.Forall₂ Equation.Mirrored) (x.parts? Γ y) (y.parts? Γ' x) := by
  -- the condition on which the parts are compared, read from either side
  have hparts {α : Type} [DecidableEq α] {a b : α} {qs qs' : List Equation}
      (hqs : List.Forall₂ Equation.Mirrored qs qs') :
      Option.Rel (List.Forall₂ Equation.Mirrored) (if a = b then some qs else none)
        (if b = a then some qs' else none) := by
    by_cases hab : a = b
    · rw [if_pos hab, if_pos hab.symm]
      exact .some hqs
    · rw [if_neg hab, if_neg (Ne.symm hab)]
      exact .none
  unfold parts?
  rw [sameAtom_comm y x]
  split
  · exact .some .nil
  · cases x with
    | app f a =>
      cases y with
      | app g b =>
        refine hparts (List.rel_append ?_ (.cons ⟨rfl, rfl, hΓ⟩ .nil))
        exact List.rel_reverse (forall₂_mirrored_zipWith hΓ _ _)
      | _ => exact .none
    | bind k n t b =>
      cases y with
      | bind k' n' u b' =>
        exact hparts (.cons ⟨rfl, rfl, congrArg (none :: ·) hΓ⟩ (.cons ⟨rfl, rfl, hΓ⟩ .nil))
      | _ => exact .none
    | pair a b =>
      cases y with
      | pair a' b' => exact .some (.cons ⟨rfl, rfl, hΓ⟩ (.cons ⟨rfl, rfl, hΓ⟩ .nil))
      | _ => exact .none
    | proj k p =>
      cases y with
      | proj k' q => exact hparts (.cons ⟨rfl, rfl, hΓ⟩ .nil)
      | _ => exact .none
    | _ => cases y <;> exact .none

/-! ## Turns -/

/-- The other side's turn. -/
def Turn.flip : Turn → Turn
  | .left => .right
  | .right => .left
  | .both => .both

theorem Turn.flip_eq_left {t : Turn} : t.flip = .left ↔ t = .right := by
  cases t <;> decide

theorem Turn.flip_eq_right {t : Turn} : t.flip = .right ↔ t = .left := by
  cases t <;> decide

theorem Turn.flip_eq_both {t : Turn} : t.flip = .both ↔ t = .both := by
  cases t <;> decide

namespace Checker

variable {c : Checker}

/-- A visible constant has the name it is looked up by, and a position. -/
theorem position_of_const? {x : Name} {d : Declaration} (h : c.const? x = some d) :
    d.name = x ∧ ∃ i, c.constPosition? x = some i ∧ c.env.at? i = some d := by
  obtain ⟨i, hi, hd⟩ := Option.bind_eq_some_iff.mp h
  obtain ⟨-, d', hd', hname⟩ := Environment.at?_of_search hi
  rw [hd] at hd'
  cases hd'
  exact ⟨hname, i, hi, hd⟩

/-- A definition that may be unfolded has a position in the environment, at which it is found
again. -/
theorem position_of_definition? {e : Term} {d : Declaration} (h : c.definition? e = some d) :
    ∃ i, c.constPosition? d.name = some i ∧ c.env.at? i = some d := by
  unfold definition? at h
  split at h
  · obtain ⟨hname, hposition⟩ := position_of_const? (Option.filter_eq_some_iff.mp h).1
    rw [hname]
    exact hposition
  · cases h

/-- **The later definition is the later one from either side.** -/
theorem turn?_comm (x y : Term) : c.turn? y x = (c.turn? x y).map Turn.flip := by
  unfold turn?
  cases hd : c.definition? x with
  | none =>
    cases c.definition? y with
    | none => rfl
    | some d' => rfl
  | some d =>
    cases hd' : c.definition? y with
    | none => rfl
    | some d' =>
      dsimp only
      by_cases hname : d.name = d'.name
      · rw [if_pos hname, if_pos hname.symm]
        rfl
      · obtain ⟨i, hi, hat⟩ := position_of_definition? hd
        obtain ⟨j, hj, hat'⟩ := position_of_definition? hd'
        have hij : i ≠ j := by
          intro h
          subst h
          rw [hat] at hat'
          cases hat'
          exact hname rfl
        rw [if_neg hname, if_neg (Ne.symm hname), hi, hj]
        dsimp only
        by_cases hlt : i < j
        · rw [if_pos hlt, if_neg (by omega)]
          rfl
        · rw [if_neg hlt, if_pos (by omega)]
          rfl

end Checker

/-! ## Mirror images -/

/-- What unfolding the heads comes to with the sides exchanged. -/
def Unfolding.flip : Unfolding → Unfolding
  | .decided equal => .decided equal
  | .stuck x y => .stuck y x

namespace CheckM

variable {α β γ : Type}

/-- **The right computation is a mirror image of the left one**: where the left one succeeds,
the right one leaves the same state, with a related value. -/
def Mirrors (value : α → β → Prop) (m : CheckM α) (m' : CheckM β) : Prop :=
  ∀ p a q, m p = .ok a q → ∃ b, m' p = .ok b q ∧ value a b

namespace Mirrors

variable {value : α → β → Prop} {m : CheckM α} {m' : CheckM β}

theorem pure {a : α} {b : β} (h : value a b) : Mirrors value (pure a) (pure b) := by
  intro p a' q hrun
  cases hrun
  exact ⟨b, rfl, h⟩

theorem refl (m : CheckM α) : Mirrors Eq m m :=
  fun _ a _ hrun => ⟨a, hrun, rfl⟩

/-- Mirror images are put together: what follows values that belong together are mirror images
again. -/
theorem bind {α' β' : Type} {value' : α' → β' → Prop} {f : α → CheckM α'} {f' : β → CheckM β'}
    (h : Mirrors value m m') (hf : ∀ a b, value a b → Mirrors value' (f a) (f' b)) :
    Mirrors value' (m >>= f) (m' >>= f') := by
  intro p r q hrun
  obtain ⟨a, s, hma, hfa⟩ := EStateM.bind_eq_ok.mp hrun
  obtain ⟨b, hmb, hab⟩ := h p a s hma
  obtain ⟨r', hfb, hr⟩ := hf a b hab s r q hfa
  exact ⟨r', EStateM.bind_eq_ok.mpr ⟨b, s, hmb, hfb⟩, hr⟩

/-- A mirror image does second what was done first. -/
theorem swap {c : Checker} {α' β' : Type} {value' : α' → β' → Prop} {m : CheckM α} {m' : CheckM β}
    {f : α → β → CheckM α'} {f' : β → α → CheckM β'} (hm : c.Metered m) (hm' : c.Metered m')
    (hf : ∀ a b, Mirrors value' (f a b) (f' b a)) :
    Mirrors value' (m >>= fun a => m' >>= fun b => f a b)
      (m' >>= fun b => m >>= fun a => f' b a) := by
  intro p r q hrun
  obtain ⟨b, s, hmb, hrest⟩ := EStateM.bind_eq_ok.mp (hm.swap hm' hrun)
  obtain ⟨a, t, hma, hfa⟩ := EStateM.bind_eq_ok.mp hrest
  obtain ⟨r', hfb, hr⟩ := hf a b t r q hfa
  exact ⟨r', EStateM.bind_eq_ok.mpr ⟨b, s, hmb, EStateM.bind_eq_ok.mpr ⟨a, t, hma, hfb⟩⟩, hr⟩

end Mirrors

end CheckM

open CheckM

namespace Checker

variable {c : Checker} {Γ Γ' : Context}

/-- A run that ends for want of budget is not mirrored, so there is nothing to show. -/
theorem mirrors_exhaust {α β : Type} {value : α → β → Prop} {m' : CheckM β} :
    Mirrors value (c.exhaust (α := α)) m' := by
  intro p a q hrun
  obtain ⟨_, s, -, hthrow⟩ := EStateM.bind_eq_ok.mp hrun
  cases hthrow

/-- A comparison of lists is mirrored if the comparison of members is, taken with exchanged
sides. -/
theorem mirrors_allEqual {equal equal' : Term → Term → CheckM Bool}
    (h : ∀ a b, Mirrors Eq (equal a b) (equal' b a)) (as bs : List Term) :
    Mirrors Eq (allEqual equal as bs) (allEqual equal' bs as) := by
  induction as generalizing bs with
  | nil => cases bs <;> exact .pure rfl
  | cons a as ih =>
    cases bs with
    | nil => exact .pure rfl
    | cons b bs =>
      refine (h a b).bind fun same same' hsame => ?_
      cases hsame
      cases same with
      | true => exact ih bs
      | false => exact .pure rfl

/-- Comparing two spines the other way round compares the same heads and the same arguments. -/
theorem mirrors_sameSpine {equal equal' : Term → Term → CheckM Bool}
    (h : ∀ a b, Mirrors Eq (equal a b) (equal' b a)) (x y : Term) :
    Mirrors Eq (sameSpine equal x y) (sameSpine equal' y x) := by
  unfold sameSpine
  dsimp only
  rw [Term.sameAtom_comm y.spine.1]
  simp only [eq_comm (a := y.spine.2.length)]
  split
  · exact mirrors_allEqual h _ _
  · exact .pure rfl

/-- Unfolding a head reads the budget only where it pays for a step. -/
theorem metered_unfoldHead (hc : c.memoize = false) (e : Term) (Γ : Context) :
    c.Metered (c.unfoldHead e Γ) := by
  unfold unfoldHead
  cases c.unfolded? e with
  | some next => exact metered_whnfCore hc next Γ
  | none => exact fun _ _ => .pure e

theorem unfoldHead_congr (hΓ : Γ.values = Γ'.values) (e : Term) :
    c.unfoldHead e Γ = c.unfoldHead e Γ' := by
  unfold unfoldHead
  simp only [whnfCore_congr hΓ]

section

variable (hc : c.memoize = false)

include hc

/-- One equation and its mirror image, given the same of unfolding heads. -/
theorem mirrors_reduceEquation {unfold : Term → Term → Context → CheckM Unfolding}
    (h : ∀ x y Γ Γ', Γ.values = Γ'.values →
      Mirrors (fun u u' => u' = u.flip) (unfold x y Γ) (unfold y x Γ')) {q q' : Equation}
    (hq : q.Mirrored q') :
    Mirrors (Option.Rel (List.Forall₂ Equation.Mirrored)) (c.reduceEquation unfold q)
      (c.reduceEquation unfold q') := by
  obtain ⟨x, y, Γ⟩ := q
  obtain ⟨y', x', Γ'⟩ := q'
  obtain ⟨hx, hy, hΓ⟩ := hq
  dsimp only at hx hy hΓ
  subst hx
  subst hy
  have hdecided (equal : Bool) : Mirrors (Option.Rel (List.Forall₂ Equation.Mirrored))
      (pure (if equal then some [] else none)) (pure (if equal then some [] else none)) := by
    cases equal with
    | true => exact .pure (.some .nil)
    | false => exact .pure .none
  unfold reduceEquation
  dsimp only
  rw [Term.quickEq?_comm y x]
  cases x.quickEq? y with
  | some equal => exact hdecided equal
  | none =>
    rw [← whnfCore_congr hΓ x, ← whnfCore_congr hΓ y]
    refine .swap (metered_whnfCore hc x Γ) (metered_whnfCore hc y Γ) fun x₁ y₁ => ?_
    rw [Term.quickEq?_comm y₁ x₁]
    cases x₁.quickEq? y₁ with
    | some equal => exact hdecided equal
    | none =>
      refine (h x₁ y₁ Γ Γ' hΓ).bind fun u u' hu => ?_
      subst hu
      cases u with
      | decided equal => exact hdecided equal
      | stuck x₂ y₂ => exact .pure (Term.parts?_mirrored hΓ x₂ y₂)

/-- **The loops run as their mirror images.** By induction on the bound, for both together. -/
theorem mirrors_loops (n : Nat) :
    (∀ stack stack', List.Forall₂ Equation.Mirrored stack stack' →
      Mirrors Eq (c.solve n stack) (c.solve n stack')) ∧
    ∀ x y Γ Γ', Γ.values = Γ'.values →
      Mirrors (fun u u' => u' = u.flip) (c.unfoldHeads n x y Γ) (c.unfoldHeads n y x Γ') := by
  induction n with
  | zero =>
    constructor
    · intro stack stack' hstack
      cases hstack with
      | nil =>
        rw [solve]
        exact .pure rfl
      | cons _ _ =>
        rw [solve]
        exact mirrors_exhaust
    · intro x y Γ Γ' _
      rw [unfoldHeads]
      exact mirrors_exhaust
  | succ n ih =>
    obtain ⟨hsolve, hunfold⟩ := ih
    constructor
    · intro stack stack' hstack
      cases hstack with
      | nil =>
        rw [solve]
        exact .pure rfl
      | cons hq hrest =>
        rw [solve, solve]
        refine (Mirrors.refl c.tick).bind fun _ _ _ => ?_
        refine (mirrors_reduceEquation hc hunfold hq).bind fun o o' ho => ?_
        cases ho with
        | none => exact .pure rfl
        | some hparts => exact hsolve _ _ (List.rel_append hparts hrest)
    · intro x y Γ Γ' hΓ
      rw [unfoldHeads, unfoldHeads]
      refine (Mirrors.refl c.tick).bind fun _ _ _ => ?_
      rw [turn?_comm x y]
      cases c.turn? x y with
      | none => exact .pure rfl
      | some turn =>
        rw [Option.map_some]
        dsimp only
        have hsame : Mirrors Eq
            (if turn = .both then sameSpine (fun a b => c.solve n [⟨a, b, Γ⟩]) x y else pure false)
            (if turn.flip = .both then sameSpine (fun a b => c.solve n [⟨a, b, Γ'⟩]) y x
              else pure false) := by
          simp only [Turn.flip_eq_both]
          split
          · refine mirrors_sameSpine (fun a b => ?_) x y
            exact hsolve [⟨a, b, Γ⟩] [⟨b, a, Γ'⟩] (.cons ⟨rfl, rfl, hΓ⟩ .nil)
          · exact .pure rfl
        have hmetered (side : Turn) (e : Term) :
            c.Metered (if turn = side then pure e else c.unfoldHead e Γ) := by
          split
          · exact fun _ _ => .pure e
          · exact metered_unfoldHead hc e Γ
        refine hsame.bind fun same same' h => ?_
        subst h
        cases same with
        | true => exact .pure rfl
        | false =>
          simp only [Turn.flip_eq_left, Turn.flip_eq_right, ← unfoldHead_congr hΓ,
            Bool.false_eq_true, if_false]
          refine .swap (hmetered .right x) (hmetered .left y) fun x₁ y₁ => ?_
          rw [Term.quickEq?_comm y₁ x₁]
          cases x₁.quickEq? y₁ with
          | some equal => exact .pure rfl
          | none => exact hunfold x₁ y₁ Γ Γ' hΓ

/-- An answer of conversion is the answer for the sides exchanged, from the same state to the same
state. -/
theorem conv_of_conv {x y : Term} {p q : Progress} {equal : Bool}
    (h : c.conv x y Γ p = .ok equal q) : c.conv y x Γ p = .ok equal q := by
  have hmirror := (mirrors_loops hc (c.limit - p.steps)).1 [⟨x, y, Γ⟩] [⟨y, x, Γ⟩]
    (.cons ⟨rfl, rfl, rfl⟩ .nil)
  obtain ⟨equal', hrun, rfl⟩ := hmirror { p with convCalls := p.convCalls + 1 } equal q h
  exact hrun

end

/-- **Conversion is symmetric, to the step.** Where no result is kept, conversion with its sides
exchanged gives the same answer from the same state, for the same number of steps: it leaves
the same state. -/
theorem conv_comm (c : Checker) (hc : c.memoize = false) (x y : Term) (Γ : Context) (p : Progress)
    (equal : Bool) (q : Progress) :
    c.conv x y Γ p = .ok equal q ↔ c.conv y x Γ p = .ok equal q :=
  ⟨conv_of_conv hc, conv_of_conv hc⟩

/-- Two plus one and three, compared in both orders after two steps have been spent. -/
theorem conv_comm_two_add_one :
    let c : Checker :=
      { env := ⟨Church.declarations.toArray⟩, visible := 4, limit := 42, memoize := false }
    let sum := (Term.const (Church.natName.str "add") []).apps [Church.numeral 2, Church.numeral 1]
    c.memoize = false ∧ ∃ q, c.conv sum (Church.numeral 3) [] { steps := 2 } = .ok true q ∧
      c.conv (Church.numeral 3) sum [] { steps := 2 } = .ok true q := by
  intro c sum
  have hequal : CheckM.value? (c.conv sum (Church.numeral 3) []) { steps := 2 } = some true := by
    decide +kernel
  obtain ⟨q, hrun⟩ := value?_eq_some.mp hequal
  exact ⟨rfl, q, hrun, (conv_comm c rfl _ _ [] _ true q).mp hrun⟩

end Checker

end TypeTheory
