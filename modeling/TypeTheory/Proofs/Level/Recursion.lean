import TypeTheory.Proofs.Level.NormalForm

/-!
# Canonical forms by a recursion

Canonical forms and atoms can be found by two functions that call each other and do not know
what is canonical already. For the atoms of `imax a b` they ask for the canonical form of `b`
and for the atoms of that form, which were just put together; and where the canonical form of
`b` is a maximum of `x` and `y`, for the atoms of `imax a' x` and `imax a' y`, where `a'` is the
canonical form of `a`. None of these levels is a part of `imax a b`, and they may be much larger.

`Answers.body` is what the two functions do if every call is left to given answers, so
that nothing in it recurs. `Answers.within` lets them call each other to a given depth, and
leaves the calls below it without an answer. `Level.normalize` and `Level.atoms` are a solution
(`Answers.full_eq_body`), and no depth gives another answer (`Answers.within_below`).
-/

namespace TypeTheory

namespace Level

open Atom

/-- Answers to calls for the canonical form and for the atoms of a level. A call may be left
without an answer. -/
structure Answers where
  normalize : Level → Option Level
  atoms : Level → Option (List Atom)

namespace Answers

/-! ## The recursion -/

/-- The atoms of `imax a b` for canonical forms to which no other rule applies: `imax` goes
to both sides of a maximum. -/
def spreadBody (call : Answers) (a : Level) : Level → Option (List Atom)
  | .max x y => do
    let xs ← call.atoms (.imax a x)
    let ys ← call.atoms (.imax a y)
    pure (xs ++ ys)
  | b => pure [⟨.imax a b, 0⟩]

/-- The atoms of `imax a b`, by the canonical forms of its sides. The left side is asked for
only where the right side does not decide. -/
def imaxBody (call : Answers) (a b : Level) : Option (List Atom) := do
  let b' ← call.normalize b
  let bs ← call.atoms b'
  if b' = .zero then pure [⟨.zero, 0⟩]
  else if bs.any (0 < ·.offset) then do
    let as ← call.atoms a
    pure (as ++ bs)
  else do
    let a' ← call.normalize a
    if a' = b' then call.atoms a'
    else if a' = .zero ∨ a' = .succ .zero then pure bs
    else call.spreadBody a' b'

/-- The atoms of a level. A chain of successors is taken off at once. -/
def atomsBody (call : Answers) : Level → Option (List Atom)
  | .zero => pure [⟨.zero, 0⟩]
  | .param n => pure [⟨.param n, 0⟩]
  | .succ l => do
    let as ← call.atoms l.succ.split.1
    pure (as.map (raise l.succ.split.2))
  | .max a b => do
    let as ← call.atoms a
    let bs ← call.atoms b
    pure (as ++ bs)
  | .imax a b => call.imaxBody a b

/-- The canonical form of a level, put together from its atoms. -/
def normalizeBody (call : Answers) : Level → Option Level
  | .zero => pure .zero
  | .param n => pure (.param n)
  | l => do
    let as ← call.atoms l
    pure (maximum (canonical as))

/-- **What the two functions do**, with their calls left to given answers. -/
def body (call : Answers) : Answers where
  normalize := call.normalizeBody
  atoms := call.atomsBody

/-- The functions call each other to the given depth. Calls below it have no answer. -/
def within : (depth : Nat) → Answers
  | 0 => ⟨fun _ => none, fun _ => none⟩
  | d + 1 => (within d).body

/-- Every call is answered. -/
def full : Answers where
  normalize l := some l.normalize
  atoms l := some l.atoms

end Answers

/-! ## The rules of the recursion -/

variable {a b l x y : Level}

/-- Splitting off successors from a count on adds the count to those that are split off. -/
theorem splitFrom_eq (k : Nat) (l : Level) : l.splitFrom k = (l.split.1, l.split.2 + k) := by
  induction l generalizing k with
  | succ l ih =>
    have hone : l.succ.split = l.splitFrom 1 := rfl
    rw [splitFrom, ih, hone, ih 1]
    exact congrArg (l.split.1, ·) (by omega)
  | zero | param n | max a b | imax a b => exact congrArg (_, ·) (Nat.zero_add k).symm

theorem split_succ (l : Level) : l.succ.split = (l.split.1, l.split.2 + 1) :=
  splitFrom_eq 1 l

/-- The atoms of a level are those of its base, raised by its offset. -/
theorem atoms_eq_map_split (l : Level) : l.atoms = l.split.1.atoms.map (raise l.split.2) := by
  induction l with
  | succ l ih => rw [atoms_succ, ih, map_raise_raise, split_succ]
  | zero | param n | max a b | imax a b => exact (map_raise_zero _).symm

/-- **The atoms of a normal form are its summands.** -/
theorem NormalForm.atoms_eq (h : NormalForm l) : l.atoms = l.summands := by
  cases h with
  | maximum nonempty bases ascending constant =>
    rw [atoms_maximum_eq_self nonempty fun a ha => (bases a ha).atoms_eq,
      summands_maximum (fun a ha => (bases a ha).isBase) nonempty]

theorem isMaximum_addOffset (h : l.isMaximum = false) (k : Nat) :
    (l.addOffset k).isMaximum = false := by
  induction k generalizing l with
  | zero => exact h
  | succ k ih => exact ih rfl

/-- Both sides of a normal form that is a maximum are normal. -/
theorem NormalForm.sides (h : NormalForm l) (hl : l = .max x y) : NormalForm x ∧ NormalForm y := by
  cases h with
  | @maximum as nonempty bases ascending constant =>
    have hpart : ∀ {bs : List Atom}, bs ≠ [] → bs.Sublist as → NormalForm (Atom.maximum bs) := by
      intro bs hne hbs
      refine .maximum hne (fun c hc => bases c (hbs.subset hc)) (ascending.sublist hbs) ?_
      exact fun c hc hzero d hd hne => constant c (hbs.subset hc) hzero d (hbs.subset hd) hne
    cases as with
    | nil => exact absurd rfl nonempty
    | cons a rest =>
      cases rest with
      | nil =>
        -- one atom is a base with an offset and no maximum
        have hbase := isMaximum_of_isBase (bases a List.mem_cons_self).isBase
        have hatom := isMaximum_addOffset hbase a.offset
        rw [show a.base.addOffset a.offset = .max x y from hl] at hatom
        cases hatom
      | cons b rest =>
        have hsides : .max a.level (Atom.maximum (b :: rest)) = Level.max x y := hl
        obtain ⟨rfl, rfl⟩ := Level.max.inj hsides
        have hleft : [a].Sublist (a :: b :: rest) := by simp
        exact ⟨hpart (by simp) hleft, hpart (by simp) (List.sublist_cons_self a _)⟩

/-- There are no constants among the atoms, and no offsets. -/
def Atom.Bare (atoms : List Atom) : Prop :=
  ∀ a ∈ atoms, a.base ≠ .zero ∧ a.offset = 0

/-- A canonical form that is not zero and has no offsets has no constants. -/
theorem bare_summands_normalize (hzero : b.normalize ≠ zero)
    (hany : ¬b.normalize.summands.any (0 < ·.offset) = true) : Bare b.normalize.summands := by
  have hoffsets : ∀ s ∈ b.normalize.summands, s.offset = 0 := by
    intro s hs
    simpa using List.any_eq_false.mp (Bool.eq_false_iff.mpr hany) s hs
  intro s hs
  refine ⟨?_, hoffsets s hs⟩
  rw [summands_normalize] at hs hoffsets
  exact base_ne_zero_of_mem_canonical hzero hoffsets s hs

/-- **An `imax` of normal forms is spread**, if the left one is above one and the right one has
neither constants nor offsets. -/
theorem atoms_imax_eq_spread (ha : NormalForm a) (ha_zero : a ≠ zero) (ha_one : a ≠ succ zero)
    (hx : NormalForm x) (hbare : Bare x.summands) : (imax a x).atoms = a.spread x := by
  have hzero : x ≠ zero := by
    rintro rfl
    exact (hbare ⟨zero, 0⟩ List.mem_cons_self).1 rfl
  have hany : ¬x.summands.any (0 < ·.offset) = true := by
    intro h
    obtain ⟨s, hs, hpos⟩ := List.any_eq_true.mp h
    rw [decide_eq_true_eq, (hbare s hs).2] at hpos
    exact Nat.lt_irrefl 0 hpos
  have hsmall : ¬(a.normalize = zero ∨ a.normalize = succ zero) := by
    rw [ha.normalize_eq]
    exact not_or.mpr ⟨ha_zero, ha_one⟩
  calc (imax a x).atoms
      = imaxAtoms a.atoms x := by rw [atoms_imax, hx.normalize_eq]
    _ = a.normalize.spread x := imaxAtoms_of_spread hzero hany hsmall
    _ = a.spread x := by rw [ha.normalize_eq]

namespace Answers

variable {call call' : Answers}

/-- **The last rule for `imax` is spreading**, if the two calls that it makes are answered
right. Each of them finds its part of the right side canonical already. -/
theorem spreadBody_eq (ha : NormalForm a) (ha_zero : a ≠ zero) (ha_one : a ≠ succ zero)
    (hb : NormalForm b) (hbare : Bare b.summands) (hne : a ≠ b)
    (hcalls : ∀ x y, b = .max x y → call.atoms (imax a x) = some (imax a x).atoms ∧
      call.atoms (imax a y) = some (imax a y).atoms) :
    call.spreadBody a b = some (a.spread b) := by
  cases b with
  | max x y =>
    obtain ⟨hx, hy⟩ := hb.sides rfl
    obtain ⟨hcallx, hcally⟩ := hcalls x y rfl
    have hbarex : Bare x.summands := fun s hs => hbare s (List.mem_append_left _ hs)
    have hbarey : Bare y.summands := fun s hs => hbare s (List.mem_append_right _ hs)
    have hspread : a.spread (.max x y) = a.spread x ++ a.spread y := by
      rw [spread, if_neg hne]
    rw [atoms_imax_eq_spread ha ha_zero ha_one hx hbarex] at hcallx
    rw [atoms_imax_eq_spread ha ha_zero ha_one hy hbarey] at hcally
    simp only [spreadBody, hcallx, hcally, hspread]
    rfl
  | zero | param n | succ l | imax x y =>
    rw [spread_of_not_isMaximum hne rfl]
    rfl

/-- **One step on an `imax` is right** if its calls are answered right. -/
theorem imaxBody_eq (hb : call.normalize b = some b.normalize)
    (hbs : call.atoms b.normalize = some b.normalize.atoms)
    (ha : call.normalize a = some a.normalize) (has : call.atoms a = some a.atoms)
    (hcalls : ∀ x y, b.normalize = .max x y →
      call.atoms (imax a.normalize x) = some (imax a.normalize x).atoms ∧
      call.atoms (imax a.normalize y) = some (imax a.normalize y).atoms) :
    call.imaxBody a b = some (imax a b).atoms := by
  have hsummands := (normalForm_normalize b).atoms_eq
  rw [hsummands] at hbs
  simp only [imaxBody, hb, hbs, ha, has, Option.bind_eq_bind, Option.bind_some]
  rw [atoms_imax]
  by_cases hzero : b.normalize = zero
  · rw [if_pos hzero, imaxAtoms, if_pos hzero]
    rfl
  rw [if_neg hzero]
  by_cases hany : b.normalize.summands.any (0 < ·.offset) = true
  · rw [if_pos hany, imaxAtoms_of_any_offset hany]
    rfl
  rw [if_neg hany]
  have hrule : imaxAtoms a.atoms b.normalize =
      if a.normalize = zero ∨ a.normalize = succ zero then b.normalize.summands
      else a.normalize.spread b.normalize := by
    rw [imaxAtoms, if_neg hzero, if_neg hany]
    rfl
  rw [hrule]
  by_cases hsame : a.normalize = b.normalize
  · -- either rule gives the summands of the one canonical form
    rw [if_pos hsame, hsame, hbs, spread_self, ite_self]
  rw [if_neg hsame]
  by_cases hsmall : a.normalize = zero ∨ a.normalize = succ zero
  · rw [if_pos hsmall, if_pos hsmall]
    rfl
  · rw [if_neg hsmall, if_neg hsmall]
    obtain ⟨ha_zero, ha_one⟩ := not_or.mp hsmall
    exact spreadBody_eq (normalForm_normalize a) ha_zero ha_one (normalForm_normalize b)
      (bare_summands_normalize hzero hany) hsame hcalls

/-- The body for canonical forms is right if the call for the atoms is answered rightly. -/
theorem normalizeBody_eq (has : call.atoms l = some l.atoms) :
    call.normalizeBody l = some l.normalize := by
  cases l with
  | zero | param n => rfl
  | succ l | max a b | imax a b =>
    simp only [normalizeBody, has, Option.bind_eq_bind, Option.bind_some]
    rfl

/-- The body for a successor is right if the call for the level under all successors is. -/
theorem atomsBody_succ (h : call.atoms l.split.1 = some l.split.1.atoms) :
    call.atomsBody l.succ = some l.succ.atoms := by
  rw [atoms_eq_map_split l.succ]
  simp only [atomsBody, split_succ, h, Option.bind_eq_bind, Option.bind_some]
  rfl

/-- The body for a maximum is right if the calls for both sides are. -/
theorem atomsBody_max (ha : call.atoms a = some a.atoms) (hb : call.atoms b = some b.atoms) :
    call.atomsBody (.max a b) = some (Level.max a b).atoms := by
  simp only [atomsBody, ha, hb, Option.bind_eq_bind, Option.bind_some]
  rfl

/-- **Canonical forms and atoms solve the recursion.** -/
theorem full_eq_body : full = full.body := by
  have hnormalize : full.normalize = full.normalizeBody := by
    funext l
    exact (normalizeBody_eq rfl).symm
  have hatoms : full.atoms = full.atomsBody := by
    funext l
    cases l with
    | zero | param n => rfl
    | succ l => exact (atomsBody_succ rfl).symm
    | max a b => exact (atomsBody_max rfl rfl).symm
    | imax a b => exact (imaxBody_eq rfl rfl rfl rfl fun _ _ _ => ⟨rfl, rfl⟩).symm
  rw [body, ← hnormalize, ← hatoms]

/-! ## No other answer -/

/-- The computation has no result, or that of the other one. -/
def Approximates {α : Type} (m m' : Option α) : Prop :=
  m = none ∨ m = m'

theorem Approximates.refl {α : Type} (m : Option α) : Approximates m m :=
  .inr rfl

/-- A sequence of calls has no other value with more answers, if none of its calls has. -/
theorem Approximates.bind {α β : Type} {m m' : Option α} {f f' : α → Option β}
    (h : Approximates m m') (hf : ∀ x, Approximates (f x) (f' x)) :
    Approximates (m >>= f) (m' >>= f') := by
  rcases h with rfl | rfl
  · exact .inl rfl
  · cases m with
    | none => exact .inl rfl
    | some x => exact hf x

/-- Every answer of the first is an answer of the second. -/
structure Below (call call' : Answers) : Prop where
  normalize : ∀ l, Approximates (call.normalize l) (call'.normalize l)
  atoms : ∀ l, Approximates (call.atoms l) (call'.atoms l)

/-- More answers change no value of the body that spreads an `imax`, but may give one where there
was none. -/
theorem Below.spreadBody (h : call.Below call') (a b : Level) :
    Approximates (call.spreadBody a b) (call'.spreadBody a b) := by
  cases b with
  | max x y => exact (h.atoms _).bind fun _ => (h.atoms _).bind fun _ => .refl _
  | zero | param n | succ l | imax x y => exact .refl _

theorem Below.imaxBody (h : call.Below call') (a b : Level) :
    Approximates (call.imaxBody a b) (call'.imaxBody a b) := by
  refine (h.normalize b).bind fun b' => (h.atoms b').bind fun bs => ?_
  split
  · exact .refl _
  split
  · exact (h.atoms a).bind fun _ => .refl _
  refine (h.normalize a).bind fun a' => ?_
  split
  · exact h.atoms a'
  split
  · exact .refl _
  · exact h.spreadBody a' b'

/-- More answers change no value of the body that collects atoms, one form of level after the
other. -/
theorem Below.atomsBody (h : call.Below call') (l : Level) :
    Approximates (call.atomsBody l) (call'.atomsBody l) := by
  cases l with
  | zero | param n => exact .refl _
  | succ l => exact (h.atoms _).bind fun _ => .refl _
  | max a b => exact (h.atoms a).bind fun _ => (h.atoms b).bind fun _ => .refl _
  | imax a b => exact h.imaxBody a b

theorem Below.normalizeBody (h : call.Below call') (l : Level) :
    Approximates (call.normalizeBody l) (call'.normalizeBody l) := by
  cases l with
  | zero | param n => exact .refl _
  | succ l | max a b | imax a b => exact (h.atoms _).bind fun _ => .refl _

/-- **No depth gives another answer.** -/
theorem within_below (d : Nat) : (within d).Below full := by
  induction d with
  | zero => exact ⟨fun _ => .inl rfl, fun _ => .inl rfl⟩
  | succ d ih =>
    rw [full_eq_body]
    exact ⟨ih.normalizeBody, ih.atomsBody⟩

end Answers

end Level

end TypeTheory
