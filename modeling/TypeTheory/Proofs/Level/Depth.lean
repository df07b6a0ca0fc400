import TypeTheory.Proofs.Level.Recursion

/-!
# The recursion for canonical forms ends

The functions of `Level.Answers` are called on levels that they put together themselves.
What bounds the depth of the calls is the shape of these levels, in two numbers at once
(`Level.Compact`): canonical forms do not nest `imax` deeper than the level that they come from,
and have no more atoms beside each other than it has leaves. This holds also where an
`imax` is spread. Its left side is copied for every atom of the right side, so the canonical form
may be much larger than the level; but the copies stand beside each other, and there are
no more of them than there were atoms.

A call on a canonical form goes through its atoms one by one and then one `imax` down, so
its depth is about the product of the two numbers (`Level.formDepth`). A call on any other level
goes through the level first, at two calls a step (`Level.callDepth`).
-/

namespace TypeTheory

namespace Level

open Atom Answers

/-! ## Measures -/

/-- How deep `imax` stands within `imax`. -/
def nesting : Level → Nat
  | zero | param _ => 0
  | succ l => l.nesting
  | max a b => Max.max a.nesting b.nesting
  | imax a b => Max.max a.nesting b.nesting + 1

/-- The number of zeros and parameters. -/
def leaves : Level → Nat
  | zero | param _ => 1
  | succ l => l.leaves
  | max a b | imax a b => a.leaves + b.leaves

/-- The longest path from the level to a leaf. -/
def height : Level → Nat
  | zero | param _ => 0
  | succ l => l.height + 1
  | max a b | imax a b => Max.max a.height b.height + 1

/-- A depth of calls within which the atoms of a canonical form are found, if it nests `imax`
at most `n` deep and has at most `w` atoms beside each other. -/
def formDepth (w n : Nat) : Nat :=
  (w + 2) * (n + 1)

/-- A depth of calls within which the canonical form of the level is found. -/
def callDepth (l : Level) : Nat :=
  2 * l.height + formDepth l.leaves l.nesting + 1

/-- Within the level `imax` is nested at most `n` deep, and each side of an `imax` has at
most `w` summands. -/
def Fits (w : Nat) : (n : Nat) → Level → Prop
  | _, zero | _, param _ => True
  | n, succ l => Fits w n l
  | n, max a b => Fits w n a ∧ Fits w n b
  | 0, imax _ _ => False
  | n + 1, imax a b =>
    (a.summands.length ≤ w ∧ Fits w n a) ∧ b.summands.length ≤ w ∧ Fits w n b

/-- The level is a canonical form with at most `w` summands that fits. -/
structure Compact (w n : Nat) (l : Level) : Prop where
  normal : NormalForm l
  narrow : l.summands.length ≤ w
  fits : Fits w n l

variable {a b l x y : Level} {as bs : List Atom} {w m n d : Nat}

/-- What fits with `imax` nested up to some depth fits with any larger depth. -/
theorem Fits.mono (h : Fits w m l) (hmn : m ≤ n) : Fits w n l := by
  induction l generalizing m n with
  | zero | param p => trivial
  | succ l ih => exact ih h hmn
  | max a b iha ihb => exact ⟨iha h.1 hmn, ihb h.2 hmn⟩
  | imax a b iha ihb =>
    cases m with
    | zero => exact h.elim
    | succ m =>
      cases n with
      | zero => omega
      | succ n =>
        obtain ⟨⟨hwa, ha⟩, hwb, hb⟩ := h
        exact ⟨⟨hwa, iha ha (by omega)⟩, hwb, ihb hb (by omega)⟩

/-- A level fits if its summands do. -/
theorem fits_iff_summandsFrom (k : Nat) :
    Fits w n l ↔ ∀ s ∈ l.summandsFrom k, Fits w n s.base := by
  fun_induction summandsFrom k l with
  | case1 k l ih => exact ih
  | case2 k a b iha ihb =>
    rw [List.forall_mem_append, ← iha, ← ihb]
    rfl
  | case3 k l => simp

theorem length_summands_pos (l : Level) : 0 < l.summands.length :=
  List.length_pos_iff.mpr (summandsFrom_ne_nil 0 l)

theorem length_summands_max (x y : Level) :
    (max x y).summands.length = x.summands.length + y.summands.length :=
  List.length_append

/-- Both sides of a compact maximum are compact. -/
theorem Compact.sides (h : Compact w n (max x y)) : Compact w n x ∧ Compact w n y := by
  obtain ⟨hx, hy⟩ := h.normal.sides rfl
  have hnarrow := h.narrow
  rw [length_summands_max] at hnarrow
  exact ⟨⟨hx, by omega, h.fits.1⟩, ⟨hy, by omega, h.fits.2⟩⟩

/-! ## The number of atoms -/

theorem Atom.length_insert_le (a : Atom) (atoms : List Atom) :
    (insert a atoms).length ≤ atoms.length + 1 := by
  induction atoms with
  | nil => exact Nat.le_refl _
  | cons b rest ih =>
    rw [insert]
    split
    · exact Nat.le_refl _
    · exact Nat.le_succ _
    · exact Nat.succ_le_succ ih

/-- Canonical lists are no longer. -/
theorem Atom.length_canonical_le (atoms : List Atom) : (canonical atoms).length ≤ atoms.length := by
  have hsorted : (atoms.foldr insert []).length ≤ atoms.length := by
    induction atoms with
    | nil => exact Nat.le_refl _
    | cons a rest ih => exact Nat.le_trans (length_insert_le a _) (Nat.succ_le_succ ih)
  exact Nat.le_trans (List.length_filter_le _ _) hsorted

/-- **Spreading an `imax` gives no more atoms than the right side has.** -/
theorem length_spread_le (a b : Level) : (a.spread b).length ≤ b.summands.length := by
  fun_induction spread a b with
  | case1 => exact Nat.le_refl _
  | case2 x y _ ihx ihy =>
    rw [length_summands_max, List.length_append]
    omega
  | case3 => exact length_summands_pos _

/-- An `imax` has at most as many atoms as its left side, and the summands of its right side. -/
theorem length_imaxAtoms_le (as : List Atom) (b : Level) :
    (imaxAtoms as b).length ≤ as.length + b.summands.length := by
  have hpos := length_summands_pos b
  have hrule := imaxRule_imaxAtoms as b
  generalize imaxAtoms as b = result at hrule ⊢
  cases hrule with
  | zero =>
    rw [List.length_singleton]
    omega
  | positive => rw [List.length_append]
  | small => exact Nat.le_add_left _ _
  | spread => exact Nat.le_trans (length_spread_le _ b) (Nat.le_add_left _ _)

/-- **A level has no more atoms than leaves.** -/
theorem length_atomsFrom_le (k : Nat) (l : Level) : (l.atomsFrom k).length ≤ l.leaves := by
  induction l generalizing k with
  | zero | param p => exact Nat.le_refl _
  | succ l ih => exact ih (k + 1)
  | max a b iha ihb =>
    have hlefts := iha k
    have hrights := ihb k
    rw [atomsFrom, List.length_append, leaves]
    omega
  | imax a b iha ihb =>
    have hlefts := iha 0
    have hrights := Nat.le_trans (length_canonical_le (b.atomsFrom 0)) (ihb 0)
    have himax := length_imaxAtoms_le (a.atomsFrom 0) b.normalize
    rw [summands_normalize] at himax
    rw [atomsFrom, List.length_map, leaves]
    exact Nat.le_trans himax (Nat.add_le_add hlefts hrights)

/-! ## Canonical forms are compact -/

/-- Every base fits. -/
def Atom.AllFit (w n : Nat) (atoms : List Atom) : Prop :=
  ∀ a ∈ atoms, Fits w n a.base

theorem Atom.AllFit.mono (h : AllFit w m as) (hmn : m ≤ n) : AllFit w n as :=
  fun a ha => (h a ha).mono hmn

theorem Atom.AllFit.append (has : AllFit w n as) (hbs : AllFit w n bs) :
    AllFit w n (as ++ bs) := by
  intro a ha
  exact (List.mem_append.mp ha).elim (has a) (hbs a)

/-- The canonical form of a list fits if the list does, as it has no atom of another base. -/
theorem Atom.AllFit.canonical (h : AllFit w n as) : AllFit w n (canonical as) := by
  intro a ha
  obtain ⟨b, hb, hbase⟩ := mem_canonical_base ha
  exact hbase ▸ h b hb

theorem Compact.allFit (h : Compact w n l) : AllFit w n l.summands :=
  (fits_iff_summandsFrom 0).mp h.fits

/-- A canonical form is compact if its level has few leaves and its atoms fit. -/
theorem compact_of_allFit (hw : l.leaves ≤ w) (h : AllFit w n l.atoms) :
    Compact w n l.normalize where
  normal := normalForm_normalize l
  narrow := by
    rw [summands_normalize]
    exact Nat.le_trans (length_canonical_le _) (Nat.le_trans (length_atomsFrom_le 0 l) hw)
  fits := by
    have hsummands : AllFit w n l.normalize.summands := by
      rw [summands_normalize]
      exact h.canonical
    exact (fits_iff_summandsFrom 0).mpr hsummands

/-- **Spreading puts one `imax` on top of what is there.** -/
theorem allFit_spread (ha : Compact w n a) (hb : Compact w n b) :
    AllFit w (n + 1) (a.spread b) := by
  fun_induction spread a b with
  | case1 => exact ha.allFit.mono (Nat.le_succ n)
  | case2 x y _ ihx ihy =>
    obtain ⟨hx, hy⟩ := hb.sides
    exact (ihx hx).append (ihy hy)
  | case3 b _ _ =>
    intro s hs
    rw [List.mem_singleton.mp hs]
    exact ⟨⟨ha.narrow, ha.fits⟩, hb.narrow, hb.fits⟩

/-- The atoms of an `imax` fit one level deeper than those of its two sides. -/
theorem allFit_imaxAtoms (has : AllFit w n as) (ha : Compact w n (maximum (canonical as)))
    (hb : Compact w n b) : AllFit w (n + 1) (imaxAtoms as b) := by
  have hbs := hb.allFit.mono (Nat.le_succ n)
  have hrule := imaxRule_imaxAtoms as b
  generalize imaxAtoms as b = result at hrule ⊢
  cases hrule with
  | zero =>
    intro s hs
    rw [List.mem_singleton.mp hs]
    trivial
  | positive => exact (has.mono (Nat.le_succ n)).append hbs
  | small => exact hbs
  | spread => exact allFit_spread ha hb

/-- **The atoms of a level fit** its nesting and the number of its leaves. -/
theorem allFit_atomsFrom (hw : l.leaves ≤ w) (k : Nat) : AllFit w l.nesting (l.atomsFrom k) := by
  induction l generalizing k with
  | zero | param p =>
    intro s hs
    rw [List.mem_singleton.mp hs]
    trivial
  | succ l ih => exact ih hw (k + 1)
  | max a b iha ihb =>
    rw [leaves] at hw
    exact ((iha (by omega) k).mono (Nat.le_max_left _ _)).append
      ((ihb (by omega) k).mono (Nat.le_max_right _ _))
  | imax a b iha ihb =>
    rw [leaves] at hw
    have has := (iha (by omega) 0).mono (Nat.le_max_left a.nesting b.nesting)
    have hbs := (ihb (by omega) 0).mono (Nat.le_max_right a.nesting b.nesting)
    have himax := allFit_imaxAtoms has (compact_of_allFit (by omega) has)
      (compact_of_allFit (by omega) hbs)
    intro s hs
    obtain ⟨t, ht, rfl⟩ := List.mem_map.mp hs
    exact himax t ht

/-- **Canonical forms are compact**: they nest `imax` no deeper than the level, and have no
more atoms beside each other than the level has leaves. -/
theorem compact_normalize (hw : l.leaves ≤ w) (hn : l.nesting ≤ n) :
    Compact w n l.normalize :=
  compact_of_allFit hw ((allFit_atomsFrom hw 0).mono hn)

/-! ## Depth of calls -/

/-- From the given depth on the atoms of the level are found. -/
def Settles (d : Nat) (l : Level) : Prop :=
  ∀ n, d ≤ n → (within n).atoms l = some l.atoms

theorem Settles.mono (h : Settles m l) (hmd : m ≤ d) : Settles d l :=
  fun n hn => h n (by omega)

/-- What one step gives with the answers at a depth is the answer at the next depth. -/
theorem settles_of_body (h : ∀ n, d ≤ n → (within n).atomsBody l = some l.atoms) :
    Settles (d + 1) l := by
  intro n hn
  cases n with
  | zero => omega
  | succ n => exact h n (by omega)

/-- A level that settles is normalized by one call more: that of the canonical form itself. -/
theorem Settles.normalize (h : Settles d l) (hn : d + 1 ≤ n) :
    (within n).normalize l = some l.normalize := by
  cases n with
  | zero => omega
  | succ n => exact normalizeBody_eq (h n (by omega))

theorem settles_zero : Settles 1 zero :=
  settles_of_body fun _ _ => rfl

theorem settles_param (p : Name) : Settles 1 (param p) :=
  settles_of_body fun _ _ => rfl

/-- A chain of successors costs one call, however long it is. -/
theorem settles_of_split (h : Settles d l.split.1) : Settles (d + 1) l := by
  cases l with
  | succ l =>
    rw [split_succ] at h
    exact settles_of_body fun n hn => atomsBody_succ (h n hn)
  | zero | param p | max a b | imax a b => exact Settles.mono h (Nat.le_succ d)

theorem Settles.max (ha : Settles d a) (hb : Settles d b) : Settles (d + 1) (.max a b) :=
  settles_of_body fun n hn => atomsBody_max (ha n hn) (hb n hn)

/-- The calls of an `imax`: its sides, their canonical forms, and the `imax` of the canonical
left side with both halves of the right one. -/
theorem Settles.imax (ha : Settles d a) (hb : Settles d b) (hb' : Settles (d + 1) b.normalize)
    (hsides : ∀ x y, b.normalize = .max x y →
      Settles (d + 1) (.imax a.normalize x) ∧ Settles (d + 1) (.imax a.normalize y)) :
    Settles (d + 2) (.imax a b) := by
  refine settles_of_body fun n hn => imaxBody_eq (hb.normalize hn) (hb' n hn) (ha.normalize hn)
    (ha n (by omega)) fun x y hxy => ?_
  obtain ⟨hx, hy⟩ := hsides x y hxy
  exact ⟨hx n hn, hy n hn⟩

/-- Canonical sides are their own canonical forms. -/
theorem Settles.imax_of_normal (ha : NormalForm a) (hb : NormalForm b) (hsa : Settles d a)
    (hsb : Settles d b) (hsides : ∀ x y, b = .max x y →
      Settles (d + 1) (.imax a x) ∧ Settles (d + 1) (.imax a y)) :
    Settles (d + 2) (.imax a b) := by
  refine hsa.imax hsb ?_ ?_
  · rw [hb.normalize_eq]
    exact hsb.mono (Nat.le_succ d)
  · rwa [ha.normalize_eq, hb.normalize_eq]

/-- A base under successors is found again when the successors are split off. -/
theorem split_addOffset (l : Level) (k : Nat) : (l.addOffset k).split.1 = l.split.1 := by
  induction k generalizing l with
  | zero => rfl
  | succ k ih => rw [addOffset, ih, split_succ]

/-- An atom as a level settles one call below its base: the successors are split off at once. -/
theorem Settles.level {a : Atom} (h : Settles d a.base) (hbase : a.base.isBase = true) :
    Settles (d + 1) a.level := by
  have hsplit : a.base.split.1 = a.base := by
    cases hcases : a.base with
    | zero | param p | imax x y => rfl
    | succ l | max x y => rw [hcases] at hbase; cases hbase
  refine settles_of_split ?_
  rwa [Atom.level, split_addOffset, hsplit]

/-- The atoms of a maximum are gone through one by one. -/
theorem settles_maximum (hne : as ≠ []) (hbased : Based as) (h : ∀ a ∈ as, Settles d a.base) :
    Settles (d + as.length) (maximum as) := by
  induction as with
  | nil => exact absurd rfl hne
  | cons a rest ih =>
    have hatom := (h a List.mem_cons_self).level (hbased a List.mem_cons_self)
    cases rest with
    | nil => exact hatom
    | cons b rest =>
      have hrest := ih (by simp) (fun c hc => hbased c (List.mem_cons_of_mem a hc))
        fun c hc => h c (List.mem_cons_of_mem a hc)
      have hatom' : Settles (d + (b :: rest).length) a.level := by
        refine hatom.mono ?_
        rw [List.length_cons]
        omega
      exact hatom'.max hrest

theorem formDepth_zero (w : Nat) : formDepth w 0 = w + 2 :=
  Nat.mul_one _

theorem formDepth_succ (w n : Nat) : formDepth w (n + 1) = formDepth w n + w + 2 :=
  Nat.mul_succ _ _

theorem formDepth_mono (w : Nat) (hmn : m ≤ n) : formDepth w m ≤ formDepth w n :=
  Nat.mul_le_mul_left _ (Nat.succ_le_succ hmn)

/-- A base costs one `imax`, and what the canonical forms below it cost. -/
theorem NormalBase.settles (h : NormalBase l) (hfits : Fits w n l)
    (hforms : ∀ m < n, ∀ l, Compact w m l → Settles (formDepth w m) l) :
    Settles ((w + 2) * n + 2) l := by
  cases h with
  | zero => exact settles_zero.mono (by omega)
  | param p => exact (settles_param p).mono (by omega)
  | @imax a b left right _ _ _ right_isBase _ =>
    cases n with
    | zero => exact hfits.elim
    | succ n =>
      obtain ⟨⟨hwa, ha⟩, hwb, hb⟩ := hfits
      have hleft := hforms n (Nat.lt_succ_self n) a ⟨left, hwa, ha⟩
      have hright := hforms n (Nat.lt_succ_self n) b ⟨right, hwb, hb⟩
      refine hleft.imax_of_normal left right hright ?_
      rintro x y rfl
      cases right_isBase

/-- **A call on a canonical form goes as deep as its width times its nesting.** The induction
is on the nesting: below a base of the form, `imax` is nested one less. -/
theorem Compact.settles (h : Compact w n l) : Settles (formDepth w n) l := by
  induction n using Nat.strongRecOn generalizing l with
  | _ n ih =>
    obtain ⟨hnormal, hnarrow, hfits⟩ := h
    have hsummands := (fits_iff_summandsFrom 0).mp hfits
    cases hnormal with
    | @maximum as nonempty bases ascending constant =>
      have hbased : Based as := fun a ha => (bases a ha).isBase
      have hatoms : (maximum as).summandsFrom 0 = as := summands_maximum hbased nonempty
      rw [summands, hatoms] at hnarrow
      rw [hatoms] at hsummands
      have hbases : ∀ a ∈ as, Settles ((w + 2) * n + 2) a.base :=
        fun a ha => (bases a ha).settles (hsummands a ha) fun m hm l hl => ih m hm hl
      refine (settles_maximum nonempty hbased hbases).mono ?_
      rw [formDepth, Nat.mul_succ]
      omega

/-- An `imax` of canonical forms is spread over the summands of the right one, with no more
than one call for each. -/
theorem Compact.settles_imax (ha : Compact w n a) (hb : Compact w n b) :
    Settles (formDepth w n + b.summands.length + 1) (.imax a b) := by
  induction b with
  | max x y ihx ihy =>
    obtain ⟨hx, hy⟩ := hb.sides
    rw [length_summands_max]
    have hx_pos := length_summands_pos x
    have hy_pos := length_summands_pos y
    -- both halves have fewer summands than the whole
    obtain ⟨k, hk⟩ : ∃ k, x.summands.length + y.summands.length = k + 1 :=
      ⟨x.summands.length + y.summands.length - 1, by omega⟩
    have hleft : Settles (formDepth w n + k) a := ha.settles.mono (by omega)
    have hright : Settles (formDepth w n + k) (.max x y) := hb.settles.mono (by omega)
    refine (hleft.imax_of_normal ha.normal hb.normal hright ?_).mono (by omega)
    intro x' y' hsides
    obtain ⟨rfl, rfl⟩ := Level.max.inj hsides
    exact ⟨(ihx hx).mono (by omega), (ihy hy).mono (by omega)⟩
  | zero | param p | succ l | imax x y =>
    refine (ha.settles.imax_of_normal ha.normal hb.normal hb.settles ?_).mono
      (Nat.succ_le_succ (Nat.add_le_add_left (length_summands_pos _) _))
    intro x y hsides
    cases hsides

/-- **An `imax` ends**, if calls on its sides do and their canonical forms are compact. -/
theorem Settles.imax_of_compact (ha : Settles d a) (hb : Settles d b)
    (ha_form : Compact w n a.normalize) (hb_form : Compact w n b.normalize)
    (hd : formDepth w (n + 1) ≤ d) : Settles (d + 2) (.imax a b) := by
  rw [formDepth_succ] at hd
  have hside : ∀ x, Compact w n x → Settles (d + 1) (.imax a.normalize x) := by
    intro x hx
    have hnarrow := hx.narrow
    exact (ha_form.settles_imax hx).mono (by omega)
  refine ha.imax hb (hb_form.settles.mono (by omega)) ?_
  intro x y hxy
  obtain ⟨hx, hy⟩ := Compact.sides (hxy ▸ hb_form)
  exact ⟨hside x hx, hside y hy⟩

/-- Both a higher level and a deeper nesting leave room for more calls. -/
theorem Settles.deepen {h h' : Nat} (hl : Settles (2 * h + formDepth w m) l) (hh : h ≤ h')
    (hmn : m ≤ n) : Settles (2 * h' + formDepth w n) l := by
  have hforms := formDepth_mono w hmn
  exact hl.mono (by omega)

/-- **Every call is settled at a depth that is known beforehand**, and so is the call on what
stands below the successors of the level. The parts of the level share one bound on the
number of leaves. -/
theorem settles_of_leaves_le (hw : l.leaves ≤ w) :
    Settles (2 * l.height + formDepth w l.nesting) l ∧
      Settles (2 * l.height + formDepth w l.nesting) l.split.1 := by
  induction l with
  | zero =>
    have hzero : Settles (2 * 0 + formDepth w 0) zero :=
      settles_zero.mono (by rw [formDepth_zero]; omega)
    exact ⟨hzero, hzero⟩
  | param p =>
    have hparam : Settles (2 * 0 + formDepth w 0) (param p) :=
      (settles_param p).mono (by rw [formDepth_zero]; omega)
    exact ⟨hparam, hparam⟩
  | succ l ih =>
    have hbase : Settles (2 * l.height + formDepth w l.nesting) l.succ.split.1 := by
      rw [split_succ]
      exact (ih hw).2
    rw [height, nesting]
    exact ⟨(settles_of_split hbase).mono (by omega), hbase.mono (by omega)⟩
  | max a b iha ihb =>
    rw [leaves] at hw
    have ha := (iha (by omega)).1.deepen (Nat.le_max_left _ b.height) (Nat.le_max_left _ b.nesting)
    have hb := (ihb (by omega)).1.deepen (Nat.le_max_right a.height _)
      (Nat.le_max_right a.nesting _)
    have hmax := (ha.max hb).mono (Nat.le_succ _)
    rw [height, nesting, Nat.mul_add, Nat.add_right_comm]
    exact ⟨hmax, hmax⟩
  | imax a b iha ihb =>
    rw [leaves] at hw
    have hna := Nat.le_max_left a.nesting b.nesting
    have hnb := Nat.le_max_right a.nesting b.nesting
    have ha := (iha (by omega)).1.deepen (Nat.le_max_left _ b.height) (Nat.le_succ_of_le hna)
    have hb := (ihb (by omega)).1.deepen (Nat.le_max_right a.height _) (Nat.le_succ_of_le hnb)
    have himax := ha.imax_of_compact hb (compact_normalize (by omega) hna)
      (compact_normalize (by omega) hnb) (Nat.le_add_left _ _)
    rw [height, nesting, Nat.mul_add, Nat.add_right_comm]
    exact ⟨himax, himax⟩

/-- **The recursion for canonical forms ends.** Functions that find canonical forms and
atoms by calling each other, also on the levels that they put together themselves, have found
them at a depth of calls that is known beforehand: at most about the number of leaves times the
nesting of `imax`. What they find at this depth or any larger one is the canonical form and
the atoms of the level, and at a smaller depth they find that or nothing. -/
theorem recursion_ends (l : Level) :
    (∀ n, (within (l.callDepth + n)).normalize l = some l.normalize ∧
      (within (l.callDepth + n)).atoms l = some l.atoms) ∧
    ∀ d, ((within d).normalize l = none ∨ (within d).normalize l = some l.normalize) ∧
      ((within d).atoms l = none ∨ (within d).atoms l = some l.atoms) := by
  have hsettles := (settles_of_leaves_le (Nat.le_refl l.leaves)).1
  refine ⟨fun n => ⟨hsettles.normalize ?_, hsettles _ ?_⟩, fun d => ?_⟩
  · rw [callDepth]
    omega
  · rw [callDepth]
    omega
  · exact ⟨(within_below d).normalize l, (within_below d).atoms l⟩

/-- An `imax` that is spread over two parameters needs five calls within each other. -/
example :
    let u := param (.atom "u")
    let v := param (.atom "v")
    let w := param (.atom "w")
    (within 4).normalize (imax u (max v w)) = none ∧
      (within 5).normalize (imax u (max v w)) = some (max (imax u v) (imax u w)) := by
  decide

end Level

end TypeTheory
