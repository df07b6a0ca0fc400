import TypeTheory.Proofs.Level.Value
import Mathlib.Data.List.Sort

/-!
# Canonical forms are unique

Two lists of atoms are *alike* when every atom of the one is covered by an atom
of the other: the base is the same, or the covered atom is a constant, and the
offset is no smaller. Sorting, merging and dropping dominated constants leave a
list alike, and two lists in canonical order that are alike are the same list.
So the canonical form of a list of atoms depends on the list only up to likeness
(`Atom.canonical_eq_iff`). A canonical form is read back by `Level.summands`, so
equality of levels is likeness of their atoms (`Level.normalize_eq_iff`).
-/

namespace TypeTheory

/-! ## The order of names and levels -/

theorem Name.cmp_swap (m n : Name) : m.cmp n = (n.cmp m).swap := by
  fun_induction Name.cmp m n with
  | case4 p s q t ih =>
    rw [Name.cmp, Ordering.swap_then, ← ih, ← Std.OrientedOrd.eq_swap]
  | _ => rfl

theorem Name.cmp_lt_trans {l m n : Name} (h : l.cmp m = .lt) (h' : m.cmp n = .lt) :
    l.cmp n = .lt := by
  induction n generalizing l m with
  | anonymous => cases m <;> simp [Name.cmp] at h'
  | str r u ih =>
    cases m with
    | anonymous => cases l <;> simp [Name.cmp] at h
    | str q t =>
      cases l with
      | anonymous => rfl
      | str p s =>
        rw [Name.cmp, Ordering.then_eq_lt] at h h' ⊢
        -- the first parent that differs decides; else the last segments do
        rcases h with h | ⟨h, hst⟩ <;> rcases h' with h' | ⟨h', htu⟩
        · exact .inl (ih h h')
        · exact .inl (Name.eq_of_cmp_eq h' ▸ h)
        · exact .inl (Name.eq_of_cmp_eq h ▸ h')
        · refine .inr ⟨Name.eq_of_cmp_eq h ▸ h', ?_⟩
          exact Std.TransCmp.lt_trans hst htu

namespace Level

/-- Comparing two levels the other way round gives the opposite order. The induction is on the left
level. -/
theorem cmp_swap (a b : Level) : a.cmp b = (b.cmp a).swap := by
  induction a generalizing b with
  | zero => cases b <;> rfl
  | param m =>
    cases b with
    | param n => exact Name.cmp_swap m n
    | _ => rfl
  | succ a ih =>
    cases b with
    | succ b => exact ih b
    | _ => rfl
  | max a a' ih ih' =>
    cases b with
    | max b b' => rw [cmp, cmp, Ordering.swap_then, ← ih, ← ih']
    | _ => rfl
  | imax a a' ih ih' =>
    cases b with
    | imax b b' => rw [cmp, cmp, Ordering.swap_then, ← ih, ← ih']
    | _ => rfl

theorem cmp_self (a : Level) : a.cmp a = .eq := by
  have hswap := cmp_swap a a
  cases hcmp : a.cmp a with
  | eq => rfl
  | lt | gt => simp [hcmp] at hswap

/-- Two pairs of levels that ascend in lexicographic order one after the other. -/
theorem then_cmp_lt_trans {a a' b b' c c' : Level}
    (htrans : a.cmp b = .lt → b.cmp c = .lt → a.cmp c = .lt)
    (htrans' : a'.cmp b' = .lt → b'.cmp c' = .lt → a'.cmp c' = .lt)
    (h : (a.cmp b).then (a'.cmp b') = .lt) (h' : (b.cmp c).then (b'.cmp c') = .lt) :
    (a.cmp c).then (a'.cmp c') = .lt := by
  rw [Ordering.then_eq_lt] at h h' ⊢
  rcases h with h | ⟨h, hright⟩ <;> rcases h' with h' | ⟨h', hright'⟩
  · exact .inl (htrans h h')
  · exact .inl (eq_of_cmp_eq h' ▸ h)
  · exact .inl (eq_of_cmp_eq h ▸ h')
  · exact .inr ⟨eq_of_cmp_eq h ▸ h', htrans' hright hright'⟩

/-- The order of levels is transitive, which makes sorted lists of atoms strictly ascending. -/
theorem cmp_lt_trans {a b c : Level} (h : a.cmp b = .lt) (h' : b.cmp c = .lt) :
    a.cmp c = .lt := by
  -- only where all three have one constructor is there something to compare
  induction a generalizing b c with
  | zero => cases b <;> cases c <;> simp_all [cmp]
  | param l =>
    cases b <;> cases c <;> try simp_all [cmp]
    exact Name.cmp_lt_trans h h'
  | succ a ih =>
    cases b <;> cases c <;> try simp_all [cmp]
    exact ih h h'
  | max a a' ih ih' | imax a a' ih ih' =>
    cases b <;> cases c <;> try simp_all [cmp]
    exact then_cmp_lt_trans ih ih' h h'

namespace Atom

/-! ## Covered atoms -/

/-- Some atom of the list has the base of `a`, or any base if `a` is a constant,
and no smaller offset. -/
def Covers (atoms : List Atom) (a : Atom) : Prop :=
  ∃ b ∈ atoms, a.offset ≤ b.offset ∧ (a.base = b.base ∨ a.base = .zero)

/-- Every atom of the first list is covered by the second. -/
def Below (as bs : List Atom) : Prop :=
  ∀ a ∈ as, Covers bs a

/-- The lists cover each other. -/
def Alike (as bs : List Atom) : Prop :=
  Below as bs ∧ Below bs as

variable {a : Atom} {as bs cs ds : List Atom}

theorem Covers.of_mem (h : a ∈ as) : Covers as a :=
  ⟨a, h, Nat.le_refl _, .inl rfl⟩

/-- What is covered by a list is covered by every list above it. -/
theorem Covers.mono (h : Covers as a) (hbelow : Below as bs) : Covers bs a := by
  obtain ⟨b, hb, hle, hbase⟩ := h
  obtain ⟨c, hc, hle', hbase'⟩ := hbelow b hb
  refine ⟨c, hc, by omega, ?_⟩
  rcases hbase with hbase | hbase
  · exact hbase ▸ hbase'
  · exact .inr hbase

theorem Below.of_subset (h : as ⊆ bs) : Below as bs :=
  fun _ ha => Covers.of_mem (h ha)

/-- To lie below is transitive: a cover of a cover is a cover. -/
theorem Below.trans (h : Below as bs) (h' : Below bs cs) : Below as cs :=
  fun a ha => (h a ha).mono h'

theorem Below.append (h : Below as cs) (h' : Below bs cs) : Below (as ++ bs) cs :=
  fun a ha => (List.mem_append.mp ha).elim (h a) (h' a)

/-- Raising all offsets by a number keeps the one list below the other. -/
theorem Below.map_raise (h : Below as bs) (k : Nat) :
    Below (as.map (raise k)) (bs.map (raise k)) := by
  intro x hx
  obtain ⟨a, ha, rfl⟩ := List.mem_map.mp hx
  obtain ⟨b, hb, hle, hbase⟩ := h a ha
  refine ⟨raise k b, List.mem_map_of_mem hb, ?_, hbase⟩
  simp only [raise]
  omega

theorem Below.ne_nil (h : Below as bs) (hne : as ≠ []) : bs ≠ [] := by
  obtain ⟨a, ha⟩ := List.exists_mem_of_ne_nil as hne
  obtain ⟨b, hb, -⟩ := h a ha
  exact List.ne_nil_of_mem hb

@[refl] theorem Alike.refl (as : List Atom) : Alike as as :=
  ⟨.of_subset (List.Subset.refl as), .of_subset (List.Subset.refl as)⟩

theorem Alike.symm (h : Alike as bs) : Alike bs as := ⟨h.2, h.1⟩

theorem Alike.trans (h : Alike as bs) (h' : Alike bs cs) : Alike as cs :=
  ⟨h.1.trans h'.1, h'.2.trans h.2⟩

instance : Trans Alike Alike Alike := ⟨Alike.trans⟩

/-- Lists that are alike may be exchanged for each other on either side of a concatenation. -/
theorem Alike.append (h : Alike as bs) (h' : Alike cs ds) : Alike (as ++ cs) (bs ++ ds) := by
  have hleft {xs ys : List Atom} : Below xs (xs ++ ys) := .of_subset (List.subset_append_left xs ys)
  have hright {xs ys : List Atom} : Below ys (xs ++ ys) :=
    .of_subset (List.subset_append_right xs ys)
  exact ⟨(h.1.trans hleft).append (h'.1.trans hright), (h.2.trans hleft).append (h'.2.trans hright)⟩

/-- Lists that are alike stay so if all offsets are raised by a number. -/
theorem Alike.map_raise (h : Alike as bs) (k : Nat) :
    Alike (as.map (raise k)) (bs.map (raise k)) :=
  ⟨h.1.map_raise k, h.2.map_raise k⟩

/-- Atoms that are covered already add nothing. -/
theorem Alike.of_append_covered (h : Below as bs) : Alike (as ++ bs) bs :=
  ⟨h.append (.of_subset (List.Subset.refl bs)), .of_subset (List.subset_append_right as bs)⟩

/-! ## Sorted lists -/

/-- The bases ascend. -/
def Ascending (atoms : List Atom) : Prop :=
  atoms.Pairwise fun a b => a.base.cmp b.base = .lt

/-- Insertion keeps a list ascending: the atom gets its place, or is merged with one of its base. -/
theorem Ascending.insert (h : Ascending as) (a : Atom) : Ascending (insert a as) := by
  induction as with
  | nil => exact List.pairwise_singleton _ _
  | cons b rest ih =>
    obtain ⟨hb, hrest⟩ := List.pairwise_cons.mp h
    rw [Atom.insert]
    split
    · rename_i hlt
      refine List.pairwise_cons.mpr ⟨fun c hc => ?_, h⟩
      rcases List.mem_cons.mp hc with rfl | hc
      · exact hlt
      · exact cmp_lt_trans hlt (hb c hc)
    · exact List.pairwise_cons.mpr ⟨hb, hrest⟩
    · rename_i hgt
      refine List.pairwise_cons.mpr ⟨fun c hc => ?_, ih hrest⟩
      rcases mem_insert_base hc with hbase | ⟨d, hd, hbase⟩
      · rw [hbase, cmp_swap, hgt]
        rfl
      · exact hbase ▸ hb d hd

/-- **Inserting an atom adds it and nothing else.** -/
theorem alike_insert (a : Atom) (atoms : List Atom) : Alike (insert a atoms) (a :: atoms) := by
  induction atoms with
  | nil => exact .refl _
  | cons b rest ih =>
    rw [insert]
    split
    · exact .refl _
    · -- one base: the atom with the larger offset covers the other
      rename_i hcmp
      have hbase : a.base = b.base := eq_of_cmp_eq hcmp
      constructor
      · intro x hx
        rcases List.mem_cons.mp hx with rfl | hx
        · rcases Nat.le_total a.offset b.offset with hle | hle
          · exact ⟨b, by simp, by simp [hle], .inl rfl⟩
          · exact ⟨a, by simp, by simp [hle], .inl hbase.symm⟩
        · exact .of_mem (by simp [hx])
      · intro x hx
        rcases List.mem_cons.mp hx with rfl | hx
        · exact ⟨_, List.mem_cons_self, Nat.le_max_left _ _, .inl hbase⟩
        · rcases List.mem_cons.mp hx with rfl | hx
          · exact ⟨_, List.mem_cons_self, Nat.le_max_right _ _, .inl rfl⟩
          · exact .of_mem (List.mem_cons_of_mem _ hx)
    · refine ((Alike.refl [b]).append ih).trans ⟨.of_subset ?_, .of_subset ?_⟩
      · intro x
        simp only [List.singleton_append, List.mem_cons]
        tauto
      · intro x
        simp only [List.singleton_append, List.mem_cons]
        tauto

/-! ## Canonical lists -/

/-- The bases ascend and no constant is dominated. -/
structure Canonical (atoms : List Atom) : Prop where
  ascending : Ascending atoms
  undominated : ∀ a ∈ atoms, a.dominatedIn atoms = false

theorem ascending_sorted (atoms : List Atom) : Ascending (atoms.foldr insert []) := by
  induction atoms with
  | nil => exact List.Pairwise.nil
  | cons a rest ih => exact ih.insert a

/-- A sorted list is alike to the list that it was sorted from. -/
theorem alike_sorted (atoms : List Atom) : Alike (atoms.foldr insert []) atoms := by
  induction atoms with
  | nil => exact .refl _
  | cons a rest ih => exact (alike_insert a _).trans ((Alike.refl [a]).append ih)

/-- A constant is dominated if some other atom has an offset that is no smaller. -/
theorem dominatedIn_iff :
    a.dominatedIn as = true ↔
      a.base = .zero ∧ ∃ b ∈ as, b.base ≠ .zero ∧ a.offset ≤ b.offset := by
  simp [dominatedIn]

/-- A dominated constant is covered by the atom that dominates it. -/
theorem alike_filter_dominated (atoms : List Atom) :
    Alike (atoms.filter fun a => !a.dominatedIn atoms) atoms := by
  refine ⟨.of_subset (List.filter_subset_self atoms), fun a ha => ?_⟩
  by_cases hdom : a.dominatedIn atoms = true
  · obtain ⟨hzero, b, hb, hbase, hle⟩ := dominatedIn_iff.mp hdom
    refine ⟨b, List.mem_filter.mpr ⟨hb, ?_⟩, hle, .inr hzero⟩
    simp [dominatedIn, hbase]
  · exact .of_mem (List.mem_filter.mpr ⟨ha, by simpa using hdom⟩)

/-- The canonical form of a list is alike to the list: sorting and dropping dominated constants
change nothing else. -/
theorem alike_canonical (atoms : List Atom) : Alike (canonical atoms) atoms :=
  (alike_filter_dominated _).trans (alike_sorted atoms)

/-- The canonical form of a list is in canonical order, with no constant that another atom
dominates. -/
theorem canonical_canonical (atoms : List Atom) : Canonical (canonical atoms) where
  ascending := (ascending_sorted atoms).filter _
  undominated a ha := by
    obtain ⟨-, hkept⟩ := List.mem_filter.mp ha
    rw [Bool.not_eq_true'] at hkept
    rw [Bool.eq_false_iff] at hkept ⊢
    intro hdom
    obtain ⟨hzero, b, hb, hdom⟩ := dominatedIn_iff.mp hdom
    exact hkept (dominatedIn_iff.mpr ⟨hzero, b, (List.mem_filter.mp hb).1, hdom⟩)

/-- One base has one atom in a list with ascending bases. -/
theorem Ascending.eq_of_base {b : Atom} (h : Ascending as) (ha : a ∈ as) (hb : b ∈ as)
    (hbase : a.base = b.base) : a = b := by
  induction as with
  | nil => cases ha
  | cons c rest ih =>
    obtain ⟨hc, hrest⟩ := List.pairwise_cons.mp h
    rcases List.mem_cons.mp ha with rfl | ha' <;> rcases List.mem_cons.mp hb with rfl | hb'
    · rfl
    · have hlt := hc b hb'
      rw [hbase, cmp_self] at hlt
      cases hlt
    · have hlt := hc a ha'
      rw [hbase, cmp_self] at hlt
      cases hlt
    · exact ih hrest ha' hb'

theorem Ascending.nodup (h : Ascending as) : as.Nodup := by
  refine h.imp fun {x y} hlt heq => ?_
  rw [heq, cmp_self] at hlt
  cases hlt

/-- An atom of a canonical list is found in every list that is alike, with its own offset. -/
theorem Canonical.mem_of_alike (hc : Canonical as) (h : Alike as bs) (ha : a ∈ as) : a ∈ bs := by
  obtain ⟨b, hb, hle, hbase⟩ := h.1 a ha
  obtain ⟨c, hc', hle', hbase'⟩ := h.2 b hb
  have hnot := hc.undominated a ha
  have hsame : a.base = b.base ∧ b.base = c.base := by
    by_contra hdiffer
    -- then `a` is a constant, and `c` has another base and no smaller offset
    refine absurd (dominatedIn_iff.mpr ⟨?_, c, hc', ?_, by omega⟩) (Bool.eq_false_iff.mp hnot)
    · grind
    · grind
  have hac : a = c := hc.ascending.eq_of_base ha hc' (hsame.1.trans hsame.2)
  have hab : a = b := by
    cases a
    cases b
    grind
  exact hab ▸ hb

/-- **Canonical lists that are alike are the same list.** -/
theorem Canonical.eq_of_alike (has : Canonical as) (hbs : Canonical bs) (h : Alike as bs) :
    as = bs := by
  have hmem : ∀ a, a ∈ as ↔ a ∈ bs := fun a => ⟨has.mem_of_alike h, hbs.mem_of_alike h.symm⟩
  have hperm := (List.perm_ext_iff_of_nodup has.ascending.nodup hbs.ascending.nodup).mpr hmem
  refine hperm.eq_of_pairwise (fun x y _ _ hlt hlt' => ?_) has.ascending hbs.ascending
  rw [cmp_swap, hlt'] at hlt
  cases hlt

/-- **The canonical form of a list of atoms depends on the list up to likeness.** -/
theorem canonical_eq_iff : canonical as = canonical bs ↔ Alike as bs := by
  constructor
  · intro h
    exact (alike_canonical as).symm.trans (h ▸ alike_canonical bs)
  · intro h
    refine (canonical_canonical as).eq_of_alike (canonical_canonical bs) ?_
    exact (alike_canonical as).trans (h.trans (alike_canonical bs).symm)

end Atom

open Atom

/-! ## Reading a canonical form back -/

/-- Whether the level is neither a successor nor a maximum. -/
def isBase : Level → Bool
  | succ _ | max .. => false
  | _ => true

/-- Every atom has a base that is neither a successor nor a maximum. -/
def Atom.Based (atoms : List Atom) : Prop :=
  ∀ a ∈ atoms, a.base.isBase = true

variable {as bs : List Atom}

/-- A base under successors has itself as its only summand, with the successors as its offset. -/
theorem summandsFrom_addOffset {l : Level} (h : l.isBase = true) (k j : Nat) :
    (l.addOffset k).summandsFrom j = [⟨l, j + k⟩] := by
  have hcount : ∀ (l : Level) k, (l.addOffset k).summandsFrom j = l.summandsFrom (j + k) := by
    intro l k
    induction k generalizing l with
    | zero => rfl
    | succ k ih =>
      rw [addOffset, ih, summandsFrom]
      congr 1
  rw [hcount]
  cases l with
  | zero | param n | imax a b => rfl
  | succ l | max a b => cases h

theorem summands_level {a : Atom} (h : a.base.isBase = true) : a.level.summands = [a] := by
  rw [level, summands, summandsFrom_addOffset h, Nat.zero_add]

/-- The summands of a maximum of atoms are those atoms. -/
theorem summands_maximum (h : Based as) (hne : as ≠ []) : (maximum as).summands = as := by
  induction as with
  | nil => exact absurd rfl hne
  | cons a rest ih =>
    have ha := summands_level (h a List.mem_cons_self)
    cases rest with
    | nil => exact ha
    | cons b rest =>
      have hrest := ih (fun x hx => h x (List.mem_cons_of_mem a hx)) (by simp)
      rw [maximum, summands, summandsFrom]
      · exact congrArg₂ (· ++ ·) ha hrest
      · simp

/-- The summands of a level have bases that are no maxima and no successors. -/
theorem based_summandsFrom (k : Nat) (l : Level) : Based (l.summandsFrom k) := by
  fun_induction summandsFrom k l with
  | case1 k l ih => exact ih
  | case2 k a b iha ihb =>
    intro x hx
    exact (List.mem_append.mp hx).elim (iha x) (ihb x)
  | case3 k l hsucc hmax =>
    intro x hx
    rw [List.mem_singleton.mp hx]
    cases l with
    | zero | param n | imax a b => rfl
    | succ l => exact absurd rfl (hsucc l)
    | max a b => exact absurd rfl (hmax a b)

/-- An `imax` that is spread over its sides has such bases: parameters, constants and `imax`
itself. -/
theorem based_spread (a b : Level) : Based (a.spread b) := by
  fun_induction spread a b with
  | case1 => exact based_summandsFrom 0 a
  | case2 x y _ ihx ihy =>
    intro z hz
    exact (List.mem_append.mp hz).elim (ihx z) (ihy z)
  | case3 =>
    intro z hz
    rw [List.mem_singleton.mp hz]
    rfl

/-- The atoms of an `imax` are based if those of its left side are. -/
theorem based_imaxAtoms (h : Based as) (b : Level) : Based (imaxAtoms as b) := by
  have hsummands := based_summandsFrom 0 b
  have hrule := imaxRule_imaxAtoms as b
  generalize imaxAtoms as b = result at hrule ⊢
  cases hrule with
  | zero =>
    intro x hx
    rw [List.mem_singleton.mp hx]
    rfl
  | positive =>
    intro x hx
    exact (List.mem_append.mp hx).elim (h x) (hsummands x)
  | small => exact hsummands
  | spread => exact based_spread _ b

/-- The atoms of every level are based. The induction is on the level. -/
theorem based_atomsFrom (k : Nat) (l : Level) : Based (l.atomsFrom k) := by
  induction l generalizing k with
  | zero | param n =>
    intro x hx
    rw [List.mem_singleton.mp hx]
    rfl
  | succ l ih => exact ih (k + 1)
  | max a b iha ihb =>
    intro x hx
    exact (List.mem_append.mp hx).elim (iha k x) (ihb k x)
  | imax a b iha ihb =>
    intro x hx
    obtain ⟨y, hy, rfl⟩ := List.mem_map.mp hx
    exact based_imaxAtoms (iha 0) _ y hy

/-- Every level has an atom, so a canonical form is never an empty maximum. -/
theorem atomsFrom_ne_nil (k : Nat) (l : Level) : l.atomsFrom k ≠ [] := by
  induction l generalizing k with
  | zero | param n => simp [atomsFrom]
  | succ l ih => exact ih (k + 1)
  | max a b iha ihb => simp [atomsFrom, iha]
  | imax a b iha ihb => simp [atomsFrom, imaxAtoms_ne_nil]

/-- A canonical form is read back from the level that is built of it, atom by atom. -/
theorem summands_maximum_canonical (h : Based as) (hne : as ≠ []) :
    (maximum (canonical as)).summands = canonical as := by
  refine summands_maximum (fun a ha => ?_) ((alike_canonical as).2.ne_nil hne)
  obtain ⟨b, hb, hbase⟩ := mem_canonical_base ha
  exact hbase ▸ h b hb

theorem summands_normalize (l : Level) : l.normalize.summands = canonical l.atoms :=
  summands_maximum_canonical (based_atomsFrom 0 l) (atomsFrom_ne_nil 0 l)

/-- The canonical form has the atoms of the level, up to likeness. -/
theorem alike_summands_normalize (l : Level) : Alike l.normalize.summands l.atoms := by
  rw [summands_normalize]
  exact alike_canonical l.atoms

/-- **Levels have one canonical form exactly if their atoms are alike.** -/
theorem normalize_eq_iff {a b : Level} : a.normalize = b.normalize ↔ Alike a.atoms b.atoms := by
  rw [← canonical_eq_iff]
  constructor
  · intro h
    rw [← summands_normalize, h, summands_normalize]
  · intro h
    rw [normalize, h, normalize]

theorem equiv_iff {a b : Level} : a.equiv b = true ↔ a.normalize = b.normalize := by
  simp only [equiv, Bool.or_eq_true, decide_eq_true_eq]
  constructor
  · rintro (rfl | h)
    · rfl
    · exact h
  · exact .inr

end Level

end TypeTheory
