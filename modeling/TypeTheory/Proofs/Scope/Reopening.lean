import TypeTheory.Proofs.Scope.Dependencies

/-!
# Closing and reopening

A term is closed over a telescope in one pass, which turns every variable into its index
at once. It is opened again one variable after the other, and every one moves the indices
of the others. The steps come to a filling of all indices at once
(`Telescope.reopen_eq_fill`), so that both directions replace the leaves of a term and can
be compared leaf by leaf, under any number of binders.

So a closed term that is closed over a telescope and reopened is the same term
(`Telescope.reopen_close`), and a term over a telescope that is reopened and closed is so
if none of the variables occurs in it (`Telescope.close_reopen`).
-/

namespace TypeTheory

namespace Term

variable {e : Term} {x : Name}

theorem mapLeaves_self (e : Term) (d : Nat) : mapLeaves (fun _ leaf => leaf) d e = e := by
  induction e generalizing d <;> simp_all [mapLeaves]

/-- Replacing the leaves undoes a filling if it does so at every leaf. -/
theorem mapLeaves_fill {f : Nat → Term → Term} {σ : Nat → Term} {P : Name → Prop} {n : Nat}
    (hleaf : ∀ d leaf, leaf.isLeaf = true → leaf.looseRange ≤ n + d → leaf.FvarsIn P →
      mapLeaves f d (leaf.fill (liftTimes σ d)) = leaf) (d : Nat) (he : e.looseRange ≤ n + d)
    (hP : e.FvarsIn P) : mapLeaves f d (e.fill (liftTimes σ d)) = e := by
  induction e generalizing d with
  | bvar | fvar | sort | const => exact hleaf d _ rfl he hP
  | app f a ihf iha =>
    obtain ⟨hf, ha⟩ := looseRange_app_le.mp he
    obtain ⟨hfP, haP⟩ := fvarsIn_app.mp hP
    simp only [mapLeaves, fill, ihf d hf hfP, iha d ha haP]
  | bind k x t b iht ihb =>
    obtain ⟨ht, hb⟩ := looseRange_bind_le.mp he
    obtain ⟨htP, hbP⟩ := fvarsIn_bind.mp hP
    have hbody := ihb (d + 1) hb hbP
    simp only [liftTimes] at hbody
    simp only [mapLeaves, fill, iht d ht htP, hbody]
  | letE x t v b iht ihv ihb =>
    obtain ⟨ht, hv, hb⟩ := looseRange_letE_le.mp he
    obtain ⟨htP, hvP, hbP⟩ := fvarsIn_letE.mp hP
    have hbody := ihb (d + 1) hb hbP
    simp only [liftTimes] at hbody
    simp only [mapLeaves, fill, iht d ht htP, ihv d hv hvP, hbody]
  | pair a b iha ihb =>
    obtain ⟨ha, hb⟩ := looseRange_pair_le.mp he
    obtain ⟨haP, hbP⟩ := fvarsIn_pair.mp hP
    simp only [mapLeaves, fill, iha d ha haP, ihb d hb hbP]
  | proj k p ih =>
    simp only [mapLeaves, fill, ih d (looseRange_proj_le.mp he) (fvarsIn_proj.mp hP)]

/-! ## Names for indices -/

/-- Names for the first indices, innermost first; the indices beyond move down. -/
def named : List Name → Nat → Term
  | [] => bvar
  | x :: outer => extend (fvar x) (named outer)

theorem named_of_getElem? {names : List Name} {i : Nat} (h : names[i]? = some x) :
    named names i = fvar x := by
  induction names generalizing i with
  | nil => cases h
  | cons y outer ih =>
    cases i with
    | zero =>
      cases h
      rfl
    | succ i => exact ih h

/-- Instantiating one index after the other is filling them all at once. -/
theorem foldr_instantiate_eq_fill (names : List Name) (e : Term) :
    names.foldr (fun x body => body.instantiate (.fvar x)) e = e.fill (named names.reverse) := by
  rw [← List.foldl_reverse]
  induction names.reverse generalizing e with
  | nil => exact (fill_bvar_self e).symm
  | cons x outer ih =>
    rw [List.foldl_cons, ih, fill_instantiate_eq_extend]
    rfl

/-- The place of a name among others, counted from the innermost one. -/
theorem getElem?_reverse_of_idxOf? {names : List Name} {i : Nat} (h : names.idxOf? x = some i) :
    names.reverse[names.length - 1 - i]? = some x := by
  obtain ⟨hlt, heq, -⟩ := List.idxOf?_eq_some_iff.mp h
  rw [List.getElem?_reverse (by omega), List.getElem?_eq_some_iff]
  have hback : names.length - 1 - (names.length - 1 - i) = i := by omega
  simp only [hback]
  exact ⟨hlt, heq⟩

/-- **Abstracting names and putting them back**, under any number of binders. -/
theorem fill_abstractFvars (names : List Name) (he : e.looseRange ≤ 0) :
    (e.abstractFvars names).fill (named names.reverse) = e := by
  refine Eq.trans (fill_mapLeaves (g := fun _ leaf => leaf) (P := fun _ => True)
    (fun d leaf hform hrange _ => ?_) 0 he fun _ _ => trivial) (mapLeaves_self e 0)
  cases leaf with
  | fvar x =>
    cases hx : names.idxOf? x with
    | none => simp only [hx, fill]
    | some i =>
      have hname := named_of_getElem? (getElem?_reverse_of_idxOf? hx)
      simp only [hx, fill, liftTimes_add, hname, rename]
  | bvar i => exact liftTimes_of_lt _ (looseRange_bvar_le.mp hrange)
  | sort | const => rfl
  | app | bind | letE | pair | proj => cases hform

/-- **Putting names for indices and abstracting them**, if none of them was there. -/
theorem abstractFvars_fill {names : List Name} (hdistinct : names.Nodup)
    (he : e.looseRange ≤ names.length) (hnew : e.FvarsIn (· ∉ names)) :
    (e.fill (named names.reverse)).abstractFvars names = e := by
  refine mapLeaves_fill (P := (· ∉ names)) (fun d leaf hform hrange hleaf => ?_) 0 he hnew
  cases leaf with
  | fvar x =>
    have hx : names.idxOf? x = none := List.idxOf?_eq_none_iff.mpr (fvarsIn_fvar.mp hleaf)
    simp only [fill, mapLeaves, hx]
  | bvar i =>
    have hi : i < names.length + d := looseRange_bvar_le.mp hrange
    by_cases hbound : i < d
    · simp only [fill, liftTimes_of_lt _ hbound, mapLeaves]
    · obtain ⟨k, rfl⟩ : ∃ k, i = k + d := ⟨i - d, by omega⟩
      obtain ⟨x, hx⟩ : ∃ x, names.reverse[k]? = some x :=
        ⟨_, List.getElem?_eq_getElem (by rw [List.length_reverse]; omega)⟩
      obtain ⟨-, hidx⟩ := idxOf?_of_getElem?_reverse hdistinct hx
      have hback : names.length - 1 - (names.length - 1 - k) = k := by omega
      simp only [fill, liftTimes_add, named_of_getElem? hx, rename, mapLeaves, hidx, hback]
  | sort | const => rfl
  | app | bind | letE | pair | proj => cases hform

theorem mentions_mapLeaves {f : Nat → Term → Term} {p : Prop}
    (hf : ∀ d leaf, leaf.isLeaf = true → ((f d leaf).Mentions x ↔ leaf.Mentions x ∧ p))
    (d : Nat) (e : Term) : (mapLeaves f d e).Mentions x ↔ e.Mentions x ∧ p := by
  induction e generalizing d with
  | bvar | fvar | sort | const => exact hf d _ rfl
  | app | bind | letE | pair | proj => simp_all [mapLeaves, Mentions, or_and_right]

/-- The names that are left are those that were not abstracted. -/
theorem mentions_abstractFvars (names : List Name) :
    (e.abstractFvars names).Mentions x ↔ e.Mentions x ∧ x ∉ names := by
  refine mentions_mapLeaves (fun d leaf hform => ?_) 0 e
  cases leaf with
  | fvar y =>
    dsimp only
    cases hy : names.idxOf? y with
    | none =>
      have hnot : y ∉ names := List.idxOf?_eq_none_iff.mp hy
      exact ⟨fun h => ⟨h, (show y = x from h) ▸ hnot⟩, And.left⟩
    | some i =>
      obtain ⟨hlt, heq, -⟩ := List.idxOf?_eq_some_iff.mp hy
      refine ⟨False.elim, fun h => h.2 ?_⟩
      rw [← show y = x from h.1, ← heq]
      exact List.getElem_mem hlt
  | bvar | sort | const => simp [Mentions]
  | app | bind | letE | pair | proj => cases hform

end Term

/-! ## Telescopes -/

namespace Telescope

theorem length_names (t : Telescope) : t.names.length = t.size :=
  List.length_map _

theorem reopen_eq_fill (t : Telescope) (e : Term) :
    t.reopen e = e.fill (Term.named t.names.reverse) :=
  Term.foldr_instantiate_eq_fill t.names e

theorem reopen_close (t : Telescope) {e : Term} (he : e.looseRange = 0) :
    t.reopen (t.close e) = e := by
  rw [reopen_eq_fill]
  exact Term.fill_abstractFvars t.names (Nat.le_of_eq he)

theorem close_reopen {t : Telescope} (hnames : t.names.Nodup) {e : Term}
    (he : e.looseRange ≤ t.size) (hnew : ∀ x ∈ t.names, ¬ e.Mentions x) :
    t.close (t.reopen e) = e := by
  rw [reopen_eq_fill]
  refine Term.abstractFvars_fill hnames (t.length_names ▸ he) fun x hx hmem => ?_
  exact hnew x hmem (Term.mem_fvars_iff_mentions.mp hx)

/-- The binder of a variable, inside those of the variables before it. -/
theorem getElem?_bindersWithin (before : List Name) (vars : List SectionVar) (i : Nat) :
    (bindersWithin before vars)[i]? = vars[i]?.map fun v =>
      { name := v.name
        type := v.type.abstractFvars (before ++ (vars.take i).map (·.name)) } := by
  induction vars generalizing before i with
  | nil => rfl
  | cons v rest ih =>
    cases i with
    | zero => simp [bindersWithin]
    | succ i => simp [bindersWithin, ih]

/-- **The index of a variable in the context**: the last variable is the innermost. -/
theorem getElem?_context {t : Telescope} {i : Nat} {v : SectionVar} (h : t.vars[i]? = some v) :
    t.context[t.size - 1 - i]? =
      some { name := v.name, type := (Telescope.mk (t.vars.take i)).close v.type } := by
  obtain ⟨hi, -⟩ := List.getElem?_eq_some_iff.mp h
  have hsize : t.vars.length = t.size := rfl
  have hback : t.size - 1 - (t.size - 1 - i) = i := by omega
  rw [context, List.getElem?_reverse (by rw [length_binders]; omega), length_binders, hback,
    binders, getElem?_bindersWithin, h]
  rfl

/-- The index that a variable becomes. -/
theorem close_fvar {t : Telescope} (hnames : t.names.Nodup) {i : Nat} {v : SectionVar}
    (h : t.vars[i]? = some v) : t.close (.fvar v.name) = .bvar (t.size - 1 - i) := by
  have hname : t.names[i]? = some v.name := by rw [names, List.getElem?_map, h]; rfl
  have hidx := idxOf?_of_getElem? hnames hname
  simp only [close, Term.abstractFvars, Term.mapLeaves, hidx, length_names, Nat.add_zero]

/-- **Closing and reopening are inverse**, and the context of a telescope says what the
indices stand for: the index of each variable is bound there by that variable, and the
type it has there mentions the variables before it as indices and all others by name. -/
theorem inverse_close_reopen (t : Telescope) (hnames : t.names.Nodup) :
    (∀ e, e.looseRange = 0 → t.reopen (t.close e) = e) ∧
      (∀ e, e.looseRange ≤ t.size → (∀ x ∈ t.names, ¬ e.Mentions x) →
        t.close (t.reopen e) = e) ∧
      t.context.length = t.size ∧
      ∀ i v, t.vars[i]? = some v →
        t.close (.fvar v.name) = .bvar (t.size - 1 - i) ∧
        t.context[t.size - 1 - i]? =
          some { name := v.name, type := (Telescope.mk (t.vars.take i)).close v.type } ∧
        ∀ x, ((Telescope.mk (t.vars.take i)).close v.type).Mentions x ↔
          v.type.Mentions x ∧ x ∉ (t.vars.take i).map (·.name) := by
  refine ⟨fun e => t.reopen_close, fun e => close_reopen hnames, t.length_context, ?_⟩
  intro i v hv
  exact ⟨close_fvar hnames hv, getElem?_context hv, fun x => Term.mentions_abstractFvars _⟩

/-- Two variables, the second of the type that the first one is, and a function whose body
mentions the second one. -/
theorem inverse_close_reopen_function :
    let A : SectionVar := ⟨.atom "A", .sort .zero, 0⟩
    let x : SectionVar := ⟨.atom "x", .fvar (.atom "A"), 1⟩
    let t : Telescope := ⟨[A, x]⟩
    let e : Term := .lam (.atom "y") (.fvar (.atom "A")) (.app (.fvar (.atom "x")) (.bvar 0))
    let e' : Term := .lam (.atom "y") (.bvar 1) (.app (.bvar 1) (.bvar 0))
    t.names.Nodup ∧ t.close e = e' ∧ t.reopen e' = e ∧ t.close (t.reopen e') = e' ∧
      t.close (.fvar (.atom "A")) = .bvar 1 ∧
      t.context[1]? = some ⟨.atom "A", .sort .zero, none⟩ ∧
      t.context[0]? = some ⟨.atom "x", .bvar 0, none⟩ := by
  intro A x t e e'
  have hnames : t.names.Nodup := by decide
  have hclose : t.close e = e' := by decide
  obtain ⟨hopened, hclosed, -, hcontext⟩ := inverse_close_reopen t hnames
  obtain ⟨hA, hentry, -⟩ := hcontext 0 A rfl
  have hback := hopened e rfl
  rw [hclose] at hback
  refine ⟨hnames, hclose, hback, hclosed e' (by decide) ?_, hA, hentry, (hcontext 1 x rfl).2.1⟩
  simp [t, A, x, names, e', Term.Mentions]

end Telescope

end TypeTheory
