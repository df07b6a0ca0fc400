import Mathlib.Data.List.Nodup
import TypeTheory.Proofs.Simulation.Basic
import TypeTheory.Scope.Telescope

/-!
# Terms over a telescope are closed

The variables that some terms depend on are closed under what their types mention
(`Scope.mem_dependencies_of_mem_fvars`), and are listed in the order of their
declaration. If every type mentions earlier variables only, then each binder of the
telescope mentions binders outside it only, and a term whose free variables are in
scope becomes a closed term without free variables once it is wrapped
(`Scope.closed_wrap`).
-/

namespace TypeTheory

/-! ## Free variables -/

namespace Term

section

variable {x : Name}

/-- Collecting free variables in front of a list adds those of the term to the list. -/
theorem mem_fvarsOnto (e : Term) (rest : List Name) :
    x ∈ e.fvarsOnto rest ↔ x ∈ e.fvarsOnto [] ∨ x ∈ rest := by
  induction e generalizing rest with
  | fvar y => simp [fvarsOnto]
  | bvar | sort | const => simp [fvarsOnto]
  | app f a ihf iha =>
    rw [fvarsOnto, fvarsOnto, ihf, iha, ihf (a.fvarsOnto []), or_assoc]
  | bind k y t b iht ihb =>
    rw [fvarsOnto, fvarsOnto, iht, ihb, iht (b.fvarsOnto []), or_assoc]
  | letE y t v b iht ihv ihb =>
    rw [fvarsOnto, fvarsOnto, iht, ihv, ihb, iht (v.fvarsOnto (b.fvarsOnto [])),
      ihv (b.fvarsOnto []), or_assoc, or_assoc]
  | pair a b iha ihb =>
    rw [fvarsOnto, fvarsOnto, iha, ihb, iha (b.fvarsOnto []), or_assoc]
  | proj k p ih => exact ih rest

theorem mem_fvars {e : Term} : x ∈ e.fvars ↔ x ∈ e.fvarsOnto [] :=
  List.mem_eraseDups

end

/-- Every free variable of the term satisfies `P`. -/
def FvarsIn (P : Name → Prop) (e : Term) : Prop :=
  ∀ x ∈ e.fvars, P x

variable {P Q : Name → Prop}

/-- The free variables of a term are looked at in the list that collects them. -/
theorem fvarsIn_iff {e : Term} : e.FvarsIn P ↔ ∀ x ∈ e.fvarsOnto [], P x :=
  forall_congr' fun _ => imp_congr_left mem_fvars

/-- The free variables of a term in front of others. -/
theorem forall_mem_fvarsOnto {e : Term} {rest : List Name} :
    (∀ x ∈ e.fvarsOnto rest, P x) ↔ e.FvarsIn P ∧ ∀ x ∈ rest, P x := by
  simp only [fvarsIn_iff, mem_fvarsOnto e rest, or_imp, forall_and]

/-- Two terms in a row have their free variables collected in one list. -/
theorem forall_mem_fvarsOnto_fvarsOnto {e e' : Term} :
    (∀ x ∈ e.fvarsOnto (e'.fvarsOnto []), P x) ↔ e.FvarsIn P ∧ e'.FvarsIn P :=
  forall_mem_fvarsOnto.trans (and_congr_right' fvarsIn_iff.symm)

@[simp] theorem fvarsIn_bvar {i : Nat} : (bvar i).FvarsIn P :=
  fvarsIn_iff.mpr (List.forall_mem_nil P)

@[simp] theorem fvarsIn_fvar {x : Name} : (fvar x).FvarsIn P ↔ P x :=
  fvarsIn_iff.trans List.forall_mem_singleton

@[simp] theorem fvarsIn_sort {l : Level} : (sort l).FvarsIn P :=
  fvarsIn_iff.mpr (List.forall_mem_nil P)

@[simp] theorem fvarsIn_const {x : Name} {ls : List Level} : (const x ls).FvarsIn P :=
  fvarsIn_iff.mpr (List.forall_mem_nil P)

/-- The free variables of an application are those of its function and of its argument. -/
@[simp] theorem fvarsIn_app {f a : Term} :
    (app f a).FvarsIn P ↔ f.FvarsIn P ∧ a.FvarsIn P :=
  fvarsIn_iff.trans forall_mem_fvarsOnto_fvarsOnto

/-- The free variables of a binder are those of its domain and of its body, as bound variables are
indices. -/
@[simp] theorem fvarsIn_bind {k : Binder} {x : Name} {t b : Term} :
    (bind k x t b).FvarsIn P ↔ t.FvarsIn P ∧ b.FvarsIn P :=
  fvarsIn_iff.trans forall_mem_fvarsOnto_fvarsOnto

/-- The free variables of a local definition are those of its type, its value and its body. -/
@[simp] theorem fvarsIn_letE {x : Name} {t v b : Term} :
    (letE x t v b).FvarsIn P ↔ t.FvarsIn P ∧ v.FvarsIn P ∧ b.FvarsIn P := by
  have hparts : (∀ y ∈ t.fvarsOnto (v.fvarsOnto (b.fvarsOnto [])), P y) ↔
      t.FvarsIn P ∧ v.FvarsIn P ∧ b.FvarsIn P := by
    rw [forall_mem_fvarsOnto, forall_mem_fvarsOnto_fvarsOnto]
  exact fvarsIn_iff.trans hparts

@[simp] theorem fvarsIn_pair {a b : Term} :
    (pair a b).FvarsIn P ↔ a.FvarsIn P ∧ b.FvarsIn P :=
  fvarsIn_iff.trans forall_mem_fvarsOnto_fvarsOnto

@[simp] theorem fvarsIn_proj {k : Side} {p : Term} : (proj k p).FvarsIn P ↔ p.FvarsIn P :=
  Iff.rfl

/-- A term without free variables has only those of which nothing is asked. -/
theorem hasFvars_eq_false_iff {e : Term} : e.hasFvars = false ↔ e.FvarsIn fun _ => False := by
  induction e <;> simp_all [hasFvars, and_assoc]

/-- Replacing leaves keeps the free variables in bounds if each replacement does. -/
theorem FvarsIn.mapLeaves {f : Nat → Term → Term}
    (hf : ∀ d leaf, leaf.isLeaf = true → leaf.FvarsIn Q → (f d leaf).FvarsIn P) (d : Nat)
    {e : Term} (he : e.FvarsIn Q) : (mapLeaves f d e).FvarsIn P := by
  induction e generalizing d with
  | bvar | fvar | sort | const => exact hf d _ rfl he
  | _ => simp_all [Term.mapLeaves]

theorem FvarsIn.abstractFvars {names : List Name} {e : Term}
    (h : e.FvarsIn fun x => x ∈ names ∨ P x) : (e.abstractFvars names).FvarsIn P := by
  refine h.mapLeaves (fun d leaf hform hleaf => ?_) 0
  cases leaf with
  | fvar x =>
    dsimp only
    cases hx : names.idxOf? x with
    | some i => exact fvarsIn_bvar
    | none =>
      have hnot : x ∉ names := List.idxOf?_eq_none_iff.mp hx
      exact fvarsIn_fvar.mpr ((fvarsIn_fvar.mp hleaf).resolve_left hnot)
  | bvar i => exact fvarsIn_bvar
  | sort l => exact fvarsIn_sort
  | const x ls => exact fvarsIn_const
  | app | bind | letE | pair | proj => cases hform

theorem FvarsIn.replaceConsts {f : Name → List Level → Option Term} {e : Term} (he : e.FvarsIn P)
    (hf : ∀ x ls t, f x ls = some t → t.FvarsIn P) : (e.replaceConsts f).FvarsIn P := by
  refine he.mapLeaves (fun d leaf _ hleaf => ?_) 0
  cases leaf with
  | const x ls =>
    dsimp only
    cases hx : f x ls with
    | some t => exact hf x ls t hx
    | none => exact hleaf
  | _ => exact hleaf

/-! ## Ranges -/

/-- A bound on the range is kept if every replaced leaf keeps it, as many binders
further in as there are around the leaf. -/
theorem looseRange_mapLeaves_le {f : Nat → Term → Term} {n m : Nat}
    (hf : ∀ d leaf, leaf.isLeaf = true → leaf.looseRange ≤ n + d →
      (f d leaf).looseRange ≤ m + d) (d : Nat) {e : Term} (he : e.looseRange ≤ n + d) :
    (mapLeaves f d e).looseRange ≤ m + d := by
  induction e generalizing d with
  | bvar | fvar | sort | const => exact hf d _ rfl he
  | bind k x t b iht ihb =>
    obtain ⟨ht, hb⟩ := looseRange_bind_le.mp he
    exact looseRange_bind_le.mpr ⟨iht d ht, ihb (d + 1) hb⟩
  | letE x t v b iht ihv ihb =>
    obtain ⟨ht, hv, hb⟩ := looseRange_letE_le.mp he
    exact looseRange_letE_le.mpr ⟨iht d ht, ihv d hv, ihb (d + 1) hb⟩
  | _ => simp_all [mapLeaves]

/-- A closed term has only the indices that its free variables become. -/
theorem looseRange_abstractFvars_le {e : Term} (he : e.looseRange ≤ 0) (names : List Name) :
    (e.abstractFvars names).looseRange ≤ names.length := by
  refine looseRange_mapLeaves_le (n := 0) (m := names.length)
    (fun d leaf hform hleaf => ?_) 0 he
  cases leaf with
  | bvar i =>
    have hi : i < 0 + d := hleaf
    change i < names.length + d
    omega
  | fvar x =>
    dsimp only
    cases hx : names.idxOf? x with
    | none => exact looseRange_fvar_le
    | some i =>
      obtain ⟨hlt, -⟩ := List.idxOf?_eq_some_iff.mp hx
      change names.length - 1 - i + d < names.length + d
      omega
  | sort l => exact looseRange_sort_le
  | const x ls => exact looseRange_const_le
  | app | bind | letE | pair | proj => cases hform

theorem looseRange_replaceConsts_le {f : Name → List Level → Option Term} {e : Term}
    (he : e.looseRange ≤ 0) (hf : ∀ x ls t, f x ls = some t → t.looseRange ≤ 0) :
    (e.replaceConsts f).looseRange ≤ 0 := by
  refine looseRange_mapLeaves_le (n := 0) (m := 0) (fun d leaf _ hleaf => ?_) 0 he
  cases leaf with
  | const x ls =>
    dsimp only
    cases hx : f x ls with
    | some t => exact Nat.le_trans (hf x ls t hx) (Nat.zero_le _)
    | none => exact hleaf
  | _ => exact hleaf

end Term

/-! ## Dependencies -/

namespace Scope

section Variables

variable {s : Scope} {x : Name} {v : SectionVar}

/-- A variable that is found is in scope, under the name that was looked for. -/
theorem findVariable?_eq_some (h : s.findVariable? x = some v) : v ∈ s.vars ∧ v.name = x :=
  ⟨List.mem_of_find?_eq_some h, by simpa using List.find?_some h⟩

theorem findVariable?_eq_none (h : s.findVariable? x = none) : ∀ v ∈ s.vars, v.name ≠ x := by
  intro v hv
  simpa using List.find?_eq_none.mp h v hv

end Variables

variable {pending : List Name} {vars : List SectionVar} {v w : SectionVar}

theorem mem_of_mem_dependencies (h : v ∈ dependencies pending vars) : v ∈ vars := by
  fun_induction dependencies pending vars with
  | case1 => cases h
  | case2 pending vars u hfind hlt ih =>
    rcases List.mem_cons.mp h with rfl | h
    · exact List.mem_of_find?_eq_some hfind
    · exact (List.mem_filter.mp (ih h)).1

/-- Leaving out the variables of one name keeps those of other names. -/
theorem mem_others {u : SectionVar} (hv : v ∈ vars) (hne : v.name ≠ u.name) : v ∈ others vars u :=
  List.mem_filter.mpr ⟨hv, by simpa using hne⟩

/-- A variable that is pending is a dependency, if names are distinct. -/
theorem mem_dependencies_of_mem (hnames : ∀ v ∈ vars, ∀ w ∈ vars, v.name = w.name → v = w)
    (hv : v ∈ vars) (hpending : v.name ∈ pending) : v ∈ dependencies pending vars := by
  fun_induction dependencies pending vars with
  | case1 pending vars hfind =>
    exact absurd (by simpa using hpending) (List.find?_eq_none.mp hfind v hv)
  | case2 pending vars u hfind hlt ih =>
    by_cases heq : v.name = u.name
    · rw [hnames v hv u (List.mem_of_find?_eq_some hfind) heq]
      exact List.mem_cons_self
    · refine List.mem_cons_of_mem _ (ih ?_ (mem_others hv heq) ?_)
      · intro v hv w hw
        exact hnames v (List.mem_filter.mp hv).1 w (List.mem_filter.mp hw).1
      · exact List.mem_append_right _ hpending

/-- **Dependencies are closed** under what their types mention. -/
theorem mem_dependencies_of_mem_fvars
    (hnames : ∀ v ∈ vars, ∀ w ∈ vars, v.name = w.name → v = w)
    (hw : w ∈ dependencies pending vars) (hv : v ∈ vars) (hmention : v.name ∈ w.type.fvars) :
    v ∈ dependencies pending vars := by
  fun_induction dependencies pending vars with
  | case1 => cases hw
  | case2 pending vars u hfind hlt ih =>
    by_cases heq : v.name = u.name
    · rw [hnames v hv u (List.mem_of_find?_eq_some hfind) heq]
      exact List.mem_cons_self
    · have hnames' : ∀ v ∈ others vars u, ∀ w ∈ others vars u, v.name = w.name → v = w :=
        fun v hv w hw => hnames v (List.mem_filter.mp hv).1 w (List.mem_filter.mp hw).1
      refine List.mem_cons_of_mem _ ?_
      rcases List.mem_cons.mp hw with rfl | hw
      · -- what the type of the variable just found mentions is pending now
        exact mem_dependencies_of_mem hnames' (mem_others hv heq)
          (List.mem_append_left _ hmention)
      · exact ih hnames' hw (mem_others hv heq)

/-- The telescope of some terms holds the variables that a search from their names finds. -/
theorem mem_telescope {s : Scope} {terms : List Term} :
    v ∈ (s.telescope terms).vars ↔ v ∈ dependencies (terms.flatMap Term.fvars) s.vars :=
  List.mem_mergeSort

/-- The variables of a telescope stand in the order of their declaration. -/
theorem pairwise_telescope (s : Scope) (terms : List Term) :
    (s.telescope terms).vars.Pairwise (·.order ≤ ·.order) := by
  refine (List.pairwise_mergeSort ?_ ?_ (dependencies (terms.flatMap Term.fvars) s.vars)).imp
    fun hle => of_decide_eq_true hle
  · intro a b c hab hbc
    simp only [decide_eq_true_eq] at hab hbc ⊢
    omega
  · intro a b
    simp only [Bool.or_eq_true, decide_eq_true_eq]
    omega

/-! ## Wrapping -/

end Scope

namespace Telescope

theorem length_bindersWithin (before : List Name) (vars : List SectionVar) :
    (bindersWithin before vars).length = vars.length := by
  induction vars generalizing before with
  | nil => rfl
  | cons v rest ih => simp [bindersWithin, ih]

theorem length_binders (t : Telescope) : t.binders.length = t.size :=
  length_bindersWithin [] t.vars

/-- The context of a telescope has an entry for each of its variables. -/
theorem length_context (t : Telescope) : t.context.length = t.size := by
  rw [context, List.length_reverse, length_binders]

/-- The binders of some variables close a term, if each type mentions variables
before it only. The names in `before` are those of the binders around. -/
theorem closed_foldr {k : Binder} {body : Term} (vars : List SectionVar) (before : List Name)
    (hclosed : ∀ v ∈ vars, v.type.looseRange ≤ 0)
    (hearlier : ∀ early v late, vars = early ++ v :: late →
      v.type.FvarsIn (· ∈ before ++ early.map (·.name)))
    (hrange : body.looseRange ≤ before.length + vars.length)
    (hbody : body.FvarsIn fun _ => False) :
    let e := (bindersWithin before vars).foldr (fun b body => .bind k b.name b.type body) body
    e.looseRange ≤ before.length ∧ e.FvarsIn fun _ => False := by
  induction vars generalizing before with
  | nil => exact ⟨hrange, hbody⟩
  | cons v rest ih =>
    have hrest := ih (before ++ [v.name]) (fun u hu => hclosed u (List.mem_cons_of_mem _ hu))
      (fun early u late hsplit => by
        have hu := hearlier (v :: early) u late (by rw [hsplit, List.cons_append])
        rwa [List.map_cons, List.append_cons] at hu)
      (by simp only [List.length_append, List.length_cons, List.length_nil] at hrange ⊢; omega)
    rw [List.length_append, List.length_singleton] at hrest
    have htype := hearlier [] v rest rfl
    rw [List.map_nil, List.append_nil] at htype
    have hv := hclosed v List.mem_cons_self
    constructor
    · exact Term.looseRange_bind_le.mpr ⟨Term.looseRange_abstractFvars_le hv before, hrest.1⟩
    · have habstract : (v.type.abstractFvars before).FvarsIn fun _ => False :=
        Term.FvarsIn.abstractFvars fun x hx => .inl (htype x hx)
      exact Term.fvarsIn_bind.mpr ⟨habstract, hrest.2⟩

end Telescope

/-- **The variables in scope form a telescope**: they have distinct names, are listed
in the order of their declaration, and the type of each is closed and mentions
variables in scope that were declared before it. -/
structure Scope.Telescoped (s : Scope) : Prop where
  distinct : (s.vars.map (·.name)).Nodup
  ordered : s.vars.Pairwise (·.order < ·.order)
  /-- The next variable will be the last. -/
  below : ∀ v ∈ s.vars, v.order < s.nextOrder
  closed : ∀ v ∈ s.vars, v.type.looseRange = 0
  earlier : ∀ v ∈ s.vars, v.type.FvarsIn fun x => ∃ w ∈ s.vars, w.name = x ∧ w.order < v.order

namespace Scope.Telescoped

variable {s : Scope}

theorem eq_of_name_eq (h : s.Telescoped) : ∀ v ∈ s.vars, ∀ w ∈ s.vars, v.name = w.name → v = w :=
  fun _ hv _ hw hname => List.inj_on_of_nodup_map h.distinct hv hw hname

/-- The variables that some terms depend on, each after those that its type
mentions. -/
theorem earlier_in_telescope (h : s.Telescoped) {terms : List Term} {early late : List SectionVar}
    {v : SectionVar} (hsplit : (s.telescope terms).vars = early ++ v :: late) :
    v.type.FvarsIn (· ∈ early.map (·.name)) := by
  have hsorted := s.pairwise_telescope terms
  have hv : v ∈ dependencies (terms.flatMap Term.fvars) s.vars := by
    rw [← mem_telescope, hsplit]
    exact List.mem_append_right _ List.mem_cons_self
  intro x hx
  obtain ⟨w, hw, rfl, hlt⟩ := h.earlier v (mem_of_mem_dependencies hv) x hx
  have hwdep := mem_dependencies_of_mem_fvars h.eq_of_name_eq hv hw hx
  rw [← mem_telescope, hsplit] at hwdep
  rw [hsplit] at hsorted
  rcases List.mem_append.mp hwdep with hearly | hlate
  · exact List.mem_map_of_mem hearly
  · -- a variable declared before `v` does not come after it
    have hle := (List.pairwise_append.mp hsorted).2.1
    rcases List.mem_cons.mp hlate with rfl | hlate
    · omega
    · have := (List.pairwise_cons.mp hle).1 w hlate
      omega

/-- The free variables of a term are in its telescope, if they are in scope. -/
theorem fvarsIn_telescope (h : s.Telescoped) {terms : List Term} {e : Term} (he : e ∈ terms)
    (hscope : e.FvarsIn fun x => ∃ v ∈ s.vars, v.name = x) :
    e.FvarsIn (· ∈ (s.telescope terms).names) := by
  intro x hx
  obtain ⟨v, hv, rfl⟩ := hscope x hx
  have hpending : v.name ∈ terms.flatMap Term.fvars := List.mem_flatMap.mpr ⟨e, he, hx⟩
  have hdep := mem_dependencies_of_mem h.eq_of_name_eq hv hpending
  exact List.mem_map_of_mem (mem_telescope.mpr hdep)

/-- **A wrapped term is closed and has no free variable**, if it was closed and its
free variables are in scope. It may be wrapped together with other terms. -/
theorem closed_wrap (h : s.Telescoped) {terms : List Term} {e : Term} (he : e ∈ terms)
    (hclosed : e.looseRange ≤ 0) (hscope : e.FvarsIn fun x => ∃ v ∈ s.vars, v.name = x)
    (k : Binder) : ((s.telescope terms).wrap k e).looseRange = 0 ∧
      ((s.telescope terms).wrap k e).hasFvars = false := by
  have hvars : ∀ v ∈ (s.telescope terms).vars, v ∈ s.vars := fun v hv =>
    mem_of_mem_dependencies (List.mem_mergeSort.mp hv)
  have hnames : e.FvarsIn fun x => x ∈ (s.telescope terms).names ∨ False :=
    fun x hx => .inl (h.fvarsIn_telescope he hscope x hx)
  have hrange : ((s.telescope terms).close e).looseRange ≤ (s.telescope terms).vars.length := by
    have hle := Term.looseRange_abstractFvars_le hclosed (s.telescope terms).names
    rwa [Telescope.names, List.length_map] at hle
  obtain ⟨hzero, hfree⟩ := Telescope.closed_foldr (k := k) (s.telescope terms).vars []
    (fun v hv => Nat.le_of_eq (h.closed v (hvars v hv)))
    (fun early v late hsplit => h.earlier_in_telescope hsplit)
    (by rw [List.length_nil, Nat.zero_add]; exact hrange) hnames.abstractFvars
  exact ⟨Nat.le_zero.mp hzero, Term.hasFvars_eq_false_iff.mpr hfree⟩

end Scope.Telescoped

end TypeTheory
