import Mathlib.Logic.Relation
import TypeTheory.Proofs.Scope.Thinning

/-!
# The variables that terms depend on

`Term.Mentions` says where a free variable occurs in a term, and `Scope.Needs` which
variables in scope some terms depend on: those that a term mentions, and those that the
type of such a variable mentions. Types may mention each other in a circle and may
mention names that are not in scope.

The telescope of the terms holds these variables and no others
(`Scope.mem_telescope_iff_needs`). Which of the names that are still pending is looked at
next makes no difference: every search that sees each name once comes to an end
(`Scope.wellFounded_pops`), and has then found the variables of the telescope
(`Scope.perm_telescope_of_pops`).
-/

namespace TypeTheory

open Relation

/-! ## Mentions -/

namespace Term

/-- The free variable `x` occurs in the term. -/
def Mentions (x : Name) : Term → Prop
  | .fvar y => y = x
  | .bvar _ | .sort _ | .const .. => False
  | .app f a => f.Mentions x ∨ a.Mentions x
  | .bind _ _ t b => t.Mentions x ∨ b.Mentions x
  | .letE _ t v b => t.Mentions x ∨ v.Mentions x ∨ b.Mentions x
  | .pair a b => a.Mentions x ∨ b.Mentions x
  | .proj _ p => p.Mentions x

theorem mem_fvarsOnto_iff_mentions {x : Name} (e : Term) (rest : List Name) :
    x ∈ e.fvarsOnto rest ↔ e.Mentions x ∨ x ∈ rest := by
  induction e generalizing rest with
  | fvar y => simp [fvarsOnto, Mentions, eq_comm]
  | bvar | sort | const => simp [fvarsOnto, Mentions]
  | app f a ihf iha | pair f a ihf iha => rw [fvarsOnto, ihf, iha, Mentions, or_assoc]
  | bind k y t b iht ihb => rw [fvarsOnto, iht, ihb, Mentions, or_assoc]
  | letE y t v b iht ihv ihb => rw [fvarsOnto, iht, ihv, ihb, Mentions, or_assoc, or_assoc]
  | proj k p ih => exact ih rest

/-- **The free variables of a term are the ones that it mentions.** -/
theorem mem_fvars_iff_mentions {x : Name} {e : Term} : x ∈ e.fvars ↔ e.Mentions x := by
  rw [mem_fvars, mem_fvarsOnto_iff_mentions, or_iff_left (List.not_mem_nil)]

end Term

namespace Scope

variable {s : Scope} {terms : List Term} {pending : List Name} {vars : List SectionVar}
  {v : SectionVar} {x : Name}

/-- **The variables in scope that some terms depend on.** -/
inductive Needs (s : Scope) (terms : List Term) : SectionVar → Prop
  | mentioned {e : Term} {v : SectionVar} : e ∈ terms → v ∈ s.vars → e.Mentions v.name →
      Needs s terms v
  | through {w v : SectionVar} : Needs s terms w → v ∈ s.vars → w.type.Mentions v.name →
      Needs s terms v

theorem Needs.mem_vars (h : s.Needs terms v) : v ∈ s.vars := by
  cases h with
  | mentioned _ hv _ => exact hv
  | through _ hv _ => exact hv

/-! ## Dependencies -/

/-- The terms depend on the variable of this name, if there is one. -/
def Wants (s : Scope) (terms : List Term) (x : Name) : Prop :=
  ∀ v ∈ s.vars, v.name = x → s.Needs terms v

theorem wants_of_mem_flatMap (h : x ∈ terms.flatMap Term.fvars) : s.Wants terms x := by
  obtain ⟨e, he, hx⟩ := List.mem_flatMap.mp h
  rintro v hv rfl
  exact .mentioned he hv (Term.mem_fvars_iff_mentions.mp hx)

theorem Needs.wants_of_mem_fvars (h : s.Needs terms v) (hx : x ∈ v.type.fvars) :
    s.Wants terms x := by
  rintro w hw rfl
  exact .through h hw (Term.mem_fvars_iff_mentions.mp hx)

/-- What is found for names that are wanted is needed. -/
theorem needs_of_mem_dependencies (hvars : ∀ v ∈ vars, v ∈ s.vars)
    (hpending : ∀ x ∈ pending, s.Wants terms x) (hv : v ∈ dependencies pending vars) :
    s.Needs terms v := by
  fun_induction dependencies pending vars with
  | case1 => cases hv
  | case2 pending vars u hfind hlt ih =>
    have hu : u ∈ vars := List.mem_of_find?_eq_some hfind
    have hname : u.name ∈ pending := by simpa using List.find?_some hfind
    have hneeds : s.Needs terms u := hpending _ hname u (hvars u hu) rfl
    rcases List.mem_cons.mp hv with rfl | hv
    · exact hneeds
    · refine ih (fun w hw => hvars w (List.mem_filter.mp hw).1) (fun x hx => ?_) hv
      rcases List.mem_append.mp hx with hx | hx
      · exact hneeds.wants_of_mem_fvars hx
      · exact hpending x hx

/-- **The telescope of some terms holds what they depend on, and nothing else.** -/
theorem mem_telescope_iff_needs (hnames : (s.vars.map (·.name)).Nodup) :
    v ∈ (s.telescope terms).vars ↔ s.Needs terms v := by
  have hinj : ∀ v ∈ s.vars, ∀ w ∈ s.vars, v.name = w.name → v = w := fun _ hv _ hw =>
    List.inj_on_of_nodup_map hnames hv hw
  rw [mem_telescope]
  constructor
  · exact needs_of_mem_dependencies (fun _ => id) fun _ => wants_of_mem_flatMap
  · intro h
    induction h with
    | mentioned he hv hmention =>
      exact mem_dependencies_of_mem hinj hv
        (List.mem_flatMap.mpr ⟨_, he, Term.mem_fvars_iff_mentions.mpr hmention⟩)
    | through _ hv hmention ih =>
      exact mem_dependencies_of_mem_fvars hinj ih hv (Term.mem_fvars_iff_mentions.mpr hmention)

/-- The search ends where no pending name is a variable that is left. -/
theorem dependencies_of_find?_eq_none
    (h : vars.find? (fun v => pending.contains v.name) = none) :
    dependencies pending vars = [] := by
  rw [dependencies.eq_def]
  split
  · rfl
  · rename_i u hu
    rw [h] at hu
    cases hu

/-- The first variable that is pending is found next, and the names in its type are pending with the
others. -/
theorem dependencies_of_find?_eq_some
    (h : vars.find? (fun v => pending.contains v.name) = some v) :
    dependencies pending vars = v :: dependencies (v.type.fvars ++ pending) (others vars v) := by
  rw [dependencies.eq_def]
  split
  · rename_i hnone
    rw [h] at hnone
    cases hnone
  · rename_i u hu
    rw [h] at hu
    cases hu
    rfl

/-- Only which names are pending counts, not their order or how often they are listed. -/
theorem dependencies_congr {pending' : List Name} (h : ∀ x, x ∈ pending ↔ x ∈ pending')
    (vars : List SectionVar) : dependencies pending vars = dependencies pending' vars := by
  have hfound {pending pending' : List Name} (h : ∀ x, x ∈ pending ↔ x ∈ pending')
      (vars : List SectionVar) : vars.find? (fun v => pending'.contains v.name) =
        vars.find? (fun v => pending.contains v.name) := by
    simp only [List.contains_eq_mem, h]
  fun_induction dependencies pending vars generalizing pending' with
  | case1 pending vars hfind =>
    exact (dependencies_of_find?_eq_none ((hfound h vars).trans hfind)).symm
  | case2 pending vars u hfind hlt ih =>
    have hrest (x : Name) : x ∈ u.type.fvars ++ pending ↔ x ∈ u.type.fvars ++ pending' := by
      simp only [List.mem_append, h]
    rw [dependencies_of_find?_eq_some ((hfound h vars).trans hfind), ih hrest]

/-- The telescope depends on which terms are given, and not on their order. -/
theorem telescope_congr {terms' : List Term} (h : ∀ e, e ∈ terms ↔ e ∈ terms') :
    s.telescope terms = s.telescope terms' := by
  have hpending (x : Name) : x ∈ terms.flatMap Term.fvars ↔ x ∈ terms'.flatMap Term.fvars := by
    simp only [List.mem_flatMap, h]
  simp only [telescope, dependencies_congr hpending]

theorem nodup_names_telescope (hnames : (s.vars.map (·.name)).Nodup) (terms : List Term) :
    (s.telescope terms).names.Nodup :=
  (nodup_telescope s terms).map_on fun _ hv _ hw hname =>
    List.inj_on_of_nodup_map hnames (mem_vars_of_mem_telescope hv) (mem_vars_of_mem_telescope hw)
      hname

/-! ## Searching -/

/-- A search for variables: the names still to be looked at, those looked at, and the
variables found. -/
structure Search where
  pending : List Name
  seen : List Name := []
  found : List SectionVar := []

/-- A search takes any one of the pending names. -/
inductive Pops (s : Scope) : Search → Search → Prop
  | again {before after seen : List Name} {found : List SectionVar} {x : Name} : x ∈ seen →
      Pops s ⟨before ++ x :: after, seen, found⟩ ⟨before ++ after, seen, found⟩
  | unknown {before after seen : List Name} {found : List SectionVar} {x : Name} : x ∉ seen →
      s.findVariable? x = none →
      Pops s ⟨before ++ x :: after, seen, found⟩ ⟨before ++ after, x :: seen, found⟩
  | found {before after seen : List Name} {found : List SectionVar} {x : Name} {v : SectionVar} :
      x ∉ seen → s.findVariable? x = some v →
      Pops s ⟨before ++ x :: after, seen, found⟩
        ⟨before ++ after ++ v.type.fvars, x :: seen, found ++ [v]⟩

/-- The variables in scope whose names were not looked at. -/
def unseen (s : Scope) (seen : List Name) : List SectionVar :=
  s.vars.filter (·.name ∉ seen)

theorem unseen_cons_name (s : Scope) (seen : List Name) (v : SectionVar) :
    s.unseen (v.name :: seen) = others (s.unseen seen) v := by
  simp only [unseen, others, List.filter_filter]
  refine List.filter_congr fun w _ => ?_
  simp

theorem unseen_cons_of_unknown (h : s.findVariable? x = none) (seen : List Name) :
    s.unseen (x :: seen) = s.unseen seen :=
  List.filter_congr fun v hv => by simp [findVariable?_eq_none h v hv]

/-- **Every search comes to an end.** A step finds a variable that was not looked at
before, or leaves fewer names to look at. -/
theorem wellFounded_pops (s : Scope) : WellFounded fun q' q => s.Pops q q' := by
  refine Subrelation.wf (r := InvImage (Prod.Lex (· < ·) (· < ·)) fun q : Search =>
    ((s.unseen q.seen).length, q.pending.length)) (fun {q' q} h => ?_)
    (InvImage.wf _ (Prod.lex ⟨_, Nat.lt_wfRel.wf⟩ ⟨_, Nat.lt_wfRel.wf⟩).wf)
  cases h with
  | again hx =>
    refine Prod.Lex.right _ ?_
    simp
  | unknown hx hnone =>
    simp only [InvImage, unseen_cons_of_unknown hnone]
    refine Prod.Lex.right _ ?_
    simp
  | found hx hsome =>
    obtain ⟨hv, rfl⟩ := findVariable?_eq_some hsome
    simp only [InvImage, unseen_cons_name]
    refine Prod.Lex.left _ _ (length_others_lt ?_)
    exact List.mem_filter.mpr ⟨hv, decide_eq_true hx⟩

/-- The name was looked at or will be. -/
def Search.Covers (q : Search) (x : Name) : Prop :=
  x ∈ q.seen ∨ x ∈ q.pending

/-- No name is lost. -/
theorem Search.Covers.pops {q q' : Search} (h : q.Covers x) (hstep : s.Pops q q') :
    q'.Covers x := by
  unfold Covers at h ⊢
  cases hstep with
  | again hy =>
    simp only [List.mem_append, List.mem_cons] at h ⊢
    rcases h with h | h | rfl | h
    · exact .inl h
    · exact .inr (.inl h)
    · exact .inl hy
    · exact .inr (.inr h)
  | unknown | found =>
    simp only [List.mem_append, List.mem_cons] at h ⊢
    tauto

/-- What holds of a search for the variables that some terms depend on. -/
structure Search.Sound (s : Scope) (terms : List Term) (q : Search) : Prop where
  wanted : ∀ x ∈ q.pending, s.Wants terms x
  needed : ∀ v ∈ q.found, s.Needs terms v
  once : q.found.Nodup
  found_iff : ∀ v ∈ s.vars, v ∈ q.found ↔ v.name ∈ q.seen
  covers : ∀ e ∈ terms, ∀ x ∈ e.fvars, q.Covers x
  closed : ∀ v ∈ q.found, ∀ x ∈ v.type.fvars, q.Covers x

theorem Search.sound_start (s : Scope) (terms : List Term) :
    Search.Sound s terms { pending := terms.flatMap Term.fvars } where
  wanted _ := wants_of_mem_flatMap
  needed v hv := by cases hv
  once := List.nodup_nil
  found_iff v _ := by simp
  covers e he x hx := .inr (List.mem_flatMap.mpr ⟨e, he, hx⟩)
  closed v hv := by cases hv

/-- **A step keeps the search sound.** -/
theorem Search.Sound.pops (hnames : (s.vars.map (·.name)).Nodup) {q q' : Search}
    (h : q.Sound s terms) (hstep : s.Pops q q') : q'.Sound s terms := by
  have hcovers : ∀ e ∈ terms, ∀ x ∈ e.fvars, q'.Covers x := fun e he x hx =>
    (h.covers e he x hx).pops hstep
  have hclosed : ∀ v ∈ q.found, ∀ x ∈ v.type.fvars, q'.Covers x := fun v hv x hx =>
    (h.closed v hv x hx).pops hstep
  have hkept {before after : List Name} {x : Name}
      (hwanted : ∀ y ∈ before ++ x :: after, s.Wants terms y) :
      ∀ y ∈ before ++ after, s.Wants terms y := fun y hy =>
    hwanted y (((List.sublist_cons_self x after).append_left before).subset hy)
  cases hstep with
  | @again before after seen found x hx =>
    exact ⟨hkept h.wanted, h.needed, h.once, h.found_iff, hcovers, hclosed⟩
  | @unknown before after seen found x hx hnone =>
    refine ⟨hkept h.wanted, h.needed, h.once, fun v hv => ?_, hcovers, hclosed⟩
    rw [h.found_iff v hv, List.mem_cons, or_iff_right (findVariable?_eq_none hnone v hv)]
  | @found before after seen found x v hx hsome =>
    obtain ⟨hv, rfl⟩ := findVariable?_eq_some hsome
    have hneeds : s.Needs terms v := h.wanted v.name (by simp) v hv rfl
    have hnew : v ∉ found := fun hmem => hx ((h.found_iff v hv).mp hmem)
    refine ⟨?_, ?_, ?_, fun w hw => ?_, hcovers, ?_⟩
    · exact List.forall_mem_append.mpr ⟨hkept h.wanted, fun y hy => hneeds.wants_of_mem_fvars hy⟩
    · exact List.forall_mem_append.mpr ⟨h.needed, List.forall_mem_singleton.mpr hneeds⟩
    · exact List.nodup_append.mpr ⟨h.once, List.nodup_singleton v, by
        rintro w hw _ hv' rfl
        rw [List.mem_singleton.mp hv'] at hw
        exact hnew hw⟩
    · have hname : w.name = v.name ↔ w = v :=
        ⟨List.inj_on_of_nodup_map hnames hw hv, congrArg _⟩
      rw [List.mem_append, List.mem_singleton, h.found_iff w hw, List.mem_cons, hname, or_comm]
    · refine List.forall_mem_append.mpr ⟨hclosed, List.forall_mem_singleton.mpr fun x hx => ?_⟩
      exact .inr (List.mem_append_right _ hx)

/-- So do all steps of a search. -/
theorem Search.sound_of_pops (hnames : (s.vars.map (·.name)).Nodup) {q : Search}
    (h : ReflTransGen s.Pops { pending := terms.flatMap Term.fvars } q) : q.Sound s terms := by
  induction h with
  | refl => exact Search.sound_start s terms
  | tail _ hstep ih => exact ih.pops hnames hstep

/-- A search goes on as long as names are pending. -/
theorem exists_pops (s : Scope) {q : Search} (h : q.pending ≠ []) : ∃ q', s.Pops q q' := by
  obtain ⟨pending, seen, found⟩ := q
  obtain ⟨x, rest, rfl⟩ := List.exists_cons_of_ne_nil h
  by_cases hx : x ∈ seen
  · exact ⟨_, @Pops.again s [] rest seen found x hx⟩
  · cases hvar : s.findVariable? x with
    | none => exact ⟨_, @Pops.unknown s [] rest seen found x hx hvar⟩
    | some v => exact ⟨_, @Pops.found s [] rest seen found x v hx hvar⟩

/-- **Whatever names are looked at first, the variables found are those of the
telescope.** -/
theorem perm_telescope_of_pops (hnames : (s.vars.map (·.name)).Nodup) {q : Search}
    (h : ReflTransGen s.Pops { pending := terms.flatMap Term.fvars } q)
    (hend : ∀ q', ¬ s.Pops q q') : q.found.Perm (s.telescope terms).vars := by
  have hsound := Search.sound_of_pops hnames h
  have hpending : q.pending = [] := by
    by_contra hne
    obtain ⟨q', hq'⟩ := exists_pops s hne
    exact hend q' hq'
  have hseen {x : Name} (hx : q.Covers x) : x ∈ q.seen := by
    rw [Search.Covers, hpending] at hx
    exact hx.resolve_right List.not_mem_nil
  refine (List.perm_ext_iff_of_nodup hsound.once (nodup_telescope s terms)).mpr fun v => ?_
  rw [mem_telescope_iff_needs hnames]
  refine ⟨hsound.needed v, fun hv => ?_⟩
  induction hv with
  | mentioned he hv hmention =>
    have hx := hsound.covers _ he _ (Term.mem_fvars_iff_mentions.mpr hmention)
    exact (hsound.found_iff _ hv).mpr (hseen hx)
  | through _ hv hmention ih =>
    have hx := hsound.closed _ ih _ (Term.mem_fvars_iff_mentions.mpr hmention)
    exact (hsound.found_iff _ hv).mpr (hseen hx)

/-! ## The telescope -/

/-- **The telescope of some terms is what they depend on.** It holds the variables in scope
that they mention, directly or through the types of others, each once and in the order of
declaration. The order of the terms does not matter, nor how often one is listed, nor the
order in which a search looks at names: every search ends, and with these variables. -/
theorem telescope_exact (s : Scope) (hnames : (s.vars.map (·.name)).Nodup) (terms : List Term) :
    (∀ v, v ∈ (s.telescope terms).vars ↔ s.Needs terms v) ∧
      (s.telescope terms).names.Nodup ∧
      (s.telescope terms).vars.Pairwise (·.order ≤ ·.order) ∧
      ((s.vars.map (·.order)).Nodup → (s.telescope terms).vars.Pairwise (·.order < ·.order)) ∧
      (∀ terms', (∀ e, e ∈ terms' ↔ e ∈ terms) → s.telescope terms' = s.telescope terms) ∧
      (WellFounded fun q' q => s.Pops q q') ∧
      ∀ q, ReflTransGen s.Pops { pending := terms.flatMap Term.fvars } q →
        (∀ q', ¬ s.Pops q q') → q.found.Perm (s.telescope terms).vars := by
  refine ⟨fun v => mem_telescope_iff_needs hnames, nodup_names_telescope hnames terms,
    s.pairwise_telescope terms, fun horders => pairwise_order_lt_telescope horders terms,
    fun terms' h => telescope_congr h, s.wellFounded_pops, ?_⟩
  intro q hq hend
  exact perm_telescope_of_pops hnames hq hend

/-- Two variables whose types mention each other, one of them also a name that is not in
scope. A term that mentions one of them depends on both, and on no other variable. -/
theorem telescope_exact_circle :
    let x : SectionVar := ⟨.atom "x", .app (.fvar (.atom "y")) (.fvar (.atom "gone")), 0⟩
    let y : SectionVar := ⟨.atom "y", .fvar (.atom "x"), 1⟩
    let z : SectionVar := ⟨.atom "z", .fvar (.atom "x"), 2⟩
    let s : Scope := { root := { vars := [x, y, z] }, nextOrder := 3 }
    let e : Term := .lam (.atom "z") (.sort .zero) (.fvar (.atom "y"))
    (s.vars.map (·.name)).Nodup ∧ x ∈ (s.telescope [e]).vars ∧ z ∉ (s.telescope [e]).vars ∧
      s.telescope [e, .sort .zero, e] = s.telescope [.sort .zero, e] := by
  intro x y z s e
  have hnames : (s.vars.map (·.name)).Nodup := by decide
  have hy : s.Needs [e] y := .mentioned (e := e) (by simp) (by decide) (.inr rfl)
  have hx : s.Needs [e] x := .through hy (by decide) rfl
  have hz : ¬ s.Needs [e] z := by
    intro hz
    cases hz with
    | mentioned he _ hmention =>
      cases List.mem_singleton.mp he
      simp [e, z, Term.Mentions, Name.atom] at hmention
    | through hw _ hmention =>
      have hw : _ ∈ [x, y, z] := hw.mem_vars
      simp only [List.mem_cons, List.not_mem_nil, or_false] at hw
      rcases hw with rfl | rfl | rfl <;> simp [x, y, z, Term.Mentions, Name.atom] at hmention
  obtain ⟨hmem, -⟩ := telescope_exact s hnames [e]
  obtain ⟨-, -, -, -, hcongr, -⟩ := telescope_exact s hnames [.sort .zero, e]
  exact ⟨hnames, (hmem x).mpr hx, fun h => hz ((hmem z).mp h), hcongr _ (by simp)⟩

end Scope

end TypeTheory
