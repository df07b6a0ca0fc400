import Mathlib.Data.List.Sort
import TypeTheory.Proofs.Reduction.Cost
import TypeTheory.Proofs.Scope.Telescope
import TypeTheory.Proofs.Simulation.Renaming

/-!
# Telescopes with more variables

A term can be closed over any telescope that has the variables it mentions. Which other
variables the telescope has makes a difference to the indices, and to nothing else: if
some variables are among others, in the same order, then a renaming takes the terms that
are closed over the ones to the terms that are closed over the others
(`Telescope.exists_thins`). So a type over a few variables and the same type over more
have the same sort, found at the same cost (`Checker.pays_sortOf_iff_of_sublist`).

The variables that some terms depend on are among the variables in scope, in the same
order (`Scope.Telescoped.telescope_sublist`).
-/

namespace TypeTheory

open Term

/-! ## Indices for names -/

namespace Term

variable {e : Term}

/-- Two ways to replace the leaves of a closed term are a filling apart if they are so
at every leaf. -/
theorem fill_mapLeaves {f g : Nat → Term → Term} {σ : Nat → Term} {P : Name → Prop}
    (hleaf : ∀ d leaf, leaf.isLeaf = true → leaf.looseRange ≤ d → leaf.FvarsIn P →
      (f d leaf).fill (liftTimes σ d) = g d leaf) (d : Nat) (he : e.looseRange ≤ d)
    (hP : e.FvarsIn P) : (mapLeaves f d e).fill (liftTimes σ d) = mapLeaves g d e := by
  induction e generalizing d with
  | bvar | fvar | sort | const => exact hleaf d _ rfl he hP
  | app f a ihf iha =>
    obtain ⟨hf, ha⟩ := looseRange_app_le.mp he
    obtain ⟨hfP, haP⟩ := fvarsIn_app.mp hP
    simp only [mapLeaves, fill, ihf d hf hfP, iha d ha haP]
  | bind k x t b iht ihb =>
    obtain ⟨ht, hb⟩ := looseRange_bind_le.mp he
    obtain ⟨htP, hbP⟩ := fvarsIn_bind.mp hP
    have hbody := ihb (d + 1) hb hbP
    simp only [liftTimes] at hbody
    simp only [mapLeaves, fill, iht d ht htP, hbody]
  | letE x t v b iht ihv ihb =>
    obtain ⟨ht, hv, hb⟩ := looseRange_letE_le.mp he
    obtain ⟨htP, hvP, hbP⟩ := fvarsIn_letE.mp hP
    have hbody := ihb (d + 1) hb hbP
    simp only [liftTimes] at hbody
    simp only [mapLeaves, fill, iht d ht htP, ihv d hv hvP, hbody]
  | pair a b iha ihb =>
    obtain ⟨ha, hb⟩ := looseRange_pair_le.mp he
    obtain ⟨haP, hbP⟩ := fvarsIn_pair.mp hP
    simp only [mapLeaves, fill, iha d ha haP, ihb d hb hbP]
  | proj k p ih =>
    simp only [mapLeaves, fill, ih d (looseRange_proj_le.mp he) (fvarsIn_proj.mp hP)]

end Term

/-- In a list without repetition a name is found at the place where it stands. -/
theorem idxOf?_of_getElem? {names : List Name} (hdistinct : names.Nodup) {i : Nat} {x : Name}
    (h : names[i]? = some x) : names.idxOf? x = some i := by
  obtain ⟨hi, rfl⟩ := List.getElem?_eq_some_iff.mp h
  refine List.idxOf?_eq_some_iff.mpr ⟨hi, rfl, fun j hj heq => ?_⟩
  have := hdistinct.getElem_inj_iff.mp heq
  omega

/-- The position of a name, counted from the innermost one. -/
theorem idxOf?_of_getElem?_reverse {names : List Name} (hdistinct : names.Nodup) {k : Nat}
    {x : Name} (h : names.reverse[k]? = some x) :
    k < names.length ∧ names.idxOf? x = some (names.length - 1 - k) := by
  obtain ⟨hk, -⟩ := List.getElem?_eq_some_iff.mp h
  rw [List.length_reverse] at hk
  rw [List.getElem?_reverse hk] at h
  exact ⟨hk, idxOf?_of_getElem? hdistinct h⟩

/-- **Closing over other names is renaming**, if the renaming takes the place of each
name to its place among the others. -/
theorem Term.rename_abstractFvars {ξ : Nat → Nat} {names names' : List Name}
    (hdistinct : names.Nodup) (hdistinct' : names'.Nodup)
    (hplace : ∀ k x, names.reverse[k]? = some x → names'.reverse[ξ k]? = some x) {e : Term}
    (he : e.looseRange ≤ 0) (hnames : e.FvarsIn (· ∈ names)) :
    (e.abstractFvars names).rename ξ = e.abstractFvars names' := by
  rw [rename_eq_fill]
  refine fill_mapLeaves (P := (· ∈ names)) (fun d leaf hform hrange hleaf => ?_) 0 he hnames
  cases leaf with
  | fvar x =>
    have hx : x ∈ names.reverse := List.mem_reverse.mpr (fvarsIn_fvar.mp hleaf)
    obtain ⟨k, hk⟩ := List.mem_iff_getElem?.mp hx
    obtain ⟨hlt, hidx⟩ := idxOf?_of_getElem?_reverse hdistinct hk
    obtain ⟨hlt', hidx'⟩ := idxOf?_of_getElem?_reverse hdistinct' (hplace k x hk)
    have hback : names.length - 1 - (names.length - 1 - k) = k := by omega
    have hback' : names'.length - 1 - (names'.length - 1 - ξ k) = ξ k := by omega
    simp only [hidx, hidx', hback, hback', fill, liftTimes_add, rename]
  | bvar i => exact liftTimes_of_lt _ (looseRange_bvar_le.mp hrange)
  | sort l => rfl
  | const x ls => rfl
  | app | bind | letE | pair | proj => cases hform

/-! ## Telescopes -/

namespace Telescope

theorem bindersWithin_append (before : List Name) (vs ws : List SectionVar) :
    bindersWithin before (vs ++ ws) =
      bindersWithin before vs ++ bindersWithin (before ++ vs.map (·.name)) ws := by
  induction vs generalizing before with
  | nil => simp [bindersWithin]
  | cons v vs ih => simp [bindersWithin, ih]

/-- The last variable of a telescope is the innermost entry of its context. -/
theorem context_concat (vs : List SectionVar) (v : SectionVar) :
    (Telescope.mk (vs ++ [v])).context =
      { name := v.name, type := (Telescope.mk vs).close v.type } :: (Telescope.mk vs).context := by
  simp [context, binders, bindersWithin_append, bindersWithin, close, names]

theorem names_concat_reverse (vs : List SectionVar) (v : SectionVar) :
    (Telescope.mk (vs ++ [v])).names.reverse = v.name :: (Telescope.mk vs).names.reverse := by
  simp [names]

/-- The renaming takes the variables of a telescope to the same variables of another. -/
structure Thins (ξ : Nat → Nat) (t t' : Telescope) : Prop where
  injective : Function.Injective ξ
  context : Context.Embeds ξ t.context t'.context
  place (k : Nat) (x : Name) : t.names.reverse[k]? = some x → t'.names.reverse[ξ k]? = some x

namespace Thins

variable {ξ : Nat → Nat} {vs ws : List SectionVar} {v : SectionVar} {e : Term}

theorem nil : Thins id ⟨[]⟩ ⟨[]⟩ where
  injective := Function.injective_id
  context := by
    refine ⟨fun i entry h => ?_, fun i h => h⟩
    cases h
  place _ _ h := h

/-- A term over the one telescope, renamed, is the term over the other. -/
theorem close {t t' : Telescope} (h : Thins ξ t t') (ht : t.names.Nodup) (ht' : t'.names.Nodup)
    (he : e.looseRange ≤ 0) (hnames : e.FvarsIn (· ∈ t.names)) :
    (t.close e).rename ξ = t'.close e :=
  rename_abstractFvars ht ht' h.place he hnames

/-- One more variable on the right. -/
theorem skip (h : Thins ξ ⟨vs⟩ ⟨ws⟩) (v : SectionVar) :
    Thins (fun i => ξ i + 1) ⟨vs⟩ ⟨ws ++ [v]⟩ where
  injective i j hij := h.injective (Nat.succ.inj hij)
  context := by
    rw [context_concat]
    exact h.context.skip _
  place k x hk := by
    rw [names_concat_reverse]
    exact h.place k x hk

/-- The same variable on both sides, whose type mentions those on the left. -/
theorem keep (h : Thins ξ ⟨vs⟩ ⟨ws⟩) (hvs : (vs.map (·.name)).Nodup)
    (hws : (ws.map (·.name)).Nodup) (hclosed : v.type.looseRange ≤ 0)
    (hearlier : v.type.FvarsIn (· ∈ vs.map (·.name))) :
    Thins (liftIndex ξ) ⟨vs ++ [v]⟩ ⟨ws ++ [v]⟩ where
  injective := liftIndex_injective h.injective
  context := by
    rw [context_concat, context_concat]
    exact h.context.cons (h.close hvs hws hclosed hearlier).symm rfl
  place k x hk := by
    rw [names_concat_reverse] at hk ⊢
    cases k with
    | zero => exact hk
    | succ k => exact h.place k x hk

end Thins

/-- **Variables among others are a renaming away from them**, if each type mentions the
variables before it. By induction on how the ones lie among the others, from the
outermost variable inwards. -/
theorem exists_thins {vs ws : List SectionVar} (hsub : vs.Sublist ws)
    (hdistinct : (ws.map (·.name)).Nodup) (hclosed : ∀ v ∈ vs, v.type.looseRange ≤ 0)
    (hearlier : ∀ early v late, vs = early ++ v :: late →
      v.type.FvarsIn (· ∈ early.map (·.name))) : ∃ ξ, Thins ξ ⟨vs⟩ ⟨ws⟩ := by
  -- telescopes grow at the end and lists at the head, so the induction is on the reverse
  have hreverse := hsub.reverse
  generalize hrs : vs.reverse = rs, hrs' : ws.reverse = rs' at hreverse
  obtain rfl : vs = rs.reverse := by rw [← hrs, List.reverse_reverse]
  obtain rfl : ws = rs'.reverse := by rw [← hrs', List.reverse_reverse]
  clear hrs hrs' hsub
  induction hreverse with
  | slnil => exact ⟨id, .nil⟩
  | @cons rs rs' v _ ih =>
    rw [List.reverse_cons, List.map_append] at hdistinct
    obtain ⟨ξ, hξ⟩ := ih hclosed hearlier hdistinct.of_append_left
    refine ⟨fun i => ξ i + 1, ?_⟩
    rw [List.reverse_cons]
    exact hξ.skip v
  | @cons_cons rs rs' v hrs ih =>
    rw [List.reverse_cons] at hdistinct hclosed hearlier ⊢
    rw [List.reverse_cons]
    have hws := (List.map_append ▸ hdistinct).of_append_left
    have hvs := hws.sublist (hrs.reverse.map (·.name))
    obtain ⟨ξ, hξ⟩ := ih (fun u hu => hclosed u (List.mem_append_left _ hu))
      (fun early u late hsplit =>
        hearlier early u (late ++ [v]) (by rw [hsplit, List.append_assoc, List.cons_append])) hws
    have hv : v ∈ rs.reverse ++ [v] := List.mem_append_right _ List.mem_cons_self
    exact ⟨liftIndex ξ, hξ.keep hvs hws (hclosed v hv) (hearlier rs.reverse v [] rfl)⟩

end Telescope

/-- **A type has one sort over every telescope that has its variables**, found at one
cost. -/
theorem Checker.pays_sortOf_iff_of_sublist {c : Checker} (hc : c.memoize = false)
    (hclosed : c.SeesClosed) {vs ws : List SectionVar} (hsub : vs.Sublist ws)
    (hws : (ws.map (·.name)).Nodup) (hvars : ∀ v ∈ vs, v.type.looseRange ≤ 0)
    (hearlier : ∀ early v late, vs = early ++ v :: late →
      v.type.FvarsIn (· ∈ early.map (·.name))) {e : Term} (he : e.looseRange ≤ 0)
    (hnames : e.FvarsIn (· ∈ vs.map (·.name))) {l : Level} :
    c.Pays (fun c _ => c.sortOf ((Telescope.mk vs).close e) (Telescope.mk vs).context) l ↔
      c.Pays (fun c _ => c.sortOf ((Telescope.mk ws).close e) (Telescope.mk ws).context) l := by
  have hvs := hws.sublist (hsub.map (·.name))
  obtain ⟨ξ, hξ⟩ := Telescope.exists_thins hsub hws hvars hearlier
  refine pays_iff_of_sim (R := fun limit => relocated { c with limit := limit } ξ 0)
    (fun _ _ _ => Iff.rfl) (fun _ => id) fun limit k n n' => ?_
  have hlawful := lawful_relocated (c := { c with limit := limit }) (k := 0) hξ.injective hc hclosed
  have hcontext : (relocated { c with limit := limit } ξ 0).context (0 : Nat)
      (Telescope.mk vs).context (Telescope.mk ws).context := ⟨hξ.context, Nat.zero_le _⟩
  have hterm : (relocated { c with limit := limit } ξ 0).term (0 : Nat)
      ((Telescope.mk vs).close e) ((Telescope.mk ws).close e) :=
    (hξ.close hvs hws he hnames).symm
  exact (hlawful.sim_sortOf (hlawful.simTyping _) hcontext hterm).mono fun _ _ hl => hl.1

/-! ## Variables in scope -/

namespace Scope

/-- A search finds no variable twice, as it leaves out the one that it has found. -/
theorem nodup_dependencies (pending : List Name) (vars : List SectionVar) :
    (dependencies pending vars).Nodup := by
  fun_induction dependencies pending vars with
  | case1 => exact List.nodup_nil
  | case2 pending vars v hfind hlt ih =>
    refine List.nodup_cons.mpr ⟨fun hv => ?_, ih⟩
    have hother := (List.mem_filter.mp (mem_of_mem_dependencies hv)).2
    simp at hother

variable {s : Scope} {terms : List Term} {v : SectionVar}

theorem mem_vars_of_mem_telescope (h : v ∈ (s.telescope terms).vars) : v ∈ s.vars :=
  mem_of_mem_dependencies (mem_telescope.mp h)

theorem nodup_telescope (s : Scope) (terms : List Term) : (s.telescope terms).vars.Nodup :=
  (List.mergeSort_perm _ _).nodup_iff.mpr (nodup_dependencies _ _)

/-- Where no two variables were declared at once, each was declared before the next. -/
theorem pairwise_order_lt_telescope (horders : (s.vars.map (·.order)).Nodup) (terms : List Term) :
    (s.telescope terms).vars.Pairwise (·.order < ·.order) := by
  refine (List.pairwise_and_iff.mpr
    ⟨s.pairwise_telescope terms, nodup_telescope s terms⟩).imp_of_mem
    fun {v w} hv hw hvw => Nat.lt_of_le_of_ne hvw.1 fun horder => hvw.2 ?_
  exact List.inj_on_of_nodup_map horders (mem_vars_of_mem_telescope hv)
    (mem_vars_of_mem_telescope hw) horder

namespace Telescoped

theorem nodup_orders (h : s.Telescoped) : (s.vars.map (·.order)).Nodup :=
  List.pairwise_map.mpr (h.ordered.imp Nat.ne_of_lt)

/-- **The variables that some terms depend on are among the variables in scope**, in the
same order. -/
theorem telescope_sublist (h : s.Telescoped) (terms : List Term) :
    (s.telescope terms).vars.Sublist s.vars := by
  have hmem : ∀ v ∈ (s.telescope terms).vars, v ∈ s.vars := fun v => mem_vars_of_mem_telescope
  have hordered := pairwise_order_lt_telescope h.nodup_orders terms
  -- both lists are in the order of declaration, so it is enough that one contains the other
  have hantisymm : Std.Antisymm fun v w : SectionVar => v.order < w.order :=
    ⟨fun v w hvw hwv => by omega⟩
  exact List.sublist_of_subperm_of_pairwise ((nodup_telescope s terms).subperm hmem) hordered
    h.ordered

/-- The variables of a telescope before one of them were declared before it. -/
theorem sublist_before (h : s.Telescoped) {terms : List Term} {early late : List SectionVar}
    (hsplit : (s.telescope terms).vars = early ++ v :: late) :
    early.Sublist (s.vars.filter (·.order < v.order)) := by
  have hsub := h.telescope_sublist terms
  have hordered := h.ordered.sublist hsub
  rw [hsplit] at hsub hordered
  have hearly : ∀ w ∈ early, decide (w.order < v.order) = true := fun w hw =>
    decide_eq_true ((List.pairwise_append.mp hordered).2.2 w hw v List.mem_cons_self)
  rw [← List.filter_eq_self.mpr hearly]
  exact ((List.sublist_append_left early _).trans hsub).filter _

end Telescoped

end Scope

end TypeTheory
