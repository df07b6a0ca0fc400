import TypeTheory.Proofs.Conversion.Containment
import TypeTheory.Proofs.Normalization.Steps

/-!
# Terms that are found equal are joinable

An answer of `true` from `Checker.conv` says that both terms reduce to one, with levels
exchanged for levels that the checker finds equal (`Checker.ensures_conv`). The
reductions that conversion makes are steps of `Parallel`, and equations between the
parts of two terms are those that `Joinable` needs. By confluence it does not matter
from which of its reducts a term is compared.

What is remembered does not matter either, as long as it is right: the runs keep every
invariant of the tables that implies this (`Checker.Guarded`).
-/

namespace TypeTheory

open CheckM Relation

variable {L L' : Level → Level → Prop} {sig : Signature} {ν : List (Option Term)} {Γ : Context}
  {x y z : Term}

/-! ## More equal levels -/

/-- Parallel reduction is monotone in the levels it may exchange, by induction on the step. -/
theorem Parallel.mono (h : Parallel L sig ν x y) (hL : ∀ l r, L l r → L' l r) :
    Parallel L' sig ν x y := by
  have hall {ls rs : List Level} (h : List.Forall₂ L ls rs) : List.Forall₂ L' ls rs :=
    h.imp hL
  induction h with
  | bvar i => exact .bvar i
  | lookup hv => exact .lookup hv
  | fvar x => exact .fvar x
  | sort hl => exact .sort (hL _ _ hl)
  | const hls => exact .const (hall hls)
  | delta hls hv => exact .delta (hall hls) hv
  | app _ _ ihf iha => exact .app ihf iha
  | beta _ _ ihb iha => exact .beta ihb iha
  | bind _ _ iht ihb => exact .bind iht ihb
  | letE _ _ _ iht ihv ihb => exact .letE iht ihv ihb
  | zeta _ _ ihv ihb => exact .zeta ihv ihb
  | pair _ _ iha ihb => exact .pair iha ihb
  | proj _ ih => exact .proj ih
  | iota hq _ ih => exact .iota hq ih

theorem Joinable.mono (h : Joinable L sig ν x y) (hL : ∀ l r, L l r → L' l r) :
    Joinable L' sig ν x y := by
  obtain ⟨z, hx, hy⟩ := h
  exact ⟨z, hx.lift id fun _ _ h => h.mono hL, hy.lift id fun _ _ h => h.mono hL⟩

/-! ## Reductions -/

/-- Terms that differ in display names only reduce to each other in a parallel step that contracts
nothing. -/
theorem Parallel.of_alphaEq (hL : Level.Congruence L) (h : x.AlphaEq y) : Parallel L sig ν x y := by
  induction x generalizing y ν with
  | bvar i | fvar i | sort i =>
    cases y <;> simp only [Term.AlphaEq, Term.nameless, reduceCtorEq] at h
    rw [h]
    exact refl hL _
  | const n ls =>
    cases y <;> simp only [Term.AlphaEq, Term.nameless, reduceCtorEq] at h
    rw [h]
    exact refl hL _
  | app f a ihf iha =>
    cases y <;> simp only [Term.AlphaEq, Term.nameless, reduceCtorEq, Term.app.injEq] at h
    exact .app (ihf h.1) (iha h.2)
  | bind k n t b iht ihb =>
    cases y <;> simp only [Term.AlphaEq, Term.nameless, reduceCtorEq, Term.bind.injEq] at h
    obtain ⟨rfl, -, ht, hb⟩ := h
    exact .bind (iht ht) (ihb hb)
  | letE n t v b iht ihv ihb =>
    cases y <;> simp only [Term.AlphaEq, Term.nameless, reduceCtorEq, Term.letE.injEq] at h
    exact .letE (iht h.2.1) (ihv h.2.2.1) (ihb h.2.2.2)
  | pair a b iha ihb =>
    cases y <;> simp only [Term.AlphaEq, Term.nameless, reduceCtorEq, Term.pair.injEq] at h
    exact .pair (iha h.1) (ihb h.2)
  | proj k p ih =>
    cases y <;> simp only [Term.AlphaEq, Term.nameless, reduceCtorEq, Term.proj.injEq] at h
    obtain ⟨rfl, hp⟩ := h
    exact .proj (ih hp)

/-- A weak-head normal form is reached by steps, with definitions unfolding or not. -/
theorem Evaluates.steps {δ : Bool} {e r : Term} (h : Evaluates sig δ Γ e r) :
    Rewrites sig Γ.values e r := by
  have hdelta {n : Name} {ls : List Level} {v : Term} (hv : sig.delta? δ n ls = some v) :
      sig.headUnfolded? (.const n ls) = some v := by
    cases δ with
    | true => exact hv
    | false => cases hv
  induction h with
  | fvar | sort | bind | pair | bvar | const | proj => exact .refl
  | lookup hentry hvalue _ ih =>
    exact .head (.lookup (Context.values_eq_some.mpr ⟨_, hentry, hvalue⟩)) ih
  | delta hv _ ih => exact .head (.delta (hdelta hv)) ih
  | zeta _ ih => exact .head (.zeta _ _ _ _) ih
  | @beta f a t b r x _ _ ihf ih =>
    exact (ihf.lift (Term.app · a) fun _ _ => .fn a).trans (.head (.beta _ _ _ _) ih)
  | @app f f' a _ _ ihf => exact ihf.lift (Term.app · a) fun _ _ => .fn a
  | @iota k p p' q r _ hq _ ihp ih =>
    exact (ihp.lift (Term.proj k) fun _ _ => .target k).trans (.head (.iota hq) ih)

/-- Unfolding the head of a spine is a step. -/
theorem Step.of_headUnfolded? {e next : Term} (h : sig.headUnfolded? e = some next) :
    Step sig ν e next := by
  induction e generalizing next with
  | const n ls => exact .delta h
  | app f a ihf _ =>
    obtain ⟨f', hf, rfl⟩ := Option.map_eq_some_iff.mp h
    exact .fn a (ihf hf)
  | bvar | fvar | sort | bind | letE | pair | proj => cases h

/-- Terms connected by ordinary steps are joinable, for any sensible equality of levels. -/
theorem Joinable.of_steps (hL : Level.Congruence L) (h : Rewrites sig ν x y) :
    Joinable L sig ν x y :=
  .of_parallels (h.parallels hL)

/-! ## Comparison -/

namespace Term

/-- What is found equal without reduction is joinable: the terms differ in names and in equal levels
only. -/
theorem joinable_of_quickEq? (h : x.quickEq? y = some true) :
    Joinable Level.Equiv sig ν x y := by
  unfold quickEq? at h
  split at h
  · rename_i halpha
    exact .of_parallel (.of_alphaEq Level.congruence_equiv halpha)
  · split at h
    · exact .of_parallel (.sort (Option.some.inj h))
    · cases h

/-- Atoms that count as the same are joinable: one variable, or one constant with equal levels. -/
theorem joinable_of_sameAtom (h : x.sameAtom y = true) : Joinable Level.Equiv sig ν x y := by
  unfold sameAtom at h
  split at h
  · rw [Bool.and_eq_true, decide_eq_true_eq] at h
    rw [h.1]
    exact .of_parallel (.const (Level.equivAll_iff.mp h.2))
  · rw [of_decide_eq_true h]
    exact .refl _
  · rw [of_decide_eq_true h]
    exact .refl _
  · cases h

/-- Spines with joinable heads and joinable arguments are joinable, by induction on the
arguments. -/
theorem joinable_apps (hL : Level.Congruence L) {f g : Term} {as bs : List Term}
    (hf : Joinable L sig ν f g) (h : List.Forall₂ (Joinable L sig ν) as bs) :
    Joinable L sig ν (f.apps as) (g.apps bs) := by
  induction h generalizing f g with
  | nil => exact hf
  | cons ha _ ih => exact ih (hf.app hL ha)

end Term

/-- Both sides of an equation are joinable. -/
def Equation.Joins (sig : Signature) (q : Equation) : Prop :=
  Joinable Level.Equiv sig q.context.values q.lhs q.rhs

/-- Equations that hold between the members of two lists of one length make the lists joinable in
pairs. -/
theorem forall₂_joinable_of_zipWith {as bs : List Term} (hlen : as.length = bs.length)
    (h : ∀ q ∈ List.zipWith (⟨·, ·, Γ⟩ : Term → Term → Equation) as bs, q.Joins sig) :
    List.Forall₂ (Joinable Level.Equiv sig Γ.values) as bs := by
  induction as generalizing bs with
  | nil =>
    cases bs with
    | nil => exact .nil
    | cons => simp at hlen
  | cons a as ih =>
    cases bs with
    | nil => simp at hlen
    | cons b bs =>
      rw [List.zipWith_cons_cons, List.forall_mem_cons] at h
      exact .cons h.1 (ih (by simpa using hlen) h.2)

/-- **Joinable parts make joinable terms.** -/
theorem joinable_of_parts? {parts : List Equation} (h : x.parts? Γ y = some parts)
    (hparts : ∀ q ∈ parts, q.Joins sig) : Joinable Level.Equiv sig Γ.values x y := by
  have hL := Level.congruence_equiv
  unfold Term.parts? at h
  split at h
  · rename_i hatom
    exact Term.joinable_of_sameAtom hatom
  · split at h
    · -- two spines: the head is the last equation of the list
      rename_i f a g b _
      dsimp only at h
      split at h
      · rename_i hlen
        cases h
        rw [List.forall_mem_append] at hparts
        have hargs := forall₂_joinable_of_zipWith hlen fun q hq =>
          hparts.1 q (List.mem_reverse.mpr hq)
        have hheads := hparts.2 _ (List.mem_singleton.mpr rfl)
        rw [← Term.apps_spine (.app f a), ← Term.apps_spine (.app g b)]
        exact Term.joinable_apps hL hheads hargs
      · cases h
    · -- two binders: the bodies are compared under the left one
      split at h
      · rename_i hk
        cases h
        subst hk
        rw [List.forall_mem_cons, List.forall_mem_singleton] at hparts
        exact hparts.2.bind hL hparts.1
      · cases h
    · cases h
      rw [List.forall_mem_cons, List.forall_mem_singleton] at hparts
      exact hparts.2.pair hL hparts.1
    · split at h
      · rename_i hk
        cases h
        subst hk
        rw [List.forall_mem_singleton] at hparts
        exact hparts.proj
      · cases h
    · cases h

/-! ## Runs -/

namespace Checker

variable {c : Checker}

/-- A checker that sees closed declarations sees closed values, which parallel reduction asks
for. -/
theorem SeesClosed.values (h : c.SeesClosed) : Signature.ClosedValues c.const? :=
  fun n d hd v hv => (h n d hd).2 v hv

theorem SeesClosed.types (h : c.SeesClosed) (n : Name) (d : Declaration)
    (hd : c.const? n = some d) : d.type.looseRange ≤ 0 :=
  (h n d hd).1

/-- A run that keeps an invariant, and may fail in any way. -/
abbrev Ensures {α : Type} (inv : Progress → Prop) (post : α → Prop) (m : CheckM α) : Prop :=
  Keeps inv post (fun _ => True) m

/-- What a run ensures may be weakened, as for any run that keeps an invariant. -/
theorem Ensures.imp {α : Type} {inv : Progress → Prop} {post post' : α → Prop} {m : CheckM α}
    (h : Ensures inv post m) (hpost : ∀ a, post a → post' a) : Ensures inv post' m :=
  Keeps.mono h hpost fun _ _ => trivial

/-- An invariant of the runs that reduce and compare: the tables are right, and results
that are right may be added to those that are not about types. -/
structure Guarded (c : Checker) (inv : Progress → Prop) : Prop where
  tick : ∀ p, inv p → inv { p with steps := p.steps + 1 }
  addCalls : ∀ p i j k, inv p → inv (p.addCalls i j k)
  right : ∀ p, inv p → p.Right c.const?
  keep : ∀ p q e r, q ≠ .type → inv p → (e.looseRange ≤ 0 → q.Right c.const? e r) →
    inv (c.keep q e r p)

variable {inv : Progress → Prop}

/-- A round ensures what its body does: a round too many only fails. -/
theorem ensures_round (hinv : c.Guarded inv) {α : Type} {post : α → Prop} {body : Nat → CheckM α}
    {n : Nat} (hbody : ∀ k, n = k + 1 → Ensures inv post (body k)) :
    Ensures inv post (c.round n body) := by
  have htick : Ensures inv (fun _ => True) c.tick := keeps_tick hinv.tick trivial
  refine htick.bind fun _ _ => ?_
  cases n with
  | zero => exact .throw trivial
  | succ k => exact hbody k rfl

/-- A comparison of two lists that says yes has said yes to every pair of members. -/
theorem ensures_allEqual {equal : Term → Term → CheckM Bool} {R : Term → Term → Prop}
    (hequal : ∀ a b, Ensures inv (fun r => r = true → R a b) (equal a b)) (as bs : List Term)
    (hlen : as.length = bs.length) :
    Ensures inv (fun r => r = true → List.Forall₂ R as bs) (allEqual equal as bs) := by
  induction as generalizing bs with
  | nil =>
    cases bs with
    | nil => exact .pure fun _ => .nil
    | cons => simp at hlen
  | cons a as ih =>
    cases bs with
    | nil => simp at hlen
    | cons b bs =>
      refine (hequal a b).bind fun r hr => ?_
      split
      · rename_i htrue
        refine (ih bs (by simpa using hlen)).imp fun s hs htail => ?_
        exact .cons (hr htrue) (hs htail)
      · exact .pure fun hfalse => by cases hfalse

/-- A comparison of spines that says yes leaves the spines joinable: the heads are equal and so are
the arguments. -/
theorem ensures_sameSpine {equal : Term → Term → CheckM Bool}
    (hequal : ∀ a b, Ensures inv (fun r => r = true → Joinable Level.Equiv c.const? ν a b)
      (equal a b)) (x y : Term) :
    Ensures inv (fun r => r = true → Joinable Level.Equiv c.const? ν x y)
      (sameSpine equal x y) := by
  simp only [sameSpine]
  split
  · rename_i h
    rw [Bool.and_eq_true, decide_eq_true_eq] at h
    refine (ensures_allEqual hequal _ _ h.1).imp fun r hr htrue => ?_
    rw [← x.apps_spine, ← y.apps_spine]
    exact Term.joinable_apps Level.congruence_equiv (Term.joinable_of_sameAtom h.2) (hr htrue)
  · exact .pure fun hfalse => by cases hfalse

/-- What unfolding the heads of `x` and `y` may come to. -/
def UnfoldingJoins (sig : Signature) (ν : List (Option Term)) (x y : Term) : Unfolding → Prop
  | .decided equal => equal = true → Joinable Level.Equiv sig ν x y
  | .stuck x' y' => Rewrites sig ν x x' ∧ Rewrites sig ν y y'

variable (hclosed : c.SeesClosed) (hinv : c.Guarded inv)

include hclosed hinv

/-- Weak head reduction gives the value that the term evaluates to with definitions unfolded,
whatever is remembered. -/
theorem ensures_whnf (e : Term) (Γ : Context) :
    Ensures inv (Evaluates c.const? true Γ e) (c.whnf e Γ) := by
  refine keeps_remembered ?_ (fun p r hp hr => hinv.right p hp .whnf e r hr Γ) fun p r hp hr => ?_
  · exact (Keeps.modify fun p hp => hinv.addCalls p 0 1 0 hp).bind fun _ _ =>
      (keeps_reduce hinv.tick e).mono (fun _ hr => hr) fun _ _ => trivial
  · exact hinv.keep p .whnf e r (by decide) hp (evaluates_of_closed hclosed hr)

theorem ensures_whnfCore (e : Term) (Γ : Context) :
    Ensures inv (Evaluates c.const? false Γ e) (c.whnfCore e Γ) := by
  refine keeps_remembered ?_ (fun p r hp hr => hinv.right p hp .core e r hr Γ) fun p r hp hr => ?_
  · exact (keeps_reduce hinv.tick e).mono (fun _ hr => hr) fun _ _ => trivial
  · exact hinv.keep p .core e r (by decide) hp (evaluates_of_closed hclosed hr)

/-- Unfolding a head takes steps of reduction: the definition itself, and the contractions that
follow it. -/
theorem ensures_unfoldHead (e : Term) (Γ : Context) :
    Ensures inv (Rewrites c.const? Γ.values e) (c.unfoldHead e Γ) := by
  unfold unfoldHead
  split
  · rename_i next hnext
    rw [unfolded?_eq] at hnext
    exact (ensures_whnfCore hclosed hinv next Γ).imp fun _ hr =>
      .head (.of_headUnfolded? hnext) hr.steps
  · exact .pure .refl

omit hinv in
/-- From what the sides of an equation step to, back to the sides. -/
theorem joinable_of_steps {x' y' : Term} (hx : Rewrites c.const? ν x x')
    (hy : Rewrites c.const? ν y y') (h : Joinable Level.Equiv c.const? ν x' y') :
    Joinable Level.Equiv c.const? ν x y := by
  have hL := Level.congruence_equiv
  have hvalues := hclosed.values
  exact ((Joinable.of_steps hL hx).trans hL hvalues h).trans hL hvalues (.symm (.of_steps hL hy))

/-- **One equation.** The equations it leaves make its sides joinable. -/
theorem ensures_reduceEquation {unfold : Term → Term → Context → CheckM Unfolding}
    (hunfold : ∀ x y Γ, Ensures inv (UnfoldingJoins c.const? Γ.values x y) (unfold x y Γ))
    (q : Equation) : Ensures inv (fun o => ∀ parts, o = some parts →
      (∀ r ∈ parts, r.Joins c.const?) → q.Joins c.const?) (c.reduceEquation unfold q) := by
  have hdecided {equal : Bool} (h : equal = true → q.Joins c.const?) :
      ∀ parts : List Equation, (if equal then some [] else none) = some parts →
        (∀ r ∈ parts, r.Joins c.const?) → q.Joins c.const? := by
    intro parts hparts _
    cases equal with
    | true => exact h rfl
    | false => cases hparts
  unfold reduceEquation
  split
  · rename_i equal hquick
    refine .pure (hdecided fun htrue => ?_)
    subst htrue
    exact Term.joinable_of_quickEq? hquick
  · refine (ensures_whnfCore hclosed hinv q.lhs _).bind fun x hx => ?_
    refine (ensures_whnfCore hclosed hinv q.rhs _).bind fun y hy => ?_
    split
    · rename_i equal hquick
      refine .pure (hdecided fun htrue => ?_)
      subst htrue
      exact joinable_of_steps hclosed hx.steps hy.steps (Term.joinable_of_quickEq? hquick)
    · refine (hunfold x y q.context).bind fun u hu => ?_
      cases u with
      | decided equal =>
        exact .pure (hdecided fun htrue =>
          joinable_of_steps hclosed hx.steps hy.steps (hu htrue))
      | stuck x' y' =>
        refine .pure fun parts hparts hjoins => ?_
        exact joinable_of_steps hclosed (hx.steps.trans hu.1) (hy.steps.trans hu.2)
          (joinable_of_parts? hparts hjoins)

/-- **The loop invariant.** A stack found to hold is one of joinable terms, and heads
unfold by steps. -/
theorem ensures_solve_unfoldHeads (n : Nat) :
    (∀ stack, Ensures inv (fun r => r = true → ∀ q ∈ stack, q.Joins c.const?) (c.solve n stack)) ∧
    ∀ x y Γ, Ensures inv (UnfoldingJoins c.const? Γ.values x y) (c.unfoldHeads n x y Γ) := by
  induction n using Nat.strong_induction_on with
  | _ n ih =>
    refine ⟨fun stack => ?_, fun x y Γ => ?_⟩
    · cases stack with
      | nil =>
        rw [solve]
        exact .pure fun _ q hq => by cases hq
      | cons q rest =>
        rw [solve_cons]
        refine ensures_round hinv fun k hk => ?_
        obtain ⟨ihsolve, ihunfold⟩ := ih k (by omega)
        refine (ensures_reduceEquation hclosed hinv ihunfold q).bind fun o ho => ?_
        cases o with
        | none => exact .pure fun hfalse => by cases hfalse
        | some parts =>
          refine (ihsolve (parts ++ rest)).imp fun r hr htrue => ?_
          have hall := List.forall_mem_append.mp (hr htrue)
          exact List.forall_mem_cons.mpr ⟨ho parts rfl hall.1, hall.2⟩
    · rw [unfoldHeads_eq]
      refine ensures_round hinv fun k hk => ?_
      obtain ⟨ihsolve, ihunfold⟩ := ih k (by omega)
      cases c.turn? x y with
      | none => exact .pure ⟨.refl, .refl⟩
      | some turn =>
        -- the arguments are compared only where both heads are the same
        have hsame : Ensures inv (fun r => r = true → Joinable Level.Equiv c.const? Γ.values x y)
            (if turn = .both then sameSpine (fun a b => c.solve k [⟨a, b, Γ⟩]) x y
              else pure false) := by
          split
          · refine ensures_sameSpine (fun a b => ?_) x y
            refine (ihsolve [⟨a, b, Γ⟩]).imp fun r hr htrue => ?_
            exact hr htrue _ (List.mem_singleton.mpr rfl)
          · exact .pure fun hfalse => by cases hfalse
        refine hsame.bind fun same hsame => ?_
        cases same with
        | true => exact .pure fun _ => hsame rfl
        | false =>
          have hside {side : Turn} (e : Term) : Ensures inv (Rewrites c.const? Γ.values e)
              (if turn = side then pure e else c.unfoldHead e Γ) := by
            split
            · exact .pure .refl
            · exact ensures_unfoldHead hclosed hinv e Γ
          refine (hside x).bind fun x' hx' => ?_
          refine (hside y).bind fun y' hy' => ?_
          split
          · rename_i equal hquick
            refine .pure fun htrue => ?_
            subst htrue
            exact joinable_of_steps hclosed hx' hy' (Term.joinable_of_quickEq? hquick)
          · refine (ihunfold x' y' Γ).imp fun u hu => ?_
            cases u with
            | decided equal => exact fun htrue => joinable_of_steps hclosed hx' hy' (hu htrue)
            | stuck x'' y'' => exact ⟨hx'.trans hu.1, hy'.trans hu.2⟩

/-- **Terms that are found equal are joinable**, whatever is remembered. -/
theorem ensures_conv (x y : Term) (Γ : Context) :
    Ensures inv (fun r => r = true → Joinable Level.Equiv c.const? Γ.values x y)
      (c.conv x y Γ) := by
  refine (Keeps.modify fun p hp => hinv.addCalls p 0 0 1 hp).bind fun _ _ => ?_
  refine keeps_remaining.bind fun n _ => ?_
  refine ((ensures_solve_unfoldHeads hclosed hinv n).1 [⟨x, y, Γ⟩]).imp fun r hr htrue => ?_
  exact hr htrue _ (List.mem_singleton.mpr rfl)

end Checker

end TypeTheory
