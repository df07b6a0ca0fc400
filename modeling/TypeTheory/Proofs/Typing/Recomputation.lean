import TypeTheory.Proofs.Typing.Completeness

/-!
# What is found with tables is found without them

A run with tables may be short where a run without them is long: a remembered type
costs nothing, and to find it again may cost any number of steps. The number is finite
all the same. What a run comes to, the run without tables comes to at a cost
(`Checker.recomputesTyping`), so that a budget can be found that is large enough.

`Recomputes` is the claim about one computation. It is kept by sequences and by the
loops, and the invariant of the tables is that it holds of what is in them
(`TablesRecomputed`). A closed term has one type in every context, at one cost, so
what was computed in one context may be looked up in another.
-/

namespace TypeTheory

open CheckM

namespace Checker

/-- The checker without its tables. -/
def forgetful (c : Checker) : Checker :=
  { c with memoize := false }

variable {c : Checker} {inv : Progress → Prop} {α β : Type} {n : Nat} {Γ : Context}
  {e x y : Term}

/-- **Whatever the run comes to, the run without tables comes to**, at a cost. -/
def Recomputes (c : Checker) (inv : Progress → Prop) (m : Checker → Nat → CheckM α) (n : Nat) :
    Prop :=
  Ensures inv (c.forgetful.Pays m) (m c n)

namespace Recomputes

variable {m m' : Checker → Nat → CheckM α}

theorem pure (a : α) : c.Recomputes inv (fun _ _ => pure a) n :=
  Keeps.pure (.pure a)

theorem throw (e : KernelError) : c.Recomputes inv (fun _ _ => (throw e : CheckM α)) n :=
  Keeps.throw trivial

/-- In a sequence, both parts come to their values without tables at a cost, and the costs add
up. -/
theorem bind {f : Checker → Nat → α → CheckM β} (hm : c.Recomputes inv m n)
    (hf : ∀ a, c.Recomputes inv (fun c n => f c n a) n) :
    c.Recomputes inv (fun c n => m c n >>= f c n) n :=
  Keeps.bind hm fun a ha => Ensures.imp (hf a) fun _ hb => ha.bind hb

/-- A computation that does the same, with and without tables. -/
theorem congr (h : c.Recomputes inv m n) (heq : m' c n = m c n)
    (heq' : ∀ limit k p, p.Blank → m' { c.forgetful with limit := limit } k p =
      m { c.forgetful with limit := limit } k p) : c.Recomputes inv m' n := by
  unfold Recomputes
  rw [heq]
  exact Ensures.imp h fun _ ha => ha.congr heq'

theorem round (hinv : c.Guarded inv) (h : ∀ k, n = k + 1 → c.Recomputes inv m k) :
    c.Recomputes inv (fun c n => c.round n (m c)) n :=
  ensures_round hinv fun k hk => Ensures.imp (h k hk) fun _ ha => ha.round

theorem remaining (h : ∀ k, c.Recomputes inv m k) :
    c.Recomputes inv (fun c _ => c.remaining >>= m c) n :=
  keeps_remaining.bind fun k _ => Ensures.imp (h k) fun _ ha => ha.remaining

theorem addCalls (hinv : c.Guarded inv) (i j k : Nat) (h : c.Recomputes inv m n) :
    c.Recomputes inv
      (fun c n => (modify fun p => p.addCalls i j k : CheckM PUnit) >>= fun _ => m c n) n :=
  (Keeps.modify fun p hp => hinv.addCalls p i j k hp).bind fun _ _ =>
    Ensures.imp h fun _ ha => ha.addCalls i j k

end Recomputes

/-! ## Reduction and conversion -/

/-- A comparison of lists is recomputed if the comparison of members is. -/
theorem recomputes_allEqual {equal : Checker → Nat → Term → Term → CheckM Bool}
    (hequal : ∀ a b, c.Recomputes inv (fun c n => equal c n a b) n) (as bs : List Term) :
    c.Recomputes inv (fun c n => allEqual (equal c n) as bs) n := by
  induction as generalizing bs with
  | nil => exact .pure true
  | cons a as ih =>
    cases bs with
    | nil => exact .pure true
    | cons b bs =>
      refine (hequal a b).bind fun r => ?_
      cases r with
      | true => exact ih bs
      | false => exact .pure false

/-- A comparison of spines is recomputed if the comparison of arguments is. -/
theorem recomputes_sameSpine {equal : Checker → Nat → Term → Term → CheckM Bool}
    (hequal : ∀ a b, c.Recomputes inv (fun c n => equal c n a b) n) (x y : Term) :
    c.Recomputes inv (fun c n => sameSpine (equal c n) x y) n := by
  simp only [sameSpine]
  split
  · exact recomputes_allEqual hequal _ _
  · exact .pure false

section

variable (hclosed : c.SeesClosed) (hinv : c.Guarded inv)

include hclosed hinv

/-- Weak head reduction with tables comes to the value of the term, and the value is found without
them. -/
theorem recomputes_whnf (e : Term) (Γ : Context) :
    c.Recomputes inv (fun c _ => c.whnf e Γ) n :=
  (ensures_whnf hclosed hinv e Γ).imp fun _ hr => pays_whnf rfl hr

theorem recomputes_whnfCore (e : Term) (Γ : Context) :
    c.Recomputes inv (fun c _ => c.whnfCore e Γ) n :=
  (ensures_whnfCore hclosed hinv e Γ).imp fun _ hr => pays_whnfCore rfl hr

/-- Unfolding at the head is recomputed, as the reduction after it is. -/
theorem recomputes_unfoldHead (e : Term) (Γ : Context) :
    c.Recomputes inv (fun c _ => c.unfoldHead e Γ) n := by
  cases hnext : c.unfolded? e with
  | none =>
    refine (Recomputes.pure e).congr (by simp only [unfoldHead, hnext]) fun limit k p _ => ?_
    have hnext' : unfolded? { c.forgetful with limit := limit } e = none := hnext
    simp only [unfoldHead, hnext']
  | some next =>
    refine (recomputes_whnfCore hclosed hinv next Γ).congr
      (by simp only [unfoldHead, hnext]) fun limit k p _ => ?_
    have hnext' : unfolded? { c.forgetful with limit := limit } e = some next := hnext
    simp only [unfoldHead, hnext']

/-- The reduction of an equation is recomputed if the unfolding of heads is. -/
theorem recomputes_reduceEquation
    (hunfold : ∀ x y Γ, c.Recomputes inv (fun c n => c.unfoldHeads n x y Γ) n) (q : Equation) :
    c.Recomputes inv (fun c n => c.reduceEquation (c.unfoldHeads n) q) n := by
  simp only [reduceEquation]
  cases q.lhs.quickEq? q.rhs with
  | some equal => exact .pure _
  | none =>
    refine (recomputes_whnfCore hclosed hinv q.lhs q.context).bind fun x => ?_
    refine (recomputes_whnfCore hclosed hinv q.rhs q.context).bind fun y => ?_
    cases x.quickEq? y with
    | some equal => exact .pure _
    | none =>
      refine (hunfold x y q.context).bind fun u => ?_
      cases u with
      | decided equal => exact .pure _
      | stuck x' y' => exact .pure _

/-- A round of unfolding, once it is known which heads unfold. -/
theorem recomputes_unfoldRound
    (hsolve : ∀ stack, c.Recomputes inv (fun c n => c.solve n stack) n)
    (hunfold : ∀ x y Γ, c.Recomputes inv (fun c n => c.unfoldHeads n x y Γ) n)
    (x y : Term) (Γ : Context) (o : Option Turn) :
    c.Recomputes inv (fun c n => c.unfoldRound n Γ x y o) n := by
  cases o with
  | none => exact .pure _
  | some turn =>
    have hsame : c.Recomputes inv (fun c n => if turn = .both then
        sameSpine (fun a b => c.solve n [⟨a, b, Γ⟩]) x y else pure false) n := by
      split
      · exact recomputes_sameSpine (fun a b => hsolve [⟨a, b, Γ⟩]) x y
      · exact .pure false
    have hside (side : Turn) (e : Term) :
        c.Recomputes inv (fun c _ => if turn = side then pure e else c.unfoldHead e Γ) n := by
      split
      · exact .pure e
      · exact recomputes_unfoldHead hclosed hinv e Γ
    refine hsame.bind fun same => ?_
    cases same with
    | true => exact .pure _
    | false =>
      refine (hside .right x).bind fun x' => (hside .left y).bind fun y' => ?_
      cases x'.quickEq? y' with
      | some equal => exact .pure _
      | none => exact hunfold x' y' Γ

/-- **Conversion does without tables.** By induction on the bound of both loops. -/
theorem recomputes_solve_unfoldHeads (n : Nat) :
    (∀ stack, c.Recomputes inv (fun c n => c.solve n stack) n) ∧
      ∀ x y Γ, c.Recomputes inv (fun c n => c.unfoldHeads n x y Γ) n := by
  induction n using Nat.strong_induction_on with
  | _ n ih =>
    refine ⟨fun stack => ?_, fun x y Γ => ?_⟩
    · cases stack with
      | nil =>
        refine (Recomputes.pure true).congr (by rw [solve]) fun limit k p _ => by rw [solve]
      | cons q rest =>
        simp only [solve_cons_eq]
        refine .round hinv fun k hk => ?_
        obtain ⟨ihsolve, ihunfold⟩ := ih k (by omega)
        refine (recomputes_reduceEquation hclosed hinv ihunfold q).bind fun o => ?_
        cases o with
        | none => exact .pure false
        | some parts => exact ihsolve (parts ++ rest)
    · simp only [unfoldHeads_eq_round]
      refine .round hinv fun k hk => ?_
      obtain ⟨ihsolve, ihunfold⟩ := ih k (by omega)
      -- which heads unfold does not depend on the tables
      exact (recomputes_unfoldRound hclosed hinv ihsolve ihunfold x y Γ (c.turn? x y)).congr rfl
        fun limit k p _ => rfl

/-- An answer of conversion with tables is its answer without them, at a cost. -/
theorem recomputes_conv (x y : Term) (Γ : Context) :
    c.Recomputes inv (fun c _ => c.conv x y Γ) n :=
  .addCalls hinv 0 0 1 (.remaining fun k =>
    (recomputes_solve_unfoldHeads hclosed hinv k).1 [⟨x, y, Γ⟩])

theorem recomputes_ensureSort (t e : Term) (Γ : Context) :
    c.Recomputes inv (fun c _ => c.ensureSort t e Γ) n := by
  cases t with
  | sort l => exact .pure l
  | _ =>
    refine (recomputes_whnf hclosed hinv _ Γ).bind fun w => ?_
    cases w with
    | sort l => exact .pure l
    | _ => exact .throw _

/-- A function type or a pair type that is found with tables is found without them. -/
theorem recomputes_ensureBinding (k : Binder) (error : KernelError) (t : Term) (Γ : Context) :
    c.Recomputes inv (fun c _ => c.ensureBinding k error t Γ) n := by
  simp only [ensureBinding]
  cases t.binding? k with
  | some b => exact .pure b
  | none =>
    refine (recomputes_whnf hclosed hinv t Γ).bind fun w => ?_
    cases w.binding? k with
    | some b => exact .pure b
    | none => exact .throw _

end

/-! ## Typing -/

/-- A closed term has its type in every context at one cost. -/
theorem Pays.of_closed (hc : c.memoize = false) (hclosed : c.SeesClosed) {t : Term}
    (h : c.Pays (fun c _ => c.infer e Γ) t) (he : e.looseRange ≤ 0) (Δ : Context) :
    c.Pays (fun c _ => c.infer e Δ) t := by
  obtain ⟨cost, h⟩ := h
  refine ⟨cost, fun limit n p hp hle hn => ?_⟩
  obtain ⟨q, hrun, hq, -, hcost⟩ := h limit n p hp hle hn
  have hout := outcome_query_of_closed (c := { c with limit := limit }) hc hclosed .type he hp hp
    (Nat.le_refl _) Γ Δ
  have hinfer : query { c with limit := limit } .type e Γ p = .ok t q := hrun
  rw [hinfer] at hout
  cases hrun' : query { c with limit := limit } .type e Δ p with
  | ok t' q' =>
    rw [hrun'] at hout
    obtain ⟨⟨rfl, -⟩, ⟨-, hq', hsteps⟩, -, hle'⟩ := hout
    exact ⟨q', hrun', hq', hle', Nat.le_trans hsteps hcost⟩
  | error err q' =>
    rw [hrun'] at hout
    exact hout.elim

/-- What the tables hold is right, and the types in them are found without tables. -/
def TablesRecomputed (c : Checker) (p : Progress) : Prop :=
  p.Right c.const? ∧ ∀ e t, (p.memo .type).find? e = some t →
    ∀ Γ, c.forgetful.Pays (fun c _ => c.infer e Γ) t

theorem TablesRecomputed.of_blank {p : Progress} (h : p.Blank) : c.TablesRecomputed p := by
  refine ⟨.of_blank h, fun e t ht => ?_⟩
  rw [h .type e] at ht
  cases ht

/-- The invariant of the tables is one that reduction and conversion respect. -/
theorem guarded_recomputed : c.Guarded c.TablesRecomputed where
  tick p hp := ⟨hp.1.tick, hp.2⟩
  addCalls p i j k hp := ⟨hp.1.addCalls i j k, hp.2⟩
  right p hp := hp.1
  keep p q e r hq hp hr := by
    refine ⟨hp.1.keep hr, fun x t ht => ?_⟩
    rcases find?_keep ht with ⟨htype, -⟩ | hold
    · exact absurd htype.symm hq
    · exact hp.2 x t hold

/-- Both directions of the checker do without tables on the term. -/
def RecomputesTyping (c : Checker) (e : Term) : Prop :=
  ∀ Γ, c.Recomputes c.TablesRecomputed (fun c _ => c.infer e Γ) 0 ∧
    ∀ t, c.Recomputes c.TablesRecomputed (fun c _ => c.check e t Γ) 0

section

variable (hclosed : c.SeesClosed)

include hclosed

/-- Inference is recomputed if its rule is: a remembered type was found in some context, and is
found in this one. -/
theorem recomputes_infer
    (h : c.Recomputes c.TablesRecomputed (fun c _ => c.inferNode e Γ) 0) :
    c.Recomputes c.TablesRecomputed (fun c _ => c.infer e Γ) 0 := by
  have hanswer : Ensures c.TablesRecomputed (c.forgetful.Pays fun c _ => c.infer e Γ)
      (c.answer .type e Γ) := by
    refine (Keeps.modify fun p hp => guarded_recomputed.addCalls p 1 0 0 hp).bind fun _ _ => ?_
    exact Ensures.imp h fun _ ht => pays_infer rfl ht
  change Ensures c.TablesRecomputed _ (c.query .type e Γ)
  rw [query_eq]
  refine keeps_remembered hanswer (fun p t hp ht => hp.2 e t ht Γ) fun p t hp ht => ?_
  -- the type was found in `Γ`, and may be looked up in any other context
  refine ⟨hp.1.keep fun _ => trivial, fun x u hu Δ => ?_⟩
  rcases find?_keep hu with ⟨-, rfl, rfl, hrange⟩ | hold
  · exact Pays.of_closed (c := c.forgetful) rfl hclosed ht hrange Δ
  · exact hp.2 x u hold Δ

/-- A sort that is found for a term with tables is found without them. -/
theorem RecomputesTyping.sortOf (h : c.RecomputesTyping e) (Γ : Context) :
    c.Recomputes c.TablesRecomputed (fun c _ => c.sortOf e Γ) 0 := by
  simp only [Checker.sortOf]
  exact (h Γ).1.bind fun t => recomputes_ensureSort hclosed guarded_recomputed t e Γ

theorem recomputes_checkInferred
    (h : c.Recomputes c.TablesRecomputed (fun c _ => c.infer e Γ) 0) (t : Term) :
    c.Recomputes c.TablesRecomputed (fun c _ => c.checkInferred e t Γ) 0 := by
  simp only [checkInferred, requireConv]
  refine h.bind fun s => (recomputes_conv hclosed guarded_recomputed s t Γ).bind fun equal => ?_
  cases equal with
  | true => exact .pure ()
  | false => exact .throw _

/-- A form that is checked by inference needs its rule of inference recomputed only. -/
theorem recomputesTyping_of_inferNode (he : e.Inferred)
    (h : ∀ Γ, c.Recomputes c.TablesRecomputed (fun c _ => c.inferNode e Γ) 0) :
    c.RecomputesTyping e := by
  intro Γ
  have hinfer := recomputes_infer hclosed (h Γ)
  refine ⟨hinfer, fun t => ?_⟩
  simp only [check_eq_checkInferred he]
  exact recomputes_checkInferred hclosed hinfer t

theorem recomputesTyping_const (x : Name) (ls : List Level) :
    c.RecomputesTyping (.const x ls) := by
  refine recomputesTyping_of_inferNode hclosed trivial fun Γ => ?_
  simp only [inferNode]
  cases hd : c.const? x with
  | none =>
    refine (Recomputes.throw (.unknownConstant x)).congr (by rw [constType, hd])
      fun limit k p _ => ?_
    have hd' : Checker.const? { c.forgetful with limit := limit } x = none := hd
    rw [constType, hd']
  | some d =>
    have hconst : c.Recomputes c.TablesRecomputed (fun _ _ =>
        if d.params.length = ls.length then pure (d.type.substLevels (d.params.zip ls))
        else throw (.universeArity x d.params.length ls.length)) 0 := by
      split
      · exact .pure _
      · exact .throw _
    refine hconst.congr (by rw [constType, hd]) fun limit k p _ => ?_
    have hd' : Checker.const? { c.forgetful with limit := limit } x = some d := hd
    rw [constType, hd']

theorem recomputesTyping_app {f a : Term} (hf : c.RecomputesTyping f)
    (ha : c.RecomputesTyping a) : c.RecomputesTyping (.app f a) := by
  refine recomputesTyping_of_inferNode hclosed trivial fun Γ => ?_
  simp only [inferNode, ensurePi_eq]
  refine (hf Γ).1.bind fun s => ?_
  refine (recomputes_ensureBinding hclosed guarded_recomputed _ _ s Γ).bind fun fn => ?_
  exact ((ha Γ).2 fn.domain).bind fun _ => .pure _

/-- A function is recomputed in both directions, with the comparison of domains in between. -/
theorem recomputesTyping_lam {x : Name} {t b : Term} (ht : c.RecomputesTyping t)
    (hb : c.RecomputesTyping b) : c.RecomputesTyping (.lam x t b) := by
  intro Γ
  have hsort := ht.sortOf hclosed Γ
  have hinfer : c.Recomputes c.TablesRecomputed (fun c _ => c.infer (.lam x t b) Γ) 0 := by
    refine recomputes_infer hclosed ?_
    simp only [inferNode]
    exact hsort.bind fun _ => (hb (Γ.push x t)).1.bind fun u => .pure _
  refine ⟨hinfer, fun expected => ?_⟩
  have hfallback := recomputes_checkInferred hclosed hinfer expected
  simp only [check]
  refine (recomputes_whnf hclosed guarded_recomputed expected Γ).bind fun w => ?_
  split
  · rename_i m t' b'
    refine hsort.bind fun _ => ?_
    refine (recomputes_conv hclosed guarded_recomputed t t' Γ).bind fun equal => ?_
    -- the body is checked with its own domain, once this is the expected one
    cases equal with
    | true => exact (hb (Γ.push x t)).2 b'
    | false => exact hfallback
  · exact hfallback

/-- A function type or a pair type is recomputed part by part. -/
theorem recomputesTyping_quantifier {k : Binder} (hk : k ≠ .lam) {x : Name} {t b : Term}
    (ht : c.RecomputesTyping t) (hb : c.RecomputesTyping b) :
    c.RecomputesTyping (.bind k x t b) := by
  have hform : (Term.bind k x t b).Inferred := by
    cases k with
    | lam => exact absurd rfl hk
    | pi | sigma => trivial
  refine recomputesTyping_of_inferNode hclosed hform fun Γ => ?_
  have hnode : c.Recomputes c.TablesRecomputed (fun c _ => c.sortOf t Γ >>= fun l =>
      c.sortOf b (Γ.push x t) >>= fun r => pure (Term.sort (Level.max l r).normalize)) 0 :=
    (ht.sortOf hclosed Γ).bind fun _ => (hb.sortOf hclosed (Γ.push x t)).bind fun _ => .pure _
  refine hnode.congr ?_ fun limit j p _ => ?_
  · rw [inferNode]
    exact hk
  · rw [inferNode]
    exact hk

theorem recomputesTyping_letE {x : Name} {t v b : Term} (ht : c.RecomputesTyping t)
    (hv : c.RecomputesTyping v) (hb : c.RecomputesTyping b) :
    c.RecomputesTyping (.letE x t v b) := by
  intro Γ
  have hsort := ht.sortOf hclosed Γ
  constructor
  · refine recomputes_infer hclosed ?_
    simp only [inferNode]
    exact hsort.bind fun _ => ((hv Γ).2 t).bind fun _ =>
      (hb (Γ.pushLet x t v)).1.bind fun u => .pure _
  · intro expected
    simp only [check]
    exact hsort.bind fun _ => ((hv Γ).2 t).bind fun _ =>
      (hb (Γ.pushLet x t v)).2 (expected.shift 0 1)

theorem recomputesTyping_pair {a b : Term} (ha : c.RecomputesTyping a)
    (hb : c.RecomputesTyping b) : c.RecomputesTyping (.pair a b) := by
  intro Γ
  have hinfer : c.Recomputes c.TablesRecomputed (fun c _ => c.infer (.pair a b) Γ) 0 := by
    refine recomputes_infer hclosed ?_
    simp only [inferNode]
    exact (ha Γ).1.bind fun t => (hb Γ).1.bind fun u => .pure _
  refine ⟨hinfer, fun expected => ?_⟩
  have hfallback := recomputes_checkInferred hclosed hinfer expected
  simp only [check]
  refine (recomputes_whnf hclosed guarded_recomputed expected Γ).bind fun w => ?_
  split
  · rename_i m t u
    exact ((ha Γ).2 t).bind fun _ => (hb Γ).2 (u.instantiate a)
  · exact hfallback

theorem recomputesTyping_proj {k : Side} {p : Term} (hp : c.RecomputesTyping p) :
    c.RecomputesTyping (.proj k p) := by
  refine recomputesTyping_of_inferNode hclosed trivial fun Γ => ?_
  simp only [inferNode, ensureSigma_eq]
  refine (hp Γ).1.bind fun s => ?_
  refine (recomputes_ensureBinding hclosed guarded_recomputed _ _ s Γ).bind fun pair => ?_
  cases k with
  | fst => exact .pure _
  | snd => exact .pure _

/-- **Typing does without tables**, on every term. -/
theorem recomputesTyping (e : Term) : c.RecomputesTyping e := by
  induction e with
  | bvar i =>
    refine recomputesTyping_of_inferNode hclosed trivial fun Γ => ?_
    simp only [inferNode]
    cases Γ[i]? with
    | some entry => exact .pure _
    | none => exact .throw _
  | fvar x =>
    refine recomputesTyping_of_inferNode hclosed trivial fun Γ => ?_
    simp only [inferNode]
    exact .throw _
  | sort l =>
    refine recomputesTyping_of_inferNode hclosed trivial fun Γ => ?_
    simp only [inferNode]
    exact .pure _
  | const x ls => exact recomputesTyping_const hclosed x ls
  | app f a ihf iha => exact recomputesTyping_app hclosed ihf iha
  | bind k x t b iht ihb =>
    cases k with
    | lam => exact recomputesTyping_lam hclosed iht ihb
    | pi => exact recomputesTyping_quantifier hclosed (by decide) iht ihb
    | sigma => exact recomputesTyping_quantifier hclosed (by decide) iht ihb
  | letE x t v b iht ihv ihb => exact recomputesTyping_letE hclosed iht ihv ihb
  | pair a b iha ihb => exact recomputesTyping_pair hclosed iha ihb
  | proj k p ih => exact recomputesTyping_proj hclosed ih

/-- **What a run has found for a term, a run without tables finds**, at a cost. -/
theorem pays_infer_of_ok {t : Term} {p q : Progress} (hp : p.Blank)
    (hrun : c.infer e Γ p = .ok t q) : c.forgetful.Pays (fun c _ => c.infer e Γ) t :=
  (Keeps.of_ok (recomputesTyping hclosed e Γ).1 (TablesRecomputed.of_blank hp) hrun).1

/-- A sort that is found from a state without results is found without tables at a cost. -/
theorem pays_sortOf_of_ok {l : Level} {p q : Progress} (hp : p.Blank)
    (hrun : c.sortOf e Γ p = .ok l q) : c.forgetful.Pays (fun c _ => c.sortOf e Γ) l :=
  (Keeps.of_ok ((recomputesTyping hclosed e).sortOf hclosed Γ) (TablesRecomputed.of_blank hp)
    hrun).1

end

end Checker

end TypeTheory
