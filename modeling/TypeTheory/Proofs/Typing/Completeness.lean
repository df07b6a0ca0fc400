import TypeTheory.Proofs.Conversion.Decision
import TypeTheory.Proofs.Typing.Bidirectional
import TypeTheory.Proofs.Typing.Validity

/-!
# Runs find what the rules give

What the rules accept in a valid context is found by a run that has steps enough
(`Checker.Trusts.finds`), provided that conversion misses no pair when types are compared.
Which types these are is said by `Compares`: only the types that the run puts to conversion
count, and not what they, or the term, are made of.

By induction on the rules. A function, a local definition or a pair whose type was found by
the rules is checked part by part, so what is proved of a term whose type is found is also
that it is accepted for every joinable type.
-/

namespace TypeTheory

/-- The equations that are put to conversion when the type of a term is found, or when the
term is checked against an expected type. -/
inductive Compares (sig : Signature) : Context → Term → Option Term → Equation → Prop
  | fn {Γ : Context} {f a : Term} {q : Equation} : Compares sig Γ f none q →
      Compares sig Γ (.app f a) none q
  | arg {Γ : Context} {n : Name} {f a s t b : Term} {q : Equation} : Judges sig .infer Γ f s →
      Evaluates sig true Γ s (.pi n t b) → Compares sig Γ a (some t) q →
      Compares sig Γ (.app f a) none q
  | domain {Γ : Context} {k : Binder} {n : Name} {t b : Term} {expected : Option Term}
      {q : Equation} : Compares sig Γ t none q → Compares sig Γ (.bind k n t b) expected q
  | body {Γ : Context} {k : Binder} {n : Name} {t b : Term} {q : Equation} :
      Compares sig (Γ.push n t) b none q → Compares sig Γ (.bind k n t b) none q
  | letType {Γ : Context} {n : Name} {t v b : Term} {expected : Option Term} {q : Equation} :
      Compares sig Γ t none q → Compares sig Γ (.letE n t v b) expected q
  | letValue {Γ : Context} {n : Name} {t v b : Term} {expected : Option Term} {q : Equation} :
      Compares sig Γ v (some t) q → Compares sig Γ (.letE n t v b) expected q
  | letBody {Γ : Context} {n : Name} {t v b : Term} {expected : Option Term} {q : Equation} :
      Compares sig (Γ.pushLet n t v) b (expected.map (·.shift 0 1)) q →
      Compares sig Γ (.letE n t v b) expected q
  | left {Γ : Context} {a b : Term} {q : Equation} : Compares sig Γ a none q →
      Compares sig Γ (.pair a b) none q
  | right {Γ : Context} {a b : Term} {q : Equation} : Compares sig Γ b none q →
      Compares sig Γ (.pair a b) none q
  | target {Γ : Context} {k : Side} {p : Term} {q : Equation} : Compares sig Γ p none q →
      Compares sig Γ (.proj k p) none q
  /-- The type of the variable of a function and the one that is expected. -/
  | parameter {Γ : Context} {n m : Name} {t b A u d : Term} : Evaluates sig true Γ A (.pi m u d) →
      Compares sig Γ (.lam n t b) (some A) ⟨t, u, Γ⟩
  | result {Γ : Context} {n m : Name} {t b A u d : Term} {q : Equation} :
      Evaluates sig true Γ A (.pi m u d) → Compares sig (Γ.push n t) b (some d) q →
      Compares sig Γ (.lam n t b) (some A) q
  | first {Γ : Context} {m : Name} {a b A u d : Term} {q : Equation} :
      Evaluates sig true Γ A (.sigma m u d) → Compares sig Γ a (some u) q →
      Compares sig Γ (.pair a b) (some A) q
  | second {Γ : Context} {m : Name} {a b A u d : Term} {q : Equation} :
      Evaluates sig true Γ A (.sigma m u d) → Compares sig Γ b (some (d.instantiate a)) q →
      Compares sig Γ (.pair a b) (some A) q
  /-- The type that is found for a term and the one that is expected. -/
  | found {Γ : Context} {e s A : Term} : e.Inferred → Judges sig .infer Γ e s →
      Compares sig Γ e (some A) ⟨s, A, Γ⟩
  | inferred {Γ : Context} {e A : Term} {q : Equation} : e.Inferred → Compares sig Γ e none q →
      Compares sig Γ e (some A) q

namespace Checker

variable {c : Checker} {ρ : Name → Nat} {Γ : Context} {k : Binder} {l : Level} {n : Name}
  {expected : Option Term} {e s t u A B a b : Term}

/-- Conversion misses no pair in the comparisons that are made for a term. -/
def Overt (c : Checker) (Γ : Context) (e : Term) (expected : Option Term) : Prop :=
  ∀ q, Compares c.const? Γ e expected q → c.MissesNoPair q

/-! ## Shapes -/

section

variable (hc : c.memoize = false)

include hc

/-- Inference pays for its rule: nothing is remembered, and the counters cost nothing. -/
theorem pays_infer (h : c.Pays (fun c _ => c.inferNode e Γ) t) :
    c.Pays (fun c _ => c.infer e Γ) t := by
  simp only [infer]
  exact (h.addCalls 1 0 0).remembered hc

/-- A type that evaluates to a sort is found to be one at a cost. -/
theorem pays_ensureSort (h : Evaluates c.const? true Γ t (.sort l)) (e : Term) :
    c.Pays (fun c _ => c.ensureSort t e Γ) l := by
  cases t with
  | sort r =>
    cases h
    exact .pure l
  | _ => exact (pays_whnf hc h).bind (.pure l)

/-- A type that evaluates to a binder is found to be one at a cost, so the error does not occur. -/
theorem pays_ensureBinding (h : Evaluates c.const? true Γ t (.bind k n u b))
    (error : KernelError) : c.Pays (fun c _ => c.ensureBinding k error t Γ) ⟨n, u, b⟩ := by
  simp only [ensureBinding]
  cases hb : t.binding? k with
  | some other =>
    rw [Term.eq_bind_of_binding? hb] at h
    cases h
    exact .pure _
  | none =>
    refine (pays_whnf hc h).bind ?_
    have hself : (Term.bind k n u b).binding? k = some ⟨n, u, b⟩ := by
      cases k <;> rfl
    simp only [hself]
    exact .pure _

/-- The sort of a term is found at the cost of its type and of the evaluation of that type. -/
theorem pays_sortOf (he : c.Pays (fun c _ => c.infer e Γ) s)
    (hs : Evaluates c.const? true Γ s (.sort l)) : c.Pays (fun c _ => c.sortOf e Γ) l := by
  simp only [sortOf]
  exact he.bind (pays_ensureSort hc hs e)

end

/-- Checking by inference pays for the type and for the comparison that says yes. -/
theorem pays_checkInferred (he : c.Pays (fun c _ => c.infer e Γ) s)
    (hconv : c.Pays (fun c _ => c.conv s t Γ) true) :
    c.Pays (fun c _ => c.checkInferred e t Γ) () := by
  simp only [checkInferred, requireConv]
  refine he.bind (hconv.bind ?_)
  simp only [reduceIte]
  exact .pure ()

theorem pays_check_of_inferred (hform : e.Inferred) (he : c.Pays (fun c _ => c.infer e Γ) s)
    (hconv : c.Pays (fun c _ => c.conv s t Γ) true) : c.Pays (fun c _ => c.check e t Γ) () := by
  simp only [check_eq_checkInferred hform]
  exact pays_checkInferred he hconv

/-! ## Inferring form by form -/

theorem pays_inferNode_bvar {i : Nat} {entry : Entry} (hentry : Γ[i]? = some entry) :
    c.Pays (fun c _ => c.inferNode (.bvar i) Γ) (entry.type.shift 0 (i + 1)) := by
  simp only [inferNode, hentry]
  exact .pure _

theorem pays_inferNode_sort (l : Level) :
    c.Pays (fun c _ => c.inferNode (.sort l) Γ) (.sort l.succ) := by
  simp only [inferNode]
  exact .pure _

theorem pays_inferNode_const {d : Declaration} {ls : List Level} (hd : c.const? n = some d)
    (hlength : d.params.length = ls.length) :
    c.Pays (fun c _ => c.inferNode (.const n ls) Γ) (d.type.substLevels (d.params.zip ls)) := by
  refine (Pays.pure _).congr fun limit n p _ => ?_
  have hconst : Checker.const? { c with limit := limit } _ = some _ := hd
  rw [inferNode, constType, hconst]
  exact congrFun (if_pos hlength) p

/-- An application is inferred at the cost of its function's type, of its evaluation and of the
argument. -/
theorem pays_inferNode_app (hc : c.memoize = false) {f : Term}
    (hf : c.Pays (fun c _ => c.infer f Γ) s) (hs : Evaluates c.const? true Γ s (.pi n t b))
    (ha : c.Pays (fun c _ => c.check a t Γ) ()) :
    c.Pays (fun c _ => c.inferNode (.app f a) Γ) (b.instantiate a) := by
  simp only [inferNode, ensurePi_eq]
  exact hf.bind ((pays_ensureBinding hc hs _).bind (ha.bind (.pure _)))

/-- A function type or a pair type is inferred at the cost of the sorts of its parts. -/
theorem pays_inferNode_quantifier (hk : k ≠ .lam) {r : Level}
    (ht : c.Pays (fun c _ => c.sortOf t Γ) l) (hb : c.Pays (fun c _ => c.sortOf b (Γ.push n t)) r) :
    c.Pays (fun c _ => c.inferNode (.bind k n t b) Γ) (.sort (Level.max l r).normalize) := by
  have hbind : c.Pays (fun c _ => c.sortOf t Γ >>= fun l => c.sortOf b (Γ.push n t) >>=
      fun r => pure (Term.sort (Level.max l r).normalize)) (.sort (Level.max l r).normalize) :=
    ht.bind (hb.bind (.pure _))
  refine hbind.congr fun limit j p _ => ?_
  rw [inferNode]
  exact hk

/-! ## Checking part by part -/

/-- A function is checked at the cost of the expected type, the comparison of the domains and the
body. -/
theorem pays_checkLam (hc : c.memoize = false) {m : Name} {d : Term}
    (hA : Evaluates c.const? true Γ A (.pi m u d)) (ht : c.Pays (fun c _ => c.sortOf t Γ) l)
    (hconv : c.Pays (fun c _ => c.conv t u Γ) true)
    (hb : c.Pays (fun c _ => c.check b d (Γ.push n t)) ()) :
    c.Pays (fun c _ => c.check (.lam n t b) A Γ) () := by
  simp only [check]
  refine (pays_whnf hc hA).bind (ht.bind (hconv.bind ?_))
  simp only [reduceIte]
  exact hb

theorem pays_checkLet {v : Term} (ht : c.Pays (fun c _ => c.sortOf t Γ) l)
    (hv : c.Pays (fun c _ => c.check v t Γ) ())
    (hb : c.Pays (fun c _ => c.check b (A.shift 0 1) (Γ.pushLet n t v)) ()) :
    c.Pays (fun c _ => c.check (.letE n t v b) A Γ) () := by
  simp only [check]
  exact ht.bind (hv.bind hb)

/-- A pair is checked at the cost of the expected type and of its two parts. -/
theorem pays_checkPair (hc : c.memoize = false) {d : Term}
    (hA : Evaluates c.const? true Γ A (.sigma n t d)) (ha : c.Pays (fun c _ => c.check a t Γ) ())
    (hb : c.Pays (fun c _ => c.check b (d.instantiate a) Γ) ()) :
    c.Pays (fun c _ => c.check (.pair a b) A Γ) () := by
  simp only [check]
  exact (pays_whnf hc hA).bind (ha.bind hb)

/-! ## Equal types -/

/-- A checker without tables over sound declarations. -/
structure Trusts (c : Checker) (ρ : Name → Nat) : Prop where
  forgetful : c.memoize = false
  closed : c.SeesClosed
  sound : Signature.Sound c.const? c.const? ρ

/-- A run finds the type of a term, and accepts the term for joinable types; or it accepts
the term for the type. In each case the comparisons that are made may miss no pair. -/
def Finds (c : Checker) (ρ : Name → Nat) : Mode → Context → Term → Term → Prop
  | .infer, Γ, e, t => (c.Overt Γ e none → c.Pays (fun c _ => c.infer e Γ) t) ∧
      ∀ A, ValidType c.const? ρ Γ A → Joinable Level.Equiv c.const? Γ.values t A →
        c.Overt Γ e (some A) → c.Pays (fun c _ => c.check e A Γ) ()
  | .check, Γ, e, t => c.Overt Γ e (some t) → c.Pays (fun c _ => c.check e t Γ) ()

namespace Trusts

variable (hc : c.Trusts ρ)

include hc

/-- **Joinable types are found equal** unless a pair is missed. -/
theorem pays_conv (hΓ : Γ.Valid c.const? ρ) (hA : ValidType c.const? ρ Γ A)
    (hB : ValidType c.const? ρ Γ B) (h : Joinable Level.Equiv c.const? Γ.values A B)
    (hmisses : c.MissesNoPair ⟨A, B, Γ⟩) : c.Pays (fun c _ => c.conv A B Γ) true := by
  have hfit {A : Term} (hA : ValidType c.const? ρ Γ A) : A.Fit c.const? Γ :=
    ⟨hA.scope, hA.terminates hc.sound.values hΓ⟩
  obtain ⟨answer, hpays, hyes⟩ := Checker.pays_conv hc.forgetful hc.closed hΓ.scope (hfit hA)
    (hfit hB)
  rwa [hyes hmisses h] at hpays

/-- A form that is not checked part by part. -/
theorem finds_of_inferNode (h : Judges c.const? .infer Γ e t) (hΓ : Γ.Valid c.const? ρ)
    (hform : e.Inferred) (hnode : c.Overt Γ e none → c.Pays (fun c _ => c.inferNode e Γ) t) :
    c.Finds ρ .infer Γ e t := by
  refine ⟨fun hovert => pays_infer hc.forgetful (hnode hovert), fun A hA hjoin hovert => ?_⟩
  have hinfer := pays_infer hc.forgetful (hnode fun q hq => hovert q (.inferred hform hq))
  refine pays_check_of_inferred hform hinfer ?_
  exact hc.pays_conv hΓ (h.validType hc.sound hΓ) hA hjoin (hovert _ (.found hform h))

/-! ## Forms that are checked part by part -/

/-- A function is found for the type that the rules give, and accepted for every type joinable with
that. -/
theorem finds_lam (hΓ : Γ.Valid c.const? ρ) (ht : ValidType c.const? ρ Γ t)
    (hsort : c.Overt Γ t none → c.Pays (fun c _ => c.sortOf t Γ) l)
    (hb : c.Finds ρ .infer (Γ.push n t) b u) : c.Finds ρ .infer Γ (.lam n t b) (.pi n t u) := by
  have hdomain {expected : Option Term} (hovert : c.Overt Γ (.lam n t b) expected) :
      c.Pays (fun c _ => c.sortOf t Γ) l :=
    hsort fun q hq => hovert q (.domain hq)
  refine ⟨fun hovert => pays_infer hc.forgetful ?_, fun A hA hjoin hovert => ?_⟩
  · simp only [inferNode]
    exact (hdomain hovert).bind ((hb.1 fun q hq => hovert q (.body hq)).bind (.pure _))
  · obtain ⟨m, d, d', hpi, hd, hd'⟩ := hA.exists_bind hc.sound.values hΓ hjoin.symm
    have hconv := hc.pays_conv hΓ ht (hA.domain hc.sound.values hΓ hpi) hd.symm
      (hovert _ (.parameter hpi))
    exact pays_checkLam hc.forgetful hpi (hdomain hovert) hconv
      (hb.2 d' (hA.body hc.sound.values hΓ hpi ht hd.symm) hd'.symm
        fun q hq => hovert q (.result hpi hq))

/-- A local definition is found if its value is accepted and its body is found with the value in the
context. -/
theorem finds_letE {v : Term} (hsort : c.Overt Γ t none → c.Pays (fun c _ => c.sortOf t Γ) l)
    (hv : c.Overt Γ v (some t) → c.Pays (fun c _ => c.check v t Γ) ())
    (hb : c.Finds ρ .infer (Γ.pushLet n t v) b u) :
    c.Finds ρ .infer Γ (.letE n t v b) (u.instantiate v) := by
  have hL := Level.congruence_equiv
  have hsig := hc.sound.values
  have htype {expected : Option Term} (hovert : c.Overt Γ (.letE n t v b) expected) :
      c.Pays (fun c _ => c.sortOf t Γ) l :=
    hsort fun q hq => hovert q (.letType hq)
  have hvalue {expected : Option Term} (hovert : c.Overt Γ (.letE n t v b) expected) :
      c.Pays (fun c _ => c.check v t Γ) () :=
    hv fun q hq => hovert q (.letValue hq)
  refine ⟨fun hovert => pays_infer hc.forgetful ?_, fun A hA hjoin hovert => ?_⟩
  · simp only [inferNode]
    have hbody := hb.1 fun q hq => hovert q (.letBody hq)
    exact (htype hovert).bind ((hvalue hovert).bind (hbody.bind (.pure _)))
  · have hshift : Joinable Level.Equiv c.const? (Γ.pushLet n t v).values u (A.shift 0 1) :=
      (Joinable.instantiate_shift hL hsig u v).trans hL hsig (hjoin.shift hsig _)
    exact pays_checkLet (htype hovert) (hvalue hovert)
      (hb.2 _ (hA.shift _) hshift fun q hq => hovert q (.letBody hq))

/-- A pair is found if its parts are, and accepted for every type that is joinable with the type of
pairs found. -/
theorem finds_pair (hΓ : Γ.Valid c.const? ρ) (ha : Judges c.const? .infer Γ a t)
    (hfst : c.Finds ρ .infer Γ a t) (hsnd : c.Finds ρ .infer Γ b u) :
    c.Finds ρ .infer Γ (.pair a b) (t.prod u) := by
  have hL := Level.congruence_equiv
  have hsig := hc.sound.values
  refine ⟨fun hovert => pays_infer hc.forgetful ?_, fun A hA hjoin hovert => ?_⟩
  · simp only [inferNode]
    have hright := hsnd.1 fun q hq => hovert q (.right hq)
    exact (hfst.1 fun q hq => hovert q (.left hq)).bind (hright.bind (.pure _))
  · obtain ⟨m, d, d', hsigma, hd, hd'⟩ := hA.exists_bind hsig hΓ hjoin.symm
    have hexpected := hA.instantiate hc.sound hΓ hsigma (.compare ha hd.symm)
    have hjoin' := hd'.symm.instantiate hL hsig (.refl a)
    rw [Term.instantiate_shift_one] at hjoin'
    exact pays_checkPair hc.forgetful hsigma
      (hfst.2 d (hA.domain hsig hΓ hsigma) hd.symm fun q hq => hovert q (.first hsigma hq))
      (hsnd.2 _ hexpected hjoin' fun q hq => hovert q (.second hsigma hq))

/-- **Runs find what the rules give.** By induction on the rules. -/
theorem finds {mode : Mode} (h : Judges c.const? mode Γ e t) (hΓ : Γ.Valid c.const? ρ)
    (hmode : mode = .check → ValidType c.const? ρ Γ t) : c.Finds ρ mode Γ e t := by
  have hsig := hc.sound.values
  have hinfer {Q : Prop} : Mode.infer = .check → Q := fun h => by cases h
  -- the sort of a type is found where its type is
  have hsorted {Γ : Context} {t s : Term} {l : Level} (hs : Evaluates c.const? true Γ s (.sort l))
      (hfinds : c.Finds ρ .infer Γ t s) (hovert : c.Overt Γ t none) :
      c.Pays (fun c _ => c.sortOf t Γ) l :=
    pays_sortOf hc.forgetful (hfinds.1 hovert) hs
  induction h with
  | bvar hentry =>
    exact hc.finds_of_inferNode (.bvar hentry) hΓ trivial fun _ => pays_inferNode_bvar hentry
  | sort l => exact hc.finds_of_inferNode (.sort l) hΓ trivial fun _ => pays_inferNode_sort l
  | const hd hlength =>
    exact hc.finds_of_inferNode (.const hd hlength) hΓ trivial fun _ =>
      pays_inferNode_const hd hlength
  | @app Γ n f a s t b hf hs ha ihf iha =>
    have hdomain := (hf.validType hc.sound hΓ).domain hsig hΓ hs
    refine hc.finds_of_inferNode (.app hf hs ha) hΓ trivial fun hovert => ?_
    exact pays_inferNode_app hc.forgetful ((ihf hΓ hinfer).1 fun q hq => hovert q (.fn hq)) hs
      (iha hΓ (fun _ => hdomain) fun q hq => hovert q (.arg hf hs hq))
  | @lam Γ n s t b u l ht hs hb iht ihb =>
    have htype := ht.validType_of_sort hc.sound hs
    exact hc.finds_lam hΓ htype (hsorted hs (iht hΓ hinfer)) (ihb (hΓ.push hsig htype n) hinfer)
  | @quantifier Γ k n s s' t b l r m hk ht hs hb hs' hm iht ihb =>
    have htype := ht.validType_of_sort hc.sound hs
    have hform : (Term.bind k n t b).Inferred := by
      cases k with
      | lam => exact absurd rfl hk
      | pi | sigma => trivial
    refine hc.finds_of_inferNode (.quantifier hk ht hs hb hs' hm) hΓ hform fun hovert => ?_
    rw [hm]
    exact pays_inferNode_quantifier hk
      (hsorted hs (iht hΓ hinfer) fun q hq => hovert q (.domain hq))
      (hsorted hs' (ihb (hΓ.push hsig htype n) hinfer) fun q hq => hovert q (.body hq))
  | @letE Γ n s t v b u l ht hs hv hb iht ihv ihb =>
    have htype := ht.validType_of_sort hc.sound hs
    exact hc.finds_letE (hsorted hs (iht hΓ hinfer)) (ihv hΓ fun _ => htype)
      (ihb (hΓ.pushLet hc.sound htype hv n) hinfer)
  | pair ha hb iha ihb => exact hc.finds_pair hΓ ha (iha hΓ hinfer) (ihb hΓ hinfer)
  | fst hp hs ih =>
    refine hc.finds_of_inferNode (.fst hp hs) hΓ trivial fun hovert => ?_
    simp only [inferNode, ensureSigma_eq]
    exact ((ih hΓ hinfer).1 fun q hq => hovert q (.target hq)).bind
      ((pays_ensureBinding hc.forgetful hs _).bind (.pure _))
  | snd hp hs ih =>
    refine hc.finds_of_inferNode (.snd hp hs) hΓ trivial fun hovert => ?_
    simp only [inferNode, ensureSigma_eq]
    exact ((ih hΓ hinfer).1 fun q hq => hovert q (.target hq)).bind
      ((pays_ensureBinding hc.forgetful hs _).bind (.pure _))
  | @checkLam Γ n m s t t' b b' A l hA ht hs htt' hb iht ihb =>
    have hexpected := hmode rfl
    have htype := ht.validType_of_sort hc.sound hs
    intro hovert
    exact pays_checkLam hc.forgetful hA
      (hsorted hs (iht hΓ hinfer) fun q hq => hovert q (.domain hq))
      (hc.pays_conv hΓ htype (hexpected.domain hsig hΓ hA) htt' (hovert _ (.parameter hA)))
      (ihb (hΓ.push hsig htype n) (fun _ => hexpected.body hsig hΓ hA htype htt')
        fun q hq => hovert q (.result hA hq))
  | @checkLet Γ n s t v b A l ht hs hv hb iht ihv ihb =>
    have hexpected := hmode rfl
    have htype := ht.validType_of_sort hc.sound hs
    intro hovert
    exact pays_checkLet (hsorted hs (iht hΓ hinfer) fun q hq => hovert q (.letType hq))
      (ihv hΓ (fun _ => htype) fun q hq => hovert q (.letValue hq))
      (ihb (hΓ.pushLet hc.sound htype hv n) (fun _ => hexpected.shift _)
        fun q hq => hovert q (.letBody hq))
  | checkPair hA ha hb iha ihb =>
    have hexpected := hmode rfl
    intro hovert
    exact pays_checkPair hc.forgetful hA
      (iha hΓ (fun _ => hexpected.domain hsig hΓ hA) fun q hq => hovert q (.first hA hq))
      (ihb hΓ (fun _ => hexpected.instantiate hc.sound hΓ hA ha)
        fun q hq => hovert q (.second hA hq))
  | compare _ hst ih => exact (ih hΓ hinfer).2 _ (hmode rfl) hst

end Trusts

end Checker

end TypeTheory
