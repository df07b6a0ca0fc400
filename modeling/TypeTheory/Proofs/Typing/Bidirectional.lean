import TypeTheory.Proofs.Soundness.Typing
import TypeTheory.Proofs.Typing.Rules

/-!
# Runs follow the rules

A run of the checker that succeeds follows the rules of inference and checking, with
types compared up to reduction and levels that the checker finds equal (`Judges`).
`Checker.Follows e` is the claim about both directions of the checker, and it follows
for a term from the claim about its parts.

A type that is remembered was found by the rules, and since its term is closed it may
be used in every context (`Progress.Judged`).
-/

namespace TypeTheory

open CheckM

/-- The rules as the checker follows them. -/
abbrev Judges (sig : Signature) : Mode → Context → Term → Term → Prop :=
  Accepts sig (Evaluates sig true) (fun Γ => Joinable Level.Equiv sig Γ.values)
    fun m l => m = l.normalize

/-- What the tables hold is right, and the types in them were found by the rules. -/
def Progress.Judged (sig : Signature) (p : Progress) : Prop :=
  p.Right sig ∧ ∀ e t, (p.memo .type).find? e = some t → ∀ Γ, Judges sig .infer Γ e t

/-- Without remembered results there is no type to have been found by the rules. -/
theorem Progress.Judged.of_blank {sig : Signature} {p : Progress} (h : p.Blank) :
    p.Judged sig := by
  refine ⟨.of_blank h, fun e t ht => ?_⟩
  rw [h .type e] at ht
  cases ht

/-- A closed term has the type that was found for it in every context. -/
theorem Accepts.of_closed {sig : Signature} (hsig : sig.ClosedValues)
    (htypes : ∀ n d, sig n = some d → d.type.looseRange ≤ 0) {Γ : Context} {e t : Term}
    (h : Judges sig .infer Γ e t) (he : e.looseRange ≤ 0) (Δ : Context) :
    Judges sig .infer Δ e t := by
  refine (h.of_agreeTo htypes ?_ ?_ Context.AgreeTo.zero he fun h => by cases h).1
  · intro n Γ Γ' x y hΓ hx hxy
    exact hxy.of_agreeTo hsig hΓ hx
  · intro n Γ Γ' x y hΓ hx hy hxy
    exact hxy.of_valuesAgree hsig hΓ.values hx hy

namespace Checker

variable {c : Checker} {Γ : Context}

/-- The invariant of the tables is one that reduction and conversion respect, as they keep no
types. -/
theorem guarded_judged : c.Guarded (Progress.Judged c.const?) where
  tick p hp := ⟨hp.1.tick, hp.2⟩
  addCalls p i j k hp := ⟨hp.1.addCalls i j k, hp.2⟩
  right p hp := hp.1
  keep p q e r hq hp hr := by
    refine ⟨hp.1.keep hr, fun x t ht => ?_⟩
    rcases find?_keep ht with ⟨htype, -⟩ | hold
    · exact absurd htype.symm hq
    · exact hp.2 x t hold

/-- A run that follows the rules as far as it gets. -/
abbrev Obeys {α : Type} (c : Checker) (m : CheckM α) (post : α → Prop) : Prop :=
  Ensures (Progress.Judged c.const?) post m

/-- What is found for a term, and what it is accepted for, is so by the rules. -/
def Follows (c : Checker) (e : Term) : Prop :=
  ∀ Γ, c.Obeys (c.infer e Γ) (Judges c.const? .infer Γ e) ∧
    ∀ t, c.Obeys (c.check e t Γ) fun _ => Judges c.const? .check Γ e t

theorem Obeys.mono {α : Type} {post post' : α → Prop} {m : CheckM α} (h : c.Obeys m post)
    (hpost : ∀ a, post a → post' a) : c.Obeys m post' :=
  Ensures.imp h hpost

variable (hclosed : c.SeesClosed)

include hclosed

/-! ## Expected shapes -/

theorem obeys_evaluates (e : Term) : c.Obeys (c.whnf e Γ) (Evaluates c.const? true Γ e) :=
  ensures_whnf hclosed guarded_judged e Γ

theorem obeys_conv (x y : Term) : c.Obeys (c.conv x y Γ) fun r =>
    r = true → Joinable Level.Equiv c.const? Γ.values x y :=
  ensures_conv hclosed guarded_judged x y Γ

theorem obeys_sort (e t : Term) :
    c.Obeys (c.ensureSort t e Γ) fun l => Evaluates c.const? true Γ t (.sort l) := by
  unfold ensureSort
  split
  · exact .pure (.sort _)
  · refine (obeys_evaluates hclosed t).bind fun w hw => ?_
    split
    · exact .pure hw
    · exact .throw trivial

/-- A type that is required to be a function type or a pair type evaluates to one. -/
theorem obeys_binding {k : Binder} {error : KernelError} (t : Term) :
    c.Obeys (c.ensureBinding k error t Γ) fun b =>
      Evaluates c.const? true Γ t (.bind k b.name b.domain b.body) := by
  unfold ensureBinding
  split
  · rename_i b hb
    rw [Term.eq_bind_of_binding? hb]
    exact .pure (.bind ..)
  · refine (obeys_evaluates hclosed t).bind fun w hw => ?_
    split
    · rename_i b hb
      rw [Term.eq_bind_of_binding? hb] at hw
      exact .pure hw
    · exact .throw trivial

/-! ## Shared steps -/

/-- Inference follows the rules if its rule does: a remembered type was found by the rules in some
context. -/
theorem follows_infer {e : Term} (h : c.Obeys (c.inferNode e Γ) (Judges c.const? .infer Γ e)) :
    c.Obeys (c.infer e Γ) (Judges c.const? .infer Γ e) := by
  rw [infer]
  refine keeps_remembered ?_ (fun p r hp hr => hp.2 e r hr Γ) fun p r hp hr => ?_
  · exact (Keeps.modify fun p hp => guarded_judged.addCalls p 1 0 0 hp).bind fun _ _ => h
  · refine ⟨hp.1.keep fun _ => trivial, fun x t ht Δ => ?_⟩
    rcases find?_keep ht with ⟨-, rfl, rfl, hrange⟩ | hold
    · exact hr.of_closed hclosed.values hclosed.types hrange Δ
    · exact hp.2 x t hold Δ

/-- The sort that is found for a term is what the type found for it evaluates to. -/
theorem follows_sortOf {e : Term} (h : c.Follows e) (Γ : Context) :
    c.Obeys (c.sortOf e Γ) fun l =>
      ∃ s, Judges c.const? .infer Γ e s ∧ Evaluates c.const? true Γ s (.sort l) := by
  rw [sortOf]
  exact (h Γ).1.bind fun s hs => Obeys.mono (obeys_sort hclosed e s) fun l hl => ⟨s, hs, hl⟩

/-- Checking by inference is the rule for checking: the type that is found is joinable with the
expected one. -/
theorem follows_checkInferred {e : Term} (h : c.Obeys (c.infer e Γ) (Judges c.const? .infer Γ e))
    (t : Term) : c.Obeys (c.checkInferred e t Γ) fun _ => Judges c.const? .check Γ e t := by
  rw [checkInferred]
  refine h.bind fun s hs => ?_
  unfold requireConv
  refine (obeys_conv hclosed s t).bind fun r hr => ?_
  split
  · rename_i htrue
    exact .pure (.compare hs (hr htrue))
  · exact .throw trivial

/-- A form that is checked by inference follows the rules if its rule of inference does. -/
theorem follows_of_inferNode {e : Term} (he : e.Inferred)
    (hnode : ∀ Γ, c.Obeys (c.inferNode e Γ) (Judges c.const? .infer Γ e)) : c.Follows e := by
  intro Γ
  have hinfer := follows_infer hclosed (hnode Γ)
  refine ⟨hinfer, fun t => ?_⟩
  rw [check_eq_checkInferred he]
  exact follows_checkInferred hclosed hinfer t

/-! ## One form after the other -/

theorem follows_bvar (i : Nat) : c.Follows (.bvar i) := by
  refine follows_of_inferNode hclosed trivial fun Γ => ?_
  rw [inferNode]
  split
  · rename_i entry hentry
    exact .pure (.bvar hentry)
  · exact .throw trivial

theorem follows_fvar (n : Name) : c.Follows (.fvar n) := by
  refine follows_of_inferNode hclosed trivial fun Γ => ?_
  rw [inferNode]
  exact .throw trivial

theorem follows_sort (l : Level) : c.Follows (.sort l) := by
  refine follows_of_inferNode hclosed trivial fun Γ => ?_
  rw [inferNode]
  exact .pure (.sort l)

/-- A constant has its declared type, at as many levels as it has parameters. -/
theorem follows_const (n : Name) (levels : List Level) : c.Follows (.const n levels) := by
  refine follows_of_inferNode hclosed trivial fun Γ => ?_
  rw [inferNode, constType]
  split
  · exact .throw trivial
  · rename_i d hd
    split
    · rename_i hlength
      exact .pure (.const hd hlength)
    · exact .throw trivial

/-- An application is accepted if the type of its function evaluates to a function type and the
argument is accepted. -/
theorem follows_app {f a : Term} (hf : c.Follows f) (ha : c.Follows a) : c.Follows (.app f a) := by
  refine follows_of_inferNode hclosed trivial fun Γ => ?_
  rw [inferNode]
  refine (hf Γ).1.bind fun s hs => ?_
  rw [ensurePi_eq]
  refine (obeys_binding hclosed s).bind fun fn hfn => ?_
  exact ((ha Γ).2 fn.domain).bind fun _ harg => .pure (.app hs hfn harg)

/-- A function is inferred by its body, or checked against a function type whose domain is
joinable. -/
theorem follows_lam {n : Name} {t b : Term} (ht : c.Follows t) (hb : c.Follows b) :
    c.Follows (.lam n t b) := by
  intro Γ
  have hinfer : c.Obeys (c.infer (.lam n t b) Γ) (Judges c.const? .infer Γ (.lam n t b)) := by
    refine follows_infer hclosed ?_
    rw [inferNode]
    refine (follows_sortOf hclosed ht Γ).bind fun l hsort => ?_
    obtain ⟨s, hs, hl⟩ := hsort
    exact (hb (Γ.push n t)).1.bind fun u hu => .pure (.lam hs hl hu)
  refine ⟨hinfer, fun expected => ?_⟩
  have hfallback := follows_checkInferred hclosed hinfer expected
  rw [check]
  refine (obeys_evaluates hclosed expected).bind fun w hw => ?_
  split
  · rename_i m t' b'
    refine (follows_sortOf hclosed ht Γ).bind fun l hsort => ?_
    obtain ⟨s, hs, hl⟩ := hsort
    refine (obeys_conv hclosed t t').bind fun r hr => ?_
    split
    · rename_i htrue
      exact Obeys.mono ((hb (Γ.push n t)).2 b') fun _ hbody => .checkLam hw hs hl (hr htrue) hbody
    · exact hfallback
  · exact hfallback

/-- A function type or a pair type has the maximum of the sorts of its parts. -/
theorem follows_quantifier {k : Binder} (hk : k ≠ .lam) {n : Name} {t b : Term}
    (ht : c.Follows t) (hb : c.Follows b) : c.Follows (.bind k n t b) := by
  have hform : (Term.bind k n t b).Inferred := by
    cases k with
    | lam => exact absurd rfl hk
    | pi | sigma => trivial
  refine follows_of_inferNode hclosed hform fun Γ => ?_
  rw [inferNode]
  · refine (follows_sortOf hclosed ht Γ).bind fun l hsort => ?_
    obtain ⟨s, hs, hl⟩ := hsort
    refine (follows_sortOf hclosed hb (Γ.push n t)).bind fun r hsort => .pure ?_
    obtain ⟨s', hs', hr⟩ := hsort
    exact .quantifier hk hs hl hs' hr rfl
  · exact hk

/-- A local definition is accepted in either direction once its value is accepted for its type. -/
theorem follows_letE {n : Name} {t v b : Term} (ht : c.Follows t) (hv : c.Follows v)
    (hb : c.Follows b) : c.Follows (.letE n t v b) := by
  intro Γ
  constructor
  · refine follows_infer hclosed ?_
    rw [inferNode]
    refine (follows_sortOf hclosed ht Γ).bind fun l hsort => ?_
    obtain ⟨s, hs, hl⟩ := hsort
    refine ((hv Γ).2 t).bind fun _ hvalue => ?_
    exact (hb (Γ.pushLet n t v)).1.bind fun u hu => .pure (.letE hs hl hvalue hu)
  · intro expected
    rw [check]
    refine (follows_sortOf hclosed ht Γ).bind fun l hsort => ?_
    obtain ⟨s, hs, hl⟩ := hsort
    refine ((hv Γ).2 t).bind fun _ hvalue => ?_
    exact Obeys.mono ((hb (Γ.pushLet n t v)).2 (expected.shift 0 1)) fun _ hbody =>
      .checkLet hs hl hvalue hbody

/-- A pair is inferred part by part, or checked against a pair type, the second part after the first
is put in. -/
theorem follows_pair {a b : Term} (ha : c.Follows a) (hb : c.Follows b) :
    c.Follows (.pair a b) := by
  intro Γ
  have hinfer : c.Obeys (c.infer (.pair a b) Γ) (Judges c.const? .infer Γ (.pair a b)) := by
    refine follows_infer hclosed ?_
    rw [inferNode]
    refine (ha Γ).1.bind fun t ht => ?_
    exact (hb Γ).1.bind fun u hu => .pure (.pair ht hu)
  refine ⟨hinfer, fun expected => ?_⟩
  have hfallback := follows_checkInferred hclosed hinfer expected
  rw [check]
  refine (obeys_evaluates hclosed expected).bind fun w hw => ?_
  split
  · rename_i m t u
    refine ((ha Γ).2 t).bind fun _ hfst => ?_
    exact Obeys.mono ((hb Γ).2 (u.instantiate a)) fun _ hsnd => .checkPair hw hfst hsnd
  · exact hfallback

/-- A projection is accepted if the type of its target evaluates to a pair type. -/
theorem follows_proj {k : Side} {p : Term} (hp : c.Follows p) : c.Follows (.proj k p) := by
  refine follows_of_inferNode hclosed trivial fun Γ => ?_
  rw [inferNode]
  refine (hp Γ).1.bind fun s hs => ?_
  rw [ensureSigma_eq]
  refine (obeys_binding hclosed s).bind fun pair hpair => ?_
  cases k with
  | fst => exact .pure (.fst hs hpair)
  | snd => exact .pure (.snd hs hpair)

/-- **Runs that succeed follow the rules**, on every term. -/
theorem follows (e : Term) : c.Follows e := by
  induction e with
  | bvar i => exact follows_bvar hclosed i
  | fvar n => exact follows_fvar hclosed n
  | sort l => exact follows_sort hclosed l
  | const n levels => exact follows_const hclosed n levels
  | app f a ihf iha => exact follows_app hclosed ihf iha
  | bind k n t b iht ihb =>
    cases k with
    | lam => exact follows_lam hclosed iht ihb
    | pi => exact follows_quantifier hclosed (by decide) iht ihb
    | sigma => exact follows_quantifier hclosed (by decide) iht ihb
  | letE n t v b iht ihv ihb => exact follows_letE hclosed iht ihv ihb
  | pair a b iha ihb => exact follows_pair hclosed iha ihb
  | proj k p ih => exact follows_proj hclosed ih

end Checker

end TypeTheory
