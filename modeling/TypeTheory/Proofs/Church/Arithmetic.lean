import TypeTheory.Proofs.Reduction.Normalization
import TypeTheory.Proofs.Scope.Abstraction
import TypeTheory.Proofs.Soundness.Conversion
import TypeTheory.Proofs.Term.Range

/-!
# Arithmetic on Church numerals

A numeral that is applied to a type, a function and a start applies the function to the
start as often as it says (`Church.weakReduces_numeral`). A sum applies `s` on top of what
the second number does, and a product does `m` times what applies `s` `n` times. So their
normal forms are numerals (`Church.normalizes_sum`, `Church.normalizes_product`), which is
an induction on the number of applications: below each `s` stands what is normalized next.

A numeral is accepted for the type of numbers (`Church.pays_check_numeral`): by induction,
its body has the type `A`, and its binders are compared with those of the type.
-/

namespace TypeTheory

namespace Church

open Term

variable {sig : Signature} {δ : Bool} {Γ : Context} {d m n k : Nat}

/-! ## Numerals as terms -/

/-- A numeral's body applies the bound function `n` times to what it starts with. -/
theorem iterate_eq (e : Term) (n : Nat) : iterate e n = (app (.bvar 1))^[n] e := by
  induction n generalizing e with
  | zero => rfl
  | succ n ih => exact ih _

theorem numeral_eq (n : Nat) :
    numeral n = numeralBinders .lam ((app (.bvar 1))^[n] (.bvar 0)) := by
  rw [numeral, iterate_eq]

/-- Substitution goes into an iterated application, at its function and at its start. -/
theorem subst_iterate (f x : Term) (n i : Nat) (r : Term) :
    ((app f)^[n] x).subst i r = (app (f.subst i r))^[n] (x.subst i r) := by
  induction n with
  | zero => rfl
  | succ n ih => rw [Function.iterate_succ_apply', Function.iterate_succ_apply', subst_app, ih]

theorem looseRange_iterate (n : Nat) : ((app (.bvar 1))^[n] (.bvar 0)).looseRange ≤ 2 := by
  induction n with
  | zero => simp
  | succ n ih =>
    rw [Function.iterate_succ_apply', looseRange_app_le]
    exact ⟨by simp, ih⟩

theorem looseRange_numeral (n : Nat) : (numeral n).looseRange ≤ 0 := by
  have h := looseRange_iterate n
  simp only [numeral_eq, numeralBinders, arrow, Term.pi, looseRange_bind_le]
  exact ⟨looseRange_sort_le, by simp, by simp, Nat.le_succ_of_le h⟩

/-- A numeral is closed. -/
@[simp] theorem shift_numeral (n i : Nat) (δ : Int) : (numeral n).shift i δ = numeral n :=
  shift_of_looseRange_le (Nat.le_trans (looseRange_numeral n) (Nat.zero_le i)) δ

@[simp] theorem subst_numeral (n i : Nat) (r : Term) : (numeral n).subst i r = numeral n :=
  subst_of_looseRange_le (Nat.le_trans (looseRange_numeral n) (Nat.zero_le i)) r

/-- Counting reads the applications off one after the other, on top of those already counted. -/
theorem count?_iterate (n k : Nat) :
    count? k ((app (.bvar 1))^[n] (.bvar 0)) = some (k + n) := by
  induction n generalizing k with
  | zero => rfl
  | succ n ih =>
    rw [Function.iterate_succ_apply', count?, ih]
    congr 1
    omega

/-- The number that is read back from a numeral is the number it was made from. -/
theorem toNat?_numeral (n : Nat) : toNat? (numeral n) = some n := by
  rw [numeral_eq]
  exact (count?_iterate n 0).trans (congrArg some (Nat.zero_add n))

/-! ## Numerals as functions -/

/-- **A numeral applies a function as often as it says.** -/
theorem weakReduces_numeral (n : Nat) (A s x : Term) :
    WeakReduces sig δ Γ ((numeral n).apps [A, s, x]) ((app s)^[n] x) := by
  have hA : (Term.lam (.atom "s") (.arrow (.bvar 0) (.bvar 0))
      (.lam (.atom "z") (.bvar 1) ((app (.bvar 1))^[n] (.bvar 0)))).instantiate A =
      Term.lam (.atom "s") (.arrow A A)
        (.lam (.atom "z") (A.shift 0 1) ((app (.bvar 1))^[n] (.bvar 0))) := by
    -- the body mentions `s` and `z` only
    simp [instantiate, subst_iterate, arrow]
  have hs : (Term.lam (.atom "z") (A.shift 0 1) ((app (.bvar 1))^[n] (.bvar 0))).instantiate s =
      Term.lam (.atom "z") A ((app (s.shift 0 1))^[n] (.bvar 0)) := by
    simp [instantiate, subst_iterate, subst_shift_one]
  have hx : ((app (s.shift 0 1))^[n] (.bvar 0)).instantiate x = (app s)^[n] x := by
    simp [instantiate, subst_iterate, subst_shift_one]
  rw [numeral_eq]
  refine .trans (.apps (.beta _ _ _ A) [s, x]) ?_
  rw [hA]
  refine .trans (.apps (.beta _ _ _ s) [x]) ?_
  rw [hs]
  refine .trans (.beta _ _ _ x) ?_
  rw [hx]
  exact .refl _

/-! ## Normal forms -/

/-- The variables of a numeral. -/
def numeralContext : Context :=
  ((Context.push [] (.atom "A") (.sort .zero)).push (.atom "s") (.arrow (.bvar 0) (.bvar 0))).push
    (.atom "z") (.bvar 1)

theorem normalizes_bvar {i : Nat} {entry : Entry} (hentry : Γ[i]? = some entry)
    (hvalue : entry.value = none) : Normalizes sig (d + 1) Γ (.bvar i) (.bvar i) :=
  ⟨_, .bvar hentry hvalue, .leaf rfl⟩

/-- **What is under `n` applications is normalized under `n` applications.** -/
theorem normalizes_iterate {x y : Term} (h : Normalizes sig (d + 1) numeralContext x y) (n : Nat) :
    Normalizes sig (d + n + 1) numeralContext ((app (.bvar 1))^[n] x) ((app (.bvar 1))^[n] y) := by
  induction n with
  | zero => exact h
  | succ n ih =>
    rw [Function.iterate_succ_apply', Function.iterate_succ_apply']
    have hs : Evaluates sig true numeralContext (.bvar 1) (.bvar 1) := .bvar rfl rfl
    have hparts : Rebuilt (Normalizes sig (d + n + 1)) numeralContext
        ((Term.bvar 1).apps [(app (.bvar 1))^[n] x]) ((Term.bvar 1).apps [(app (.bvar 1))^[n] y]) :=
      .apps rfl (normalizes_bvar rfl rfl) ih .nil
    exact ⟨_, .app hs rfl, hparts⟩

/-- Under the binders of a numeral the normal form is that of the body, three levels further
down. -/
theorem normalizes_numeralBinders {b b' : Term}
    (h : Normalizes sig (d + 1) numeralContext b b') :
    Normalizes sig (d + 4) [] (numeralBinders .lam b) (numeralBinders .lam b') := by
  refine ⟨_, .bind .lam _ _ _, .bind ⟨_, .sort _, .leaf rfl⟩ ?_⟩
  refine ⟨_, .bind .lam _ _ _, .bind ⟨_, .bind .pi _ _ _, .bind ?_ ?_⟩ ?_⟩
  · exact normalizes_bvar rfl rfl
  · exact normalizes_bvar rfl rfl
  · exact ⟨_, .bind .lam _ _ _, .bind (normalizes_bvar rfl rfl) h⟩

/-! ## Sums, products and successors -/

/-- The sum of two numbers as a term. -/
def sum (m n : Nat) : Term :=
  (Term.const (natName.str "add") []).apps [numeral m, numeral n]

/-- The product of two numbers as a term. -/
def product (m n : Nat) : Term :=
  (Term.const (natName.str "mul") []).apps [numeral m, numeral n]

/-- The successor of a number as a term. -/
def successor (n : Nat) : Term :=
  (Term.const (natName.str "succ") []).apps [numeral n]

/-- The declarations that a checker of arithmetic sees. -/
def signature : Signature :=
  (Checker.arithmetic 0).const?

theorem signature_eq_some : ∀ d ∈ declarations, signature d.name = some d := by
  decide +kernel

theorem signature_nat : signature natName = some ⟨natName, [], .sort (.ofNat 1), some natType⟩ :=
  signature_eq_some _ (.head _)

theorem signature_succ : signature (natName.str "succ") =
    some ⟨natName.str "succ", [], arrow nat nat, some succ⟩ :=
  signature_eq_some _ (.tail _ (.head _))

theorem signature_add : signature (natName.str "add") =
    some ⟨natName.str "add", [], arrow nat (arrow nat nat), some add⟩ :=
  signature_eq_some _ (.tail _ (.tail _ (.head _)))

theorem signature_mul : signature (natName.str "mul") =
    some ⟨natName.str "mul", [], arrow nat (arrow nat nat), some mul⟩ :=
  signature_eq_some _ (.tail _ (.tail _ (.tail _ (.head _))))

theorem subst_numeralBinders (b : Term) (i n : Nat) : (numeralBinders .lam b).subst i (numeral n) =
    numeralBinders .lam (b.subst (i + 3) (numeral n)) := by
  simp [numeralBinders, arrow]

/-- A defined constant at the head of a spine is unfolded, and the arguments stay. -/
theorem weakReduces_delta {c : Name} {t v : Term} (hc : signature c = some ⟨c, [], t, some v⟩)
    (args : List Term) :
    WeakReduces signature true Γ ((Term.const c []).apps args) (v.apps args) :=
  .apps (.delta rfl hc rfl rfl) args

/-- A definition by two numbers is unfolded and takes them. -/
theorem weakReduces_binary {c x y : Name} {t b : Term} (hc : signature c =
      some ⟨c, [], t, some (.lam x nat (.lam y nat (numeralBinders .lam b)))⟩) (m n : Nat) :
    WeakReduces signature true Γ ((Term.const c []).apps [numeral m, numeral n])
      (numeralBinders .lam ((b.subst 4 (numeral m)).subst 3 (numeral n))) := by
  refine .trans (weakReduces_delta hc _) (.trans (.apps (.beta _ _ _ _) [numeral n]) ?_)
  rw [instantiate, subst_bind, shift_numeral, subst_numeralBinders]
  refine .trans (.beta _ _ _ _) ?_
  rw [instantiate, subst_numeralBinders]
  exact .refl _

/-- The successor of `n` reduces to a numeral that applies its function once more than `n` does. -/
theorem weakReduces_successor (n : Nat) : WeakReduces signature true Γ (successor n)
    (numeralBinders .lam (.app (.bvar 1) ((numeral n).apps [.bvar 2, .bvar 1, .bvar 0]))) := by
  refine .trans (weakReduces_delta signature_succ _) (.trans (.beta _ _ _ _) ?_)
  rw [instantiate, subst_numeralBinders]
  simpa [apps] using WeakReduces.refl _

/-- A numeral of the variables applies `s` to what its argument comes to. -/
theorem normalizes_numeral_apps {x y : Term}
    (h : Normalizes sig (d + 1) numeralContext x y) (n : Nat) :
    Normalizes sig (d + n + 1) numeralContext ((numeral n).apps [.bvar 2, .bvar 1, x])
      ((app (.bvar 1))^[n] y) :=
  .of_sameValue (weakReduces_numeral n _ _ x).sameValue (normalizes_iterate h n)

/-- Nothing is applied in the start of a numeral, which is its own normal form. -/
theorem normalizes_zero : Normalizes sig (0 + 1) numeralContext (.bvar 0) (.bvar 0) :=
  normalizes_bvar rfl rfl

/-- The successor of a numeral has the next numeral as its normal form, at any depth that holds
it. -/
theorem normalizes_successor (n : Nat) :
    Normalizes signature (n + 1 + 4) [] (successor n) (numeral (n + 1)) := by
  have hbody := normalizes_iterate (@normalizes_numeral_apps signature 0 _ _ normalizes_zero n) 1
  rw [← Function.iterate_add_apply, Nat.zero_add, Nat.add_comm 1 n] at hbody
  rw [numeral_eq]
  exact .of_sameValue (weakReduces_successor n).sameValue (normalizes_numeralBinders hbody)

/-- A sum of numerals has the numeral of the sum as its normal form. -/
theorem normalizes_sum (m n : Nat) :
    Normalizes signature (m + n + 4) [] (sum m n) (numeral (m + n)) := by
  have hbody := normalizes_numeral_apps
    (@normalizes_numeral_apps signature 0 _ _ normalizes_zero n) m
  rw [← Function.iterate_add_apply, Nat.zero_add, Nat.add_comm n m] at hbody
  rw [numeral_eq]
  refine .of_sameValue (weakReduces_binary signature_add m n).sameValue
    (normalizes_numeralBinders ?_)
  simpa [apps] using hbody

/-- Doing `m` times what applies `s` `n` times. -/
theorem normalizes_iterate_numeral (m n : Nat) : Normalizes sig (m * n + 1) numeralContext
    ((app ((numeral n).apps [.bvar 2, .bvar 1]))^[m] (.bvar 0))
    ((app (.bvar 1))^[m * n] (.bvar 0)) := by
  induction m with
  | zero =>
    rw [Nat.zero_mul]
    exact normalizes_zero
  | succ m ih =>
    -- once more on top of `m` times: `n` more applications of `s`
    have hnext := normalizes_numeral_apps ih n
    rw [← Function.iterate_add_apply, Nat.add_comm n, ← Nat.succ_mul] at hnext
    rw [Function.iterate_succ_apply']
    exact hnext

/-- A product of numerals has the numeral of the product as its normal form. -/
theorem normalizes_product (m n : Nat) :
    Normalizes signature (m * n + 4) [] (product m n) (numeral (m * n)) := by
  have hbody : Normalizes signature (m * n + 1) numeralContext
      ((numeral m).apps [.bvar 2, (numeral n).apps [.bvar 2, .bvar 1], .bvar 0])
      ((app (.bvar 1))^[m * n] (.bvar 0)) :=
    .of_sameValue (weakReduces_numeral m _ _ _).sameValue (normalizes_iterate_numeral m n)
  rw [numeral_eq]
  refine .of_sameValue (weakReduces_binary signature_mul m n).sameValue
    (normalizes_numeralBinders ?_)
  simpa [apps] using hbody

/-! ## Types -/

section

open Checker

variable {c : Checker}

/-- An iterated application is inferred, as its outermost form is an application or a variable. -/
theorem inferred_iterate (n : Nat) : ((app (.bvar 1))^[n] (.bvar 0)).Inferred := by
  cases n with
  | zero => trivial
  | succ n =>
    rw [Function.iterate_succ_apply']
    trivial

/-- The body of a numeral is an `A`. -/
theorem pays_infer_iterate (hc : c.memoize = false) (n : Nat) :
    c.Pays (fun c _ => c.infer ((app (.bvar 1))^[n] (.bvar 0)) numeralContext) (.bvar 2) := by
  induction n with
  | zero => exact pays_infer hc (@pays_inferNode_bvar c numeralContext 0 _ rfl)
  | succ n ih =>
    have hs : c.Pays (fun c _ => c.infer (.bvar 1) numeralContext)
        (.pi .anonymous (.bvar 2) (.bvar 3)) :=
      pays_infer hc (@pays_inferNode_bvar c numeralContext 1 _ rfl)
    have hrest : c.Pays (fun c _ => c.check ((app (.bvar 1))^[n] (.bvar 0)) (.bvar 2)
        numeralContext) () :=
      pays_check_of_inferred (inferred_iterate n) ih (pays_conv_self _ _)
    rw [Function.iterate_succ_apply']
    exact pays_infer hc (pays_inferNode_app hc hs (.bind .pi _ _ _) hrest)

/-- The sort of a variable that is bound as a type is the lowest one. -/
theorem pays_sortOf_bvar (hc : c.memoize = false) {i : Nat} {x : Name}
    (hentry : Γ[i]? = some ⟨x, .sort .zero, none⟩) :
    c.Pays (fun c _ => c.sortOf (.bvar i) Γ) .zero :=
  pays_sortOf hc (pays_infer hc (pays_inferNode_bvar hentry)) (by simpa using .sort _)

/-- A numeral is accepted as a number, binder by binder. -/
theorem pays_check_numeral (hc : c.memoize = false) (hnat : Evaluates c.const? true [] nat natType)
    (n : Nat) : c.Pays (fun c _ => c.check (numeral n) nat []) () := by
  rw [numeral_eq]
  have hA : c.Pays (fun c _ => c.sortOf (.sort .zero) []) (.succ .zero) :=
    pays_sortOf hc (pays_infer hc (pays_inferNode_sort _)) (.sort _)
  refine pays_checkLam hc hnat hA (pays_conv_self _ _) ?_
  -- from here on the expected type is a function type as it stands
  have hs : c.Pays (fun c _ => c.sortOf (.arrow (.bvar 0) (.bvar 0))
      (Context.push [] (.atom "A") (.sort .zero))) (Level.max .zero .zero).normalize :=
    pays_sortOf hc (pays_infer hc (pays_inferNode_quantifier (by decide) (pays_sortOf_bvar hc rfl)
      (pays_sortOf_bvar hc rfl))) (.sort _)
  refine pays_checkLam hc (.bind .pi _ _ _) hs (pays_conv_self _ _) ?_
  refine pays_checkLam hc (.bind .pi _ _ _) (pays_sortOf_bvar hc rfl) (pays_conv_self _ _) ?_
  exact pays_check_of_inferred (inferred_iterate n) (pays_infer_iterate hc n) (pays_conv_self _ _)

/-- The type of numbers unfolds to its definition, which is reduced no further. -/
theorem evaluates_nat : Evaluates signature true Γ nat natType :=
  .delta (delta?_eq_some_iff.mpr ⟨_, _, rfl, signature_nat, rfl, rfl, rfl⟩) (.bind .pi _ _ _)

/-- A function of numbers takes a number. -/
theorem pays_infer_apply {f t : Term}
    (hf : (arithmetic 0).Pays (fun c _ => c.infer f []) (arrow nat t)) (n : Nat) :
    (arithmetic 0).Pays (fun c _ => c.infer (.app f (numeral n)) []) t := by
  have happ := pays_infer rfl (pays_inferNode_app rfl hf (.bind .pi _ _ _)
    (pays_check_numeral rfl evaluates_nat n))
  rwa [instantiate_shift_one] at happ

/-- A constant of arithmetic has the type that it is declared with, and no levels to substitute. -/
theorem pays_infer_const {x : Name} {t : Term} {v : Option Term}
    (hx : signature x = some ⟨x, [], t, v⟩) :
    (arithmetic 0).Pays (fun c _ => c.infer (.const x []) []) t :=
  pays_infer rfl (pays_inferNode_const hx rfl)

end

/-! ## Results -/

/-- **The checker finds that a term is a number, and which one**: its type is `Nat`, and its
normal form is the numeral, within every nesting that the numeral itself takes, from which
the number is read back. -/
structure Computes (c : Checker) (e : Term) (k : Nat) : Prop where
  infer : (c.infer e []).value? {} = some nat
  normalizeWithin : ∀ depth, k + 4 ≤ depth →
    (c.normalizeWithin depth e []).run.value? {} = some (some (numeral k))
  normalize : k + 4 ≤ Checker.nestingLimit → (c.normalize e []).value? {} = some (some (numeral k))
  toNat? : toNat? (numeral k) = some k

theorem seesClosed_arithmetic : (Checker.arithmetic 0).SeesClosed :=
  Checker.seesClosed_of_closed (by unfold Environment.Closed; decide +kernel)

/-- What has the type `Nat` and a numeral as its normal form is computed with every budget
that is large enough. -/
theorem exists_computes {e : Term}
    (htype : (Checker.arithmetic 0).Pays (fun c _ => c.infer e []) nat)
    (hnormal : Normalizes signature (k + 4) [] e (numeral k)) :
    ∃ N, ∀ limit memoize, N ≤ limit →
      Computes { Checker.arithmetic 0 with limit := limit, memoize := memoize } e k := by
  obtain ⟨N, hN⟩ := Checker.exists_value?_infer seesClosed_arithmetic htype
  obtain ⟨M, hM⟩ := Checker.exists_value?_normalizeWithin seesClosed_arithmetic hnormal
  refine ⟨max N M, fun limit memoize hle => ?_⟩
  have hwithin (depth : Nat) := hM limit memoize depth (by omega)
  exact ⟨hN limit memoize (by omega), hwithin, hwithin Checker.nestingLimit, toNat?_numeral k⟩

/-- **Arithmetic is right.** The declarations of arithmetic make an environment, and in it, for
all numbers and every budget that is large enough, whether results are remembered or not: a
sum, a product and a successor are found to be numbers, and the numbers that they are. -/
theorem computes_arithmetic : ∃ env, Environment.empty.insertAll declarations = .ok env ∧
    ∀ m n, ∃ N, ∀ limit memoize, N ≤ limit →
      let c : Checker := { env, visible := env.size, limit, memoize }
      Computes c (sum m n) (m + n) ∧ Computes c (product m n) (m * n) ∧
        Computes c (successor n) (n + 1) := by
  refine ⟨(Checker.arithmetic 0).env, by decide +kernel, fun m n => ?_⟩
  obtain ⟨N₁, hsum⟩ := exists_computes (pays_infer_apply (pays_infer_apply
    (pays_infer_const signature_add) m) n) (normalizes_sum m n)
  obtain ⟨N₂, hproduct⟩ := exists_computes (pays_infer_apply (pays_infer_apply
    (pays_infer_const signature_mul) m) n) (normalizes_product m n)
  obtain ⟨N₃, hsuccessor⟩ := exists_computes (pays_infer_apply
    (pays_infer_const signature_succ) n) (normalizes_successor n)
  refine ⟨max N₁ (max N₂ N₃), fun limit memoize hle => ⟨?_, ?_, ?_⟩⟩
  · exact hsum limit memoize (by omega)
  · exact hproduct limit memoize (by omega)
  · exact hsuccessor limit memoize (by omega)

end Church

end TypeTheory
