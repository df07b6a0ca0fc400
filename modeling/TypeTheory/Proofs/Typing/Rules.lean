import TypeTheory.Proofs.Conversion.Joinability

/-!
# Inference and checking by rules

`Accepts sig V E J` are the rules by which the checker finds the type of a term and
checks a term against a type: where a type has to have a certain form, it has that form
by `V`, and where two types have to be equal, they are related by `E`. The sort of a
dependent type is related by `J` to the maximum of the sorts of its parts.

Other than in `HasType`, no type is exchanged for another one unless the checker does
so, which is what makes the rules fit for an induction on the types that the checker
comes upon. A term looks at its own scope only (`Accepts.of_agreeTo`).
-/

namespace TypeTheory

open Relation

/-- Whether a type is found for a term, or the term is checked against it. -/
inductive Mode where
  | infer
  | check
  deriving DecidableEq, Inhabited, Repr

/-- **The rules of inference and checking.** -/
inductive Accepts (sig : Signature) (V E : Context → Term → Term → Prop)
    (J : Level → Level → Prop) : Mode → Context → Term → Term → Prop
  | bvar {Γ : Context} {i : Nat} {entry : Entry} : Γ[i]? = some entry →
      Accepts sig V E J .infer Γ (.bvar i) (entry.type.shift 0 (i + 1))
  | sort {Γ : Context} (l : Level) : Accepts sig V E J .infer Γ (.sort l) (.sort l.succ)
  | const {Γ : Context} {n : Name} {ls : List Level} {d : Declaration} : sig n = some d →
      d.params.length = ls.length →
      Accepts sig V E J .infer Γ (.const n ls) (d.type.substLevels (d.params.zip ls))
  | app {Γ : Context} {n : Name} {f a s t b : Term} : Accepts sig V E J .infer Γ f s →
      V Γ s (.pi n t b) → Accepts sig V E J .check Γ a t →
      Accepts sig V E J .infer Γ (.app f a) (b.instantiate a)
  | lam {Γ : Context} {n : Name} {s t b u : Term} {l : Level} : Accepts sig V E J .infer Γ t s →
      V Γ s (.sort l) → Accepts sig V E J .infer (Γ.push n t) b u →
      Accepts sig V E J .infer Γ (.lam n t b) (.pi n t u)
  | quantifier {Γ : Context} {k : Binder} {n : Name} {s s' t b : Term} {l r m : Level} :
      k ≠ .lam → Accepts sig V E J .infer Γ t s → V Γ s (.sort l) →
      Accepts sig V E J .infer (Γ.push n t) b s' → V (Γ.push n t) s' (.sort r) →
      J m (.max l r) → Accepts sig V E J .infer Γ (.bind k n t b) (.sort m)
  | letE {Γ : Context} {n : Name} {s t v b u : Term} {l : Level} : Accepts sig V E J .infer Γ t s →
      V Γ s (.sort l) → Accepts sig V E J .check Γ v t →
      Accepts sig V E J .infer (Γ.pushLet n t v) b u →
      Accepts sig V E J .infer Γ (.letE n t v b) (u.instantiate v)
  | pair {Γ : Context} {a b t u : Term} : Accepts sig V E J .infer Γ a t →
      Accepts sig V E J .infer Γ b u → Accepts sig V E J .infer Γ (.pair a b) (.prod t u)
  | fst {Γ : Context} {n : Name} {p s t u : Term} : Accepts sig V E J .infer Γ p s →
      V Γ s (.sigma n t u) → Accepts sig V E J .infer Γ (.proj1 p) t
  | snd {Γ : Context} {n : Name} {p s t u : Term} : Accepts sig V E J .infer Γ p s →
      V Γ s (.sigma n t u) →
      Accepts sig V E J .infer Γ (.proj2 p) (u.instantiate (.proj1 p))
  /-- The body is checked where the variable has the type that it is given. -/
  | checkLam {Γ : Context} {n m : Name} {s t t' b b' e : Term} {l : Level} :
      V Γ e (.pi m t' b') → Accepts sig V E J .infer Γ t s →
      V Γ s (.sort l) → E Γ t t' → Accepts sig V E J .check (Γ.push n t) b b' →
      Accepts sig V E J .check Γ (.lam n t b) e
  | checkLet {Γ : Context} {n : Name} {s t v b e : Term} {l : Level} :
      Accepts sig V E J .infer Γ t s → V Γ s (.sort l) →
      Accepts sig V E J .check Γ v t → Accepts sig V E J .check (Γ.pushLet n t v) b (e.shift 0 1) →
      Accepts sig V E J .check Γ (.letE n t v b) e
  | checkPair {Γ : Context} {n : Name} {a b t u e : Term} : V Γ e (.sigma n t u) →
      Accepts sig V E J .check Γ a t → Accepts sig V E J .check Γ b (u.instantiate a) →
      Accepts sig V E J .check Γ (.pair a b) e
  | compare {Γ : Context} {e s t : Term} : Accepts sig V E J .infer Γ e s → E Γ s t →
      Accepts sig V E J .check Γ e t

/-- More forms, more equal types and more equal sorts let more terms be accepted. -/
theorem Accepts.mono {sig : Signature} {V V' E E' : Context → Term → Term → Prop}
    {J J' : Level → Level → Prop} {mode : Mode} {Γ : Context} {e t : Term}
    (h : Accepts sig V E J mode Γ e t) (hV : ∀ Γ x y, V Γ x y → V' Γ x y)
    (hE : ∀ Γ x y, E Γ x y → E' Γ x y) (hJ : ∀ l r, J l r → J' l r) :
    Accepts sig V' E' J' mode Γ e t := by
  induction h with
  | bvar hentry => exact .bvar hentry
  | sort l => exact .sort l
  | const hd hlength => exact .const hd hlength
  | app _ hs _ ihf iha => exact .app ihf (hV _ _ _ hs) iha
  | lam _ hs _ iht ihb => exact .lam iht (hV _ _ _ hs) ihb
  | quantifier hk _ hs _ hs' hm iht ihb =>
    exact .quantifier hk iht (hV _ _ _ hs) ihb (hV _ _ _ hs') (hJ _ _ hm)
  | letE _ hs _ _ iht ihv ihb => exact .letE iht (hV _ _ _ hs) ihv ihb
  | pair _ _ iha ihb => exact .pair iha ihb
  | fst _ hs ih => exact .fst ih (hV _ _ _ hs)
  | snd _ hs ih => exact .snd ih (hV _ _ _ hs)
  | checkLam he _ hs htt' _ iht ihb =>
    exact .checkLam (hV _ _ _ he) iht (hV _ _ _ hs) (hE _ _ _ htt') ihb
  | checkLet _ hs _ _ iht ihv ihb => exact .checkLet iht (hV _ _ _ hs) ihv ihb
  | checkPair he _ _ iha ihb => exact .checkPair (hV _ _ _ he) iha ihb
  | compare _ hst ih => exact .compare ih (hE _ _ _ hst)

/-! ## Scopes -/

section

variable {sig : Signature} {δ : Bool} {Γ Γ' : Context} {L : Level → Level → Prop}
  {ν ν' : List (Option Term)} {e r x y t : Term} {n : Nat}

/-- Contexts that agree up to some variable agree up to one more if the same variable is added to
both. -/
theorem Context.AgreeTo.push (h : Context.AgreeTo n Γ Γ') (ht : t.looseRange ≤ n) (x : Name) :
    Context.AgreeTo (n + 1) (Γ.push x t) (Γ'.push x t) :=
  h.cons ht fun _ hv => by cases hv

theorem Context.AgreeTo.pushLet {v : Term} (h : Context.AgreeTo n Γ Γ') (ht : t.looseRange ≤ n)
    (hv : v.looseRange ≤ n) (x : Name) :
    Context.AgreeTo (n + 1) (Γ.pushLet x t v) (Γ'.pushLet x t v) := by
  refine h.cons ht fun w hw => ?_
  cases hw
  exact hv

/-- A term is evaluated in its own scope. -/
theorem Evaluates.of_agreeTo (hsig : sig.ClosedValues) (h : Evaluates sig δ Γ e r)
    (hΓ : Context.AgreeTo n Γ Γ') (he : e.looseRange ≤ n) :
    Evaluates sig δ Γ' e r ∧ r.looseRange ≤ n := by
  induction h with
  | fvar y => exact ⟨.fvar y, he⟩
  | sort l => exact ⟨.sort l, he⟩
  | bind k y t b => exact ⟨.bind k y t b, he⟩
  | pair a b => exact ⟨.pair a b, he⟩
  | bvar hentry hvalue =>
    obtain ⟨entry, hi, hi', -, -⟩ := hΓ _ (Term.looseRange_bvar_le.mp he)
    rw [hentry] at hi
    cases hi
    exact ⟨.bvar hi' hvalue, he⟩
  | lookup hentry hvalue _ ih =>
    obtain ⟨entry, hi, hi', -, hv⟩ := hΓ _ (Term.looseRange_bvar_le.mp he)
    rw [hentry] at hi
    cases hi
    have hv := Nat.le_trans (Term.looseRange_shift_le (Nat.le_refl _) 0) (hv _ hvalue)
    obtain ⟨hr, hrange⟩ := ih hv
    exact ⟨.lookup hi' hvalue hr, hrange⟩
  | const hnone => exact ⟨.const hnone, he⟩
  | delta hsome _ ih =>
    obtain ⟨hr, hrange⟩ := ih (Nat.le_trans (hsig.delta? hsome) (Nat.zero_le n))
    exact ⟨.delta hsome hr, hrange⟩
  | zeta _ ih =>
    obtain ⟨-, hv, hb⟩ := Term.looseRange_letE_le.mp he
    obtain ⟨hr, hrange⟩ := ih (Term.looseRange_instantiate_le hb hv)
    exact ⟨.zeta hr, hrange⟩
  | beta _ _ ihf ih =>
    obtain ⟨hf, ha⟩ := Term.looseRange_app_le.mp he
    obtain ⟨hlam, hlamRange⟩ := ihf hf
    obtain ⟨hr, hrange⟩ :=
      ih (Term.looseRange_instantiate_le (Term.looseRange_bind_le.mp hlamRange).2 ha)
    exact ⟨.beta hlam hr, hrange⟩
  | app _ hlam ihf =>
    obtain ⟨hf, ha⟩ := Term.looseRange_app_le.mp he
    obtain ⟨hg, hgRange⟩ := ihf hf
    exact ⟨.app hg hlam, Term.looseRange_app_le.mpr ⟨hgRange, ha⟩⟩
  | iota _ hq _ ihp ih =>
    obtain ⟨hp, hpRange⟩ := ihp (Term.looseRange_proj_le.mp he)
    obtain ⟨hr, hrange⟩ := ih (looseRange_component?_le hpRange hq)
    exact ⟨.iota hp hq hr, hrange⟩
  | proj _ hnone ihp =>
    obtain ⟨hp, -⟩ := ihp (Term.looseRange_proj_le.mp he)
    exact ⟨.proj hp hnone, he⟩

/-- The first `n` values of both lists are the same, and look at no variable beyond
them. -/
def ValuesAgree (n : Nat) (ν ν' : List (Option Term)) : Prop :=
  ∀ i < n, ν[i]? = ν'[i]? ∧ ∀ v, ν[i]? = some (some v) → v.looseRange + (i + 1) ≤ n

theorem Context.AgreeTo.values (h : Context.AgreeTo n Γ Γ') :
    ValuesAgree n Γ.values Γ'.values := by
  intro i hi
  obtain ⟨entry, hentry, hentry', -, hv⟩ := h i hi
  rw [Context.values_getElem?, Context.values_getElem?, hentry, hentry']
  exact ⟨rfl, fun v hvalue => hv v (Option.some.inj hvalue)⟩

theorem ValuesAgree.cons_none (h : ValuesAgree n ν ν') :
    ValuesAgree (n + 1) (none :: ν) (none :: ν') := by
  intro i hi
  cases i with
  | zero => exact ⟨rfl, fun v hv => by cases hv⟩
  | succ i =>
    obtain ⟨heq, hv⟩ := h i (Nat.lt_of_succ_lt_succ hi)
    exact ⟨heq, fun v hvalue => Nat.succ_le_succ (hv v hvalue)⟩

/-- A term is reduced in its own scope, if the values of definitions lie in it. -/
theorem Parallel.of_valuesAgree {m : Nat} (hsig : sig.ValuesWithin m) (h : Parallel L sig ν x y)
    (hm : m ≤ n) (hν : ValuesAgree n ν ν') (hx : x.looseRange ≤ n) :
    Parallel L sig ν' x y ∧ y.looseRange ≤ n := by
  induction h generalizing ν' n with
  | bvar i => exact ⟨.bvar i, hx⟩
  | lookup hv =>
    obtain ⟨heq, hrange⟩ := hν _ (Term.looseRange_bvar_le.mp hx)
    exact ⟨.lookup (heq ▸ hv),
      Nat.le_trans (Term.looseRange_shift_le (Nat.le_refl _) 0) (hrange _ hv)⟩
  | fvar x => exact ⟨.fvar x, hx⟩
  | sort hl => exact ⟨.sort hl, Nat.le_trans Term.looseRange_sort_le (Nat.zero_le n)⟩
  | const hls => exact ⟨.const hls, Nat.le_trans Term.looseRange_const_le (Nat.zero_le n)⟩
  | delta hls hv =>
    exact ⟨.delta hls hv, Nat.le_trans (hsig.headUnfolded? hv) hm⟩
  | app _ _ ihf iha =>
    obtain ⟨hf, ha⟩ := Term.looseRange_app_le.mp hx
    exact ⟨.app (ihf hm hν hf).1 (iha hm hν ha).1,
      Term.looseRange_app_le.mpr ⟨(ihf hm hν hf).2, (iha hm hν ha).2⟩⟩
  | beta _ _ ihb iha =>
    obtain ⟨hf, ha⟩ := Term.looseRange_app_le.mp hx
    obtain ⟨hb, hbRange⟩ :=
      ihb (Nat.le_succ_of_le hm) hν.cons_none (Term.looseRange_bind_le.mp hf).2
    exact ⟨.beta hb (iha hm hν ha).1, Term.looseRange_instantiate_le hbRange (iha hm hν ha).2⟩
  | bind _ _ iht ihb =>
    obtain ⟨ht, hb⟩ := Term.looseRange_bind_le.mp hx
    obtain ⟨hb, hbRange⟩ := ihb (Nat.le_succ_of_le hm) hν.cons_none hb
    exact ⟨.bind (iht hm hν ht).1 hb, Term.looseRange_bind_le.mpr ⟨(iht hm hν ht).2, hbRange⟩⟩
  | letE _ _ _ iht ihv ihb =>
    obtain ⟨ht, hv, hb⟩ := Term.looseRange_letE_le.mp hx
    obtain ⟨hb, hbRange⟩ := ihb (Nat.le_succ_of_le hm) hν.cons_none hb
    exact ⟨.letE (iht hm hν ht).1 (ihv hm hν hv).1 hb,
      Term.looseRange_letE_le.mpr ⟨(iht hm hν ht).2, (ihv hm hν hv).2, hbRange⟩⟩
  | zeta _ _ ihv ihb =>
    obtain ⟨-, hv, hb⟩ := Term.looseRange_letE_le.mp hx
    obtain ⟨hb, hbRange⟩ := ihb (Nat.le_succ_of_le hm) hν.cons_none hb
    exact ⟨.zeta (ihv hm hν hv).1 hb, Term.looseRange_instantiate_le hbRange (ihv hm hν hv).2⟩
  | pair _ _ iha ihb =>
    obtain ⟨ha, hb⟩ := Term.looseRange_pair_le.mp hx
    exact ⟨.pair (iha hm hν ha).1 (ihb hm hν hb).1,
      Term.looseRange_pair_le.mpr ⟨(iha hm hν ha).2, (ihb hm hν hb).2⟩⟩
  | proj _ ih =>
    obtain ⟨hp, hrange⟩ := ih hm hν (Term.looseRange_proj_le.mp hx)
    exact ⟨.proj hp, Term.looseRange_proj_le.mpr hrange⟩
  | iota hq _ ih =>
    obtain ⟨hp, hrange⟩ := ih hm hν (looseRange_component?_le (Term.looseRange_proj_le.mp hx) hq)
    exact ⟨.iota hq hp, hrange⟩

/-- Reductions look at the values of the scope only, and stay in the scope. -/
theorem Parallels.of_valuesAgree {m : Nat} (hsig : sig.ValuesWithin m) (h : Parallels L sig ν x y)
    (hm : m ≤ n) (hν : ValuesAgree n ν ν') (hx : x.looseRange ≤ n) :
    Parallels L sig ν' x y ∧ y.looseRange ≤ n := by
  induction h with
  | refl => exact ⟨.refl, hx⟩
  | tail _ hstep ih =>
    obtain ⟨hy, hrange⟩ := hstep.of_valuesAgree hsig hm hν ih.2
    exact ⟨ih.1.tail hy, hrange⟩

/-- Terms that are joinable in one context are so in every context that agrees on their scope. -/
theorem Joinable.of_valuesAgree (hsig : sig.ClosedValues) (h : Joinable L sig ν x y)
    (hν : ValuesAgree n ν ν') (hx : x.looseRange ≤ n) (hy : y.looseRange ≤ n) :
    Joinable L sig ν' x y := by
  obtain ⟨z, hxz, hyz⟩ := h
  exact ⟨z, (hxz.of_valuesAgree hsig (Nat.zero_le n) hν hx).1,
    (hyz.of_valuesAgree hsig (Nat.zero_le n) hν hy).1⟩

/-- **A term is accepted in its own scope**, and its type lies in it. -/
theorem Accepts.of_agreeTo {V E : Context → Term → Term → Prop} {J : Level → Level → Prop}
    {mode : Mode} (htypes : ∀ n d, sig n = some d → d.type.looseRange ≤ 0)
    (hV : ∀ n Γ Γ' x y, Context.AgreeTo n Γ Γ' → x.looseRange ≤ n → V Γ x y →
      V Γ' x y ∧ y.looseRange ≤ n)
    (hE : ∀ n Γ Γ' x y, Context.AgreeTo n Γ Γ' → x.looseRange ≤ n → y.looseRange ≤ n →
      E Γ x y → E Γ' x y)
    (h : Accepts sig V E J mode Γ e t) (hΓ : Context.AgreeTo n Γ Γ') (he : e.looseRange ≤ n)
    (ht : mode = .check → t.looseRange ≤ n) :
    Accepts sig V E J mode Γ' e t ∧ t.looseRange ≤ n := by
  have hinfer {P : Prop} : Mode.infer = .check → P := fun h => by cases h
  have hsort {l : Level} {n : Nat} : (Term.sort l).looseRange ≤ n :=
    Nat.le_trans Term.looseRange_sort_le (Nat.zero_le n)
  induction h generalizing n Γ' with
  | bvar hentry =>
    obtain ⟨entry, hi, hi', htype, -⟩ := hΓ _ (Term.looseRange_bvar_le.mp he)
    rw [hentry] at hi
    cases hi
    exact ⟨.bvar hi', Nat.le_trans (Term.looseRange_shift_le (Nat.le_refl _) 0) htype⟩
  | sort l => exact ⟨.sort l, hsort⟩
  | const hd hlength =>
    exact ⟨.const hd hlength, Nat.le_trans (Term.looseRange_substLevels_le _ (htypes _ _ hd))
      (Nat.zero_le n)⟩
  | app _ hs _ ihf iha =>
    obtain ⟨hf, ha⟩ := Term.looseRange_app_le.mp he
    obtain ⟨hf, hfRange⟩ := ihf hΓ hf hinfer
    obtain ⟨hs, hsRange⟩ := hV _ _ _ _ _ hΓ hfRange hs
    obtain ⟨ht', hb⟩ := Term.looseRange_bind_le.mp hsRange
    exact ⟨.app hf hs (iha hΓ ha fun _ => ht').1, Term.looseRange_instantiate_le hb ha⟩
  | lam _ hs _ iht ihb =>
    obtain ⟨ht', hb⟩ := Term.looseRange_bind_le.mp he
    obtain ⟨hT, hTRange⟩ := iht hΓ ht' hinfer
    obtain ⟨hb, hbRange⟩ := ihb (hΓ.push ht' _) hb hinfer
    exact ⟨.lam hT (hV _ _ _ _ _ hΓ hTRange hs).1 hb,
      Term.looseRange_bind_le.mpr ⟨ht', hbRange⟩⟩
  | @quantifier Γ k x s s' t b l r m hk _ hs _ hs' hm iht ihb =>
    obtain ⟨ht', hb⟩ := Term.looseRange_bind_le.mp he
    have hΓ' := hΓ.push ht' x
    obtain ⟨hT, hTRange⟩ := iht hΓ ht' hinfer
    obtain ⟨hb, hbRange⟩ := ihb hΓ' hb hinfer
    exact ⟨.quantifier hk hT (hV _ _ _ _ _ hΓ hTRange hs).1 hb
      (hV _ _ _ _ _ hΓ' hbRange hs').1 hm, hsort⟩
  | @letE Γ x s t v b u l _ hs _ _ iht ihv ihb =>
    obtain ⟨ht', hv, hb⟩ := Term.looseRange_letE_le.mp he
    obtain ⟨hT, hTRange⟩ := iht hΓ ht' hinfer
    obtain ⟨hb, hbRange⟩ := ihb (hΓ.pushLet ht' hv x) hb hinfer
    exact ⟨.letE hT (hV _ _ _ _ _ hΓ hTRange hs).1 (ihv hΓ hv fun _ => ht').1 hb,
      Term.looseRange_instantiate_le hbRange hv⟩
  | pair _ _ iha ihb =>
    obtain ⟨ha, hb⟩ := Term.looseRange_pair_le.mp he
    obtain ⟨ha, haRange⟩ := iha hΓ ha hinfer
    obtain ⟨hb, hbRange⟩ := ihb hΓ hb hinfer
    exact ⟨.pair ha hb,
      Term.looseRange_bind_le.mpr ⟨haRange, Term.looseRange_shift_le hbRange 0⟩⟩
  | fst _ hs ih =>
    obtain ⟨hp, hpRange⟩ := ih hΓ (Term.looseRange_proj_le.mp he) hinfer
    obtain ⟨hs, hsRange⟩ := hV _ _ _ _ _ hΓ hpRange hs
    exact ⟨.fst hp hs, (Term.looseRange_bind_le.mp hsRange).1⟩
  | snd _ hs ih =>
    obtain ⟨hp, hpRange⟩ := ih hΓ (Term.looseRange_proj_le.mp he) hinfer
    obtain ⟨hs, hsRange⟩ := hV _ _ _ _ _ hΓ hpRange hs
    exact ⟨.snd hp hs, Term.looseRange_instantiate_le (Term.looseRange_bind_le.mp hsRange).2
      (Term.looseRange_proj_le.mpr (Term.looseRange_proj_le.mp he))⟩
  | checkLam hexpected _ hs htt' _ iht ihb =>
    obtain ⟨ht', hb⟩ := Term.looseRange_bind_le.mp he
    obtain ⟨hexpected, hrange⟩ := hV _ _ _ _ _ hΓ (ht rfl) hexpected
    obtain ⟨hdomain, hbody⟩ := Term.looseRange_bind_le.mp hrange
    obtain ⟨hT, hTRange⟩ := iht hΓ ht' hinfer
    have hb := ihb (hΓ.push ht' _) hb fun _ => hbody
    exact ⟨.checkLam hexpected hT (hV _ _ _ _ _ hΓ hTRange hs).1
      (hE _ _ _ _ _ hΓ ht' hdomain htt') hb.1, ht rfl⟩
  | @checkLet Γ x s t v b e l _ hs _ _ iht ihv ihb =>
    obtain ⟨ht', hv, hb⟩ := Term.looseRange_letE_le.mp he
    obtain ⟨hT, hTRange⟩ := iht hΓ ht' hinfer
    have hb := ihb (hΓ.pushLet ht' hv x) hb fun _ => Term.looseRange_shift_le (ht rfl) 0
    exact ⟨.checkLet hT (hV _ _ _ _ _ hΓ hTRange hs).1 (ihv hΓ hv fun _ => ht').1 hb.1, ht rfl⟩
  | checkPair hexpected _ _ iha ihb =>
    obtain ⟨ha, hb⟩ := Term.looseRange_pair_le.mp he
    obtain ⟨hexpected, hrange⟩ := hV _ _ _ _ _ hΓ (ht rfl) hexpected
    obtain ⟨hfst, hsnd⟩ := Term.looseRange_bind_le.mp hrange
    exact ⟨.checkPair hexpected (iha hΓ ha fun _ => hfst).1
      (ihb hΓ hb fun _ => Term.looseRange_instantiate_le hsnd ha).1, ht rfl⟩
  | compare _ hst ih =>
    obtain ⟨he, hrange⟩ := ih hΓ he hinfer
    exact ⟨.compare he (hE _ _ _ _ _ hΓ hrange (ht rfl) hst), ht rfl⟩

end

end TypeTheory
