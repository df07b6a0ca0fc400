import TypeTheory.Proofs.Checker.Transparency

/-!
# Display names make no difference

A binder's display name is copied into contexts, types and errors, and is read by
none of the decisions of the kernel, with one exception: a head with arguments is
compared with the head it was reduced from, names included. That comparison is
blind to names as well, since a head that has moved never comes back
(`Checker.ne_of_gives_reducer`), so that the names of a head decide nothing.

Two runs on terms that differ in display names only are therefore in step. This is
the correspondence `Checker.renamed`: terms are alpha-equal, contexts have
alpha-equal types and values, and the states are the same. Remembered results are
found by the term as it is written, so nothing may be remembered.
-/

namespace TypeTheory

/-! ## Operations on terms -/

namespace Term

theorem nameless_shift (e : Term) (c : Nat) (δ : Int) :
    (e.shift c δ).nameless = e.nameless.shift c δ := by
  induction e generalizing c with
  | bvar i =>
    rw [nameless, shift_bvar]
    split <;> rfl
  | _ => simp_all [nameless]

/-- Substitution does not look at display names, of the term or of what is put in. -/
theorem nameless_subst (e : Term) (i : Nat) (r : Term) :
    (e.subst i r).nameless = e.nameless.subst i r.nameless := by
  induction e generalizing i r with
  | bvar j =>
    rw [nameless, subst_bvar, subst_bvar]
    split
    · rfl
    · split <;> rfl
  | _ => simp_all [nameless, nameless_shift]

namespace AlphaEq

variable {e e' : Term}

theorem shift (h : AlphaEq e e') (c : Nat) (δ : Int) : AlphaEq (e.shift c δ) (e'.shift c δ) := by
  rw [AlphaEq, nameless_shift, nameless_shift, h]

theorem instantiate {b b' a a' : Term} (hb : AlphaEq b b') (ha : AlphaEq a a') :
    AlphaEq (b.instantiate a) (b'.instantiate a') := by
  rw [AlphaEq, Term.instantiate, Term.instantiate, nameless_subst, nameless_subst, hb, ha]

/-- Alpha-equal terms have one form, and alpha-equal parts. -/
theorem alike (h : AlphaEq e e') : e.Alike (fun _ _ => True) AlphaEq AlphaEq e' := by
  cases e <;> cases e' <;> simp only [AlphaEq, nameless, reduceCtorEq, bvar.injEq, fvar.injEq,
    sort.injEq, const.injEq, app.injEq, bind.injEq, letE.injEq, pair.injEq, proj.injEq] at h
  · exact .bvar _ _
  · obtain rfl := h
    exact .fvar _
  · obtain rfl := h
    exact .sort _
  · obtain ⟨rfl, rfl⟩ := h
    exact .const _ _
  · exact .app h.1 h.2
  · obtain ⟨rfl, -, ht, hb⟩ := h
    exact .bind _ trivial ht hb
  · obtain ⟨-, ht, hv, hb⟩ := h
    exact .letE trivial ht hv hb
  · exact .pair h.1 h.2
  · obtain ⟨rfl, hp⟩ := h
    exact .proj _ hp

/-- Alpha-equal parts make alpha-equal terms. -/
theorem of_alike (hleaf : e.isLeaf = false)
    (h : e.Alike (fun _ _ => True) AlphaEq AlphaEq e') : AlphaEq e e' := by
  cases h with
  | bvar | fvar | sort | const => cases hleaf
  | app hf ha => rw [AlphaEq, nameless, nameless, hf, ha]
  | bind k _ ht hb => rw [AlphaEq, nameless, nameless, ht, hb]
  | letE _ ht hv hb => rw [AlphaEq, nameless, nameless, ht, hv, hb]
  | pair ha hb => rw [AlphaEq, nameless, nameless, ha, hb]
  | proj k hp => rw [AlphaEq, nameless, nameless, hp]

end AlphaEq

end Term

/-! ## Contexts, errors, requests and answers without names -/

/-- The entry with its display name forgotten, and those in its type and value. -/
def Entry.nameless (entry : Entry) : Entry :=
  ⟨.anonymous, entry.type.nameless, entry.value.map Term.nameless⟩

/-- The context with all display names forgotten. -/
def Context.nameless (Γ : Context) : Context :=
  Γ.map Entry.nameless

/-- The error with the display names in its terms forgotten. -/
def KernelError.nameless : KernelError → KernelError
  | .notAFunction e t => .notAFunction e.nameless t.nameless
  | .notAPair e t => .notAPair e.nameless t.nameless
  | .notASort e t => .notASort e.nameless t.nameless
  | .typeMismatch e t u => .typeMismatch e.nameless t.nameless u.nameless
  | e => e

/-- The request with all display names forgotten. -/
def Request.nameless : Request → Request
  | .infer e Γ => .infer e.nameless Γ.nameless
  | .check e t Γ => .check e.nameless t.nameless Γ.nameless
  | .whnf e Γ => .whnf e.nameless Γ.nameless
  | .whnfCore e Γ => .whnfCore e.nameless Γ.nameless
  | .normalize e Γ => .normalize e.nameless Γ.nameless
  | .conv x y Γ => .conv x.nameless y.nameless Γ.nameless

/-- The answer with all display names forgotten. -/
def Reply.nameless : Reply → Reply
  | .found e => .found e.nameless
  | .normal e => .normal (e.map Term.nameless)
  | .accepted => .accepted
  | .equal answer => .equal answer

/-- What a request has come to, with all display names forgotten: the answer or the
error, and the state as it is. -/
def CheckM.nameless : EStateM.Result KernelError Progress Reply →
    EStateM.Result KernelError Progress Reply
  | .ok reply p => .ok reply.nameless p
  | .error e p => .error e.nameless p

/-- Contexts that differ in display names only have alpha-equal types and values at
every index. -/
theorem Context.lookup_nameless {Γ Γ' : Context} (h : Γ.nameless = Γ'.nameless) (i : Nat) :
    (Γ[i]? = none ∧ Γ'[i]? = none) ∨
    ∃ entry entry', Γ[i]? = some entry ∧ Γ'[i]? = some entry' ∧
      entry.type.AlphaEq entry'.type ∧ Option.Rel Term.AlphaEq entry.value entry'.value := by
  have hi : (Γ[i]?).map Entry.nameless = (Γ'[i]?).map Entry.nameless := by
    rw [← List.getElem?_map, ← List.getElem?_map]
    exact congrArg (fun Δ : Context => Δ[i]?) h
  cases hentry : Γ[i]? with
  | none =>
    rw [hentry] at hi
    exact .inl ⟨rfl, Option.map_eq_none_iff.mp hi.symm⟩
  | some entry =>
    rw [hentry] at hi
    obtain ⟨entry', hentry', hsame⟩ := Option.map_eq_some_iff.mp hi.symm
    rw [Entry.nameless, Entry.nameless, Entry.mk.injEq] at hsame
    refine .inr ⟨entry, entry', rfl, hentry', hsame.2.1.symm, ?_⟩
    have hvalue := hsame.2.2.symm
    cases hv : entry.value with
    | none =>
      rw [hv] at hvalue
      rw [Option.map_eq_none_iff.mp hvalue.symm]
      exact .none
    | some v =>
      rw [hv] at hvalue
      obtain ⟨v', hv', hsame'⟩ := Option.map_eq_some_iff.mp hvalue.symm
      rw [hv']
      exact .some hsame'.symm

/-! ## The correspondence -/

namespace Checker

/-- Runs from one state, on terms and in contexts that differ in display names
only. Nothing is remembered. -/
def renamed (c : Checker) : Correspondence c c where
  World := Unit
  under := id
  name _ _ := True
  term _ := Term.AlphaEq
  context _ Γ Γ' := Γ.nameless = Γ'.nameless
  state p p' := p = p' ∧ p.Blank
  error e e' := e.nameless = e'.nameless
  lenient := False

variable {c : Checker}

/-- **Runs on alpha-equal terms correspond** if nothing is remembered. -/
theorem lawful_renamed (hc : c.memoize = false) : c.renamed.Lawful where
  name_refl _ := trivial
  form := Term.AlphaEq.alike
  build := Term.AlphaEq.of_alike
  sortSucc _ := rfl
  sortMax _ _ := rfl
  instantiate := Term.AlphaEq.instantiate
  weaken he := Term.AlphaEq.shift he 0 1
  alphaEq {w x x' y y'} hx hy := by
    have hx' : x.nameless = x'.nameless := hx
    have hy' : y.nameless = y'.nameless := hy
    rw [Term.AlphaEq, Term.AlphaEq, hx', hy']
  push {w Γ Γ' t t' x x'} hΓ _ ht := by
    have hentry : (⟨x, t, none⟩ : Entry).nameless = (⟨x', t', none⟩ : Entry).nameless := by
      have ht' : t.nameless = t'.nameless := ht
      rw [Entry.nameless, Entry.nameless, ht']
    exact congrArg₂ List.cons hentry hΓ
  pushLet {w Γ Γ' t t' v v' x x'} hΓ _ ht hv := by
    have hentry : (⟨x, t, some v⟩ : Entry).nameless = (⟨x', t', some v'⟩ : Entry).nameless := by
      have ht' : t.nameless = t'.nameless := ht
      have hv' : v.nameless = v'.nameless := hv
      rw [Entry.nameless, Entry.nameless, ht', Option.map_some, Option.map_some, hv']
    exact congrArg₂ List.cons hentry hΓ
  lookup {w Γ Γ' i i'} hΓ hi := by
    obtain rfl : i = i' := by
      have hi' : Term.bvar i = Term.bvar i' := hi
      exact Term.bvar.inj hi'
    rcases Context.lookup_nameless hΓ i with ⟨hnone, hnone'⟩ |
      ⟨entry, entry', hentry, hentry', htype, hvalue⟩
    · exact .inl ⟨hnone, hnone', rfl⟩
    · refine .inr ⟨entry, entry', hentry, hentry', htype.shift 0 _, ?_⟩
      generalize entry.value = o at hvalue ⊢
      generalize entry'.value = o' at hvalue ⊢
      cases hvalue with
      | none => exact .none
      | some hv => exact .some (hv.shift 0 _)
  const? _ := rfl
  constPosition? _ _ := rfl
  declaredType _ _ _ := rfl
  declaredValue _ _ _ _ := rfl
  freeVariable _ := rfl
  unknownConstant _ _ := rfl
  universeArity _ _ _ := rfl
  notAFunction he ht := congrArg₂ KernelError.notAFunction he ht
  notAPair he ht := congrArg₂ KernelError.notAPair he ht
  notASort he ht := congrArg₂ KernelError.notASort he ht
  typeMismatch {w e e' t t' u u'} he ht hu := by
    have he' : e.nameless = e'.nameless := he
    have ht' : t.nameless = t'.nameless := ht
    have hu' : u.nameless = u'.nameless := hu
    change KernelError.nameless _ = KernelError.nameless _
    rw [KernelError.nameless, KernelError.nameless, he', ht', hu']
  tick k k' :=
    .tick_self (fun _ _ => Iff.rfl) (fun p hp => hp.of_tables rfl rfl rfl) rfl
  calls i j k hp := by
    obtain ⟨rfl, hblank⟩ := hp
    exact ⟨rfl, hblank.of_tables rfl rfl rfl⟩
  remembered {q Γ Γ' e e'} hanswer w hΓ he k k' p p' hp hk hk' := by
    obtain ⟨rfl, hblank⟩ := hp
    rw [remembered_of_blank hc hblank, remembered_of_blank hc hblank]
    exact hanswer w hΓ he k k' p p ⟨rfl, hblank⟩ hk hk'

/-- A request is answered alike, whatever its display names are. -/
theorem sim_serve_renamed (hc : c.memoize = false) {r r' : Request} (h : r.nameless = r'.nameless)
    (n n' : Nat) : c.renamed.Sim n n' (fun reply reply' => reply.nameless = reply'.nameless)
      (c.serve r) (c.serve r') := by
  have hlawful := lawful_renamed hc
  cases r <;> cases r' <;> simp only [Request.nameless, reduceCtorEq, Request.infer.injEq,
    Request.check.injEq, Request.whnf.injEq, Request.whnfCore.injEq, Request.normalize.injEq,
    Request.conv.injEq] at h
  · exact ((hlawful.simTyping _).infer (w := ()) h.2 h.1).bind
      fun _ _ ht => .pure (congrArg Reply.found ht)
  · exact ((hlawful.simTyping _).check (w := ()) h.2.2 h.1 h.2.1).bind fun _ _ _ => .pure rfl
  · exact (hlawful.sim_whnf (w := ()) h.2 h.1).bind
      fun _ _ hr => .pure (congrArg Reply.found hr)
  · exact (hlawful.sim_whnfCore (w := ()) h.2 h.1).bind
      fun _ _ hr => .pure (congrArg Reply.found hr)
  · refine (hlawful.sim_normalize (w := ()) h.2 h.1).bind fun o o' ho => .pure ?_
    cases ho with
    | none => rfl
    | some he => exact congrArg (fun e => Reply.normal (some e)) he
  · refine (hlawful.sim_conv (w := ()) h.2.2 h.1 h.2.1).bind fun _ _ hequal => .pure ?_
    rw [hequal]

/-- **Display names never matter.** Where nothing is remembered, two requests that
differ in display names only, of their terms and of their contexts, are answered
alike from one state: both with answers, or both with errors of one kind, that
differ in display names only, and both leave the same state with the same number of
steps spent. -/
theorem serve_nameless (c : Checker) (hc : c.memoize = false) {p : Progress} (hp : p.Blank)
    {r r' : Request} (h : r.nameless = r'.nameless) :
    CheckM.nameless (c.serve r p) = CheckM.nameless (c.serve r' p) := by
  have hstate : c.renamed.state p p := ⟨rfl, hp⟩
  have hout := Correspondence.Sim.outcome (sim_serve_renamed hc h) hstate
  cases hrun : c.serve r p with
  | ok reply q =>
    cases hrun' : c.serve r' p with
    | ok reply' q' =>
      rw [hrun, hrun'] at hout
      obtain ⟨hreply, ⟨rfl, -⟩, -⟩ := hout
      rw [CheckM.nameless, CheckM.nameless, hreply]
    | error e' q' =>
      rw [hrun, hrun'] at hout
      exact hout.elim
  | error e q =>
    cases hrun' : c.serve r' p with
    | ok reply' q' =>
      rw [hrun, hrun'] at hout
      exact hout.1.elim
    | error e' q' =>
      rw [hrun, hrun'] at hout
      rcases hout with hspent | ⟨herror, ⟨rfl, -⟩, -⟩
      · exact hspent.1.elim
      · have herror' : e.nameless = e'.nameless := herror
        rw [CheckM.nameless, CheckM.nameless, herror']

/-- The identity on `Sort 0` under two display names, in contexts under two names.
Its types copy the name, and so do the errors with which it is refused as a type. -/
theorem serve_nameless_identity :
    let c : Checker := { env := {}, visible := 0, limit := 100, memoize := false }
    let prop := Term.sort .zero
    let identity := fun x : String => Term.lam (.atom x) prop (.bvar 0)
    let Γ := fun x : String => [(⟨.atom x, prop, some (.pi (.atom x) prop prop)⟩ : Entry)]
    (∀ x ∈ ["x", "y"], (c.serve (.infer (identity x) (Γ x))).value? {} =
      some (.found (.pi (.atom x) prop prop))) ∧
    (∀ x ∈ ["x", "y"], (c.serve (.check (identity x) prop (Γ x))).value? {} = none) ∧
    CheckM.nameless (c.serve (.infer (identity "x") (Γ "x")) {}) =
      CheckM.nameless (c.serve (.infer (identity "y") (Γ "y")) {}) ∧
    CheckM.nameless (c.serve (.check (identity "x") prop (Γ "x")) {}) =
      CheckM.nameless (c.serve (.check (identity "y") prop (Γ "y")) {}) := by
  intro c prop identity Γ
  refine ⟨by decide +kernel, by decide +kernel, ?_, ?_⟩
  · exact serve_nameless c rfl Progress.blank_empty (by decide)
  · exact serve_nameless c rfl Progress.blank_empty (by decide)

end Checker

end TypeTheory
