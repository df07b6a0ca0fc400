import TypeTheory.Proofs.Checker.Depth
import TypeTheory.Proofs.Checker.Lookup
import TypeTheory.Proofs.Simulation.Renaming

/-!
# Room for one more variable

A request can be asked again in a context with one more entry, somewhere in the middle:
the entries inside it are shifted past it, and so are the terms of the request. Where
nothing is remembered the kernel then takes the same steps, and its answer is the old
one, shifted. An error is of the same kind and about the shifted terms; as it may come
from under binders of the request's term, the place from which its indices are shifted
lies that many binders further in (`Checker.failureDepth`).

Making room is the renaming `Term.skip`, and the context with the new entry embeds the
old one. For reduction and conversion this is the correspondence `Checker.relocated`. It
leaves open from which depth an error comes, which makes no difference to an error without
terms; typing is gone through once more with the depth (`Checker.typesInStep`).
-/

namespace TypeTheory

open Term

/-- Passes over the index `m`. -/
def Term.skip (m i : Nat) : Nat :=
  if i < m then i else i + 1

theorem Term.skip_injective (m : Nat) : Function.Injective (skip m) := by
  intro i j hij
  unfold skip at hij
  split at hij <;> split at hij <;> omega

/-- Room behind one variable more is the same room, seen from under a binder. -/
theorem Term.skip_succ (m : Nat) : skip (m + 1) = liftIndex (skip m) := by
  funext i
  cases i with
  | zero => rfl
  | succ i =>
    change (if i + 1 < m + 1 then i + 1 else i + 1 + 1) = (if i < m then i else i + 1) + 1
    split <;> split <;> omega

/-- Room behind `d` variables more is the same room, seen from under `d` binders. -/
theorem Term.skip_add (m d : Nat) : skip (m + d) = liftBy (skip m) d := by
  induction d with
  | zero => rfl
  | succ d ih => rw [← Nat.add_assoc, skip_succ, ih, liftBy]

/-- To shift by one from `m` on is to rename the indices so that `m` is skipped. -/
theorem Term.shift_eq_rename_skip (e : Term) (m : Nat) : e.shift m 1 = e.rename (skip m) :=
  shift_eq_rename e m 1

/-! ## Shifted contexts, errors, requests and answers -/

/-- The entry with room for a variable behind the first `m` that it sees. -/
def Entry.shift (entry : Entry) (m : Nat) : Entry :=
  ⟨entry.name, entry.type.shift m 1, entry.value.map (·.shift m 1)⟩

/-- The context of `inner` and `outer` with an entry put between them. -/
def Context.insertBetween (entry : Entry) (outer : Context) : (inner : Context) → Context
  | [] => entry :: outer
  | innermost :: inner =>
    innermost.shift inner.length :: insertBetween entry outer inner

/-- The error with room for a variable behind the first `m`. -/
def KernelError.shift (m : Nat) : KernelError → KernelError
  | .notAFunction e t => .notAFunction (e.shift m 1) (t.shift m 1)
  | .notAPair e t => .notAPair (e.shift m 1) (t.shift m 1)
  | .notASort e t => .notASort (e.shift m 1) (t.shift m 1)
  | .typeMismatch e t u => .typeMismatch (e.shift m 1) (t.shift m 1) (u.shift m 1)
  | .looseIndex i => .looseIndex (skip m i)
  | e => e

/-- The context that a request is made in. -/
def Request.context : Request → Context
  | .infer _ Γ | .check _ _ Γ | .whnf _ Γ | .whnfCore _ Γ | .normalize _ Γ | .conv _ _ Γ => Γ

/-- The request with room for a variable behind the first `m`, made in another context. -/
def Request.shift (m : Nat) (Γ : Context) : Request → Request
  | .infer e _ => .infer (e.shift m 1) Γ
  | .check e t _ => .check (e.shift m 1) (t.shift m 1) Γ
  | .whnf e _ => .whnf (e.shift m 1) Γ
  | .whnfCore e _ => .whnfCore (e.shift m 1) Γ
  | .normalize e _ => .normalize (e.shift m 1) Γ
  | .conv x y _ => .conv (x.shift m 1) (y.shift m 1) Γ

/-- The answer with room for a variable behind the first `m`. -/
def Reply.shift (m : Nat) : Reply → Reply
  | .found e => .found (e.shift m 1)
  | .normal e => .normal (e.map (·.shift m 1))
  | .accepted => .accepted
  | .equal answer => .equal answer

/-- What has come of a request and of the shifted one: the answer and the shifted
answer, or an error from under `depth` binders and the error shifted there, and in both
cases the same state. -/
def CheckM.Weakened (m depth : Nat) : EStateM.Result KernelError Progress Reply →
    EStateM.Result KernelError Progress Reply → Prop
  | .ok reply q, .ok reply' q' => reply' = reply.shift m ∧ q' = q
  | .error e q, .error e' q' => e' = e.shift (m + depth) ∧ q' = q
  | .ok .., .error .. | .error .., .ok .. => False

/-! ## The new context -/

theorem KernelError.shift_eq_rename_skip (e : KernelError) (m : Nat) :
    e.shift m = e.rename (skip m) := by
  cases e <;> simp only [KernelError.rename, KernelError.shift, Term.shift_eq_rename_skip]

theorem Context.embeds_insertBetween (entry : Entry) (outer inner : Context) :
    Context.Embeds (skip inner.length) (inner ++ outer) (insertBetween entry outer inner) := by
  induction inner with
  | nil => exact ⟨Context.renames_succ outer entry, fun i hi => hi⟩
  | cons innermost inner ih =>
    rw [List.length_cons, skip_succ]
    refine ih.cons (shift_eq_rename_skip _ _) ?_
    unfold Entry.shift
    simp only [shift_eq_rename_skip]

/-! ## Runs side by side -/

namespace Checker

open FailureDepth CheckM

variable {c : Checker} {α β : Type} {m : Nat} {Γ Γ' : Context} {e t : Term}

/-- One context, and another with room for one more variable behind the first `m`. -/
def MakesRoom (m : Nat) (Γ Γ' : Context) : Prop :=
  Context.Embeds (skip m) Γ Γ' ∧ m ≤ Γ.length

/-- Under a binder there is room behind one variable more, in contexts that both got the
variable. -/
theorem MakesRoom.push (h : MakesRoom m Γ Γ') (x : Name) (t : Term) :
    MakesRoom (m + 1) (Γ.push x t) (Γ'.push x (t.rename (skip m))) := by
  refine ⟨?_, Nat.succ_le_succ h.2⟩
  rw [skip_succ]
  exact h.1.cons rfl rfl

/-- The same with a local definition, whose value is shifted with its type. -/
theorem MakesRoom.pushLet (h : MakesRoom m Γ Γ') (x : Name) (t v : Term) :
    MakesRoom (m + 1) (Γ.pushLet x t v)
      (Γ'.pushLet x (t.rename (skip m)) (v.rename (skip m))) := by
  refine ⟨?_, Nat.succ_le_succ h.2⟩
  rw [skip_succ]
  exact h.1.cons rfl rfl

/-- What two runs come to: values that belong together, or an error from under `depth`
binders and the error with room made there, and in both cases one state. -/
def Relocates (m depth : Nat) (value : α → α → Prop) :
    EStateM.Result KernelError Progress α → EStateM.Result KernelError Progress α → Prop
  | .ok a q, .ok a' q' => value a a' ∧ q' = q ∧ q.Blank
  | .error e q, .error e' q' => e' = e.rename (skip (m + depth)) ∧ q' = q
  | .ok .., .error .. | .error .., .ok .. => False

/-- **The computations go in step** from every state without remembered results. -/
def InStep (m : Nat) (depth : FailureDepth) (value : α → α → Prop) (x x' : CheckM α) : Prop :=
  ∀ p, p.Blank → Relocates m (depth p) value (x p) (x' p)

namespace InStep

variable {depth : FailureDepth} {value : α → α → Prop} {x x' : CheckM α}

/-- Values that belong together are in step, whatever the depth an error would come from. -/
theorem pure {a a' : α} (h : value a a') : InStep m depth value (Pure.pure a) (Pure.pure a') :=
  fun _ hp => ⟨h, rfl, hp⟩

/-- An error of the request itself is in step with the error shifted from `m` on. -/
theorem throw {e e' : KernelError} (h : e' = e.rename (skip m)) :
    InStep m here value (throw e) (throw e') :=
  fun _ _ => ⟨h, rfl⟩

/-- Crossing a binder counts. -/
theorem inside (h : InStep (m + 1) depth value x x') :
    InStep m (FailureDepth.inside depth) value x x' := by
  intro p hp
  have hsum : m + (depth p + 1) = m + 1 + depth p := by omega
  have hstep := h p hp
  unfold Relocates at hstep ⊢
  rw [FailureDepth.inside, hsum]
  exact hstep

/-- Sequences go in step if their parts do, at the depth of the part that fails. -/
theorem bind_of {value' : β → β → Prop} {depth' : FailureDepth} {f f' : α → CheckM β}
    (h : InStep m depth value x x') (hdepth : ∀ p e q, x p = .error e q → depth' p = depth p)
    (hf : ∀ a a' p q, q.Blank → x p = .ok a q → value a a' →
      Relocates m (depth' p) value' (f a q) (f' a' q)) :
    InStep m depth' value' (x >>= f) (x' >>= f') := by
  intro p hp
  have hfirst := h p hp
  change Relocates _ _ _ (EStateM.bind x f p) (EStateM.bind x' f' p)
  unfold EStateM.bind
  cases hx : x p with
  | ok a q =>
    cases hx' : x' p with
    | ok a' q' =>
      rw [hx, hx'] at hfirst
      obtain ⟨hvalue, rfl, hq⟩ := hfirst
      exact hf a a' p q' hq hx hvalue
    | error e' q' =>
      rw [hx, hx'] at hfirst
      exact hfirst.elim
  | error e q =>
    cases hx' : x' p with
    | ok a' q' =>
      rw [hx, hx'] at hfirst
      exact hfirst.elim
    | error e' q' =>
      rw [hx, hx'] at hfirst
      rw [hdepth p e q hx]
      exact hfirst

/-- **A sequence fails in its first part**, or behind a success of it that both runs have
had. -/
theorem bind {value' : β → β → Prop} {rest : α → FailureDepth} {f f' : α → CheckM β}
    (h : InStep m depth value x x')
    (hf : ∀ a a', value a a' → InStep m (rest a) value' (f a) (f' a')) :
    InStep m (FailureDepth.bind x depth rest) value' (x >>= f) (x' >>= f') := by
  refine h.bind_of (fun p e q hx => ?_) fun a a' p q hq hx hvalue => ?_
  · rw [FailureDepth.bind, hx]
  · rw [FailureDepth.bind, hx]
    exact hf a a' hvalue q hq

/-- What follows the last part that can fail does not count. -/
theorem bind_pure {value' : β → β → Prop} {f f' : α → β} (h : InStep m depth value x x')
    (hf : ∀ a a', value a a' → value' (f a) (f' a')) :
    InStep m depth value' (x >>= fun a => Pure.pure (f a)) (x' >>= fun a => Pure.pure (f' a)) :=
  h.bind_of (fun _ _ _ _ => rfl) fun a a' _ _ hq _ ha => ⟨hf a a' ha, rfl, hq⟩

/-- **Errors of reduction and conversion** belong to every depth: they carry no terms, and
an index that they complain of lies outside the context. -/
theorem of_sim (h : ∀ n n', (c.relocated (skip m) m).Sim n n' value x x')
    (hfails : FailsBy KernelError.OfReduction x) : InStep m here value x x' := by
  intro p hp
  have hstate : (c.relocated (skip m) m).state p p := ⟨rfl, hp⟩
  have hout := Correspondence.Sim.outcome h hstate
  have hreduction := hfails p trivial
  generalize x p = r at hout hreduction ⊢
  generalize x' p = r' at hout ⊢
  cases r with
  | ok a q =>
    cases r' with
    | ok a' q' =>
      obtain ⟨hvalue, ⟨rfl, hq⟩, -⟩ := hout
      exact ⟨hvalue, rfl, hq⟩
    | error e' q' => exact hout
  | error e q =>
    cases r' with
    | ok a' q' => exact hout.1
    | error e' q' =>
      obtain ⟨⟨d, rfl, hindex⟩, ⟨rfl, -⟩, -⟩ := hout.resolve_left fun hspent => hspent.1
      refine ⟨?_, rfl⟩
      cases e with
      | looseIndex i =>
        have hi := hindex i rfl
        have hat (k : Nat) (hk : k ≤ i) : skip k i = i + 1 := if_neg (Nat.not_lt.mpr hk)
        rw [KernelError.rename, KernelError.rename, ← skip_add, hat _ hi,
          hat _ (by rw [here]; omega)]
      | exhausted => rfl
      | _ => exact hreduction.1.elim

end InStep

/-! ## Reduction and conversion -/

/-- Runs on terms with room for one more variable correspond. -/
abbrev Weakens (c : Checker) : Prop :=
  ∀ m, (c.relocated (skip m) m).Lawful

/-- Without remembered results and over closed declarations, making room is a lawful
correspondence. -/
theorem weakens (hc : c.memoize = false) (hclosed : c.SeesClosed) : c.Weakens :=
  fun m => lawful_relocated (skip_injective m) hc hclosed

theorem MakesRoom.context (c : Checker) (h : MakesRoom m Γ Γ') :
    (c.relocated (skip m) m).context (0 : Nat) Γ Γ' :=
  h

theorem term_relocated (c : Checker) (m : Nat) (e : Term) :
    (c.relocated (skip m) m).term (0 : Nat) e (e.rename (skip m)) :=
  rfl

section

variable (hweakens : c.Weakens) (hΓ : MakesRoom m Γ Γ')

include hweakens hΓ

/-- Weak head reduction goes in step, and what comes of it is the shifted term. -/
theorem inStep_whnf (e : Term) :
    InStep m here (Renamed (skip m)) (c.whnf e Γ) (c.whnf (e.rename (skip m)) Γ') :=
  .of_sim (fun _ _ => (hweakens m).sim_whnf (hΓ.context c) (term_relocated c m e))
    (failsBy_whnf e Γ)

theorem inStep_whnfCore (e : Term) :
    InStep m here (Renamed (skip m)) (c.whnfCore e Γ) (c.whnfCore (e.rename (skip m)) Γ') :=
  .of_sim (fun _ _ => (hweakens m).sim_whnfCore (hΓ.context c) (term_relocated c m e))
    (failsBy_whnfCore e Γ)

/-- Normalization goes in step, and gives up for the nesting in both contexts or in neither. -/
theorem inStep_normalize (e : Term) :
    InStep m here (Option.Rel (Renamed (skip m))) (c.normalize e Γ)
      (c.normalize (e.rename (skip m)) Γ') :=
  .of_sim (fun _ _ => (hweakens m).sim_normalize (hΓ.context c) (term_relocated c m e))
    (failsBy_normalize e Γ)

theorem inStep_conv (x y : Term) :
    InStep m here Eq (c.conv x y Γ) (c.conv (x.rename (skip m)) (y.rename (skip m)) Γ') :=
  .of_sim (fun _ _ => (hweakens m).sim_conv (hΓ.context c) (term_relocated c m x)
    (term_relocated c m y)) (failsBy_conv x y Γ)

/-! ## Expected shapes -/

/-- A sort is found in both contexts, with the same level, or the error is about the shifted
terms. -/
theorem inStep_ensureSort (t e : Term) :
    InStep m here Eq (c.ensureSort t e Γ)
      (c.ensureSort (t.rename (skip m)) (e.rename (skip m)) Γ') := by
  have hreduced := inStep_whnf hweakens hΓ t
  unfold ensureSort
  cases t with
  | sort l => exact .pure rfl
  | _ =>
    refine hreduced.bind_of (fun _ _ _ _ => rfl) fun r r' p q hq _ hr => ?_
    cases hr
    cases r with
    | sort l => exact ⟨rfl, rfl, hq⟩
    | _ => exact ⟨rfl, rfl⟩

/-- Two binding forms, one with room made in it. -/
def BindingInStep (m : Nat) (b b' : Binding) : Prop :=
  b' = ⟨b.name, b.domain.rename (skip m), b.body.rename (skip (m + 1))⟩

omit hweakens hΓ in
/-- A binder that is looked for is found in a term just if it is found in the shifted term. -/
theorem binding?_rename (k : Binder) (t : Term) :
    Option.Rel (BindingInStep m) (t.binding? k) ((t.rename (skip m)).binding? k) := by
  cases t with
  | bind k' x u b =>
    rw [rename, Term.binding?, Term.binding?, ← skip_succ]
    split
    · exact .some rfl
    · exact .none
  | _ => exact .none

/-- Function types and pair types are found in step, with parts that are shifted. -/
theorem inStep_ensureBinding (k : Binder) {error : KernelError} (t : Term) :
    InStep m here (BindingInStep m) (c.ensureBinding k error t Γ)
      (c.ensureBinding k (error.rename (skip m)) (t.rename (skip m)) Γ') := by
  have hgiven := binding?_rename (m := m) k t
  unfold ensureBinding
  generalize t.binding? k = o at hgiven ⊢
  generalize (t.rename (skip m)).binding? k = o' at hgiven ⊢
  cases hgiven with
  | some hb => exact .pure hb
  | none =>
    refine (inStep_whnf hweakens hΓ t).bind_of (fun _ _ _ _ => rfl) fun r r' p q hq _ hr => ?_
    cases hr
    have hfound := binding?_rename (m := m) k r
    generalize r.binding? k = o at hfound ⊢
    generalize (r.rename (skip m)).binding? k = o' at hfound ⊢
    cases hfound with
    | some hb => exact ⟨hb, rfl, hq⟩
    | none => exact ⟨rfl, rfl⟩

/-- A comparison of types that fails gives the error about the shifted types. -/
theorem inStep_requireConv (found expected e : Term) :
    InStep m here Eq (c.requireConv found expected e Γ)
      (c.requireConv (found.rename (skip m)) (expected.rename (skip m)) (e.rename (skip m))
        Γ') := by
  refine (inStep_conv hweakens hΓ found expected).bind_of (fun _ _ _ _ => rfl)
    fun equal equal' p q hq _ hequal => ?_
  cases hequal
  cases equal with
  | true => exact ⟨rfl, rfl, hq⟩
  | false => exact ⟨rfl, rfl⟩

end

/-! ## Typing -/

/-- Inference and checking of a term go in step with those of the term with room made. -/
def TypesInStep (c : Checker) (e : Term) : Prop :=
  ∀ m Γ Γ', MakesRoom m Γ Γ' →
    InStep m (c.inferDepth e Γ) (Renamed (skip m)) (c.infer e Γ) (c.infer (e.rename (skip m)) Γ') ∧
    ∀ t, InStep m (c.checkDepth e t Γ) Eq (c.check e t Γ)
      (c.check (e.rename (skip m)) (t.rename (skip m)) Γ')

/-- A form that is checked by inference fails from where its inference fails, or at once. -/
theorem checkDepth_eq_inferredDepth (h : e.Inferred) (t : Term) (Γ : Context) :
    c.checkDepth e t Γ = c.inferredDepth e Γ := by
  cases e with
  | letE | pair => exact h.elim
  | bind k x u b =>
    cases k with
    | lam => exact h.elim
    | pi | sigma => rw [checkDepth] <;> (intros; rename_i heq; cases heq)
  | bvar | fvar | sort | const | app | proj =>
    rw [checkDepth] <;> (intros; rename_i heq; cases heq)

/-- Room is made before or after the instantiation of a bound variable, with the same result. -/
theorem renamed_instantiate {b b' : Term} (hb : b' = b.rename (skip (m + 1))) (a : Term) :
    Renamed (skip m) (b.instantiate a) (b'.instantiate (a.rename (skip m))) := by
  rw [hb, skip_succ]
  exact (Parallel.rename_instantiate b a _).symm

/-- Room behind `m` variables and the room of a new binder are made in either order. -/
theorem renamed_shift_one (e : Term) :
    (e.rename (skip m)).shift 0 1 = (e.shift 0 1).rename (skip (m + 1)) := by
  rw [skip_succ]
  exact (rename_shift_one e _).symm

theorem rename_lam (x : Name) (u b : Term) :
    (Term.lam x u b).rename (skip m) = .lam x (u.rename (skip m)) (b.rename (skip (m + 1))) := by
  rw [skip_succ]
  rfl

section

variable (hweakens : c.Weakens) (hΓ : MakesRoom m Γ Γ')

/-- Inference goes in step if its rule does: the counters change alike, and nothing is
remembered. -/
theorem inStep_infer (hc : c.memoize = false)
    (hnode : InStep m (c.nodeDepth e Γ) (Renamed (skip m)) (c.inferNode e Γ)
      (c.inferNode (e.rename (skip m)) Γ')) :
    InStep m (c.inferDepth e Γ) (Renamed (skip m)) (c.infer e Γ)
      (c.infer (e.rename (skip m)) Γ') := by
  intro p hp
  rw [infer, infer, remembered_of_blank hc hp, remembered_of_blank hc hp, inferDepth]
  exact hnode _ (hp.of_tables rfl rfl rfl)

include hweakens hΓ

/-- The sort of a term is found in step with the sort of the shifted term. -/
theorem TypesInStep.sortOf (h : c.TypesInStep e) :
    InStep m (c.inferredDepth e Γ) Eq (c.sortOf e Γ) (c.sortOf (e.rename (skip m)) Γ') := by
  rw [Checker.sortOf, Checker.sortOf, inferredDepth]
  refine (h m Γ Γ' hΓ).1.bind fun t t' ht => ?_
  cases ht
  exact inStep_ensureSort hweakens hΓ t e

/-- Checking by inference goes in step if inference does, and the types are compared in step. -/
theorem inStep_checkInferred
    (hinfer : InStep m (c.inferDepth e Γ) (Renamed (skip m)) (c.infer e Γ)
      (c.infer (e.rename (skip m)) Γ')) (t : Term) :
    InStep m (c.inferredDepth e Γ) Eq (c.checkInferred e t Γ)
      (c.checkInferred (e.rename (skip m)) (t.rename (skip m)) Γ') := by
  rw [checkInferred, checkInferred, inferredDepth]
  refine hinfer.bind fun found found' hfound => ?_
  cases hfound
  exact inStep_requireConv hweakens hΓ found t e

end

section

variable (hc : c.memoize = false) (hclosed : c.SeesClosed)

include hc hclosed

/-- Most forms are checked by comparing the inferred type. -/
theorem typesInStep_of_inferNode (hform : e.Inferred)
    (hform' : ∀ m, (e.rename (skip m)).Inferred)
    (hnode : ∀ m Γ Γ', MakesRoom m Γ Γ' → InStep m (c.nodeDepth e Γ) (Renamed (skip m))
      (c.inferNode e Γ) (c.inferNode (e.rename (skip m)) Γ')) : c.TypesInStep e := by
  intro m Γ Γ' hΓ
  have hinfer := inStep_infer hc (hnode m Γ Γ' hΓ)
  refine ⟨hinfer, fun t => ?_⟩
  rw [check_eq_checkInferred hform, check_eq_checkInferred (hform' m),
    checkDepth_eq_inferredDepth hform]
  exact inStep_checkInferred (weakens hc hclosed) hΓ hinfer t

/-- An index and the skipped index have the same type, shifted, or are both outside their
context. -/
theorem typesInStep_bvar (i : Nat) : c.TypesInStep (.bvar i) := by
  refine typesInStep_of_inferNode hc hclosed trivial (fun _ => trivial) fun m Γ Γ' hΓ => ?_
  rw [rename, inferNode, inferNode, nodeDepth]
  rcases hΓ.1.lookup i with ⟨hnone, hnone'⟩ | ⟨entry, entry', hsome, hsome', htype, -⟩
  · rw [hnone, hnone']
    exact .throw rfl
  · rw [hsome, hsome']
    exact .pure htype

/-- A constant has a closed type, on which making room has no effect. -/
theorem typesInStep_const (x : Name) (levels : List Level) : c.TypesInStep (.const x levels) := by
  refine typesInStep_of_inferNode hc hclosed trivial (fun _ => trivial) fun m Γ Γ' hΓ => ?_
  rw [rename, inferNode, inferNode, nodeDepth, constType]
  cases hd : c.const? x with
  | none => exact .throw rfl
  | some d =>
    dsimp only
    split
    · exact .pure (.of_closed (looseRange_substLevels_le _ (hclosed _ _ hd).1))
    · exact .throw rfl

/-- An application: the function and the argument go in step, and neither is under a binder. -/
theorem typesInStep_app {f a : Term} (hf : c.TypesInStep f) (ha : c.TypesInStep a) :
    c.TypesInStep (.app f a) := by
  refine typesInStep_of_inferNode hc hclosed trivial (fun _ => trivial) fun m Γ Γ' hΓ => ?_
  rw [rename, inferNode, inferNode, nodeDepth]
  refine (hf m Γ Γ' hΓ).1.bind fun t t' ht => ?_
  cases ht
  rw [ensurePi_eq, ensurePi_eq]
  refine (inStep_ensureBinding (weakens hc hclosed) hΓ .pi t).bind fun b b' hb => ?_
  cases hb
  exact ((ha m Γ Γ' hΓ).2 b.domain).bind_pure fun _ _ _ => renamed_instantiate rfl a

/-- A function: the body goes in step under one binder, from which its errors are counted. -/
theorem typesInStep_lam {x : Name} {u b : Term} (hu : c.TypesInStep u) (hb : c.TypesInStep b) :
    c.TypesInStep (.lam x u b) := by
  intro m Γ Γ' hΓ
  have hweakens := weakens hc hclosed
  have hinfer : InStep m (c.inferDepth (.lam x u b) Γ) (Renamed (skip m))
      (c.infer (.lam x u b) Γ) (c.infer ((Term.lam x u b).rename (skip m)) Γ') := by
    refine inStep_infer hc ?_
    rw [rename_lam, inferNode, inferNode, nodeDepth]
    refine (hu.sortOf hweakens hΓ).bind fun _ _ _ => .inside ?_
    refine (hb _ _ _ (hΓ.push x u)).1.bind_pure fun v v' hv => ?_
    cases hv
    rw [Renamed, rename, skip_succ]
  refine ⟨hinfer, fun t => ?_⟩
  have hfallback := inStep_checkInferred hweakens hΓ hinfer t
  rw [rename_lam] at hfallback ⊢
  rw [check, check, checkDepth]
  refine (inStep_whnf hweakens hΓ t).bind fun r r' hr => ?_
  cases hr
  cases r with
  | bind k y v body =>
    cases k with
    | pi =>
      refine (hu.sortOf hweakens hΓ).bind fun _ _ _ => ?_
      refine (inStep_conv hweakens hΓ u v).bind fun equal equal' hequal => ?_
      cases hequal
      cases equal with
      | true =>
        rw [← skip_succ]
        exact .inside ((hb _ _ _ (hΓ.push x u)).2 body)
      | false => exact hfallback
    | _ => exact hfallback
  | _ => exact hfallback

/-- A function type or a pair type: its second part goes in step under one binder. -/
theorem typesInStep_pi_sigma {k : Binder} (hk : k ≠ .lam) {x : Name} {u b : Term}
    (hu : c.TypesInStep u) (hb : c.TypesInStep b) : c.TypesInStep (.bind k x u b) := by
  have hform (u b : Term) : (Term.bind k x u b).Inferred := by
    cases k with
    | lam => exact absurd rfl hk
    | pi | sigma => trivial
  have hweakens := weakens hc hclosed
  refine typesInStep_of_inferNode hc hclosed (hform u b) (fun _ => hform _ _) fun m Γ Γ' hΓ => ?_
  rw [rename, ← skip_succ, inferNode, inferNode, nodeDepth]
  · refine (hu.sortOf hweakens hΓ).bind fun l l' hl => .inside ?_
    cases hl
    refine (hb.sortOf hweakens (hΓ.push x u)).bind_pure fun r r' hr => ?_
    cases hr
    rfl
  all_goals exact hk

/-- A local definition: the body goes in step with the value in both contexts. -/
theorem typesInStep_letE {x : Name} {u v b : Term} (hu : c.TypesInStep u) (hv : c.TypesInStep v)
    (hb : c.TypesInStep b) : c.TypesInStep (.letE x u v b) := by
  intro m Γ Γ' hΓ
  have hweakens := weakens hc hclosed
  have hΔ := hΓ.pushLet x u v
  constructor
  · refine inStep_infer hc ?_
    rw [rename, ← skip_succ, inferNode, inferNode, nodeDepth]
    refine (hu.sortOf hweakens hΓ).bind fun _ _ _ => ?_
    refine ((hv m Γ Γ' hΓ).2 u).bind fun _ _ _ => .inside ?_
    exact (hb _ _ _ hΔ).1.bind_pure fun _ _ ht => renamed_instantiate ht v
  · intro t
    rw [rename, ← skip_succ, check, check, checkDepth, renamed_shift_one]
    refine (hu.sortOf hweakens hΓ).bind fun _ _ _ => ?_
    refine ((hv m Γ Γ' hΓ).2 u).bind fun _ _ _ => .inside ?_
    exact (hb _ _ _ hΔ).2 _

/-- A pair goes in step part by part, where it is inferred and where a type of pairs is expected. -/
theorem typesInStep_pair {a b : Term} (ha : c.TypesInStep a) (hb : c.TypesInStep b) :
    c.TypesInStep (.pair a b) := by
  intro m Γ Γ' hΓ
  have hweakens := weakens hc hclosed
  have hinfer : InStep m (c.inferDepth (.pair a b) Γ) (Renamed (skip m))
      (c.infer (.pair a b) Γ) (c.infer ((Term.pair a b).rename (skip m)) Γ') := by
    refine inStep_infer hc ?_
    rw [rename, inferNode, inferNode, nodeDepth]
    refine (ha m Γ Γ' hΓ).1.bind fun t t' ht => ?_
    refine (hb m Γ Γ' hΓ).1.bind_pure fun u u' hu => ?_
    cases ht
    cases hu
    rw [Renamed, prod, prod, renamed_shift_one, rename, skip_succ]
  refine ⟨hinfer, fun t => ?_⟩
  have hfallback := inStep_checkInferred hweakens hΓ hinfer t
  rw [rename] at hfallback ⊢
  rw [check, check, checkDepth]
  refine (inStep_whnf hweakens hΓ t).bind fun r r' hr => ?_
  cases hr
  cases r with
  | bind k y u v =>
    cases k with
    | sigma =>
      refine ((ha m Γ Γ' hΓ).2 u).bind fun _ _ _ => ?_
      have hinstantiate := renamed_instantiate (m := m) (b := v) rfl a
      rw [skip_succ] at hinstantiate
      rw [hinstantiate]
      exact (hb m Γ Γ' hΓ).2 _
    | _ => exact hfallback
  | _ => exact hfallback

/-- A projection goes in step with that of the shifted pair, also where its type mentions the
pair. -/
theorem typesInStep_proj {k : Side} {p : Term} (hp : c.TypesInStep p) :
    c.TypesInStep (.proj k p) := by
  refine typesInStep_of_inferNode hc hclosed trivial (fun _ => trivial) fun m Γ Γ' hΓ => ?_
  rw [rename, inferNode, inferNode, nodeDepth, inferredDepth]
  refine (hp m Γ Γ' hΓ).1.bind fun t t' ht => ?_
  cases ht
  rw [ensureSigma_eq, ensureSigma_eq]
  cases k with
  | fst =>
    refine (inStep_ensureBinding (weakens hc hclosed) hΓ .sigma t).bind_pure fun b b' hb => ?_
    cases hb
    rfl
  | snd =>
    refine (inStep_ensureBinding (weakens hc hclosed) hΓ .sigma t).bind_pure fun b b' hb => ?_
    cases hb
    exact renamed_instantiate rfl (.proj1 p)

/-- **Typing goes in step** with typing of the term with room made, down to the depth that a
failure comes from. -/
theorem typesInStep (e : Term) : c.TypesInStep e := by
  induction e with
  | bvar i => exact typesInStep_bvar hc hclosed i
  | fvar x =>
    refine typesInStep_of_inferNode hc hclosed trivial (fun _ => trivial) fun m Γ Γ' _ => ?_
    rw [rename, inferNode, inferNode, nodeDepth]
    exact .throw rfl
  | sort l =>
    refine typesInStep_of_inferNode hc hclosed trivial (fun _ => trivial) fun m Γ Γ' _ => ?_
    rw [rename, inferNode, inferNode, nodeDepth]
    exact .pure rfl
  | const x levels => exact typesInStep_const hc hclosed x levels
  | app f a ihf iha => exact typesInStep_app hc hclosed ihf iha
  | bind k x u b ihu ihb =>
    cases k with
    | lam => exact typesInStep_lam hc hclosed ihu ihb
    | pi => exact typesInStep_pi_sigma hc hclosed (k := .pi) (by decide) ihu ihb
    | sigma => exact typesInStep_pi_sigma hc hclosed (k := .sigma) (by decide) ihu ihb
  | letE x u v b ihu ihv ihb => exact typesInStep_letE hc hclosed ihu ihv ihb
  | pair a b iha ihb => exact typesInStep_pair hc hclosed iha ihb
  | proj k p ih => exact typesInStep_proj hc hclosed ih

/-! ## Requests -/

/-- A request and the shifted one are answered in step. -/
theorem inStep_serve {r : Request} (hroom : MakesRoom m r.context Γ') :
    InStep m (c.failureDepth r) (fun reply reply' => reply' = reply.shift m) (c.serve r)
      (c.serve (r.shift m Γ')) := by
  have hweakens := weakens hc hclosed
  have hfound (e e' : Term) (he : Renamed (skip m) e e') :
      Reply.found e' = (Reply.found e).shift m := by
    rw [Reply.shift, shift_eq_rename_skip]
    exact congrArg Reply.found he
  cases r with
  | infer e Γ =>
    rw [Request.shift, shift_eq_rename_skip]
    exact (typesInStep hc hclosed e m Γ Γ' hroom).1.bind_pure hfound
  | check e t Γ =>
    rw [Request.shift, shift_eq_rename_skip, shift_eq_rename_skip]
    exact ((typesInStep hc hclosed e m Γ Γ' hroom).2 t).bind_pure fun _ _ _ => rfl
  | whnf e Γ =>
    rw [Request.shift, shift_eq_rename_skip]
    exact (inStep_whnf hweakens hroom e).bind_pure hfound
  | whnfCore e Γ =>
    rw [Request.shift, shift_eq_rename_skip]
    exact (inStep_whnfCore hweakens hroom e).bind_pure hfound
  | normalize e Γ =>
    rw [Request.shift, shift_eq_rename_skip]
    refine (inStep_normalize hweakens hroom e).bind_pure fun o o' ho => ?_
    cases ho with
    | none => rfl
    | some he =>
      rw [Reply.shift, Option.map_some, shift_eq_rename_skip]
      exact congrArg (fun e => Reply.normal (some e)) he
  | conv x y Γ =>
    rw [Request.shift, shift_eq_rename_skip, shift_eq_rename_skip]
    refine (inStep_conv hweakens hroom x y).bind_pure fun _ _ hequal => ?_
    rw [hequal]
    rfl

end

/-- The error that a request comes to from the start, if it does. -/
def serveError? (c : Checker) (r : Request) : Option KernelError :=
  match c.serve r {} with
  | .ok .. => none
  | .error e _ => some e

/-- **Weakening.** Where constants are closed and nothing is remembered, a request in a
context of two parts and the request with room for one more variable, in the context
with an entry put between the parts, come to the same: answers that differ by the shift,
or errors of one kind that differ by the shift past the inner part and the binders that
were crossed, with the same steps spent and the same calls counted. -/
theorem serve_insertBetween (c : Checker) (hc : c.memoize = false) (henv : c.env.Closed)
    {p : Progress} (hp : p.Blank) (outer inner : Context) (entry : Entry) {r : Request}
    (hr : r.context = inner ++ outer) :
    CheckM.Weakened inner.length (c.failureDepth r p) (c.serve r p)
      (c.serve (r.shift inner.length (Context.insertBetween entry outer inner)) p) := by
  have hroom : MakesRoom inner.length r.context (Context.insertBetween entry outer inner) := by
    rw [hr]
    refine ⟨Context.embeds_insertBetween entry outer inner, ?_⟩
    rw [List.length_append]
    omega
  have hstep := inStep_serve hc (seesClosed_of_closed henv) hroom p hp
  generalize c.serve r p = result at hstep ⊢
  generalize c.serve (r.shift _ _) p = result' at hstep ⊢
  cases result with
  | ok reply q =>
    cases result' with
    | ok reply' q' => exact ⟨hstep.1, hstep.2.1⟩
    | error e' q' => exact hstep
  | error e q =>
    cases result' with
    | ok reply' q' => exact hstep
    | error e' q' =>
      obtain ⟨herror, hq⟩ := hstep
      exact ⟨by rw [herror, KernelError.shift_eq_rename_skip], hq⟩

/-- In the context of a type and a member of it, a local definition is put between the
two. The type of the identity is shifted past it; applying the member fails under a
binder, so there the shift starts one index later. -/
theorem serve_insertBetween_identity :
    let c : Checker := { env := {}, visible := 0, limit := 10, memoize := false }
    let outer : Context := [⟨.atom "A", .sort .zero, none⟩]
    let inner : Context := [⟨.atom "x", .bvar 0, none⟩]
    let entry : Entry := ⟨.atom "B", .sort (.succ .zero), some (.sort .zero)⟩
    let Γ := Context.insertBetween entry outer inner
    let fn (body : Term) : Term := .lam (.atom "z") (.bvar 1) body
    let identity : Request := .infer (fn (.bvar 0)) (inner ++ outer)
    let applied : Request := .infer (fn (.app (.bvar 1) (.bvar 0))) (inner ++ outer)
    c.env.Closed ∧
    (c.serve identity).value? {} = some (.found (.pi (.atom "z") (.bvar 1) (.bvar 2))) ∧
    (c.serve (identity.shift 1 Γ)).value? {} = some (.found (.pi (.atom "z") (.bvar 2) (.bvar 3))) ∧
    c.serveError? applied = some (.notAFunction (.bvar 1) (.bvar 2)) ∧
    c.serveError? (applied.shift 1 Γ) = some (.notAFunction (.bvar 1) (.bvar 3)) ∧
    c.failureDepth applied {} = 1 ∧
    ∀ r ∈ [identity, applied], CheckM.Weakened 1 (c.failureDepth r {}) (c.serve r {})
      (c.serve (r.shift 1 Γ) {}) := by
  intro c outer inner entry Γ fn identity applied
  have hclosed : c.env.Closed := by
    unfold Environment.Closed
    decide
  refine ⟨hclosed, by decide +kernel, by decide +kernel, by decide +kernel, by decide +kernel,
    by decide +kernel, ?_⟩
  intro r hr
  refine serve_insertBetween c rfl hclosed Progress.blank_empty outer inner entry ?_
  rcases List.mem_pair.mp hr with rfl | rfl <;> rfl

end Checker

end TypeTheory
