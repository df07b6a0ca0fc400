import TypeTheory.Proofs.Checker.Transparency
import TypeTheory.Proofs.Conversion.Containment
import TypeTheory.Proofs.Typing.Language
import TypeTheory.Proofs.Typing.Substitution

/-!
# Contraction keeps types

When a function that is applied is contracted, the type that is found for the result is
found equal to the type that was found before (`Checker.infer_contraction`). Runs that
succeed follow the rules, what the rules accept is accepted once it is filled, and runs
find what the rules give.

The argument was checked against the type of the variable. Where the body asks for the
type of its variable, the argument is asked for its own type afterwards, and that has to
be found equal. For a pair it is a type whose second component does not depend on the
first one, so a dependent pair loses its type (`Checker.infer_contraction_dependent_pair`).
The types that are compared on the way have to be found equal as well, so conversion may
miss no pair in them; what else the terms are made of does not matter.
-/

namespace TypeTheory

open CheckM

namespace Checker

variable {c : Checker} {ρ : Name → Nat} {Γ : Context} {e t : Term} {α : Type} {a : α}

/-! ## Contexts -/

/-- Each entry of the context has a type that lives in a sort, and a value that is
accepted for it if it has one. -/
def Admits (c : Checker) : Context → Prop
  | [] => True
  | entry :: Γ => c.Admits Γ ∧ ((c.sortOf entry.type Γ).value? {}).isSome ∧
      ∀ v ∈ entry.value, (c.check v entry.type Γ).value? {} = some ()

/-- **A context that is admitted is valid.** -/
theorem Admits.valid (hclosed : c.SeesClosed) (hsound : Signature.Sound c.const? c.const? ρ)
    (h : c.Admits Γ) : Γ.Valid c.const? ρ := by
  induction Γ with
  | nil => exact Context.valid_nil
  | cons entry Γ ih =>
    obtain ⟨hΓ, hsort, hvalue⟩ := h
    obtain ⟨l, hl⟩ := Option.isSome_iff_exists.mp hsort
    obtain ⟨p, hrun⟩ := value?_eq_some.mp hl
    obtain ⟨⟨s, hs, hl⟩, -⟩ := (follows_sortOf hclosed (follows hclosed entry.type) Γ).of_ok
      (.of_blank Progress.blank_empty) hrun
    have htype := hs.validType_of_sort hsound hl
    obtain ⟨name, type, value⟩ := entry
    cases value with
    | none => exact (ih hΓ).push hsound.values htype name
    | some v =>
      obtain ⟨q, hcheck⟩ := value?_eq_some.mp (hvalue v rfl)
      have hv := ((follows hclosed v Γ).2 type).of_ok (.of_blank Progress.blank_empty) hcheck
      exact (ih hΓ).pushLet hsound htype hv.1 name

/-! ## Runs -/

/-- A type that is found from the empty state is one that the rules give. -/
theorem judges_of_value? (hclosed : c.SeesClosed) (h : (c.infer e Γ).value? {} = some t) :
    Judges c.const? .infer Γ e t := by
  obtain ⟨p, hrun⟩ := value?_eq_some.mp h
  exact ((follows hclosed e Γ).1.of_ok (.of_blank Progress.blank_empty) hrun).1

theorem joinable_of_value? (hclosed : c.SeesClosed) {x y : Term}
    (h : (c.conv x y Γ).value? {} = some true) :
    Joinable Level.Equiv c.const? Γ.values x y := by
  obtain ⟨p, hrun⟩ := value?_eq_some.mp h
  exact ((obeys_conv hclosed x y).of_ok (.of_blank Progress.blank_empty) hrun).1 rfl

/-- A run that is paid for succeeds with every budget that is large enough. -/
theorem Pays.exists_value? {m : Checker → CheckM α} (h : c.Pays (fun c _ => m c) a) :
    ∃ N, ∀ limit, N ≤ limit → (m { c with limit := limit }).value? {} = some a := by
  obtain ⟨cost, h⟩ := h
  refine ⟨cost, fun limit hle => ?_⟩
  obtain ⟨q, hrun, -⟩ := h limit limit {} Progress.blank_empty (by simpa using hle) (by simp)
  exact value?_eq_some.mpr ⟨q, hrun⟩

section

variable (hclosed : c.SeesClosed) {limit : Nat} (hlimit : c.limit ≤ limit) (memoize : Bool)

include hclosed hlimit

/-- What is found without tables is found with or without them and with more steps. -/
theorem lawful_of_forgetful : (memoized { c with memoize := false }
    { c with limit := limit, memoize := memoize }).Lawful :=
  lawful_memoized ⟨fun _ => rfl, fun _ => rfl⟩ hlimit rfl hclosed

/-- A type that is found without tables is found with them, within the same budget. -/
theorem value?_infer_of_forgetful
    (h : ({ c with memoize := false }.infer e Γ).value? {} = some t) :
    ({ c with limit := limit, memoize := memoize }.infer e Γ).value? {} = some t := by
  have hlawful := lawful_of_forgetful hclosed hlimit memoize
  exact Correspondence.Sim.value?_eq_some
    (fun _ _ => (hlawful.simTyping e).infer (w := ()) rfl rfl)
    ⟨Progress.blank_empty, Nat.le_refl _, .of_blank Progress.blank_empty⟩ h

theorem value?_conv_of_forgetful {x y : Term} {equal : Bool}
    (h : ({ c with memoize := false }.conv x y Γ).value? {} = some equal) :
    ({ c with limit := limit, memoize := memoize }.conv x y Γ).value? {} = some equal := by
  have hlawful := lawful_of_forgetful hclosed hlimit memoize
  exact Correspondence.Sim.value?_eq_some (fun _ _ => hlawful.sim_conv (w := ()) rfl rfl rfl)
    ⟨Progress.blank_empty, Nat.le_refl _, .of_blank Progress.blank_empty⟩ h

end

/-! ## Contraction -/

/-- **The type of a contracted function is found**, and found equal to its type before. In
a verified environment and a context whose entries are accepted, let a type be found for a
function that is applied. If the body asks for the type of its variable, let the type that
is found for the argument be found equal to the type of the variable. If conversion misses
no pair when the body at the argument is typed, nor between the types before and after, then
with every budget that is large enough, with or without tables, a type is found for the body
at the argument, and it is found equal. -/
theorem infer_contraction (c : Checker) (budget : Nat) (hverified : c.env.verify budget = [])
    (hdistinct : (c.env.toList.map (·.name)).Nodup) (Γ : Context) (hΓ : c.Admits Γ) (x : Name)
    (t body a s : Term) (hredex : (c.infer (.app (.lam x t body) a) Γ).value? {} = some s)
    (harg : body.AsksOnly .infer (· ≠ 0) ∨ ∃ s', (c.infer a Γ).value? {} = some s' ∧
      (c.conv s' t Γ).value? {} = some true)
    (hovert : { c with memoize := false }.Overt Γ (body.instantiate a) none)
    (hmisses : ∀ limit r,
      ({ c with limit := limit }.infer (body.instantiate a) Γ).value? {} = some r →
        { c with memoize := false }.MissesNoPair ⟨s, r, Γ⟩) :
    ∃ r N, ∀ limit memoize, N ≤ limit →
      let c' := { c with limit := limit, memoize := memoize }
      (c'.infer (body.instantiate a) Γ).value? {} = some r ∧
        (c'.conv s r Γ).value? {} = some true := by
  have hverified := Environment.verify_eq_nil_iff.mp hverified
  have hclosed : c.SeesClosed := hverified.seesClosed c.visible c.limit c.memoize
  have hsound : Signature.Sound c.const? c.const? fun _ => 0 :=
    hverified.sound hdistinct (Nat.le_refl c.visible)
  have hvalid := hΓ.valid hclosed hsound
  -- by the rules
  have hrules := judges_of_value? hclosed hredex
  have hfound : FoundFor c.const? Γ (body.instantiate a) s := by
    refine hrules.contract hsound hvalid (harg.imp_right fun ⟨s', hs', hconv⟩ => ?_)
    exact ⟨s', judges_of_value? hclosed hs', joinable_of_value? hclosed hconv⟩
  obtain ⟨r, hr, hjoin⟩ := hfound
  -- by runs without tables
  have htrusts : Trusts { c with memoize := false } fun _ => 0 := ⟨rfl, hclosed, hsound⟩
  obtain ⟨N, hN⟩ := ((htrusts.finds hr hvalid fun h => by cases h).1 hovert).exists_value?
  have hinfer (limit : Nat) (memoize : Bool) (hle : N ≤ limit) :
      ({ c with limit := limit, memoize := memoize }.infer (body.instantiate a) Γ).value? {} =
        some r :=
    value?_infer_of_forgetful (c := { c with limit := limit }) hclosed (Nat.le_refl limit)
      memoize (hN limit hle)
  obtain ⟨M, hM⟩ := (htrusts.pays_conv hvalid (hrules.validType hsound hvalid)
    (hr.validType hsound hvalid) hjoin.symm
    (hmisses N r (hinfer N c.memoize (Nat.le_refl N)))).exists_value?
  refine ⟨r, max N M, fun limit memoize hle => ⟨hinfer limit memoize (by omega), ?_⟩⟩
  exact value?_conv_of_forgetful (c := { c with limit := limit }) hclosed (Nat.le_refl limit)
    memoize (hM limit (by omega))

/-- A dependent pair type over `A` and `B`, a pair of it, a definition of its first
component, and a function on the pairs. -/
def dependentPairs : Environment :=
  let A : Term := .const (.atom "A") []
  let B : Term := .const (.atom "B") []
  let pairs : Term := .sigma (.atom "x") A (.app B (.bvar 0))
  let sort : Term := .sort (.succ .zero)
  ⟨#[⟨.atom "A", [], sort, none⟩, ⟨.atom "B", [], .arrow A sort, none⟩,
    ⟨.atom "u", [], A, none⟩, ⟨.atom "v", [], .app B (.const (.atom "u") []), none⟩,
    ⟨.atom "d", [], A, some (.const (.atom "u") [])⟩,
    ⟨.atom "C", [], .arrow pairs sort, none⟩,
    ⟨.atom "w", [], .pi (.atom "p") pairs (.app (.const (.atom "C") []) (.bvar 0)), none⟩]⟩

theorem dependentPairs_verify : dependentPairs.verify 1000 = [] := by
  refine Environment.verify_eq_nil_iff.mpr (Environment.verified_of_forgetful fun i d hd => ?_)
  have hall : ∀ i < 7, ∀ d ∈ dependentPairs.at? i,
      failure? ⟨dependentPairs, i, 1000, false⟩ d = none := by decide +kernel
  exact hall i (Environment.lt_size_of_at? hd) d hd

/-- The declarations in view lack what all declarations lack. -/
theorem lacks_of_forall {f : PairForm} (h : ∀ d ∈ c.env.toList, d.type.lacks f = true ∧
    ∀ v ∈ d.value, v.lacks f = true) : Signature.Lacks f c.const? := by
  intro n d hd
  obtain ⟨i, -, hi⟩ := Option.bind_eq_some_iff.mp hd
  exact h d (Array.mem_toList_iff.mpr (Array.mem_of_getElem? hi))

/-- A function that is applied to a dependent pair, whose type is not the one that is found
for the pair. The function passes the pair on, and so does not ask for its type. The first
component is a variable that stands for a definition.

The other function is the identity on a type, applied to the first component of a pair that
is hidden in a definition. The types that are compared do not mention it. -/
theorem infer_contraction_checked_pair :
    (let c : Checker := { ofEnvironment dependentPairs 1000 with memoize := false }
    let A : Term := .const (.atom "A") []
    let B : Term := .const (.atom "B") []
    let pairs : Term := .sigma (.atom "x") A (.app B (.bvar 0))
    let body : Term := .app (.const (.atom "w") []) (.bvar 0)
    let a : Term := .pair (.bvar 0) (.const (.atom "v") [])
    let s : Term := .app (.const (.atom "C") []) a
    let Γ : Context := [⟨.atom "y", A, some (.const (.atom "d") [])⟩]
    (c.env.verify 1000 = [] ∧ (c.env.toList.map (·.name)).Nodup ∧ c.Admits Γ ∧
      (c.infer (.app (.lam (.atom "p") pairs body) a) Γ).value? {} = some s ∧
      body.AsksOnly .infer (· ≠ 0) ∧ c.Overt Γ (body.instantiate a) none) ∧
    ∃ r N, ∀ limit memoize, N ≤ limit →
      let c' := { c with limit := limit, memoize := memoize }
      (c'.infer (body.instantiate a) Γ).value? {} = some r ∧
        (c'.conv s r Γ).value? {} = some true) ∧
    (let c : Checker := { ofEnvironment twoMembers 1000 with memoize := false }
    let A : Term := .const (.atom "A") []
    let a : Term := .proj1 (.const (.atom "c") [])
    (c.env.verify 1000 = [] ∧ (c.env.toList.map (·.name)).Nodup ∧
      (c.infer (.app (.lam (.atom "x") A (.bvar 0)) a) []).value? {} = some A ∧
      (c.infer a []).value? {} = some A ∧ (c.conv A A []).value? {} = some true ∧
      HidesPair c.const? [] a ∧ c.Overt [] a none) ∧
    ∃ r N, ∀ limit memoize, N ≤ limit →
      let c' := { c with limit := limit, memoize := memoize }
      (c'.infer a []).value? {} = some r ∧ (c'.conv A r []).value? {} = some true) := by
  constructor
  · intro c A B pairs body a s Γ
    have hdistinct : (c.env.toList.map (·.name)).Nodup := by decide +kernel
    have hΓ : c.Admits Γ := by
      refine ⟨trivial, by decide +kernel, fun v hv => ?_⟩
      cases hv
      decide +kernel
    have hredex : (c.infer (.app (.lam (.atom "p") pairs body) a) Γ).value? {} = some s := by
      decide +kernel
    have hasks : body.AsksOnly .infer (· ≠ 0) := ⟨trivial, fun h => by cases h⟩
    -- no projection occurs, so no pair is hidden
    have hclosed : c.SeesClosed :=
      (Environment.verify_eq_nil_iff.mp dependentPairs_verify).seesClosed c.visible 1000 false
    have hlacks : Signature.Lacks .proj c.const? := lacks_of_forall (by decide +kernel)
    have hlacksΓ : Γ.Lacks .proj := by
      intro entry hentry
      cases List.mem_singleton.mp hentry
      refine ⟨rfl, fun v hv => ?_⟩
      cases hv
      rfl
    have hpair {Δ : Context} {e : Term} (h : Δ.Lacks .proj ∧ e.lacks .proj = true) :
        ¬ HidesPair c.const? Δ e :=
      h.1.not_hidesPair hlacks h.2
    have hovert : c.Overt Γ (body.instantiate a) none :=
      hlacks.language.overt hclosed hpair ⟨hlacksΓ, rfl⟩ fun A hA => by cases hA
    have hmisses (limit : Nat) (r : Term)
        (hr : ({ c with limit := limit }.infer (body.instantiate a) Γ).value? {} = some r) :
        c.MissesNoPair ⟨s, r, Γ⟩ := by
      have htype : r.lacks .proj = true :=
        (judges_of_value? (c := { c with limit := limit }) hclosed hr).lacks hlacks hlacksΓ rfl
          fun h => by cases h
      exact missesNoPair_of_within hclosed hlacks.language.toFragment hpair
        ⟨⟨hlacksΓ, rfl⟩, hlacksΓ, htype⟩
    exact ⟨⟨dependentPairs_verify, hdistinct, hΓ, hredex, hasks, hovert⟩,
      infer_contraction c 1000 dependentPairs_verify hdistinct Γ hΓ (.atom "p") pairs body a s
        hredex (.inl hasks) hovert hmisses⟩
  · intro c A a
    have hdistinct : (c.env.toList.map (·.name)).Nodup := by decide +kernel
    have hredex : (c.infer (.app (.lam (.atom "x") A (.bvar 0)) a) []).value? {} = some A := by
      decide +kernel
    have hinfer : (c.infer a []).value? {} = some A := by decide +kernel
    have hconv : (c.conv A A []).value? {} = some true := by decide +kernel
    have hclosed : c.SeesClosed :=
      (Environment.verify_eq_nil_iff.mp twoMembers_verify).seesClosed c.visible 1000 false
    have hunfold : Signature.delta? c.const? true (.atom "c") [] =
        some (.pair (.const (.atom "a") []) (.const (.atom "b") [])) := by decide +kernel
    have hpair : HidesPair c.const? [] a :=
      .target (.const rfl) rfl (.delta hunfold (.pair _ _)) rfl
    -- nothing is compared to find the type of the argument
    have hovert : c.Overt [] (.proj .fst (.const (.atom "c") [])) none := by
      intro q hq
      cases hq with
      | target hq => cases hq
    have hmisses (limit : Nat) (r : Term)
        (hr : ({ c with limit := limit }.infer a []).value? {} = some r) :
        c.MissesNoPair ⟨A, r, []⟩ := by
      have hsame : some r = some A :=
        (value?_infer_of_forgetful (c := { c with limit := limit }) hclosed
          (Nat.le_max_left limit 1000) false hr).symm.trans
        (value?_infer_of_forgetful (c := c) hclosed (Nat.le_max_right limit 1000) false hinfer)
      cases hsame
      exact missesNoPair_of_quickEq? (if_pos (.refl A))
    exact ⟨⟨twoMembers_verify, hdistinct, hredex, hinfer, hconv, hpair, hovert⟩,
      infer_contraction c 1000 twoMembers_verify hdistinct [] trivial (.atom "x") A (.bvar 0) a A
        hredex (.inr ⟨A, hinfer, hconv⟩) hovert hmisses⟩

/-- **A dependent pair loses its type when it is put for a variable** whose type is asked
for. In a verified environment, a type is found for the identity function applied to the
pair, but the type that is found for the pair alone is told apart from it, whatever the
budget. -/
theorem infer_contraction_dependent_pair :
    let A : Term := .const (.atom "A") []
    let B : Term := .const (.atom "B") []
    let pairs : Term := .sigma (.atom "x") A (.app B (.bvar 0))
    let a : Term := .pair (.const (.atom "u") []) (.const (.atom "v") [])
    dependentPairs.verify 1000 = [] ∧
      ((ofEnvironment dependentPairs 1000).infer (.app (.lam (.atom "x") pairs (.bvar 0)) a)
        []).value? {} = some pairs ∧
      ¬ ∃ r N, ∀ limit, N ≤ limit →
        ((ofEnvironment dependentPairs limit).infer ((Term.bvar 0).instantiate a) []).value? {} =
            some r ∧
          ((ofEnvironment dependentPairs limit).conv pairs r []).value? {} = some true := by
  intro A B pairs a
  let c := ofEnvironment dependentPairs 1000
  have hclosed : c.SeesClosed :=
    (Environment.verify_eq_nil_iff.mp dependentPairs_verify).seesClosed c.visible 1000 true
  -- tables do not compute by evaluation, so each run is decided without them
  refine ⟨dependentPairs_verify, ?_, ?_⟩
  · refine value?_infer_of_forgetful (c := c) hclosed (Nat.le_refl 1000) true ?_
    decide +kernel
  · rintro ⟨r, N, h⟩
    obtain ⟨hinfer, hconv⟩ := h (max N 1000) (Nat.le_max_left N 1000)
    have hlimit : c.limit ≤ max N 1000 := Nat.le_max_right N 1000
    have hfound : ((ofEnvironment dependentPairs (max N 1000)).infer a []).value? {} =
        some (.prod A (.app B (.const (.atom "u") []))) :=
      value?_infer_of_forgetful (c := c) hclosed hlimit true (by decide +kernel)
    have hapart : ((ofEnvironment dependentPairs (max N 1000)).conv pairs
        (.prod A (.app B (.const (.atom "u") []))) []).value? {} = some false :=
      value?_conv_of_forgetful (c := c) hclosed hlimit true (by decide +kernel)
    have hsame := hinfer.symm.trans hfound
    cases hsame
    have hfalse := hconv.symm.trans hapart
    cases hfalse

end Checker

end TypeTheory
