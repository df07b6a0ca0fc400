import TypeTheory.Proofs.Checker.Run
import TypeTheory.Proofs.Term.Spine
import TypeTheory.Reduction

/-!
# The nesting of normalization

`Checker.normalizeWithin` takes the nesting it may use as an argument and is cut
short where that is not enough. One that is not cut short does the same with more
nesting (`Checker.deepens_normalizeWithin`), so that normalization *finishes* if
some nesting is enough (`CheckM.Finishes`).

All forms are normalized in one way: the weak-head normal form is taken apart, its
parts are normalized one after the other, and the form is built again
(`Checker.normalizeWithin_succ`). Hence normalization finishes if it finishes on
the parts (`Checker.finishes_of_parts`).
-/

namespace TypeTheory

/-! ## Parts -/

namespace Term

/-- The parts of a weak-head normal form that are normalized, each with its
context: a spine is one form, with its head and its arguments as parts. -/
def parts (Γ : Context) : Term → List (Context × Term)
  | .bind _ n t b => [(Γ, t), (Γ.push n t, b)]
  | .app f a => (Γ, (app f a).spine.1) :: (app f a).spine.2.map (Γ, ·)
  | .pair a b => [(Γ, a), (Γ, b)]
  | .proj _ p => [(Γ, p)]
  | .bvar _ | .fvar _ | .sort _ | .const .. | .letE .. => []

/-- The form with other parts. -/
def rebuild : Term → List Term → Term
  | .bind k n _ _, [t, b] => .bind k n t b
  | .app .., f :: args => f.apps args
  | .pair .., [a, b] => .pair a b
  | .proj k _, [p] => .proj k p
  | e, _ => e

/-- The head of a spine is no larger than the spine, and its arguments are smaller. -/
theorem size_spineOnto (e : Term) (args : List Term) :
    (e.spineOnto args).1.size ≤ e.size ∧
      ∀ a ∈ (e.spineOnto args).2, a ∈ args ∨ a.size < e.size := by
  induction e generalizing args with
  | app f a ihf _ =>
    obtain ⟨hhead, hargs⟩ := ihf (a :: args)
    simp only [spineOnto, size]
    refine ⟨by omega, fun x hx => ?_⟩
    rcases hargs x hx with hmem | hlt
    · rcases List.mem_cons.mp hmem with rfl | hmem
      · exact .inr (by omega)
      · exact .inl hmem
    · exact .inr (by omega)
  | _ => exact ⟨Nat.le_refl _, fun x hx => .inl hx⟩

theorem size_spine_lt (f a : Term) : (app f a).spine.1.size < (app f a).size :=
  Nat.lt_of_le_of_lt (size_spineOnto f [a]).1 (by simp only [size]; omega)

/-- Parts are smaller than the form. -/
theorem size_lt_of_mem_parts {e : Term} {Γ : Context} {x : Context × Term}
    (h : x ∈ e.parts Γ) : x.2.size < e.size := by
  cases e with
  | bind k n t b =>
    simp only [parts, List.mem_cons, List.not_mem_nil, or_false] at h
    rcases h with rfl | rfl <;> simp only [size] <;> omega
  | app f a =>
    obtain ⟨-, hargs⟩ := size_spineOnto f [a]
    rcases List.mem_cons.mp h with rfl | h
    · exact size_spine_lt f a
    · obtain ⟨y, hy, rfl⟩ := List.mem_map.mp h
      rcases hargs y hy with hmem | hlt
      · rw [List.mem_singleton.mp hmem]
        simp only [size]
        omega
      · simp only [size]
        omega
  | pair a b =>
    simp only [parts, List.mem_cons, List.not_mem_nil, or_false] at h
    rcases h with rfl | rfl <;> simp only [size] <;> omega
  | proj k p =>
    rw [parts, List.mem_singleton] at h
    rw [h]
    simp only [size]
    omega
  | bvar | fvar | sort | const | letE => cases h

end Term

/-! ## Computations that may be cut short -/

namespace CheckM

variable {α β : Type}

/-- The run ends without a value and without an error. -/
def CutShort (m : OptionT CheckM α) (p : Progress) : Prop :=
  ∃ q, m.run p = .ok none q

/-- Where `m` is not cut short, `m'` does the same. -/
def Extends (m m' : OptionT CheckM α) : Prop :=
  ∀ p, ¬ CutShort m p → m'.run p = m.run p

variable {m m' : OptionT CheckM α} {f f' : α → OptionT CheckM β} {p q : Progress}

theorem run_bind_some {a : α} (h : m.run p = .ok (some a) q) :
    (m >>= f).run p = (f a).run q := by
  change EStateM.bind m.run _ p = _
  unfold EStateM.bind
  rw [h]
  rfl

/-- A sequence is cut short if its first part is, in the state that this leaves. -/
theorem run_bind_none (h : m.run p = .ok none q) : (m >>= f).run p = .ok none q := by
  change EStateM.bind m.run _ p = _
  unfold EStateM.bind
  rw [h]
  rfl

theorem run_bind_error {e : KernelError} (h : m.run p = .error e q) :
    (m >>= f).run p = .error e q := by
  change EStateM.bind m.run _ p = _
  unfold EStateM.bind
  rw [h]

theorem run_lift {m : CheckM α} {a : α} (h : m p = .ok a q) :
    (liftM m : OptionT CheckM α).run p = .ok (some a) q := by
  change EStateM.bind m _ p = _
  unfold EStateM.bind
  rw [h]
  rfl

theorem CutShort.bind (h : CutShort m p) : CutShort (m >>= f) p := by
  obtain ⟨q, hq⟩ := h
  exact ⟨q, run_bind_none hq⟩

/-- A sequence is cut short if its second part is, after the first has come to a value. -/
theorem CutShort.after {a : α} (h : m.run p = .ok (some a) q) (hf : CutShort (f a) q) :
    CutShort (m >>= f) p := by
  obtain ⟨s, hs⟩ := hf
  exact ⟨s, by rw [run_bind_some h, hs]⟩

theorem Extends.refl (m : OptionT CheckM α) : Extends m m :=
  fun _ _ => rfl

theorem Extends.trans {m'' : OptionT CheckM α} (h : Extends m m') (h' : Extends m' m'') :
    Extends m m'' := by
  intro p hp
  have heq := h p hp
  have hp' : ¬ CutShort m' p := by
    rintro ⟨q, hq⟩
    exact hp ⟨q, heq ▸ hq⟩
  rw [h' p hp', heq]

/-- Sequences extend each other if their parts do: what was not cut short goes the same way. -/
theorem Extends.bind (h : Extends m m') (hf : ∀ a, Extends (f a) (f' a)) :
    Extends (m >>= f) (m' >>= f') := by
  intro p hp
  have hm : ¬ CutShort m p := fun hcut => hp hcut.bind
  have hrun := h p hm
  cases hmp : m.run p with
  | error e q => rw [run_bind_error hmp, run_bind_error (hrun.trans hmp)]
  | ok o q =>
    cases o with
    | none => exact absurd ⟨q, hmp⟩ hm
    | some a =>
      rw [run_bind_some hmp, run_bind_some (hrun.trans hmp)]
      exact hf a q fun hcut => hp (hcut.after hmp)

/-- Going through a list extends another such run if the work on each member does. -/
theorem Extends.mapM (hf : ∀ a, Extends (f a) (f' a)) (as : List α) :
    Extends (as.mapM f) (as.mapM f') := by
  induction as with
  | nil => exact .refl _
  | cons a rest ih =>
    rw [List.mapM_cons, List.mapM_cons]
    exact (hf a).bind fun b => ih.bind fun bs => .refl _

/-- Some nesting is enough. -/
def Finishes (m : Nat → OptionT CheckM α) (p : Progress) : Prop :=
  ∃ d, ¬ CutShort (m d) p

/-- More nesting only extends. -/
def Deepens (m : Nat → OptionT CheckM α) : Prop :=
  ∀ d, Extends (m d) (m (d + 1))

/-- More nesting extends a computation, by any number of levels. -/
theorem Deepens.extends {m : Nat → OptionT CheckM α} (h : Deepens m) {d d' : Nat} (hle : d ≤ d') :
    Extends (m d) (m d') := by
  induction hle with
  | refl => exact .refl _
  | step _ ih => exact ih.trans (h _)

/-- **A computation that finishes has one result**, whatever the nesting beyond
some point. -/
theorem Finishes.result {m : Nat → OptionT CheckM α} (hm : Deepens m) (h : Finishes m p) :
    ∃ d r, (∀ q, r ≠ .ok none q) ∧ ∀ d', d ≤ d' → (m d').run p = r := by
  obtain ⟨d, hd⟩ := h
  refine ⟨d, (m d).run p, fun q hq => hd ⟨q, hq⟩, ?_⟩
  intro d' hle
  exact hm.extends hle p hd

/-- A sequence finishes if its second part does after the first. -/
theorem Finishes.bind {m : Nat → OptionT CheckM α} {f : Nat → α → OptionT CheckM β}
    (hm : Deepens m) (hf : ∀ a, Deepens (f · a)) (h : Finishes m p)
    (h' : ∀ d a q, (m d).run p = .ok (some a) q → Finishes (f · a) q) :
    Finishes (fun d => m d >>= f d) p := by
  obtain ⟨d, hd⟩ := h
  cases hrun : (m d).run p with
  | error e q =>
    refine ⟨d, ?_⟩
    rintro ⟨s, hs⟩
    rw [run_bind_error hrun] at hs
    cases hs
  | ok o q =>
    cases o with
    | none => exact absurd ⟨q, hrun⟩ hd
    | some a =>
      obtain ⟨d', hd'⟩ := h' d a q hrun
      -- the larger of the two nestings is enough for both parts
      refine ⟨max d d', ?_⟩
      rintro ⟨s, hs⟩
      have hfirst := hm.extends (Nat.le_max_left d d') p hd
      have hsecond := (hf a).extends (Nat.le_max_right d d') q hd'
      rw [run_bind_some (hfirst.trans hrun), hsecond] at hs
      exact hd' ⟨s, hs⟩

theorem Finishes.congr {m m' : Nat → OptionT CheckM α} (h : Finishes m p)
    (heq : ∀ d, m d = m' d) : Finishes m' p := by
  obtain ⟨d, hd⟩ := h
  exact ⟨d, heq d ▸ hd⟩

theorem finishes_pure (a : α) (p : Progress) : Finishes (fun _ => pure a) p := by
  refine ⟨0, ?_⟩
  rintro ⟨q, hq⟩
  cases hq

/-- A list of computations finishes if each of them does in every state that the
ones before it may leave. -/
theorem Finishes.mapM {f : Nat → α → OptionT CheckM β} {inv : Progress → Prop} {as : List α}
    (hf : ∀ a, Deepens (f · a))
    (hkeeps : ∀ d a, Keeps inv (fun _ => True) (fun _ => True) (f d a).run)
    (h : ∀ a ∈ as, ∀ q, inv q → Finishes (f · a) q) (hp : inv p) :
    Finishes (fun d => as.mapM (f d)) p := by
  induction as generalizing p with
  | nil => exact finishes_pure [] p
  | cons a rest ih =>
    have hdeepens : Deepens fun d => rest.mapM (f d) := fun d => Extends.mapM (fun a => hf a d) rest
    have hcons : ∀ d, (a :: rest).mapM (f d) = (do
        let b ← f d a
        let bs ← rest.mapM (f d)
        pure (b :: bs)) := fun d => List.mapM_cons
    refine Finishes.congr ?_ fun d => (hcons d).symm
    refine Finishes.bind (hf a) (fun b d => (hdeepens d).bind fun _ => .refl _)
      (h a List.mem_cons_self p hp) fun d b q hrun => ?_
    have hq : inv q := ((hkeeps d a).of_ok hp hrun).2
    refine Finishes.bind hdeepens (fun _ _ => .refl _) ?_ fun _ bs s _ => finishes_pure _ s
    exact ih (fun x hx => h x (List.mem_cons_of_mem a hx)) hq

end CheckM

open CheckM

namespace Checker

variable {c : Checker} {Γ : Context} {e : Term}

/-- **Normalization is reduction and normalization of the parts.** -/
theorem normalizeWithin_succ (d : Nat) (e : Term) (Γ : Context) :
    c.normalizeWithin (d + 1) e Γ = (do
      let w ← liftM (c.whnf e Γ)
      let parts ← (w.parts Γ).mapM fun x => c.normalizeWithin d x.2 x.1
      pure (w.rebuild parts)) := by
  rw [normalizeWithin]
  refine bind_congr fun w => ?_
  cases w with
  | bind k n t b => simp [Term.parts, Term.rebuild]
  | app f a =>
    simp only [Term.parts, Term.rebuild, List.mapM_cons, List.mapM_map, bind_assoc, pure_bind]
    rfl
  | pair a b => simp [Term.parts, Term.rebuild]
  | proj k p => simp [Term.parts, Term.rebuild]
  | bvar | fvar | sort | const | letE => simp [Term.parts, Term.rebuild]

/-- More nesting changes no result of normalization that is not cut short, by induction on the
nesting. -/
theorem deepens_normalizeWithin (e : Term) (Γ : Context) :
    Deepens (c.normalizeWithin · e Γ) := by
  intro d
  induction d generalizing e Γ with
  | zero =>
    intro p hp
    exact absurd ⟨p, rfl⟩ hp
  | succ d ih =>
    dsimp only
    rw [normalizeWithin_succ, normalizeWithin_succ]
    refine (Extends.refl _).bind fun w => ?_
    exact (Extends.mapM (fun x => ih x.2 x.1) (w.parts Γ)).bind fun _ => .refl _

/-- **Normalization finishes if it finishes on the parts** of the weak-head normal
form, in every state that parts may leave. -/
theorem finishes_of_parts {p : Progress}
    (h : ∀ w q, c.whnf e Γ p = .ok w q → ∃ inv : Progress → Prop, inv q ∧
      (∀ d x Δ, Keeps inv (fun _ => True) (fun _ => True) (c.normalizeWithin d x Δ).run) ∧
      ∀ x ∈ w.parts Γ, ∀ s, inv s → Finishes (c.normalizeWithin · x.2 x.1) s) :
    Finishes (c.normalizeWithin · e Γ) p := by
  let rest (d : Nat) (w : Term) : OptionT CheckM Term := do
    let parts ← (w.parts Γ).mapM fun x => c.normalizeWithin d x.2 x.1
    pure (w.rebuild parts)
  have hparts (w : Term) :
      Deepens fun d => (w.parts Γ).mapM fun x => c.normalizeWithin d x.2 x.1 :=
    fun d => Extends.mapM (fun x : Context × Term => deepens_normalizeWithin x.2 x.1 d) _
  have hrest (w : Term) : Deepens (rest · w) := fun d => (hparts w d).bind fun _ => .refl _
  have hfinishes : Finishes (fun d => (liftM (c.whnf e Γ) : OptionT CheckM Term) >>= rest d) p := by
    refine Finishes.bind (fun _ => .refl _) hrest ⟨0, ?_⟩ fun d w q hrun => ?_
    · rintro ⟨q, hq⟩
      obtain ⟨w, s, -, hw⟩ := EStateM.bind_eq_ok.mp hq
      cases hw
    · obtain ⟨w', s, hwhnf, hw⟩ := EStateM.bind_eq_ok.mp hrun
      cases hw
      obtain ⟨inv, hq, hkeeps, hpart⟩ := h w q hwhnf
      refine Finishes.bind (hparts w) (fun _ _ => .refl _) ?_ fun _ parts s _ => finishes_pure _ s
      exact Finishes.mapM (fun x : Context × Term => deepens_normalizeWithin x.2 x.1)
        (fun d x => hkeeps d x.2 x.1) hpart hq
  obtain ⟨d, hd⟩ := hfinishes
  refine ⟨d + 1, ?_⟩
  dsimp only
  rw [normalizeWithin_succ]
  exact hd

end Checker

end TypeTheory
