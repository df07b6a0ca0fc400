import TypeTheory.Term.Basic

/-!
# Equality up to display names

`Term.nameless` forgets the display names of all binders, and `Term.AlphaEq`
compares what is left: structure, indices, free variables, constants and
levels. The decision walks both terms at once, without building the nameless
ones, and stops where two parts share an address or differ in their hashes.
-/

namespace TypeTheory

namespace Term

/-- The term with every binder anonymous. -/
def nameless : Term → Term
  | .bvar i => .bvar i
  | .fvar n => .fvar n
  | .sort l => .sort l
  | .const n ls => .const n ls
  | .app f a => .app f.nameless a.nameless
  | .bind k _ t b => .bind k .anonymous t.nameless b.nameless
  | .letE _ t v b => .letE .anonymous t.nameless v.nameless b.nameless
  | .pair a b => .pair a.nameless b.nameless
  | .proj k p => .proj k p.nameless

/-- Two terms are alpha-equal when they differ in display names only. -/
def AlphaEq (a b : Term) : Prop :=
  a.nameless = b.nameless

theorem AlphaEq.refl (a : Term) : AlphaEq a a := rfl

/-- The hash does not depend on display names. -/
@[simp] theorem hash_nameless (e : Term) : e.nameless.hash = e.hash := by
  induction e <;> simp_all [nameless, hash]

/-- Alpha-equal terms have one hash. -/
theorem AlphaEq.hash_eq {a b : Term} (h : AlphaEq a b) : a.hash = b.hash := by
  rw [← hash_nameless a, ← hash_nameless b, h]

/-- Decides a reflexive relation of terms, by address where it can. -/
@[inline] def decideByAddress {r : Term → Term → Prop} (refl : ∀ e, r e e) (a b : Term)
    (compare : Unit → Decidable (r a b)) : Decidable (r a b) :=
  let answer := withPtrEq a b (fun _ => @decide _ (compare ()))
    fun h => @decide_eq_true _ (compare ()) (h ▸ refl a)
  match h : answer with
  | true => isTrue (@of_decide_eq_true _ (compare ()) h)
  | false => isFalse (@of_decide_eq_false _ (compare ()) h)

/-- Decides alpha-equality, by address and by hash where it can. -/
protected def decAlphaEq (a b : Term) : Decidable (AlphaEq a b) :=
  decideByAddress AlphaEq.refl a b fun _ => decideByHash a b AlphaEq.hash_eq fun _ =>
    match a with
    | .bvar i => match b with
      | .bvar j => decidable_of_iff (i = j) (by simp [AlphaEq, nameless])
      | .fvar _ | .sort _ | .const .. | .app .. | .bind .. | .letE .. | .pair .. | .proj .. =>
        isFalse nofun
    | .fvar m => match b with
      | .fvar n => decidable_of_iff (m = n) (by simp [AlphaEq, nameless])
      | .bvar _ | .sort _ | .const .. | .app .. | .bind .. | .letE .. | .pair .. | .proj .. =>
        isFalse nofun
    | .sort l => match b with
      | .sort r => decidable_of_iff (l = r) (by simp [AlphaEq, nameless])
      | .bvar _ | .fvar _ | .const .. | .app .. | .bind .. | .letE .. | .pair .. | .proj .. =>
        isFalse nofun
    | .const m ls => match b with
      | .const n rs => decidable_of_iff (m = n ∧ ls = rs) (by simp [AlphaEq, nameless])
      | .bvar _ | .fvar _ | .sort _ | .app .. | .bind .. | .letE .. | .pair .. | .proj .. =>
        isFalse nofun
    | .app f x => match b with
      | .app g y =>
        have := decideBoth (f.decAlphaEq g) fun _ => x.decAlphaEq y
        decidable_of_iff (AlphaEq f g ∧ AlphaEq x y) (by simp [AlphaEq, nameless])
      | .bvar _ | .fvar _ | .sort _ | .const .. | .bind .. | .letE .. | .pair .. | .proj .. =>
        isFalse nofun
    | .bind k _ t x => match b with
      | .bind k' _ u y =>
        have := decideBoth (decEq k k') fun _ =>
          decideBoth (t.decAlphaEq u) fun _ => x.decAlphaEq y
        decidable_of_iff (k = k' ∧ AlphaEq t u ∧ AlphaEq x y) (by simp [AlphaEq, nameless])
      | .bvar _ | .fvar _ | .sort _ | .const .. | .app .. | .letE .. | .pair .. | .proj .. =>
        isFalse nofun
    | .letE _ t v x => match b with
      | .letE _ u w y =>
        have := decideBoth (t.decAlphaEq u) fun _ =>
          decideBoth (v.decAlphaEq w) fun _ => x.decAlphaEq y
        decidable_of_iff (AlphaEq t u ∧ AlphaEq v w ∧ AlphaEq x y) (by simp [AlphaEq, nameless])
      | .bvar _ | .fvar _ | .sort _ | .const .. | .app .. | .bind .. | .pair .. | .proj .. =>
        isFalse nofun
    | .pair x y => match b with
      | .pair u v =>
        have := decideBoth (x.decAlphaEq u) fun _ => y.decAlphaEq v
        decidable_of_iff (AlphaEq x u ∧ AlphaEq y v) (by simp [AlphaEq, nameless])
      | .bvar _ | .fvar _ | .sort _ | .const .. | .app .. | .bind .. | .letE .. | .proj .. =>
        isFalse nofun
    | .proj k x => match b with
      | .proj k' y =>
        have := decideBoth (decEq k k') fun _ => x.decAlphaEq y
        decidable_of_iff (k = k' ∧ AlphaEq x y) (by simp [AlphaEq, nameless])
      | .bvar _ | .fvar _ | .sort _ | .const .. | .app .. | .bind .. | .letE .. | .pair .. =>
        isFalse nofun

instance : DecidableRel AlphaEq := Term.decAlphaEq

end Term

end TypeTheory
